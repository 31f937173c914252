import RoleAccess.Fault
import RoleAccess.Role.Roster

/-!
Where roles are read from: a roster, some of whose answers may fail.
-/

set_option autoImplicit false
set_option relaxedAutoImplicit false

namespace RoleAccess

/-- A roster that does not answer for some ids, be it for the role or for its children. -/
structure RoleSource where
  roster : Roster
  failedFinds : List String := []
  failedChildren : List String := []

namespace RoleSource

def find? (s : RoleSource) (id : String) : Except RoleError (Option Role) :=
  if s.failedFinds.contains id then .error (.source ("find " ++ id)) else .ok (s.roster.find? id)

/-- The roles that list the id among their parents, in ascending order of their ids. -/
def children (s : RoleSource) (id : String) : Except RoleError (List Role) :=
  if s.failedChildren.contains id then .error (.source ("children " ++ id))
  else .ok (s.roster.children id)

/-- A role that has to be there. -/
def require (s : RoleSource) (id : String) : Except RoleError Role := do
  match ← s.find? id with
  | some role => return role
  | none => throw (.notFound id)

theorem mem_roles_of_find? {s : RoleSource} {id : String} {role : Role}
    (h : s.find? id = .ok (some role)) : role ∈ s.roster.roles := by
  unfold find? at h
  split at h
  · cases h
  · rw [Except.ok.injEq] at h
    rwa [Roster.mem_roles_iff, Roster.id_of_find? h]

theorem id_of_find? {s : RoleSource} {id : String} {role : Role}
    (h : s.find? id = .ok (some role)) : role.id = id := by
  unfold find? at h
  split at h
  · cases h
  · exact Roster.id_of_find? (Except.ok.inj h)

theorem mem_roles_of_children {s : RoleSource} {id : String} {children : List Role}
    (h : s.children id = .ok children) : ∀ child ∈ children, child ∈ s.roster.roles := by
  unfold RoleSource.children at h
  split at h
  · cases h
  · rw [Except.ok.injEq] at h
    intro child hc
    rw [← h, Roster.mem_children_iff] at hc
    exact Roster.mem_roles_iff.mpr hc.1

end RoleSource

end RoleAccess
