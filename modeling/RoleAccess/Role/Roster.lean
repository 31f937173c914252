import Std.Data.TreeMap
import RoleAccess.Role.Basic

/-!
A roster holds roles by their ids, one role for each id, in ascending order of the ids.
-/

set_option autoImplicit false
set_option relaxedAutoImplicit false

namespace RoleAccess

structure Roster where
  byId : Std.TreeMap String Role
  keyed : ∀ (id : String) (role : Role), byId[id]? = some role → role.id = id

namespace Roster

def empty : Roster := ⟨∅, by simp⟩

instance : Inhabited Roster := ⟨empty⟩

def find? (r : Roster) (id : String) : Option Role := r.byId[id]?

def contains (r : Roster) (id : String) : Bool := (r.find? id).isSome

def ids (r : Roster) : List String := r.byId.keys

def roles (r : Roster) : List Role := r.byId.toList.map Prod.snd

def size (r : Roster) : Nat := r.byId.size

/-- Adds a role or replaces the one with its id. -/
def insert (r : Roster) (role : Role) : Roster where
  byId := r.byId.insert role.id role
  keyed := by
    intro id found h
    rw [Std.TreeMap.getElem?_insert] at h
    split at h
    next he =>
      cases h
      exact Std.LawfulEqCmp.eq_of_compare he
    next => exact r.keyed id found h

def erase (r : Roster) (id : String) : Roster where
  byId := r.byId.erase id
  keyed := by
    intro other found h
    rw [Std.TreeMap.getElem?_erase] at h
    split at h
    next => cases h
    next => exact r.keyed other found h

def ofList (roles : List Role) : Roster := roles.foldl insert empty

/-- Appends a parent to a role that does not list it yet. -/
def addParent (r : Roster) (child parent : String) : Roster :=
  match r.find? child with
  | none => r
  | some role => if role.parents.contains parent then r else r.insert (role.withParent parent)

/-- The roles that list the id among their parents. -/
def children (r : Roster) (id : String) : List Role := r.roles.filter (·.parents.contains id)

theorem find?_insert (r : Roster) (role : Role) (id : String) :
    (r.insert role).find? id = if role.id = id then some role else r.find? id := by
  simp [find?, insert, Std.TreeMap.getElem?_insert]

theorem find?_erase (r : Roster) (gone id : String) :
    (r.erase gone).find? id = if gone = id then none else r.find? id := by
  simp [find?, erase, Std.TreeMap.getElem?_erase]

theorem id_of_find? {r : Roster} {id : String} {role : Role} (h : r.find? id = some role) :
    role.id = id := r.keyed id role h

theorem mem_roles_iff {r : Roster} {role : Role} :
    role ∈ r.roles ↔ r.find? role.id = some role := by
  simp only [roles, List.mem_map, Prod.exists, exists_eq_right, find?,
    Std.TreeMap.mem_toList_iff_getElem?_eq_some]
  constructor
  · rintro ⟨id, h⟩
    rwa [r.keyed id role h]
  · exact fun h ↦ ⟨role.id, h⟩

theorem mem_children_iff {r : Roster} {id : String} {role : Role} :
    role ∈ r.children id ↔ r.find? role.id = some role ∧ id ∈ role.parents := by
  simp [children, mem_roles_iff]

end Roster

end RoleAccess
