import RoleAccess.Role.Ancestry
import RoleAccess.Role.Snapshot

/-!
What a role inherits, read afresh from a source: its ancestors and their permissions, and questions
about single parent edges.
-/

set_option autoImplicit false
set_option relaxedAutoImplicit false

namespace RoleAccess

/-- The permissions with each id once, the first of that id. -/
def firstOfEachId : List Permission → List String → List Permission
  | [], _ => []
  | p :: rest, seen =>
    if seen.contains p.id then firstOfEachId rest seen else p :: firstOfEachId rest (p.id :: seen)

/-- The permissions of a role and of its active ancestors, in the order in which the walk upwards
found these. Of two permissions with one id the earlier counts. -/
def collectPermissions (root : Role) (ancestors : List Role) : List Permission :=
  firstOfEachId ((root :: ancestors.filter Role.active).flatMap Role.permissions) []

namespace RoleSource

/-- The ancestors of a role. -/
def ancestors (s : RoleSource) (mode : WalkMode) (root : Role) : Except RoleError (List Role) := do
  let graph ← s.snapshot root
  let ancestry ← graph.ancestors mode
  return ancestry.ids.filterMap graph.find?

/-- The length of the longest chain of parents above a role. -/
def depth (s : RoleSource) (mode : WalkMode) (id : String) : Except RoleError Nat := do
  let graph ← s.snapshot (← s.require id)
  return (← graph.ancestors mode).height

/-- The first loop above a role. A missing role has none. -/
def findCycle (s : RoleSource) (id : String) : Except RoleError (Option (List String)) := do
  match ← s.find? id with
  | none => return none
  | some root => return (← s.snapshot root).findCycle

def hasCycle (s : RoleSource) (id : String) : Except RoleError Bool := do
  return (← s.findCycle id).isSome

/-- Whether a role inherits from another, directly or not. -/
def isAncestor (s : RoleSource) (ancestor id : String) : Except RoleError Bool := do
  return ((← s.snapshot (← s.require id)).pathTo ancestor).isSome

/-- Whether a parent may be given to a role. -/
def judgeEdge (s : RoleSource) (child parent : String) : Except RoleError EdgeVerdict := do
  if child = parent then return .ownParent child
  match ← s.find? parent with
  | none => return .missingParent parent
  | some role =>
    match (← s.snapshot role).pathTo child with
    | none => return .valid
    | some path => return .closesCycle child parent path

end RoleSource

end RoleAccess
