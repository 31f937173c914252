import RoleAccess.Permission.Basic

/-!
Roles, each with its permissions and the ids of the roles it inherits from, and trees of roles.
-/

set_option autoImplicit false
set_option relaxedAutoImplicit false

namespace RoleAccess

/-- A role. An inactive role grants nothing of its own. -/
structure Role where
  id : String
  permissions : List Permission := []
  parents : List String := []
  active : Bool := true
deriving Repr, Inhabited

namespace Role

def withPermission (r : Role) (p : Permission) : Role :=
  { r with permissions := r.permissions ++ [p] }

def withParent (r : Role) (id : String) : Role := { r with parents := r.parents ++ [id] }

def inactive (r : Role) : Role := { r with active := false }

def hasParents (r : Role) : Bool := !r.parents.isEmpty

end Role

/-- A role and the trees of the roles that inherit from it, with the depth of the root. -/
inductive RoleTree where
  | node (role : Role) (depth : Nat) (children : List RoleTree)
deriving Inhabited

namespace RoleTree

def role : RoleTree → Role
  | .node role _ _ => role

def depth : RoleTree → Nat
  | .node _ depth _ => depth

def children : RoleTree → List RoleTree
  | .node _ _ children => children

mutual

/-- The ids of all nodes, each before those of its children. -/
def ids : RoleTree → List String
  | .node role _ children => role.id :: idsOfAll children

def idsOfAll : List RoleTree → List String
  | [] => []
  | t :: rest => ids t ++ idsOfAll rest

end

/-- The number of nodes. -/
def size (t : RoleTree) : Nat := t.ids.length

mutual

/-- The first subtree whose root has the id. -/
def find? (id : String) : RoleTree → Option RoleTree
  | .node role depth children =>
    if role.id = id then some (.node role depth children) else findAmong? id children

def findAmong? (id : String) : List RoleTree → Option RoleTree
  | [] => none
  | t :: rest => (find? id t).or (findAmong? id rest)

end

end RoleTree

/-- Whether a new parent may be given to a role. -/
inductive EdgeVerdict where
  | valid
  | ownParent (child : String)
  | missingParent (parent : String)
  /-- The parent already inherits from the child, along `path` from parent to child. -/
  | closesCycle (child parent : String) (path : List String)
deriving DecidableEq, Repr

namespace EdgeVerdict

def isValid (v : EdgeVerdict) : Bool := v == .valid

def reason? : EdgeVerdict → Option String
  | .valid => none
  | .ownParent child => some ("Role '" ++ child ++ "' cannot be its own parent")
  | .missingParent parent => some ("Parent role '" ++ parent ++ "' does not exist")
  | .closesCycle child parent path =>
    some ("Adding '" ++ parent ++ "' as a parent of '" ++ child ++ "' would create a cycle: " ++
      String.intercalate " -> " (child :: path))

end EdgeVerdict

end RoleAccess
