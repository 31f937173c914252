import RoleAccess.Role.Resolver

/-!
The audit of a roster: for each role, in ascending order of the ids, the parents that are missing,
and then a loop above it, or else why its ancestors cannot be resolved.
-/

set_option autoImplicit false
set_option relaxedAutoImplicit false

namespace RoleAccess

inductive Finding where
  | missingParent (id parent : String)
  | loop (id : String) (chain : List String)
  | unresolved (id : String) (error : RoleError)
deriving DecidableEq, Repr

namespace Finding

/-- A missing parent is only a warning. -/
def isError : Finding → Bool
  | .missingParent _ _ => false
  | .loop _ _ => true
  | .unresolved _ _ => true

def line : Finding → String
  | .missingParent id parent => "WARN  " ++ id ++ ": parent '" ++ parent ++ "' does not exist"
  | .loop id chain => "ERROR " ++ id ++ ": cycle " ++ String.intercalate " -> " chain
  | .unresolved id error => "ERROR " ++ id ++ ": " ++ error.message

end Finding

namespace Roster

/-- The entries in the list of parents of a role that name no role. -/
def missingParents (r : Roster) (id : String) : List String :=
  ((r.find? id).elim [] Role.parents).filter (!r.contains ·)

end Roster

namespace Resolver

/-- What is wrong above a role, if anything is: a loop, or else a failure to resolve it. -/
def ancestryFault (r : Resolver) (now : Nat) (id : String) (cache : Attached) :
    Except RoleError (Option Finding × Attached) := do
  match ← r.source.findCycle id with
  | some chain => return (some (.loop id chain), cache)
  | none =>
    match r.parentRoles now id none cache with
    | (.ok _, cache) => return (none, cache)
    | (.error e, cache) => return (some (.unresolved id e), cache)

/-- The findings about the roles with the given ids. -/
def inspect (r : Resolver) (now : Nat) : List String → Attached → Except RoleError (List Finding)
  | [], _ => .ok []
  | id :: rest, cache => do
    let (fault, cache) ← r.ancestryFault now id cache
    let later ← r.inspect now rest cache
    return (r.source.roster.missingParents id).map (.missingParent id) ++ fault.toList ++ later

def audit (r : Resolver) (now : Nat) (cache : Attached) : Except RoleError (List Finding) :=
  r.inspect now r.source.roster.ids cache

end Resolver

end RoleAccess
