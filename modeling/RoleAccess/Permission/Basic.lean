import RoleAccess.Value.Basic

/-!
Permissions that a role holds, the context that a request is judged in, and the grounds on which a
permission grants a request.
-/

set_option autoImplicit false
set_option relaxedAutoImplicit false

namespace RoleAccess

/-- A permission as a role holds it. Every condition must equal the attribute of that name. -/
structure Permission where
  id : String
  resource : String
  action : String
  scope : Option String := none
  conditions : Option Fields := none
  metadata : Option Fields := none
deriving Repr, Inhabited

namespace Permission

def withScope (p : Permission) (scope : String) : Permission := { p with scope := some scope }

def withCondition (p : Permission) (name : String) (expected : Value) : Permission :=
  { p with conditions := some (Fields.insert name expected (p.conditions.getD [])) }

def withMetadata (p : Permission) (name : String) (value : Value) : Permission :=
  { p with metadata := some (Fields.insert name value (p.metadata.getD [])) }

def hasConditions (p : Permission) : Bool := p.conditions.any (!·.isEmpty)

/-- The permission as people read it, with colons whatever the dialect. -/
def display (p : Permission) : String :=
  p.resource ++ ":" ++ p.action ++
    match p.scope with
    | none => ""
    | some scope => ":" ++ scope

end Permission

/-- What is known about a request besides the permission it requires. -/
structure Context where
  userId : Option String := none
  ownerId : Option String := none
  attributes : Fields := []
deriving Repr, Inhabited

namespace Context

def withUser (c : Context) (id : String) : Context := { c with userId := some id }

def withOwner (c : Context) (id : String) : Context := { c with ownerId := some id }

def withAttribute (c : Context) (name : String) (value : Value) : Context :=
  { c with attributes := Fields.insert name value c.attributes }

/-- Both ids are known and equal. -/
def isOwner (c : Context) : Bool :=
  match c.userId, c.ownerId with
  | some user, some owner => user == owner
  | _, _ => false

end Context

/-- On what grounds a request is granted, or that it is not. -/
inductive Reason where
  | superadmin
  | fullWildcard
  | resourceWildcard
  | actionWildcard
  | exactMatch
  | noMatch
deriving DecidableEq, Repr, Inhabited

namespace Reason

def message : Reason → String
  | .superadmin => "Superadmin permission (**)"
  | .fullWildcard => "Full wildcard permission (*:*)"
  | .resourceWildcard => "Resource wildcard permission"
  | .actionWildcard => "Action wildcard permission"
  | .exactMatch => "Exact permission match"
  | .noMatch => "No matching permission found"

def name : Reason → String
  | .superadmin => "superadmin"
  | .fullWildcard => "full_wildcard"
  | .resourceWildcard => "resource_wildcard"
  | .actionWildcard => "action_wildcard"
  | .exactMatch => "exact_match"
  | .noMatch => "no_match"

def all : List Reason :=
  [.superadmin, .fullWildcard, .resourceWildcard, .actionWildcard, .exactMatch, .noMatch]

def ofName? (name : String) : Option Reason := all.find? (·.name == name)

theorem ofName?_name (r : Reason) : ofName? r.name = some r := by
  cases r <;> decide

end Reason

/-- The permission that grants a request, its candidate in writing, and how specific it is. -/
structure Grant where
  permission : Permission
  pattern : String
  score : Nat
  reason : Reason
deriving Repr

/-- The outcome for one requirement: its best grant, or none. -/
abbrev Decision := Option Grant

namespace Decision

def score (d : Decision) : Nat := d.elim 0 Grant.score

def reason (d : Decision) : Reason := d.elim .noMatch Grant.reason

end Decision

end RoleAccess
