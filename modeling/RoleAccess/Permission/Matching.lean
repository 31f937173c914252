import RoleAccess.Permission.Basic
import RoleAccess.Permission.Dialect

/-!
Which held permissions grant a required one. Besides resource and action the scope has to admit the
request, where the scope of all covers the scope of the owner, and every condition has to hold in
the context. What is not known never grants.
-/

set_option autoImplicit false
set_option relaxedAutoImplicit false

namespace RoleAccess

/-- Granted to the owner of a resource only. -/
def ownScope : String := "own"

/-- Granted over every resource, those of the owner included. -/
def allScope : String := "all"

namespace Dialect

/-- Whether an action leaves every action open: it is blank or a token. -/
def isOpenAction (d : Dialect) (action : String) : Bool :=
  let action := Text.trimmed action
  action.isEmpty || d.isToken action

/-- Whether a permission has the table form of the grant of everything. -/
def isSuperadmin (d : Dialect) (p : Permission) : Bool :=
  Text.trimmed p.resource == d.globstar && d.isOpenAction p.action && p.scope.isNone

/-- The pattern of a held permission: its fields in writing, read as a permission string. -/
def candidate (d : Dialect) (p : Permission) : Pattern :=
  if d.isSuperadmin p then d.parse d.globstar
  else d.parse (d.create p.resource p.action p.scope)

/-- Whether a granted scope admits a required one. -/
def scopeAdmits (d : Dialect) (required granted : Option String) (context : Option Context) :
    Bool :=
  match required with
  | none => true
  | some required =>
    if required = d.wildcard then true
    else
      match granted with
      | none => false
      | some granted =>
        if granted = d.wildcard then true
        else if required = ownScope && granted = ownScope then context.any Context.isOwner
        else if required = ownScope && granted = allScope then true
        else granted == required

/-- Whether one field of the context equals the expected value. -/
def conditionHolds (context : Context) (condition : String × Value) : Bool :=
  (Fields.find? context.attributes condition.1).any (·.same condition.2)

/-- Whether every condition of a permission holds; without a context none does. -/
def conditionsHold (p : Permission) (context : Option Context) : Bool :=
  match p.conditions with
  | none => true
  | some conditions =>
    conditions.isEmpty ||
      match context with
      | none => false
      | some context => conditions.all (conditionHolds context)

/-- Whether a held permission grants a required one. -/
def satisfies (d : Dialect) (required : Pattern) (p : Permission) (context : Option Context) :
    Bool :=
  let held := d.candidate p
  (held.isGlobstar ||
      ((held.isResourceWildcard || required.isResourceWildcard ||
          held.resource == required.resource) &&
        (held.isActionWildcard || required.isActionWildcard || held.action == required.action) &&
        d.scopeAdmits required.concreteScope held.scope context)) &&
    conditionsHold p context

/-- How specific a held permission is: concrete segments weigh most, then conditions. -/
def score (held : Pattern) (p : Permission) : Nat :=
  (if held.isGlobstar then 0
    else
      (if held.isResourceWildcard then 0 else 10) + (if held.isActionWildcard then 0 else 10) +
        (if held.concreteScope.isSome then 5 else 0)) +
    (if p.hasConditions then 3 else 0)

def reason (held : Pattern) : Reason :=
  if held.isGlobstar then .superadmin
  else if held.isResourceWildcard && held.isActionWildcard then .fullWildcard
  else if held.isResourceWildcard then .resourceWildcard
  else if held.isActionWildcard then .actionWildcard
  else .exactMatch

/-- A pattern in writing. -/
def render (d : Dialect) (held : Pattern) : String :=
  if held.isGlobstar then d.globstar else d.create held.resource held.action held.scope

def scoreOf (d : Dialect) (p : Permission) : Nat := score (d.candidate p) p

def grantOf (d : Dialect) (p : Permission) : Grant :=
  let held := d.candidate p
  ⟨p, d.render held, score held p, reason held⟩

/-- The better of two decisions; the earlier one unless the later scores more. -/
def better (best : Decision) (next : Grant) : Decision :=
  match best with
  | none => some next
  | some held => if held.score < next.score then some next else some held

/-- The grant of highest score, the first one on a tie. -/
def bestMatch (d : Dialect) (required : String) (held : List Permission)
    (context : Option Context) : Decision :=
  held.foldl
    (fun best p ↦ if d.satisfies (d.parse required) p context then better best (d.grantOf p)
      else best)
    none

/-- Whether some held permission grants the required one. -/
def permits (d : Dialect) (required : String) (held : List Permission)
    (context : Option Context) : Bool :=
  held.any fun p ↦ d.satisfies (d.parse required) p context

def permitsAny (d : Dialect) (required : List String) (held : List Permission)
    (context : Option Context) : Bool :=
  required.any fun r ↦ d.permits r held context

def permitsAll (d : Dialect) (required : List String) (held : List Permission)
    (context : Option Context) : Bool :=
  required.all fun r ↦ d.permits r held context

/-- Every held permission that grants the required one, the highest score first. -/
def matching (d : Dialect) (required : String) (held : List Permission)
    (context : Option Context) : List Permission :=
  (held.filter fun p ↦ d.satisfies (d.parse required) p context).mergeSort
    fun p q ↦ d.scoreOf q ≤ d.scoreOf p

/-- The best grant, or the refusal as an error. -/
def require (d : Dialect) (required : String) (held : List Permission)
    (context : Option Context) : Except Denial Grant :=
  match d.bestMatch required held context with
  | some grant => .ok grant
  | none => .error ⟨required, Reason.noMatch.message⟩

end Dialect

end RoleAccess
