import RoleAccess.Fault
import RoleAccess.Text.Blank
import RoleAccess.Text.Lowercase
import RoleAccess.Text.Cut

/-!
Permission strings have up to three segments: a resource, an action and a scope. The wildcard token
stands for any one segment, and the globstar token, as the whole string, for every permission.
A dialect fixes the separator, the two tokens and whether case counts.
-/

set_option autoImplicit false
set_option relaxedAutoImplicit false

namespace RoleAccess

structure Tokens where
  separator : String := ":"
  wildcard : String := "*"
  globstar : String := "**"
  caseSensitive : Bool := false
deriving DecidableEq, Repr

/-- Why tokens cannot be told apart; of several causes the first. -/
def Tokens.fault? (t : Tokens) : Option SettingFault :=
  if t.separator.isEmpty then some .emptySeparator
  else if t.wildcard.isEmpty || t.globstar.isEmpty then some .emptyToken
  else if t.wildcard = t.globstar then some .equalTokens
  else if Text.occursIn t.wildcard.toList t.separator.toList then
    some (.wildcardInSeparator t.separator t.wildcard)
  else none

structure Dialect extends Tokens where
  sound : toTokens.fault? = none
deriving Repr

/-- A permission string in its segments, with the string as it was written. An absent action counts
as a wildcard, and an absent scope as no restriction. -/
structure Pattern where
  resource : String
  action : String
  scope : Option String
  isResourceWildcard : Bool
  isActionWildcard : Bool
  isScopeWildcard : Bool
  isGlobstar : Bool
  written : String
deriving DecidableEq, Repr

/-- The scope, if there is one and it is not a wildcard. -/
def Pattern.concreteScope (p : Pattern) : Option String :=
  if p.isScopeWildcard then none else p.scope

namespace Dialect

def ofTokens (t : Tokens) : Except ConfigError Dialect :=
  match h : t.fault? with
  | none => .ok ⟨t, h⟩
  | some fault => .error (.invalid fault)

/-- The tokens a reader expects: a colon, one star and two stars. -/
def standard (caseSensitive : Bool) : Dialect :=
  ⟨⟨":", "*", "**", caseSensitive⟩, by cases caseSensitive <;> decide⟩

instance : Inhabited Dialect := ⟨standard false⟩

theorem separator_ne_nil (d : Dialect) : d.separator.toList ≠ [] := by
  intro h
  have hs := d.sound
  have he : d.separator.isEmpty = true := by
    rw [String.toList_eq_nil_iff.mp h]
    rfl
  simp [Tokens.fault?, he] at hs

/-- Without white space at the ends, and in lowercase where case does not count. -/
def fold (d : Dialect) (s : String) : String :=
  if d.caseSensitive then Text.trimmed s else Text.lowered (Text.trimmed s)

def isToken (d : Dialect) (segment : String) : Bool :=
  segment == d.wildcard || segment == d.globstar

/-- The grant of everything. -/
def everything (d : Dialect) (written : String) : Pattern :=
  ⟨d.wildcard, d.wildcard, none, true, true, true, true, written⟩

def ofSegments (d : Dialect) (resource action : String) (scope : Option String)
    (written : String) : Pattern :=
  ⟨resource, action, scope, d.isToken resource, d.isToken action, scope.any d.isToken, false,
    written⟩

/-- The resource, the action and the scope of a folded string. The scope holds whatever follows
the second separator. -/
def segments (d : Dialect) (folded : List Char) : List Char × List Char × List Char :=
  match Text.cut d.separator.toList folded with
  | none => (folded, [], [])
  | some (resource, rest) =>
    match Text.cut d.separator.toList rest with
    | none => (resource, rest, [])
    | some (action, scope) => (resource, action, scope)

/-- Reads a permission string. Every string has a reading; `validate` tells the well-formed ones. -/
def parse (d : Dialect) (permission : String) : Pattern :=
  let folded := d.fold permission
  if folded = d.globstar then d.everything permission
  else
    let (resource, action, scope) := d.segments folded.toList
    d.ofSegments (String.ofList resource)
      (if action.isEmpty then d.wildcard else String.ofList action)
      (if scope.isEmpty then none else some (String.ofList scope)) permission

/-- Whether a pattern grants a permission. A pattern without a concrete scope grants every scope; a
concrete scope asks for the same one. -/
def admits (pattern permission : Pattern) : Bool :=
  pattern.isGlobstar ||
    ((pattern.isResourceWildcard || permission.isResourceWildcard ||
        pattern.resource == permission.resource) &&
      (pattern.isActionWildcard || permission.isActionWildcard ||
        pattern.action == permission.action) &&
      match pattern.concreteScope with
      | none => true
      | some scope => permission.scope == some scope)

def grants (d : Dialect) (pattern permission : String) : Bool :=
  admits (d.parse pattern) (d.parse permission)

def grantsAny (d : Dialect) (patterns : List String) (permission : String) : Bool :=
  patterns.any fun pattern ↦ admits (d.parse pattern) (d.parse permission)

/-- The permission string of given segments. -/
def create (d : Dialect) (resource action : String) : Option String → String
  | none => resource ++ d.separator ++ action
  | some scope => resource ++ d.separator ++ action ++ d.separator ++ scope

def createResourceWildcard (d : Dialect) (action : String) : String :=
  d.create d.wildcard action none

def createActionWildcard (d : Dialect) (resource : String) : String :=
  d.create resource d.wildcard none

/-- Folds a permission string, and gives a bare resource the wildcard action. -/
def normalize (d : Dialect) (permission : String) : String :=
  let folded := d.fold permission
  if folded = d.globstar || Text.occursIn d.separator.toList folded.toList then folded
  else d.createActionWildcard folded

/-- The number of concrete segments. -/
def specificity (p : Pattern) : Nat :=
  if p.isGlobstar then 0
  else (!p.isResourceWildcard).toNat + (!p.isActionWildcard).toNat + p.concreteScope.isSome.toNat

def specificityOf (d : Dialect) (permission : String) : Nat := specificity (d.parse permission)

/-- Most specific first; strings of equal specificity stay in order. -/
def sortBySpecificity (d : Dialect) (permissions : List String) : List String :=
  permissions.mergeSort fun a b ↦ d.specificityOf b ≤ d.specificityOf a

def isSegmentChar (c : Char) : Bool :=
  ('a' ≤ c && c ≤ 'z') || ('A' ≤ c && c ≤ 'Z') || ('0' ≤ c && c ≤ '9') || c == '_' || c == '-'

/-- A segment of a well-formed permission: a token, or letters, digits, underscores and hyphens. -/
def isSegment (d : Dialect) (segment : List Char) : Bool :=
  d.isToken (String.ofList segment) || (!segment.isEmpty && segment.all isSegmentChar)

def segmentLimit : Nat := 3

/-- Why a permission string is not well formed. -/
def fault? (d : Dialect) (permission : String) : Option PermissionFault :=
  let trimmed := Text.trimmed permission
  if trimmed.isEmpty then some .empty
  else if trimmed = d.globstar then none
  else
    let parts := Text.splitAll d.separator.toList d.separator_ne_nil trimmed.toList
    if segmentLimit < parts.length then some .tooManySegments
    else (parts.find? (!d.isSegment ·)).map fun part ↦ .badSegment (String.ofList part)

def validate (d : Dialect) (permission : String) : Except ConfigError Unit :=
  match d.fault? permission with
  | none => .ok ()
  | some fault => .error (.invalidPermission permission fault)

def isValid (d : Dialect) (permission : String) : Bool := (d.fault? permission).isNone

end Dialect

end RoleAccess
