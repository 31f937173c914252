import RoleAccess.Value.Basic

/-!
Records and values. A record is written as an object with a field for each part. It is read from
such an object, where unknown fields do not count, or from a list of its parts in their order, which
must not be longer than the record.
-/

set_option autoImplicit false
set_option relaxedAutoImplicit false

namespace RoleAccess

/-- The parts of a record that were given, by the position of the part. -/
abbrev Parts := List (Option Value)

namespace Value

/-- The given parts of a record with these field names. -/
def parts? (names : List String) : Value → Option Parts
  | .object fields => some (names.map fun name ↦ Fields.find? fields name)
  | .array items =>
    if names.length < items.length then none
    else some (items.map some ++ List.replicate (names.length - items.length) none)
  | _ => none

def asString? : Value → Option String
  | .string s => some s
  | _ => none

def asBool? : Value → Option Bool
  | .bool b => some b
  | _ => none

def asFields? : Value → Option Fields
  | .object fields => some fields
  | _ => none

/-- A natural number of at most sixty-four bits. -/
def asSize? : Value → Option Nat
  | .int n => if 0 ≤ n && n < Nat.pow 2 64 then some n.toNat else none
  | _ => none

def asList? {α : Type} (read : Value → Option α) : Value → Option (List α)
  | .array items => items.mapM read
  | _ => none

end Value

namespace Parts

/-- A part that has to be there. -/
def required {α β : Type} (read : β → Option α) : Option β → Option α
  | none => none
  | some v => read v

/-- A part that stands for `fallback` when it is absent. -/
def defaulted {α β : Type} (read : β → Option α) (fallback : α) : Option β → Option α
  | none => some fallback
  | some v => read v

/-- A part that may be absent. -/
def given {α β : Type} (read : β → Option α) : Option β → Option (Option α)
  | none => some none
  | some v => (read v).map some

/-- A part that may be absent or null. -/
def optional {α : Type} (read : Value → Option α) : Option Value → Option (Option α)
  | none => some none
  | some .null => some none
  | some v => (read v).map some

end Parts

/-- A field that is left out when it has no value. -/
def Fields.whenSome (name : String) : Option Value → List (String × Value)
  | none => []
  | some v => [(name, v)]

end RoleAccess
