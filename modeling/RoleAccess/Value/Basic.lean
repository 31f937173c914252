import RoleAccess.Binary64.Basic

/-!
The values that conditions, attributes, metadata and cache entries hold. An integer is never equal
to a floating number. The fields of an object are kept in ascending order of their names, so that
two objects with the same fields are written the same way.
-/

set_option autoImplicit false
set_option relaxedAutoImplicit false

namespace RoleAccess

inductive Value where
  | null
  | bool (b : Bool)
  | int (n : Int)
  | float (x : Binary64)
  | string (s : String)
  | array (items : List Value)
  | object (fields : List (String × Value))
deriving Repr, Inhabited

/-- Named values, each name once. -/
abbrev Fields := List (String × Value)

namespace Fields

def find? (fields : Fields) (name : String) : Option Value := List.lookup name fields

/-- Adds a field or replaces the one of that name; ascending order is kept. -/
def insert (name : String) (value : Value) : Fields → Fields
  | [] => [(name, value)]
  | (other, held) :: rest =>
    if name = other then (name, value) :: rest
    else if name < other then (name, value) :: (other, held) :: rest
    else (other, held) :: insert name value rest

/-- In ascending order; of two fields with one name the later counts. -/
def ofList (fields : List (String × Value)) : Fields :=
  fields.foldl (fun kept field ↦ insert field.1 field.2 kept) []

end Fields

namespace Value

mutual

/-- Equality of values: floating numbers are compared as numbers, and all else by its parts. -/
def same : Value → Value → Bool
  | .null, .null => true
  | .bool a, .bool b => a == b
  | .int a, .int b => a == b
  | .float a, .float b => a.same b
  | .string a, .string b => a == b
  | .array a, .array b => sameItems a b
  | .object a, .object b => sameFields a b
  | _, _ => false

def sameItems : List Value → List Value → Bool
  | [], [] => true
  | a :: as, b :: bs => a.same b && sameItems as bs
  | _, _ => false

def sameFields : List (String × Value) → List (String × Value) → Bool
  | [], [] => true
  | (k, a) :: as, (l, b) :: bs => k == l && a.same b && sameFields as bs
  | _, _ => false

end

/-- A floating number as a value; what is not finite becomes null. -/
def ofBinary64 (x : Binary64) : Value := if x.isFinite then .float x else .null

end Value

end RoleAccess
