import RoleAccess.Binary64.Basic
import RoleAccess.Toml.Datetime

/-!
The values of a TOML document.
-/

set_option autoImplicit false
set_option relaxedAutoImplicit false

namespace RoleAccess

/-- A value of a document. A table has each key once, in the order of the document. -/
inductive Toml where
  | string (s : String)
  | int (n : Int)
  | float (x : Binary64)
  /-- A number with a fraction or an exponent that no float can hold. A document may have one, but
  whoever looks at it refuses it. -/
  | tooLarge
  | bool (b : Bool)
  | datetime (d : Toml.Datetime)
  | array (items : List Toml)
  | table (fields : List (String × Toml))
deriving Repr, Inhabited

namespace Toml

mutual

/-- Whether all integers in a value lie in a range and no other number is too large. -/
def numbersWithin (low high : Int) : Toml → Bool
  | .int n => low ≤ n && n ≤ high
  | .tooLarge => false
  | .array items => itemsWithin low high items
  | .table fields => fieldsWithin low high fields
  | _ => true

def itemsWithin (low high : Int) : List Toml → Bool
  | [] => true
  | v :: rest => numbersWithin low high v && itemsWithin low high rest

def fieldsWithin (low high : Int) : List (String × Toml) → Bool
  | [] => true
  | (_, v) :: rest => numbersWithin low high v && fieldsWithin low high rest

end

end Toml

end RoleAccess
