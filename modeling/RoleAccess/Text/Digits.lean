/-!
Digits of a text, decimal and hexadecimal, and the numbers they stand for.
-/

set_option autoImplicit false
set_option relaxedAutoImplicit false

namespace RoleAccess.Text

def isDigit (c : Char) : Bool := '0' ≤ c && c ≤ '9'

/-- The value of a digit to bases up to sixteen, in letters of either case. -/
def digitValue? (c : Char) : Option Nat :=
  if isDigit c then some (c.toNat - 48)
  else if 'a' ≤ c && c ≤ 'f' then some (c.toNat - 87)
  else if 'A' ≤ c && c ≤ 'F' then some (c.toNat - 55)
  else none

def digitValue (c : Char) : Nat := (digitValue? c).getD 0

/-- The number that digits to a base stand for. -/
def numberOf (base : Nat) (digits : List Char) : Nat :=
  digits.foldl (fun n c ↦ base * n + digitValue c) 0

/-- The number of hexadecimal digits, if they are. -/
def hexNumber? (digits : List Char) : Option Nat :=
  digits.foldlM (fun n c ↦ (digitValue? c).map (16 * n + ·)) 0

/-- The decimal digits at the start of a text, and what follows. -/
def spanDigits (s : List Char) : List Char × List Char := (s.takeWhile isDigit, s.dropWhile isDigit)

end RoleAccess.Text
