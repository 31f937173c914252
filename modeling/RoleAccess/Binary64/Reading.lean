import RoleAccess.Binary64.Basic
import RoleAccess.Text.Digits
import RoleAccess.Text.Lowercase

/-!
Reading numbers from their own text: decimal digits with a point and an exponent, or the name of
what is not finite, in letters of either case.
-/

set_option autoImplicit false
set_option relaxedAutoImplicit false

namespace RoleAccess.Binary64

open Text

/-- A sign, if there is one, and what follows. -/
def splitSign : List Char → Bool × List Char
  | '-' :: rest => (true, rest)
  | '+' :: rest => (false, rest)
  | s => (false, s)

/-- The exponent that a text ends with; without one it is zero. -/
def readExponent : List Char → Option Int
  | [] => some 0
  | mark :: s =>
    if mark != 'e' && mark != 'E' then none
    else
      let (negative, digits) := splitSign s
      if digits.isEmpty || !digits.all isDigit then none
      else
        let n : Int := numberOf 10 digits
        some (if negative then -n else n)

/-- The number that digits, a point and an exponent stand for. On one side of the point there may be
no digits. -/
def readDecimal (negative : Bool) (s : List Char) : Option Binary64 := do
  let (whole, s) := spanDigits s
  let (fraction, s) :=
    match s with
    | '.' :: rest => spanDigits rest
    | _ => ([], s)
  if whole.isEmpty && fraction.isEmpty then none
  else
    let exponent ← readExponent s
    return ofDecimal negative (numberOf 10 (whole ++ fraction)) (exponent - fraction.length)

/-- The number nearest to what a text says; past the largest one it is infinite. -/
def read? (text : String) : Option Binary64 :=
  let (negative, s) := splitSign text.toList
  let name := lowered (String.ofList s)
  if name = "inf" || name = "infinity" then some (infinity negative)
  else if name = "nan" then some nan
  else readDecimal negative s

end RoleAccess.Binary64
