import RoleAccess.Text.Digits
import RoleAccess.Value.Basic

/-!
Numbers in JSON text. An integer that fits sixty-four bits stays one. Any other number is computed
from the digits that fit sixty-four bits, scaled by one power of ten, so that it is rounded once
for the digits and once for the scaling.
-/

set_option autoImplicit false
set_option relaxedAutoImplicit false

namespace RoleAccess.Value

open Text

/-- The largest significand that is kept exactly. -/
def significandLimit : Nat := Nat.pow 2 64 - 1

/-- Takes digits while the significand fits; the rest of the digits are only counted. -/
def takeSignificand (start : Nat) : List Char → Nat × Nat × Nat
  | [] => (start, 0, 0)
  | c :: rest =>
    let next := 10 * start + digitValue c
    if significandLimit < next then (start, 0, rest.length + 1)
    else
      let (significand, taken, left) := takeSignificand next rest
      (significand, taken + 1, left)

/-- The significand scaled by a power of ten in steps of at most 308; none if it is too large. -/
def scaleDecimal (f : Binary64) (exponent : Int) : Nat → Option Binary64
  | 0 => some f
  | n + 1 =>
    if exponent.natAbs ≤ 308 then
      let power := Binary64.ofDecimal false 1 exponent.natAbs
      if 0 ≤ exponent then
        let product := f.times power
        if product.isFinite then some product else none
      else some (f.quotient power)
    else if f.isZero then some f
    else if 0 ≤ exponent then none
    else scaleDecimal (f.quotient (Binary64.ofDecimal false 1 308)) (exponent + 308) n

/-- The exponent with its sign; past the bound only its sign counts. -/
def exponentLimit : Nat := Nat.pow 2 31 - 1

/-- The value of a number with these parts; none if it is too large. -/
def ofParts (negative : Bool) (whole fraction : List Char) (exponent : Option Int) :
    Option Value :=
  let (significand, _, dropped) := takeSignificand 0 whole
  if dropped = 0 && fraction.isEmpty && exponent.isNone then
    if !negative then some (.int significand)
    else if significand = 0 then some (.float (Binary64.zero true))
    else if significand ≤ Nat.pow 2 63 then some (.int (-significand))
    else some (.float (Binary64.ofNat significand).negate)
  else
    let (significand, taken, _) := takeSignificand significand fraction
    let power := exponent.getD 0
    if exponentLimit < power.natAbs then
      if significand = 0 || power < 0 then some (.float (Binary64.zero negative)) else none
    else
      (scaleDecimal (Binary64.ofNat significand) (dropped - taken + power) 64).map
        fun f ↦ .float (if negative then f.negate else f)

/-- Reads the part after an exponent mark. -/
def readExponent (s : List Char) : Option (Int × List Char) :=
  let (negative, s) :=
    match s with
    | '-' :: rest => (true, rest)
    | '+' :: rest => (false, rest)
    | _ => (false, s)
  match spanDigits s with
  | ([], _) => none
  | (digits, rest) =>
    let n : Int := numberOf 10 digits
    some (if negative then -n else n, rest)

/-- Reads a number at the start of a text. -/
def readNumber (s : List Char) : Option (Value × List Char) := do
  let (negative, s) :=
    match s with
    | '-' :: rest => (true, rest)
    | _ => (false, s)
  let (whole, s) ←
    match s with
    | '0' :: rest => if (rest.head?.map isDigit).getD false then none else some (['0'], rest)
    | _ => if (spanDigits s).1.isEmpty then none else some (spanDigits s)
  let (fraction, s) ←
    match s with
    | '.' :: rest => if (spanDigits rest).1.isEmpty then none else some (spanDigits rest)
    | _ => some ([], s)
  let (exponent, s) ←
    match s with
    | 'e' :: rest => (readExponent rest).map fun (n, rest) ↦ (some n, rest)
    | 'E' :: rest => (readExponent rest).map fun (n, rest) ↦ (some n, rest)
    | _ => some (none, s)
  let v ← ofParts negative whole fraction exponent
  return (v, s)

end RoleAccess.Value
