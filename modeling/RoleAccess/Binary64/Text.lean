import RoleAccess.Binary64.Shortest

/-!
Numbers in writing: the shortest digits, set with a point or with an exponent.
-/

set_option autoImplicit false
set_option relaxedAutoImplicit false

namespace RoleAccess.Binary64

/-- The choices of one way to write numbers. -/
structure Style where
  /-- The positions of the point, counted from the first digit, that are written out; outside them
  an exponent is used. Without bounds the point is always written out. -/
  positional : Option (Int × Int)
  /-- Whether an integer keeps a point and a zero. -/
  pointZero : Bool
  /-- Whether an exponent that is not negative gets a plus. -/
  exponentPlus : Bool
  /-- Which of two equally near shortest decimals is written. -/
  tie : Tie
  nan : String
  infinity : String

namespace Style

def zeros (n : Nat) : List Char := List.replicate n '0'

/-- The digits with the point after the first `point` of them. -/
def withPoint (style : Style) (digits : List Char) (point : Int) : List Char :=
  if point ≤ 0 then '0' :: '.' :: (zeros (-point).toNat ++ digits)
  else
    let n := point.toNat
    if digits.length ≤ n then
      digits ++ zeros (n - digits.length) ++ (if style.pointZero then ['.', '0'] else [])
    else digits.take n ++ '.' :: digits.drop n

/-- One digit, the others after a point, and the exponent of the first digit. -/
def withExponent (style : Style) (digits : List Char) (exponent : Int) : List Char :=
  let mantissa :=
    match digits with
    | [] => []
    | [d] => [d]
    | d :: rest => d :: '.' :: rest
  let sign := if exponent < 0 then ['-'] else if style.exponentPlus then ['+'] else []
  mantissa ++ 'e' :: (sign ++ Nat.toDigits 10 exponent.natAbs)

def writeMagnitude (style : Style) (x : Binary64) : List Char :=
  if x.isZero then if style.pointZero then ['0', '.', '0'] else ['0']
  else
    let d := shortest style.tie x
    let digits := Nat.toDigits 10 d.digits
    let point : Int := d.exponent + digits.length
    match style.positional with
    | none => style.withPoint digits point
    | some (least, greatest) =>
      if least ≤ point && point ≤ greatest then style.withPoint digits point
      else style.withExponent digits (point - 1)

def write (style : Style) (x : Binary64) : String :=
  if x.isNaN then style.nan
  else
    let sign := if x.isNegative then "-" else ""
    sign ++ if x.isFinite then String.ofList (style.writeMagnitude x) else style.infinity

end Style

/-- Plain text: the point always written out, integers without one, ties upwards. -/
def plain : Style := ⟨none, false, false, .up, "NaN", "inf"⟩

end RoleAccess.Binary64
