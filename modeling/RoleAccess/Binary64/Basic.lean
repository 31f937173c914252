/-!
Double-precision numbers by their 64 bits: a sign, eleven bits of exponent, fifty-two of fraction.
A finite number is an integer times a power of two, and every ratio of integers has a nearest one.
-/

set_option autoImplicit false
set_option relaxedAutoImplicit false

namespace RoleAccess

structure Binary64 where
  bits : UInt64
deriving DecidableEq, Repr, Inhabited

namespace Binary64

def isNegative (x : Binary64) : Bool := Nat.pow 2 63 ≤ x.bits.toNat

def exponentField (x : Binary64) : Nat := x.bits.toNat / Nat.pow 2 52 % Nat.pow 2 11

def fractionField (x : Binary64) : Nat := x.bits.toNat % Nat.pow 2 52

def isFinite (x : Binary64) : Bool := x.exponentField != 2047

def isNaN (x : Binary64) : Bool := !x.isFinite && x.fractionField != 0

def isZero (x : Binary64) : Bool := x.exponentField == 0 && x.fractionField == 0

/-- Equality of numbers: the two zeros are equal, and not-a-number equals nothing. -/
def same (x y : Binary64) : Bool := !x.isNaN && (x.bits == y.bits || (x.isZero && y.isZero))

/-- The integer of a finite number, without its sign. -/
def coefficient (x : Binary64) : Nat :=
  if x.exponentField = 0 then x.fractionField else Nat.pow 2 52 + x.fractionField

/-- The power of two that the integer of a finite number is multiplied by. -/
def scale (x : Binary64) : Int := (max x.exponentField 1 : Nat) - 1075

def ofFields (negative : Bool) (magnitude : Nat) : Binary64 :=
  ⟨UInt64.ofNat ((if negative then Nat.pow 2 63 else 0) + magnitude)⟩

def zero (negative : Bool) : Binary64 := ofFields negative 0

def infinity (negative : Bool) : Binary64 := ofFields negative (2047 * Nat.pow 2 52)

def nan : Binary64 := ofFields false (2047 * Nat.pow 2 52 + Nat.pow 2 51)

/-- The integer nearest to a ratio; a half goes to the even neighbour. -/
def nearest (num den : Nat) : Nat :=
  let q := num / den
  let r := num % den
  if 2 * r < den then q
  else if den < 2 * r then q + 1
  else if q % 2 = 0 then q else q + 1

/-- The ratio divided by a power of two, as a ratio. -/
def rescale (num den : Nat) (power : Int) : Nat × Nat :=
  if 0 ≤ power then (num, den * Nat.pow 2 power.toNat) else (num * Nat.pow 2 (-power).toNat, den)

/-- The power of two by which a ratio has to be divided to leave an integer of fifty-three bits,
or the least power that a number can have. -/
def scaleOf (num den : Nat) : Int :=
  let guess : Int := (num.log2 : Int) - den.log2 - 52
  let (n, d) := rescale num den guess
  max (if n < d * Nat.pow 2 52 then guess - 1 else guess) (-1074)

/-- The number nearest to a ratio; past the largest one it is infinite. -/
def ofRatio (negative : Bool) (num den : Nat) : Binary64 :=
  if num = 0 then zero negative
  else
    let power := scaleOf num den
    let (n, d) := rescale num den power
    let magnitude := (power + 1074).toNat * Nat.pow 2 52 + nearest n d
    if 2047 * Nat.pow 2 52 ≤ magnitude then infinity negative else ofFields negative magnitude

def ofNat (n : Nat) : Binary64 := ofRatio false n 1

/-- The number nearest to an integer times a power of ten. -/
def ofDecimal (negative : Bool) (digits : Nat) (exponent : Int) : Binary64 :=
  if digits = 0 then zero negative
  else
    let size : Int := (Nat.toDigits 10 digits).length
    if 400 < exponent + size then infinity negative
    else if exponent + size < -400 then zero negative
    else if 0 ≤ exponent then ofRatio negative (digits * Nat.pow 10 exponent.toNat) 1
    else ofRatio negative digits (Nat.pow 10 (-exponent).toNat)

/-- A finite number without its sign, as a ratio. -/
def ratio (x : Binary64) : Nat × Nat :=
  if 0 ≤ x.scale then (x.coefficient * Nat.pow 2 x.scale.toNat, 1)
  else (x.coefficient, Nat.pow 2 (-x.scale).toNat)

def negate (x : Binary64) : Binary64 :=
  ofFields (!x.isNegative) (x.bits.toNat % Nat.pow 2 63)

/-- The product of two finite numbers that are not negative, rounded. -/
def times (x y : Binary64) : Binary64 :=
  let (a, b) := x.ratio
  let (c, d) := y.ratio
  ofRatio false (a * c) (b * d)

/-- The quotient of two finite numbers that are not negative, rounded. -/
def quotient (x y : Binary64) : Binary64 :=
  let (a, b) := x.ratio
  let (c, d) := y.ratio
  ofRatio false (a * d) (b * c)

/-- The nearest integer to a finite number without its sign, a half going up. -/
def roundedMagnitude (x : Binary64) : Nat :=
  let (num, den) := x.ratio
  (2 * num + den) / (2 * den)

end Binary64

end RoleAccess
