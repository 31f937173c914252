import RoleAccess.Toml.Basic
import RoleAccess.Toml.Quoted

/-!
Numbers, truth values and dates in TOML. Underscores may stand between the digits of a number.
-/

set_option autoImplicit false
set_option relaxedAutoImplicit false

namespace RoleAccess.Toml

open Text

/-- The digits of a text in which single underscores may stand between digits. -/
def ungroup? (ok : Char → Bool) : List Char → Option (List Char)
  | [] => none
  | [c] => if ok c then some [c] else none
  | c :: '_' :: rest => if ok c then (ungroup? ok rest).map (c :: ·) else none
  | c :: rest => if ok c then (ungroup? ok rest).map (c :: ·) else none

/-- A sign, if there is one, and what follows. -/
def splitSign : List Char → Bool × List Char
  | '-' :: rest => (true, rest)
  | '+' :: rest => (false, rest)
  | s => (false, s)

/-- Decimal digits without a superfluous zero in front. -/
def wholeDigits? (s : List Char) : Option (List Char) := do
  let digits ← ungroup? isDigit s
  if 1 < digits.length && digits.head? == some '0' then none else some digits

def decimalInt? (s : List Char) : Option Toml := do
  let (negative, s) := splitSign s
  let n : Int := numberOf 10 (← wholeDigits? s)
  return .int (if negative then -n else n)

/-- A digit to a base of at most sixteen. -/
def isDigitOf (base : Nat) (c : Char) : Bool := (digitValue? c).any (· < base)

/-- An integer to another base, after its mark. -/
def basedInt? : List Char → Option Toml
  | '0' :: mark :: s => do
    let base ←
      if mark = 'x' then some 16 else if mark = 'o' then some 8 else if mark = 'b' then some 2
      else none
    return .int (numberOf base (← ungroup? (isDigitOf base) s))
  | _ => none

def isExponentMark (c : Char) : Bool := c == 'e' || c == 'E'

/-- The parts before and after the first character of a kind. -/
def cutAt (mark : Char → Bool) (s : List Char) : List Char × Option (List Char) :=
  match s.dropWhile (!mark ·) with
  | [] => (s, none)
  | _ :: after => (s.takeWhile (!mark ·), some after)

def exponent? (s : List Char) : Option Int := do
  let (negative, s) := splitSign s
  let n : Int := numberOf 10 (← ungroup? isDigit s)
  return if negative then -n else n

/-- A decimal number with a fraction or an exponent. -/
def decimalFloat? (s : List Char) : Option Toml := do
  let (negative, s) := splitSign s
  let (mantissa, power) := cutAt isExponentMark s
  let (whole, fraction) := cutAt (· == '.') mantissa
  if power.isNone && fraction.isNone then none
  else
    let whole ← wholeDigits? whole
    let fraction ← fraction.elim (some []) (ungroup? isDigit)
    let power ← power.elim (some 0) exponent?
    let x := Binary64.ofDecimal negative (numberOf 10 (whole ++ fraction))
      (power - fraction.length)
    return if x.isFinite then .float x else .tooLarge

/-- A number that is not finite. -/
def specialFloat? (s : List Char) : Option Toml :=
  let (negative, name) := splitSign s
  if name = "inf".toList then some (.float (Binary64.infinity negative))
  else if name = "nan".toList then
    some (.float (if negative then Binary64.nan.negate else Binary64.nan))
  else none

def bool? (s : List Char) : Option Toml :=
  if s = "true".toList then some (.bool true)
  else if s = "false".toList then some (.bool false)
  else none

/-- The value that a word without quotes stands for. -/
def scalar? (s : List Char) : Option Toml :=
  (bool? s).or <| (decimalInt? s).or <| (basedInt? s).or <| (decimalFloat? s).or <|
    (specialFloat? s).or <| (datetime? s).map .datetime

def isAtomChar (c : Char) : Bool :=
  isDigit c || ('a' ≤ c && c ≤ 'z') || ('A' ≤ c && c ≤ 'Z') || c == '+' || c == '-' || c == '_' ||
    c == '.' || c == ':'

def spanAtom (s : List Char) : List Char × List Char :=
  (s.takeWhile isAtomChar, s.dropWhile isAtomChar)

/-- Reads a value without quotes. A date may be followed by a space and a time. -/
def readScalar (s : List Char) : Option (Toml × List Char) :=
  let (word, rest) := spanAtom s
  let (word, rest) :=
    match readDate word, rest with
    | some (_, []), ' ' :: d :: more =>
      if isDigit d then
        let (time, rest) := spanAtom (d :: more)
        (word ++ ' ' :: time, rest)
      else (word, rest)
    | _, _ => (word, rest)
  (scalar? word).map fun v ↦ (v, rest)

end RoleAccess.Toml
