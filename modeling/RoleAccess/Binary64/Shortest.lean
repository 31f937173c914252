import RoleAccess.Binary64.Basic

/-!
The fewest decimal digits that read back. A finite number stands for all the reals that round to
it. Among the decimal grids of one digit, two digits and so on, the first grid with a point in that
interval is taken, and on it the point nearest to the number. Where two points are equally near, a
rule for ties decides.
-/

set_option autoImplicit false
set_option relaxedAutoImplicit false

namespace RoleAccess.Binary64

/-- A decimal: `digits` times ten to the `exponent`. -/
structure Decimal where
  digits : Nat
  exponent : Int
deriving DecidableEq, Repr

/-- Which of two equally near points is taken: the greater one, or the one with an even last
digit. -/
inductive Tie where
  | up
  | even
deriving DecidableEq, Repr

/-- The reals that round to a number, as multiples of a unit: the number itself and both ends. -/
structure Basin where
  low : Nat
  centre : Nat
  high : Nat
  closed : Bool
  unit : Int
deriving Repr

/-- The ends lie half way to the neighbours, and belong to the basin of an even coefficient. Below
a power of two the neighbour is nearer by half. -/
def basin (x : Binary64) : Basin :=
  let m := x.coefficient
  let near := x.fractionField = 0 && 1 < x.exponentField
  ⟨4 * m - (if near then 1 else 2), 4 * m, 4 * m + 2, m % 2 = 0, x.scale - 2⟩

/-- Compares `a` units of two to the `power` with `b` units of ten to the `exponent`. -/
def compareScaled (a : Nat) (power : Int) (b : Nat) (exponent : Int) : Ordering :=
  let left := a * Nat.pow 2 power.toNat * Nat.pow 10 (-exponent).toNat
  let right := b * Nat.pow 10 exponent.toNat * Nat.pow 2 (-power).toNat
  compare left right

def Basin.holds (s : Basin) (d : Decimal) : Bool :=
  let inner (o : Ordering) (wanted : Ordering) := o == wanted || (s.closed && o == .eq)
  inner (compareScaled s.low s.unit d.digits d.exponent) .lt &&
    inner (compareScaled s.high s.unit d.digits d.exponent) .gt

/-- The number of units of ten to the `exponent` in the centre, rounded down, and how what is left
over compares with half a unit. -/
def Basin.floorAt (s : Basin) (exponent : Int) : Nat × Ordering :=
  let num := s.centre * Nat.pow 2 s.unit.toNat * Nat.pow 10 (-exponent).toNat
  let den := Nat.pow 10 exponent.toNat * Nat.pow 2 (-s.unit).toNat
  (num / den, compare (2 * (num % den)) den)

/-- Whether the point above `down` is to be taken, where both are in the basin. -/
def Tie.goesUp (tie : Tie) (down : Nat) : Ordering → Bool
  | .lt => false
  | .gt => true
  | .eq =>
    match tie with
    | .up => true
    | .even => down % 2 == 1

/-- The point of one grid that stands for the number, if the grid has one. -/
def Basin.pick (s : Basin) (tie : Tie) (exponent : Int) : Option Decimal :=
  let (down, left) := s.floorAt exponent
  let below : Decimal := ⟨down, exponent⟩
  let above : Decimal := ⟨down + 1, exponent⟩
  match s.holds below, s.holds above with
  | true, true => some (if tie.goesUp down left then above else below)
  | true, false => some below
  | false, true => some above
  | false, false => none

/-- The exponent of the leading digit of the centre, found from an estimate that is off by less
than two. -/
def Basin.leading (s : Basin) : Int :=
  let estimate : Int := ((s.centre.log2 : Int) + s.unit) * 30103 / 100000
  let fits (e : Int) := 1 ≤ (s.floorAt e).1
  if fits (estimate + 1) then estimate + 1 else if fits estimate then estimate else estimate - 1

def Basin.search (s : Basin) (tie : Tie) (exponent : Int) : Nat → Option Decimal
  | 0 => none
  | n + 1 => (s.pick tie exponent).or (s.search tie (exponent - 1) n)

/-- Without the zeros at its end. -/
def Decimal.strip (d : Decimal) : Nat → Decimal
  | 0 => d
  | n + 1 => if d.digits % 10 = 0 then Decimal.strip ⟨d.digits / 10, d.exponent + 1⟩ n else d

/-- The shortest decimal that reads back as a finite number other than zero. -/
def shortest (tie : Tie) (x : Binary64) : Decimal :=
  let s := basin x
  match s.search tie s.leading 18 with
  | some d => d.strip 20
  | none => ⟨x.coefficient, 0⟩

end RoleAccess.Binary64
