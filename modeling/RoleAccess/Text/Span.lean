/-!
Ranges of code points, and runs of capitals that lie at one distance from their small letters.
-/

set_option autoImplicit false
set_option relaxedAutoImplicit false

namespace RoleAccess.Text

/-- The code points from `first` to `last`, both included. -/
structure Span where
  first : Nat
  last : Nat
deriving DecidableEq, Repr

namespace Span

def contains (s : Span) (n : Nat) : Bool := s.first ≤ n && n ≤ s.last

end Span

/-- Every `step`-th code point from `first` to `last`, each with a partner `shift` further on. -/
structure CaseRun where
  first : Nat
  last : Nat
  step : Nat
  shift : Int
deriving DecidableEq, Repr

namespace CaseRun

def contains (r : CaseRun) (n : Nat) : Bool :=
  r.first ≤ n && n ≤ r.last && (n - r.first) % r.step == 0

def partner (r : CaseRun) (n : Nat) : Nat := (n + r.shift).toNat

end CaseRun

end RoleAccess.Text
