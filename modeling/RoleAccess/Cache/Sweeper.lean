/-!
A sweeper cleans up once in a period, first at the moment it is started. It wakes only while time
passes.
-/

set_option autoImplicit false
set_option relaxedAutoImplicit false

namespace RoleAccess

/-- The next moment of sweeping, and the time between sweeps. -/
structure Sweeper where
  due : Nat
  period : Nat
  period_pos : 0 < period
deriving Repr

namespace Sweeper

/-- Starts sweeping. There is no sweeper without a period. -/
def start? (now period : Nat) : Option Sweeper :=
  if h : 0 < period then some ⟨now, period, h⟩ else none

/-- The number of sweeps up to an instant. -/
def countUntil (s : Sweeper) (horizon : Nat) : Nat :=
  if horizon < s.due then 0 else (horizon - s.due) / s.period + 1

/-- The moments of sweeping up to an instant. -/
def moments (s : Sweeper) (horizon : Nat) : List Nat :=
  (List.range (s.countUntil horizon)).map fun i ↦ s.due + i * s.period

/-- Sweeps at every moment up to an instant. -/
def sweep {σ : Type} (s : Sweeper) (clean : σ → Nat → σ) (start : σ) (horizon : Nat) :
    σ × Sweeper :=
  ((s.moments horizon).foldl clean start,
    { s with due := s.due + s.countUntil horizon * s.period })

end Sweeper

/-- A state that is swept while time passes. -/
structure Swept (σ : Type) where
  state : σ
  now : Nat := 0
  sweeper : Option Sweeper := none

namespace Swept

variable {σ : Type}

/-- Lets the clock jump, without time for sweeping. -/
def advance (w : Swept σ) (delay : Nat) : Swept σ := { w with now := w.now + delay }

/-- Starts a sweeper in place of the one before, and tells whether one runs. -/
def startSweeper (w : Swept σ) (period : Nat) : Bool × Swept σ :=
  let sweeper := Sweeper.start? w.now period
  (sweeper.isSome, { w with sweeper })

/-- Lets time pass. -/
def sleep (w : Swept σ) (clean : σ → Nat → σ) (delay : Nat) : Swept σ :=
  let horizon := w.now + delay
  match w.sweeper with
  | none => { w with now := horizon }
  | some s =>
    let (state, s) := s.sweep clean w.state horizon
    { state, now := horizon, sweeper := some s }

/-- Stops the sweeper, and tells whether there was one. -/
def stopSweeper (w : Swept σ) : Bool × Swept σ :=
  (w.sweeper.isSome, { w with sweeper := none })

end Swept

end RoleAccess
