import Mathlib.Algebra.Order.Floor.Div
import RoleAccess.Proofs.Cache.LeaseSteps

/-!
The time that a key has left, as one integer. It is counted in whole milliseconds before it is
rounded up to seconds. What is less than a millisecond gets lost there, so a time that goes beyond
a whole second by less than that is rounded down (`EndsWithinMilli`), and every other one up
(`Remaining.secondsCode_expires`). A key may thus have time left and yet none by its number
(`Expiry.secondsCode_of_nanosecond`).
-/

set_option autoImplicit false
set_option relaxedAutoImplicit false

namespace RoleAccess

/-- The time goes beyond a whole number of seconds, but by less than a millisecond. -/
def EndsWithinMilli (left : Nat) : Prop :=
  0 < left % nanosPerSecond ∧ left % nanosPerSecond < nanosPerMilli

instance (left : Nat) : Decidable (EndsWithinMilli left) :=
  inferInstanceAs (Decidable (_ ∧ _))

/-- A time in seconds, rounded up unless it goes beyond a whole number of them by less than a
millisecond. -/
def wholeSeconds (left : Nat) : Nat :=
  if EndsWithinMilli left then left / nanosPerSecond else left ⌈/⌉ nanosPerSecond

theorem wholeSeconds_eq (left : Nat) : wholeSeconds left = (left / nanosPerMilli + 999) / 1000 := by
  unfold wholeSeconds
  rw [Nat.ceilDiv_eq_add_pred_div]
  by_cases h : EndsWithinMilli left
  · rw [if_pos h]
    unfold EndsWithinMilli nanosPerSecond nanosPerMilli at h
    unfold nanosPerSecond nanosPerMilli
    omega
  · rw [if_neg h]
    unfold EndsWithinMilli nanosPerSecond nanosPerMilli at h
    unfold nanosPerSecond nanosPerMilli
    omega

theorem wholeSeconds_eq_zero_iff {left : Nat} : wholeSeconds left = 0 ↔ left < nanosPerMilli := by
  rw [wholeSeconds_eq]
  unfold nanosPerMilli
  omega

namespace Remaining

theorem secondsCode_expires (left : Nat) :
    (expires left).secondsCode = min (wholeSeconds left : Int) maxSeconds := by
  rw [wholeSeconds_eq, secondsCode]
  push_cast
  rfl

theorem secondsCode_expires_nonneg (left : Nat) : 0 ≤ (expires left).secondsCode := by
  rw [secondsCode_expires]
  exact le_min (Int.natCast_nonneg _) (Int.natCast_nonneg _)

theorem secondsCode_eq_neg_two_iff {r : Remaining} : r.secondsCode = -2 ↔ r = .notFound := by
  cases r with
  | expires left =>
    have hnonneg := secondsCode_expires_nonneg left
    simp only [reduceCtorEq, iff_false]
    omega
  | never => decide
  | notFound => decide

theorem secondsCode_eq_neg_one_iff {r : Remaining} : r.secondsCode = -1 ↔ r = .never := by
  cases r with
  | expires left =>
    have hnonneg := secondsCode_expires_nonneg left
    simp only [reduceCtorEq, iff_false]
    omega
  | never => decide
  | notFound => decide

theorem secondsCode_eq_zero_iff {r : Remaining} :
    r.secondsCode = 0 ↔ ∃ left, r = .expires left ∧ left < nanosPerMilli := by
  cases r with
  | expires left =>
    have hmax : 0 < maxSeconds := by decide
    simp only [expires.injEq, exists_eq_left', ← wholeSeconds_eq_zero_iff, secondsCode_expires]
    omega
  | never => simp [secondsCode]
  | notFound => simp [secondsCode]

end Remaining

namespace Expiry

variable {e : Expiry} {now : Nat} {key : String}

theorem remaining_eq (e : Expiry) (now : Nat) (key : String) : e.remaining now key =
    match e.plain key with
    | none => .notFound
    | some lease =>
      match lease.deadline with
      | none => .never
      | some deadline => if deadline < now then .notFound else .expires (deadline - now) := by
  unfold remaining
  change (match e.plain key with | none => _ | some lease => _) = _
  cases e.plain key with
  | none => rfl
  | some lease =>
    obtain ⟨deadline, ttl, sliding⟩ := lease
    cases deadline <;> simp [Lease.isOver]

theorem remaining_eq_expires_iff {left : Nat} : e.remaining now key = .expires left ↔
    ∃ deadline, e.plain.deadline? key = some deadline ∧ now ≤ deadline ∧ left = deadline - now := by
  rw [remaining_eq]
  unfold Leases.deadline?
  grind

theorem remaining_eq_never_iff : e.remaining now key = .never ↔
    ∃ lease, e.plain key = some lease ∧ lease.deadline = none := by
  rw [remaining_eq]
  grind

theorem remaining_eq_notFound_iff : e.remaining now key = .notFound ↔
    e.plain key = none ∨ ∃ deadline, e.plain.deadline? key = some deadline ∧ deadline < now := by
  rw [remaining_eq]
  unfold Leases.deadline?
  grind

/-- The number of a key is -2 just where there is no such key or its deadline has passed, and -1
just where it never expires. Otherwise it is the time left in seconds, rounded up from all of its
nanoseconds unless it ends within a millisecond of a whole second, and held at the largest number
that fits. It is 0 just where less than a millisecond is left. -/
theorem secondsCode_remaining (e : Expiry) (now : Nat) (key : String) :
    ((e.remaining now key).secondsCode = -2 ↔
        e.plain key = none ∨
          ∃ deadline, e.plain.deadline? key = some deadline ∧ deadline < now) ∧
      ((e.remaining now key).secondsCode = -1 ↔
        ∃ lease, e.plain key = some lease ∧ lease.deadline = none) ∧
      (∀ deadline, e.plain.deadline? key = some deadline → now ≤ deadline →
        (e.remaining now key).secondsCode =
          min (wholeSeconds (deadline - now) : Int) Remaining.maxSeconds) ∧
      ((e.remaining now key).secondsCode = 0 ↔
        ∃ deadline, e.plain.deadline? key = some deadline ∧ now ≤ deadline ∧
          deadline < now + nanosPerMilli) := by
  refine ⟨?_, ?_, fun deadline hdeadline hnow ↦ ?_, ?_⟩
  · rw [Remaining.secondsCode_eq_neg_two_iff, remaining_eq_notFound_iff]
  · rw [Remaining.secondsCode_eq_neg_one_iff, remaining_eq_never_iff]
  · have hleft := remaining_eq_expires_iff.mpr ⟨deadline, hdeadline, hnow, rfl⟩
    rw [hleft, Remaining.secondsCode_expires]
  · rw [Remaining.secondsCode_eq_zero_iff]
    simp only [remaining_eq_expires_iff]
    constructor
    · rintro ⟨left, ⟨deadline, hdeadline, hnow, rfl⟩, hless⟩
      exact ⟨deadline, hdeadline, hnow, Nat.sub_lt_iff_lt_add' hnow |>.mp hless⟩
    · rintro ⟨deadline, hdeadline, hnow, hless⟩
      exact ⟨_, ⟨deadline, hdeadline, hnow, rfl⟩, Nat.sub_lt_iff_lt_add' hnow |>.mpr hless⟩

/-- Nine seconds and four fifths are told as ten. -/
theorem secondsCode_remaining_rounded :
    (({} : Expiry).set 0 "a" (some (10 * nanosPerSecond)) false).plain.deadline? "a" =
        some (10 * nanosPerSecond) ∧
      200 * nanosPerMilli ≤ 10 * nanosPerSecond ∧
      ((({} : Expiry).set 0 "a" (some (10 * nanosPerSecond)) false).remaining
        (200 * nanosPerMilli) "a").secondsCode = 10 := by
  obtain ⟨-, -, hcode, -⟩ := secondsCode_remaining
    (({} : Expiry).set 0 "a" (some (10 * nanosPerSecond)) false) (200 * nanosPerMilli) "a"
  have hdeadline :
      (({} : Expiry).set 0 "a" (some (10 * nanosPerSecond)) false).plain.deadline? "a" =
        some (10 * nanosPerSecond) := by rfl
  exact ⟨hdeadline, by decide, (hcode _ hdeadline (by decide)).trans (by decide)⟩

/-- A key that is alive for one more nanosecond is told to have no second left, although its time
rounded up is one, and for one nanosecond above a second it is told to have one and not two. -/
theorem secondsCode_of_nanosecond :
    (({} : Expiry).set 0 "a" (some 1) false).remaining 0 "a" = .expires 1 ∧
      1 ⌈/⌉ nanosPerSecond = 1 ∧
      ((({} : Expiry).set 0 "a" (some 1) false).remaining 0 "a").secondsCode = 0 ∧
      (({} : Expiry).set 0 "a" (some (nanosPerSecond + 1)) false).remaining 0 "a" =
        .expires (nanosPerSecond + 1) ∧
      (nanosPerSecond + 1) ⌈/⌉ nanosPerSecond = 2 ∧
      ((({} : Expiry).set 0 "a" (some (nanosPerSecond + 1)) false).remaining 0 "a").secondsCode =
        1 := by
  decide

end Expiry

end RoleAccess
