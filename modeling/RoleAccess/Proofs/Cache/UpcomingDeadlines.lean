import RoleAccess.Proofs.Cache.LeaseRuns
import RoleAccess.Proofs.Role.FirstOccurrences

/-!
The keys that expire soon. The queue is read from its front until the end of the window, past
entries that are stale, repeated or already over. Since it is sorted, nothing behind that end is
missed, and since no deadline is ever set beyond the time that can be told (`Leases.Timely`), a
window without an end that can be told leaves nothing out either. So the keys given are those whose
deadlines lie in the window, each once, the earliest first (`Expiry.expiringWithin_run`).
-/

set_option autoImplicit false
set_option relaxedAutoImplicit false

namespace RoleAccess

namespace Leases

variable {m : Leases} {now : Nat} {key : String}

/-- The keys whose deadlines lie between now and the end of a window, each once, the earliest
first. -/
structure Upcoming (m : Leases) (now window : Nat) (keys : List String) : Prop where
  mem_iff : ∀ key, key ∈ keys ↔
    ∃ deadline, m.deadline? key = some deadline ∧ now ≤ deadline ∧ deadline ≤ now + window
  distinct : keys.Nodup
  ordered : keys.Pairwise fun a b ↦ ∀ first second,
    m.deadline? a = some first → m.deadline? b = some second → first ≤ second

/-! ### Deadlines that can be told -/

/-- Every deadline is an instant that can be told. -/
def Timely (m : Leases) : Prop :=
  ∀ key deadline, m.deadline? key = some deadline → deadline < endOfTime

theorem timely_empty : Timely fun _ ↦ none := fun _ _ h ↦ nomatch h

theorem Timely.erase (h : m.Timely) (key : String) : Timely (Function.update m key none) :=
  fun other deadline hd ↦ h other deadline (deadline?_erase.mp hd).2

theorem Timely.update (h : m.Timely) (key : String) {lease : Lease}
    (hlease : ∀ deadline, lease.deadline = some deadline → deadline < endOfTime) :
    Timely (Function.update m key (some lease)) := by
  intro other deadline hd
  rw [deadline?_update] at hd
  split at hd
  · exact hlease deadline hd
  · exact h other deadline hd

theorem Timely.granted (h : m.Timely) (key : String) (now : Nat) (ttl : Option Nat)
    (sliding : Bool) : Timely (Function.update m key (some (.granted now ttl sliding))) := by
  refine h.update key fun deadline hd ↦ ?_
  obtain ⟨delay, -, hafter⟩ := Option.bind_eq_some_iff.mp hd
  exact (Lease.dueAt_eq_some_iff.mp hafter).2

theorem Timely.renewed (h : m.Timely) {lease : Lease} (halive : m.Alive now key lease) :
    Timely (Function.update m key (some (lease.renewed now))) := by
  by_cases hsliding : lease.sliding = true
  · rw [Lease.renewed, if_pos hsliding]
    exact h.granted key now lease.ttl lease.sliding
  · rw [Lease.renewed, if_neg hsliding, ← halive.1, Function.update_eq_self]
    exact h

theorem Timely.took {left : Leases} {limit : Nat} {gone : List Expiration} (h : m.Timely)
    (htook : m.Took now limit gone left) : left.Timely :=
  fun key deadline hd ↦ h key deadline (htook.deadline?_of_left hd)

end Leases

namespace LeaseBook

variable {rules : LeaseRules} {b b' : LeaseBook}

theorem Step.timely {q : LeaseRequest} {reply : LeaseReply} (h : Step rules b q reply b')
    (hb : b.leases.Timely) : b'.leases.Timely := by
  cases h with
  | set key ttl sliding => exact hb.granted key b.now (ttl.or rules.defaultTtl) sliding
  | touchAlive key lease halive => exact hb.renewed halive
  | updateAlive key ttl lease halive =>
    exact hb.update key fun _ hd ↦ (Lease.dueAt_eq_some_iff.mp hd).2
  | remove key => exact hb.erase key
  | clear => exact Leases.timely_empty
  | takeExpired limit gone left htook => exact hb.took htook
  | cleanup limit gone left htook => exact hb.took htook
  | _ => exact hb

theorem Run.timely {requests : List LeaseRequest} {replies : List LeaseReply}
    (h : Run rules b requests replies b') (hb : b.leases.Timely) : b'.leases.Timely := by
  induction h with
  | nil => exact hb
  | cons step run ih => exact ih (step.timely hb)

end LeaseBook

theorem ExpiryClock.sound_run {c : ExpiryClock} (h : c.expiry.Sound)
    (requests : List LeaseRequest) : (c.run requests).2.expiry.Sound := by
  induction requests generalizing c with
  | nil => exact h
  | cons q rest ih => exact ih (conforms h q).sound

/-! ### Reading the queue up to the end of a window -/

/-- In a sorted queue all entries up to an instant stand in front. -/
theorem DueQueue.takeWhile_eq_filter {queue : DueQueue} (h : queue.Pairwise (·.1 ≤ ·.1))
    {p : Nat → Bool} (hp : ∀ a b, a ≤ b → p b = true → p a = true) :
    queue.takeWhile (p ·.1) = queue.filter (p ·.1) := by
  induction queue with
  | nil => rfl
  | cons head rest ih =>
    obtain ⟨hhead, hrest⟩ := List.pairwise_cons.mp h
    rw [List.takeWhile_cons, List.filter_cons]
    split
    · rw [ih hrest]
    next hpast =>
      rw [eq_comm, List.filter_eq_nil_iff]
      exact fun x hx hlater ↦ hpast (hp _ _ (hhead x hx) hlater)

namespace Expiry

/-- A window without an end that can be told leaves out no deadline that can be told. -/
theorem all_le_deadlineAfter_iff {now window deadline : Nat} (h : deadline < endOfTime) :
    (deadlineAfter now window).all (deadline ≤ ·) = true ↔ deadline ≤ now + window := by
  unfold deadlineAfter
  split
  · simp
  next hbeyond =>
    have hle : deadline ≤ now + window := by omega
    simp [hle]

/-- The current entries of a queue whose deadlines lie in a window, in their order. -/
def upcomingEntries (e : Expiry) (now window : Nat) : DueQueue :=
  (e.queue.takeWhile fun x ↦ (deadlineAfter now window).all (x.1 ≤ ·)).filter fun x ↦
    isCurrent e.leases x.1 x.2 && now ≤ x.1

theorem pairwise_upcomingEntries {e : Expiry} (h : e.Sound) (now window : Nat) :
    (e.upcomingEntries now window).Pairwise (·.1 ≤ ·.1) :=
  h.sorted.sublist (List.filter_sublist.trans (List.takeWhile_sublist _))

theorem deadline?_of_mem_upcomingEntries {e : Expiry} {now window : Nat} {x : Nat × String}
    (hx : x ∈ e.upcomingEntries now window) : e.plain.deadline? x.2 = some x.1 := by
  obtain ⟨-, hlive⟩ := List.mem_filter.mp hx
  exact isCurrent_iff.mp (Bool.and_eq_true_iff.mp hlive).1

theorem mem_upcomingEntries_iff {e : Expiry} (h : e.Sound) (htimely : e.plain.Timely)
    {now window deadline : Nat} {key : String} :
    (deadline, key) ∈ e.upcomingEntries now window ↔
      e.plain.deadline? key = some deadline ∧ now ≤ deadline ∧ deadline ≤ now + window := by
  have hearlier (a b : Nat) (hle : a ≤ b)
      (hb : (deadlineAfter now window).all (b ≤ ·) = true) :
      (deadlineAfter now window).all (a ≤ ·) = true := by
    rw [Option.all_eq_true] at hb ⊢
    exact fun last hlast ↦ decide_eq_true (hle.trans (of_decide_eq_true (hb last hlast)))
  rw [upcomingEntries, DueQueue.takeWhile_eq_filter h.sorted hearlier, List.mem_filter,
    List.mem_filter, Bool.and_eq_true, decide_eq_true_eq, isCurrent_iff]
  constructor
  · rintro ⟨⟨-, hwindow⟩, hcurrent, hnow⟩
    exact ⟨hcurrent, hnow, (all_le_deadlineAfter_iff (htimely key deadline hcurrent)).mp hwindow⟩
  · rintro ⟨hcurrent, hnow, hwindow⟩
    exact ⟨⟨h.complete key deadline hcurrent,
      (all_le_deadlineAfter_iff (htimely key deadline hcurrent)).mpr hwindow⟩, hcurrent, hnow⟩

theorem upcoming_expiringWithin {e : Expiry} (h : e.Sound) (htimely : e.plain.Timely)
    (now window : Nat) : e.plain.Upcoming now window (e.expiringWithin now window) := by
  have hkeys : e.expiringWithin now window =
      ((e.upcomingEntries now window).map Prod.snd).eraseDups := rfl
  rw [hkeys]
  refine ⟨fun key ↦ ?_, nodup_eraseDups _, ?_⟩
  · rw [List.mem_eraseDups, List.mem_map]
    simp only [← mem_upcomingEntries_iff h htimely]
    constructor
    · rintro ⟨⟨deadline, _⟩, hmem, rfl⟩
      exact ⟨deadline, hmem⟩
    · rintro ⟨deadline, hmem⟩
      exact ⟨(deadline, key), hmem, rfl⟩
  · refine List.Pairwise.sublist (eraseDups_sublist _) (List.pairwise_map.mpr ?_)
    refine (pairwise_upcomingEntries h now window).imp_of_mem ?_
    intro x y hx hy hle first second hfirst hsecond
    rw [deadline?_of_mem_upcomingEntries hx] at hfirst
    rw [deadline?_of_mem_upcomingEntries hy] at hsecond
    cases hfirst
    cases hsecond
    exact hle

/-- Whatever has been asked of new leases, the keys that expire within a window are those whose
deadlines lie between now and its end, each once, the earliest first. The window may be so long that
its end cannot be told. -/
theorem expiringWithin_run (defaultTtl : Option Nat) (batch listeners start : Nat)
    (requests : List LeaseRequest) (window : Nat) :
    let last := (ExpiryClock.run ⟨{ defaultTtl, batch, listeners }, start⟩ requests).2
    last.expiry.plain.Upcoming last.now window (last.expiry.expiringWithin last.now window) := by
  intro last
  obtain ⟨hsound, hplain⟩ := sound_empty (e := { defaultTtl, batch, listeners }) rfl rfl
  have hrun := ExpiryClock.run_conforms_of_sound
    (c := ⟨{ defaultTtl, batch, listeners }, start⟩) hsound requests
  have htimely : last.expiry.plain.Timely := hrun.timely <| by
    change Leases.Timely (plain { defaultTtl, batch, listeners })
    rw [hplain]
    exact Leases.timely_empty
  exact upcoming_expiringWithin (ExpiryClock.sound_run hsound requests) htimely last.now window

/-- One key is past its deadline and not collected, one has been renewed twice at the same instant,
one never expires, and the end of the window cannot be told. -/
example :
    let last := (ExpiryClock.run ⟨{}, 0⟩ [.set "a" (some 3) false, .set "b" (some 9) true,
      .set "c" (some 7) false, .set "d" none false, .advance 5, .touch "b", .touch "b"]).2
    last.expiry.expiringWithin last.now 8 = ["c"] ∧
      last.expiry.expiringWithin last.now endOfTime = ["c", "b"] := by
  decide

end Expiry

end RoleAccess
