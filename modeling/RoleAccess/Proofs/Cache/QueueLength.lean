import RoleAccess.Proofs.Cache.LeaseRuns

/-!
How long the queue of deadlines gets. A key that is given another deadline, and a key that goes,
leave a stale entry behind. The queue is only rebuilt by a request that puts a deadline into it
(`ExpiryClock.queued?`), and right after such a request it is no longer than 64 entries or twice the
number of keys. Every other request leaves an end of the queue as it was. So throughout a run the
queue keeps within that bound for the most keys that have been tracked at once so far
(`Expiry.length_queue_run`), however many of them have gone since.
-/

set_option autoImplicit false
set_option relaxedAutoImplicit false

namespace RoleAccess

namespace Expiry

variable {e : Expiry} {key : String}

/-! ### Queueing a deadline -/

/-- How long a queue may be for so many keys. -/
def queueLimit (tracked : Nat) : Nat := max shortQueue (slackFactor * tracked)

theorem queueLimit_mono {a b : Nat} (h : a ≤ b) : queueLimit a ≤ queueLimit b :=
  max_le_max_left shortQueue (Nat.mul_le_mul_left slackFactor h)

/-- A rebuilt queue has one entry at most for each key. -/
theorem length_deadlines_le (leases : Std.TreeMap String Lease) :
    (deadlines leases).length ≤ leases.size := by
  unfold deadlines
  rw [List.length_mergeSort, ← Std.TreeMap.length_toList]
  exact List.length_filterMap_le _ _

theorem size_enqueue (e : Expiry) (key : String) (deadline : Nat) :
    (e.enqueue key (some deadline)).size = e.size := by
  unfold enqueue
  dsimp only
  split <;> rfl

theorem length_queue_enqueue (e : Expiry) (key : String) (deadline : Nat) :
    (e.enqueue key (some deadline)).queue.length ≤ queueLimit e.size := by
  unfold enqueue
  dsimp only
  split
  next =>
    have hrebuilt : (deadlines e.leases).length ≤ e.size := length_deadlines_le e.leases
    have hfactor : e.size ≤ slackFactor * e.size := Nat.le_mul_of_pos_left _ (by decide)
    exact (hrebuilt.trans hfactor).trans (le_max_right _ _)
  next hshort =>
    rw [Bool.and_eq_true, decide_eq_true_eq, decide_eq_true_eq, not_and_or, Nat.not_lt,
      Nat.not_lt] at hshort
    exact le_max_iff.mpr hshort

theorem length_queue_lease {lease : Lease} {deadline : Nat}
    (h : lease.deadline = some deadline) :
    (e.lease key lease).queue.length ≤ queueLimit (e.lease key lease).size := by
  unfold Expiry.lease
  rw [h, size_enqueue]
  exact length_queue_enqueue _ key deadline

theorem queue_lease_of_never {lease : Lease} (h : lease.deadline = none) :
    (e.lease key lease).queue = e.queue := by
  unfold Expiry.lease
  rw [h]
  rfl

/-! ### Taking from the front -/

theorem queue_takeDue_suffix (now limit : Nat) (queue : DueQueue)
    (leases : Std.TreeMap String Lease) : (takeDue now limit queue leases).2.1 <:+ queue := by
  fun_induction takeDue now limit queue leases with
  | case1 => exact List.suffix_refl _
  | case2 => exact List.suffix_refl _
  | case3 => exact List.suffix_refl _
  | case4 limit deadline key rest leases hdue hcurrent ttl gone left hrec ih =>
    rw [hrec] at ih
    exact ih.trans (List.suffix_cons _ rest)
  | case5 limit deadline key rest leases hdue hstale ih => exact ih.trans (List.suffix_cons _ rest)

/-! ### What becomes of a queue -/

/-- What leases become when this deadline is queued, or none: a key has been given a lease with it,
or at most the front of the queue has gone. -/
inductive Requeued (e : Expiry) (queued : Option Nat) : Expiry → Prop
  | leased (key : String) (lease : Lease) (h : lease.deadline = queued) :
    Requeued e queued (e.lease key lease)
  | kept {e' : Expiry} (hqueued : queued = none) (h : e'.queue <:+ e.queue) :
    Requeued e queued e'

theorem Requeued.length_le_of_queued {queued : Option Nat} {e' : Expiry}
    (h : e.Requeued queued e') (hqueued : queued.isSome) :
    e'.queue.length ≤ queueLimit e'.size := by
  obtain ⟨deadline, rfl⟩ := Option.isSome_iff_exists.mp hqueued
  cases h with
  | leased key lease hlease => exact length_queue_lease hlease
  | kept hnone => cases hnone

theorem Requeued.suffix_of_not_queued {e' : Expiry} (h : e.Requeued none e') :
    e'.queue <:+ e.queue := by
  cases h with
  | leased key lease hlease => rw [queue_lease_of_never hlease]
  | kept _ hsuffix => exact hsuffix

theorem Requeued.length_le {queued : Option Nat} {e' : Expiry} (h : e.Requeued queued e') :
    e'.queue.length ≤ max e.queue.length (queueLimit e'.size) := by
  cases queued with
  | none => exact h.suffix_of_not_queued.length_le.trans (le_max_left _ _)
  | some deadline => exact (h.length_le_of_queued rfl).trans (le_max_right _ _)

end Expiry

/-! ### Requests -/

namespace ExpiryClock

/-- The lease of a key that is alive. -/
def living? (c : ExpiryClock) (key : String) : Option Lease :=
  c.expiry.leases[key]?.filter fun lease ↦ !lease.isOver c.now

/-- The deadline that a request puts into the queue: that of a new lease, of a sliding lease that is
renewed or of a lease with a new time to live, unless it never comes. -/
def queued? (c : ExpiryClock) : LeaseRequest → Option Nat
  | .set _ ttl _ => (ttl.or c.expiry.defaultTtl).bind (Lease.dueAt c.now)
  | .touch key => (c.living? key).bind fun lease ↦
    if lease.sliding then lease.ttl.bind (Lease.dueAt c.now) else none
  | .updateTtl key ttl => (c.living? key).bind fun _ ↦ Lease.dueAt c.now ttl
  | _ => none

/-- The most keys that are tracked at once from now on until the end of a run. -/
def mostTracked (c : ExpiryClock) : List LeaseRequest → Nat
  | [] => c.expiry.size
  | q :: rest => max c.expiry.size ((c.answer q).2.mostTracked rest)

theorem living?_eq_some_iff {c : ExpiryClock} {key : String} {lease : Lease} :
    c.living? key = some lease ↔ c.expiry.plain.Alive c.now key lease := by
  rw [living?, Option.filter_eq_some_iff, Bool.not_eq_true', Expiry.alive_iff]

theorem living?_eq_none_iff {c : ExpiryClock} {key : String} :
    c.living? key = none ↔ ∀ lease, ¬c.expiry.plain.Alive c.now key lease := by
  simp only [Option.eq_none_iff_forall_ne_some, Ne, living?_eq_some_iff]

/-- Where only a key that is alive is given another lease, the queue is what that comes to. -/
theorem requeued_of_living {c : ExpiryClock} {key : String} {r : Bool × Expiry}
    {queued : Lease → Option Nat}
    (hlost : (∀ lease, ¬c.expiry.plain.Alive c.now key lease) → r = (false, c.expiry))
    (halive : ∀ lease, c.expiry.plain.Alive c.now key lease →
      c.expiry.Requeued (queued lease) r.2) :
    c.expiry.Requeued ((c.living? key).bind queued) r.2 := by
  cases hliving : c.living? key with
  | none =>
    rw [hlost (living?_eq_none_iff.mp hliving)]
    exact .kept rfl (List.suffix_refl _)
  | some lease => exact halive lease (living?_eq_some_iff.mp hliving)

theorem requeued_set (c : ExpiryClock) (key : String) (ttl : Option Nat) (sliding : Bool) :
    c.expiry.Requeued (c.queued? (.set key ttl sliding)) (c.expiry.set c.now key ttl sliding) := by
  rw [Expiry.set, Lease.deadlineAfter_eq_dueAt]
  exact .leased key _ rfl

theorem requeued_touch (c : ExpiryClock) (key : String) :
    c.expiry.Requeued (c.queued? (.touch key)) (c.expiry.touch c.now key).2 := by
  refine requeued_of_living Expiry.touch_of_lost fun lease halive ↦ ?_
  obtain ⟨hlease, hover⟩ := Expiry.alive_iff.mp halive
  rw [Expiry.touch, hlease]
  simp only [hover, Lease.deadlineAfter_eq_dueAt, Bool.false_eq_true, if_false]
  cases hsliding : lease.sliding with
  | false => exact .kept rfl (List.suffix_refl _)
  | true =>
    cases httl : lease.ttl with
    | none => exact .kept rfl (List.suffix_refl _)
    | some ttl => exact .leased key _ rfl

theorem requeued_updateTtl (c : ExpiryClock) (key : String) (ttl : Nat) :
    c.expiry.Requeued (c.queued? (.updateTtl key ttl)) (c.expiry.updateTtl c.now key ttl).2 := by
  refine requeued_of_living (fun hlost ↦ Expiry.updateTtl_of_lost hlost ttl) fun lease halive ↦ ?_
  obtain ⟨hlease, hover⟩ := Expiry.alive_iff.mp halive
  rw [Expiry.updateTtl, hlease]
  simp only [hover, Lease.deadlineAfter_eq_dueAt, Bool.false_eq_true, if_false]
  exact .leased key _ rfl

/-- All that a request can do to the queue. -/
theorem requeued_answer (c : ExpiryClock) (q : LeaseRequest) :
    c.expiry.Requeued (c.queued? q) (c.answer q).2.expiry := by
  cases q with
  | set key ttl sliding => exact c.requeued_set key ttl sliding
  | touch key => exact c.requeued_touch key
  | updateTtl key ttl => exact c.requeued_updateTtl key ttl
  | clear => exact .kept rfl List.nil_suffix
  | cleanup limit => exact .kept rfl (Expiry.queue_takeDue_suffix _ _ _ _)
  | takeExpired limit => exact .kept rfl (Expiry.queue_takeDue_suffix _ _ _ _)
  | _ => exact .kept rfl (List.suffix_refl _)

theorem size_le_mostTracked (c : ExpiryClock) (requests : List LeaseRequest) :
    c.expiry.size ≤ c.mostTracked requests := by
  cases requests with
  | nil => exact Nat.le_refl _
  | cons q rest => exact le_max_left _ _

/-- In a run the queue gets no longer than it was, or than it may be for the most keys tracked. -/
theorem length_queue_run_le (c : ExpiryClock) (requests : List LeaseRequest) :
    (c.run requests).2.expiry.queue.length ≤
      max c.expiry.queue.length (Expiry.queueLimit (c.mostTracked requests)) := by
  induction requests generalizing c with
  | nil => exact le_max_left _ _
  | cons q rest ih =>
    set next := (c.answer q).2
    have hlater : next.mostTracked rest ≤ c.mostTracked (q :: rest) := le_max_right _ _
    have hsize : next.expiry.size ≤ c.mostTracked (q :: rest) :=
      (next.size_le_mostTracked rest).trans hlater
    -- What the first request leaves is bounded by the keys it leaves, and these count as tracked.
    refine (ih next).trans (max_le ?_ ?_)
    · exact (c.requeued_answer q).length_le.trans
        (max_le_max_left _ (Expiry.queueLimit_mono hsize))
    · exact (Expiry.queueLimit_mono hlater).trans (le_max_right _ _)

end ExpiryClock

/-- Whatever has been asked of new leases, a request that queues a deadline leaves a queue of at
most sixty-four entries or twice the number of the keys that are tracked then. Any other request
leaves an end of the queue. So the queue has at no time more entries than that for the most keys
that have been tracked at once so far. -/
theorem Expiry.length_queue_run (defaultTtl : Option Nat) (batch listeners start : Nat)
    (requests : List LeaseRequest) (q : LeaseRequest) :
    let first : ExpiryClock := ⟨{ defaultTtl, batch, listeners }, start⟩
    let last := (first.run requests).2
    let next := (last.answer q).2
    ((last.queued? q).isSome → next.expiry.queue.length ≤ max 64 (2 * next.expiry.size)) ∧
      (last.queued? q = none → next.expiry.queue <:+ last.expiry.queue) ∧
      last.expiry.queue.length ≤ max 64 (2 * first.mostTracked requests) := by
  intro first last next
  have hrequeued := last.requeued_answer q
  refine ⟨fun hqueued ↦ hrequeued.length_le_of_queued hqueued, fun hnone ↦ ?_, ?_⟩
  · rw [hnone] at hrequeued
    exact hrequeued.suffix_of_not_queued
  · have hrun := first.length_queue_run_le requests
    have hempty : first.expiry.queue.length = 0 := rfl
    rwa [hempty, Nat.zero_max] at hrun

/-- A key that is set for the sixty-fifth time has the queue rebuilt; taking it away instead leaves
the queue as it was, or an end of it. -/
theorem Expiry.length_queue_run_reset :
    let renew : LeaseRequest := .set "hot" (some 30) false
    let last := (ExpiryClock.run ⟨{}, 0⟩ (List.replicate 64 renew)).2
    let next := (last.answer renew).2
    last.expiry.queue.length = 64 ∧
      (last.queued? renew).isSome ∧ next.expiry.size = 1 ∧ next.expiry.queue.length ≤ 64 ∧
      last.queued? (.remove "hot") = none ∧
      (last.answer (.remove "hot")).2.expiry.queue <:+ last.expiry.queue := by
  intro renew last next
  obtain ⟨hnext, -⟩ := Expiry.length_queue_run none 1000 0 0 (List.replicate 64 renew) renew
  obtain ⟨-, hremoved, -⟩ :=
    Expiry.length_queue_run none 1000 0 0 (List.replicate 64 renew) (.remove "hot")
  have hqueued : (last.queued? renew).isSome := by decide +kernel
  have hsize : next.expiry.size = 1 := by decide +kernel
  have hlength : next.expiry.queue.length ≤ max 64 (2 * next.expiry.size) := hnext hqueued
  rw [hsize] at hlength
  exact ⟨by decide +kernel, hqueued, hsize, hlength, rfl, hremoved rfl⟩

/-- Of sixty-five keys that have all gone stale entries are left, more than are allowed for none. -/
example :
    let first : ExpiryClock := ⟨{}, 0⟩
    let names := (List.range 65).map fun i ↦ toString i
    let requests := names.map (.set · (some 30) false) ++ names.map .remove
    (first.run requests).2.expiry.queue.length = 65 ∧ (first.run requests).2.expiry.size = 0 ∧
      first.mostTracked requests = 65 := by
  decide +kernel

end RoleAccess
