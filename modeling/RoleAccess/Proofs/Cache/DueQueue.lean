import Mathlib.Data.ENat.Lattice
import Mathlib.Data.Set.Card
import RoleAccess.Cache.Expiry

/-!
The queue of deadlines behind the leases. A queue is in order for a plain map of leases if it is
sorted and the deadline of every key stands in it (`Queued`); what else stands in it is stale. The
order is kept by every new lease, a rebuilding included, and with it, taking what is due comes to
what it would come to without a queue (`Took`): the keys with the earliest deadlines go, as many as
are due and asked for, and nothing else changes.
-/

set_option autoImplicit false
set_option relaxedAutoImplicit false

namespace RoleAccess

/-- A plain map from keys to leases. -/
abbrev Leases := String → Option Lease

namespace Leases

def deadline? (m : Leases) (key : String) : Option Nat := (m key).bind Lease.deadline

theorem deadline?_update (m : Leases) (key : String) (v : Option Lease) (other : String) :
    deadline? (Function.update m key v) other =
      if other = key then v.bind Lease.deadline else m.deadline? other := by
  unfold deadline?
  rw [Function.update_apply]
  split <;> rfl

theorem deadline?_erase {m : Leases} {key other : String} {deadline : Nat} :
    deadline? (Function.update m key none) other = some deadline ↔
      other ≠ key ∧ m.deadline? other = some deadline := by
  rw [deadline?_update]
  by_cases he : other = key <;> simp [he]

/-- The deadline of a key has come. -/
def IsDue (m : Leases) (now : Nat) (key : String) : Prop :=
  ∃ deadline, m.deadline? key = some deadline ∧ deadline ≤ now

/-- The keys whose deadlines have come, at most so many of them and the earliest first, are taken
out of a map and reported, each with its deadline and its time to live. -/
structure Took (m : Leases) (now limit : Nat) (gone : List Expiration) (left : Leases) :
    Prop where
  count : (gone.length : ℕ∞) = min (limit : ℕ∞) {key | m.IsDue now key}.encard
  reported : ∀ x ∈ gone, x.expiredAt ≤ now ∧ ∃ lease, m x.key = some lease ∧
    lease.deadline = some x.expiredAt ∧ lease.ttl = some x.ttl
  distinct : (gone.map Expiration.key).Nodup
  ordered : gone.Pairwise (·.expiredAt ≤ ·.expiredAt)
  soonest : ∀ x ∈ gone, ∀ key deadline, left.deadline? key = some deadline →
    x.expiredAt ≤ deadline
  rest : ∀ key, left key = if key ∈ gone.map Expiration.key then none else m key

theorem Took.deadline?_of_left {m left : Leases} {now limit : Nat} {gone : List Expiration}
    (h : m.Took now limit gone left) {key : String} {deadline : Nat}
    (hleft : left.deadline? key = some deadline) : m.deadline? key = some deadline := by
  unfold deadline? at hleft ⊢
  rw [h.rest] at hleft
  split at hleft
  · cases hleft
  · exact hleft

/-- Nothing is taken if nothing is due, or nothing asked for. -/
theorem took_nil {m : Leases} {now limit : Nat} (h : limit = 0 ∨ ∀ key, ¬m.IsDue now key) :
    m.Took now limit [] m := by
  refine ⟨?_, ?_, List.nodup_nil, List.Pairwise.nil, ?_, ?_⟩
  · rcases h with rfl | hnone
    · simp
    · have hempty : {key | m.IsDue now key} = ∅ := Set.eq_empty_of_forall_notMem hnone
      simp [hempty]
  · simp
  · simp
  · simp

/-- A key with the earliest deadline of all is taken first. -/
theorem Took.cons {m left : Leases} {now limit : Nat} {gone : List Expiration} {x : Expiration}
    {lease : Lease} (h : Took (Function.update m x.key none) now limit gone left)
    (hlease : m x.key = some lease) (hdeadline : lease.deadline = some x.expiredAt)
    (httl : lease.ttl = some x.ttl) (hdue : x.expiredAt ≤ now)
    (hfirst : ∀ key deadline, m.deadline? key = some deadline → x.expiredAt ≤ deadline) :
    m.Took now (limit + 1) (x :: gone) left := by
  have hreported {y : Expiration} (hy : y ∈ gone) :
      y.key ≠ x.key ∧ m.deadline? y.key = some y.expiredAt := by
    obtain ⟨-, l, hl, hd, -⟩ := h.reported y hy
    exact deadline?_erase.mp (by simp [deadline?, hl, hd])
  refine ⟨?_, ?_, ?_, ?_, ?_, ?_⟩
  · have hset : {key | m.IsDue now key} =
        insert x.key {key | IsDue (Function.update m x.key none) now key} := by
      ext key
      simp only [Set.mem_ofPred_eq, Set.mem_insert_iff, IsDue, deadline?_erase]
      by_cases he : key = x.key
      · subst he
        simp [deadline?, hlease, hdeadline, hdue]
      · simp [he]
    have hnew : x.key ∉ {key | IsDue (Function.update m x.key none) now key} := by
      rintro ⟨deadline, hkey, -⟩
      exact (deadline?_erase.mp hkey).1 rfl
    rw [hset, Set.encard_insert_of_notMem hnew, List.length_cons]
    push_cast
    rw [h.count, min_add_add_right]
  · intro y hy
    rcases List.mem_cons.mp hy with rfl | hy
    · exact ⟨hdue, lease, hlease, hdeadline, httl⟩
    · obtain ⟨hnow, l, hl, hrest⟩ := h.reported y hy
      rw [Function.update_of_ne (hreported hy).1] at hl
      exact ⟨hnow, l, hl, hrest⟩
  · rw [List.map_cons, List.nodup_cons]
    refine ⟨fun hmem ↦ ?_, h.distinct⟩
    obtain ⟨y, hy, he⟩ := List.mem_map.mp hmem
    exact (hreported hy).1 he
  · exact List.pairwise_cons.mpr ⟨fun y hy ↦ hfirst _ _ (hreported hy).2, h.ordered⟩
  · intro y hy key deadline hkey
    rcases List.mem_cons.mp hy with rfl | hy
    · exact hfirst key deadline (deadline?_erase.mp (h.deadline?_of_left hkey)).2
    · exact h.soonest y hy key deadline hkey
  · intro key
    rw [h.rest, List.map_cons]
    by_cases he : key = x.key
    · subst he
      simp
    · simp [he]

end Leases

/-! ### Queues in order -/

/-- A sorted queue with the deadline of every key, where deadlines come from times to live. -/
structure DueQueue.Queued (queue : DueQueue) (m : Leases) : Prop where
  sorted : queue.Pairwise (·.1 ≤ ·.1)
  complete : ∀ key deadline, m.deadline? key = some deadline → (deadline, key) ∈ queue
  timed : ∀ key lease, m key = some lease → lease.deadline.isSome → lease.ttl.isSome

namespace DueQueue

theorem mem_add {deadline : Nat} {key : String} {queue : DueQueue} {x : Nat × String} :
    x ∈ queue.add deadline key ↔ x = (deadline, key) ∨ x ∈ queue := by
  induction queue with
  | nil => simp [add]
  | cons head rest ih =>
    unfold add
    split
    · rw [List.mem_cons, ih, List.mem_cons]
      tauto
    · rw [List.mem_cons]

theorem pairwise_add {queue : DueQueue} (h : queue.Pairwise (·.1 ≤ ·.1)) (deadline : Nat)
    (key : String) : (queue.add deadline key).Pairwise (·.1 ≤ ·.1) := by
  induction queue with
  | nil => simp [add]
  | cons head rest ih =>
    obtain ⟨hhead, hrest⟩ := List.pairwise_cons.mp h
    unfold add
    split
    next hle =>
      refine List.pairwise_cons.mpr ⟨fun x hx ↦ ?_, ih hrest⟩
      rcases mem_add.mp hx with rfl | hx
      · exact hle
      · exact hhead x hx
    next hlt =>
      have hlt : deadline ≤ head.1 := Nat.le_of_not_le hlt
      refine List.pairwise_cons.mpr ⟨fun x hx ↦ ?_, h⟩
      rcases List.mem_cons.mp hx with rfl | hx
      · exact hlt
      · exact Nat.le_trans hlt (hhead x hx)

/-- The first deadline of a queue in order is the earliest of all. -/
theorem Queued.le_deadline {deadline : Nat} {key : String} {rest : DueQueue} {m : Leases}
    (h : Queued ((deadline, key) :: rest) m) {other : String} {d : Nat}
    (hd : m.deadline? other = some d) : deadline ≤ d := by
  rcases List.mem_cons.mp (h.complete other d hd) with he | hmem
  · exact Nat.le_of_eq (Prod.mk.inj he).1.symm
  · exact (List.pairwise_cons.mp h.sorted).1 _ hmem

/-- A stale entry may be dropped. -/
theorem Queued.drop {deadline : Nat} {key : String} {rest : DueQueue} {m : Leases}
    (h : Queued ((deadline, key) :: rest) m) (hstale : m.deadline? key ≠ some deadline) :
    Queued rest m := by
  refine ⟨(List.pairwise_cons.mp h.sorted).2, fun other d hd ↦ ?_, h.timed⟩
  rcases List.mem_cons.mp (h.complete other d hd) with he | hmem
  · obtain ⟨rfl, rfl⟩ := Prod.mk.inj he
    exact absurd hd hstale
  · exact hmem

/-- A key that goes leaves nothing but stale entries. -/
theorem Queued.erase {queue : DueQueue} {m : Leases} (h : Queued queue m) (key : String) :
    Queued queue (Function.update m key none) := by
  refine ⟨h.sorted, fun other d hd ↦ ?_, fun other lease hl ↦ ?_⟩
  · exact h.complete other d (Leases.deadline?_erase.mp hd).2
  · rw [Function.update_apply] at hl
    split at hl
    · cases hl
    · exact h.timed other lease hl

/-- A key that never expires needs no entry. -/
theorem Queued.update_never {queue : DueQueue} {m : Leases} (h : Queued queue m) (key : String)
    {lease : Lease} (hnever : lease.deadline = none) :
    Queued queue (Function.update m key (some lease)) := by
  refine ⟨h.sorted, fun other d hd ↦ ?_, fun other l hl ↦ ?_⟩
  · rw [Leases.deadline?_update, Option.bind_some, hnever] at hd
    split at hd
    · cases hd
    · exact h.complete other d hd
  · rw [Function.update_apply] at hl
    split at hl
    · cases hl
      simp [hnever]
    · exact h.timed other l hl

theorem Queued.update_add {queue : DueQueue} {m : Leases} (h : Queued queue m) (key : String)
    {lease : Lease} {deadline : Nat} (hdeadline : lease.deadline = some deadline)
    (httl : lease.ttl.isSome) :
    Queued (queue.add deadline key) (Function.update m key (some lease)) := by
  refine ⟨pairwise_add h.sorted deadline key, fun other d hd ↦ ?_, fun other l hl ↦ ?_⟩
  · rw [Leases.deadline?_update, Option.bind_some, hdeadline] at hd
    rw [mem_add]
    split at hd
    next he =>
      cases hd
      exact Or.inl (by rw [he])
    next => exact Or.inr (h.complete other d hd)
  · rw [Function.update_apply] at hl
    split at hl
    · cases hl
      exact fun _ ↦ httl
    · exact h.timed other l hl

end DueQueue

namespace Expiry

/-- The leases without their queue. -/
def leaseOf (leases : Std.TreeMap String Lease) : Leases := fun key ↦ leases[key]?

theorem leaseOf_insert (leases : Std.TreeMap String Lease) (key : String) (lease : Lease) :
    leaseOf (leases.insert key lease) = Function.update (leaseOf leases) key (some lease) := by
  funext other
  simp only [leaseOf, Std.TreeMap.getElem?_insert, Function.update_apply,
    Std.LawfulEqCmp.compare_eq_iff_eq, eq_comm (a := key)]

theorem leaseOf_erase (leases : Std.TreeMap String Lease) (key : String) :
    leaseOf (leases.erase key) = Function.update (leaseOf leases) key none := by
  funext other
  simp only [leaseOf, Std.TreeMap.getElem?_erase, Function.update_apply,
    Std.LawfulEqCmp.compare_eq_iff_eq, eq_comm (a := key)]

theorem isCurrent_iff {leases : Std.TreeMap String Lease} {deadline : Nat} {key : String} :
    isCurrent leases deadline key = true ↔ (leaseOf leases).deadline? key = some deadline := by
  unfold isCurrent Leases.deadline? leaseOf
  cases leases[key]? <;> simp

theorem pairwise_deadlines (leases : Std.TreeMap String Lease) :
    (deadlines leases).Pairwise (·.1 ≤ ·.1) := by
  unfold deadlines
  refine List.Pairwise.imp (fun h ↦ of_decide_eq_true h) (List.pairwise_mergeSort ?_ ?_ _)
  · intro a b c hab hbc
    exact decide_eq_true (Nat.le_trans (of_decide_eq_true hab) (of_decide_eq_true hbc))
  · intro a b
    rcases Nat.le_total a.1 b.1 with h | h <;> simp [h]

theorem mem_deadlines_iff {leases : Std.TreeMap String Lease} {deadline : Nat} {key : String} :
    (deadline, key) ∈ deadlines leases ↔ (leaseOf leases).deadline? key = some deadline := by
  unfold deadlines
  rw [List.mem_mergeSort, List.mem_filterMap]
  constructor
  · rintro ⟨⟨other, lease⟩, hmem, hpair⟩
    rw [Std.TreeMap.mem_toList_iff_getElem?_eq_some] at hmem
    obtain ⟨d, hd, he⟩ := Option.map_eq_some_iff.mp hpair
    obtain ⟨rfl, rfl⟩ := Prod.mk.inj he
    simp only [Leases.deadline?, leaseOf, hmem, Option.bind_some, hd]
  · intro hkey
    obtain ⟨lease, hlease, hd⟩ := Option.bind_eq_some_iff.mp hkey
    refine ⟨(key, lease), Std.TreeMap.mem_toList_iff_getElem?_eq_some.mpr hlease, ?_⟩
    simp only [hd, Option.map_some]

/-! ### Taking what is due -/

/-- From a queue in order, the keys that are due are taken as if there were no queue, and the rest
of the queue is in order for the leases that are left. -/
theorem takeDue_took (now limit : Nat) {queue : DueQueue} {leases : Std.TreeMap String Lease}
    (h : queue.Queued (leaseOf leases)) :
    (leaseOf leases).Took now limit (takeDue now limit queue leases).1
        (leaseOf (takeDue now limit queue leases).2.2) ∧
      (takeDue now limit queue leases).2.1.Queued
        (leaseOf (takeDue now limit queue leases).2.2) := by
  fun_induction takeDue now limit queue leases with
  | case1 limit leases =>
    refine ⟨Leases.took_nil (Or.inr ?_), h⟩
    rintro key ⟨deadline, hkey, -⟩
    exact List.not_mem_nil (h.complete key deadline hkey)
  | case2 queue leases => exact ⟨Leases.took_nil (Or.inl rfl), h⟩
  | case3 limit deadline key rest leases hlater =>
    refine ⟨Leases.took_nil (Or.inr ?_), h⟩
    rintro other ⟨d, hd, hdue⟩
    exact absurd (Nat.lt_of_lt_of_le hlater (h.le_deadline hd)) (Nat.not_lt_of_le hdue)
  | case4 limit deadline key rest leases hdue hcurrent ttl gone left hrec ih =>
    have hkey := isCurrent_iff.mp hcurrent
    obtain ⟨lease, hlease, hdeadline⟩ := Option.bind_eq_some_iff.mp hkey
    obtain ⟨time, htime⟩ := Option.isSome_iff_exists.mp
      (h.timed key lease hlease (by rw [hdeadline]; rfl))
    have httl : ttl = time := by
      change ((leaseOf leases key).bind Lease.ttl).getD 0 = time
      rw [hlease, Option.bind_some, htime]
      rfl
    have herased : DueQueue.Queued rest (leaseOf (leases.erase key)) := by
      rw [leaseOf_erase]
      exact (h.erase key).drop fun he ↦ (Leases.deadline?_erase.mp he).1 rfl
    obtain ⟨htook, hqueued⟩ := ih herased
    rw [hrec, leaseOf_erase] at htook
    rw [hrec] at hqueued
    refine ⟨htook.cons hlease hdeadline (htime.trans (congrArg some httl.symm))
      (Nat.le_of_not_lt hdue) fun other d hd ↦ h.le_deadline hd, hqueued⟩
  | case5 limit deadline key rest leases hdue hstale ih =>
    exact ih (h.drop fun he ↦ hstale (isCurrent_iff.mpr he))

end Expiry

end RoleAccess
