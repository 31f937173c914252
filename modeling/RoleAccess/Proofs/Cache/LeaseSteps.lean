import RoleAccess.Proofs.Cache.DueQueue

/-!
The operations on leases, as they are without a queue. `Became` says that an operation turned the
plain map of leases into another and kept the queue in order, and changed nothing else. A key is
alive until its deadline has passed; touching and giving a new time to live only do something to
keys that are alive. The deadlines of the plain map are written out (`Lease.dueAt`), and do not come
from what the operations use.
-/

set_option autoImplicit false
set_option relaxedAutoImplicit false

namespace RoleAccess

/-- A key has this lease, and its deadline, if there is one, has not passed. -/
def Leases.Alive (m : Leases) (now : Nat) (key : String) (lease : Lease) : Prop :=
  m key = some lease ∧ ∀ deadline, lease.deadline = some deadline → now ≤ deadline

namespace Lease

/-- When a time to live that starts now is over: at its end, or never if that is beyond the seconds
that can be told. -/
def dueAt (now ttl : Nat) : Option Nat :=
  if now + ttl < 9223372036854775807 * 1000000000 then some (now + ttl) else none

/-- A lease from now on, for this time to live. -/
def granted (now : Nat) (ttl : Option Nat) (sliding : Bool) : Lease :=
  ⟨ttl.bind (dueAt now), ttl, sliding⟩

/-- A sliding lease starts anew; any other stays. -/
def renewed (l : Lease) (now : Nat) : Lease :=
  if l.sliding then { l with deadline := l.ttl.bind (dueAt now) } else l

theorem deadlineAfter_eq_dueAt : deadlineAfter = dueAt := by
  have hend : endOfTime = 9223372036854775807 * 1000000000 := by decide
  unfold deadlineAfter dueAt
  rw [hend]

theorem dueAt_eq_some_iff {now ttl deadline : Nat} : dueAt now ttl = some deadline ↔
    now + ttl = deadline ∧ deadline < endOfTime := by
  rw [← deadlineAfter_eq_dueAt, deadlineAfter, Option.ite_none_right_eq_some, Option.some.injEq]
  constructor
  · rintro ⟨hlt, rfl⟩
    exact ⟨rfl, hlt⟩
  · rintro ⟨rfl, hlt⟩
    exact ⟨hlt, rfl⟩

theorem renewed_of_ttl {l : Lease} {now ttl : Nat} (hsliding : l.sliding = true)
    (httl : l.ttl = some ttl) : l.renewed now = { l with deadline := dueAt now ttl } := by
  rw [renewed, if_pos hsliding, httl, Option.bind_some]

/-- A lease that neither ends nor could end stays. -/
theorem renewed_of_never {l : Lease} {now : Nat} (httl : l.ttl = none)
    (hnever : l.deadline = none) : l.renewed now = l := by
  obtain ⟨deadline, ttl, sliding⟩ := l
  subst httl hnever
  exact ite_self _

theorem isOver_eq_false_iff {l : Lease} {now : Nat} :
    l.isOver now = false ↔ ∀ deadline, l.deadline = some deadline → now ≤ deadline := by
  unfold isOver
  cases l.deadline <;> simp

end Lease

namespace Expiry

/-- The leases without their queue. -/
def plain (e : Expiry) : Leases := leaseOf e.leases

/-- The queue is in order for the leases. -/
def Sound (e : Expiry) : Prop := e.queue.Queued e.plain

/-- The leases have become these, with a queue in order, and nothing else has changed. -/
structure Became (e e' : Expiry) (m : Leases) : Prop where
  sound : e'.Sound
  plain : e'.plain = m
  rest : e' = { e with leases := e'.leases, queue := e'.queue }

theorem Became.refl {e : Expiry} (h : e.Sound) : e.Became e e.plain := ⟨h, rfl, rfl⟩

theorem sound_empty {e : Expiry} (hleases : e.leases = ∅) (hqueue : e.queue = []) :
    e.Sound ∧ e.plain = fun _ ↦ none := by
  have hplain : e.plain = fun _ ↦ none := by
    funext key
    simp [plain, leaseOf, hleases]
  refine ⟨?_, hplain⟩
  unfold Sound
  rw [hplain, hqueue]
  refine ⟨List.Pairwise.nil, ?_, ?_⟩
  · intro key deadline hd
    cases hd
  · intro key lease hl
    cases hl

/-! ### Who is alive -/

theorem alive_iff {e : Expiry} {now : Nat} {key : String} {lease : Lease} :
    e.plain.Alive now key lease ↔ e.leases[key]? = some lease ∧ lease.isOver now = false := by
  rw [Leases.Alive, Lease.isOver_eq_false_iff]
  rfl

/-- A key that is not alive has no lease, or one that is over. -/
theorem lost_iff {e : Expiry} {now : Nat} {key : String} :
    (∀ lease, ¬e.plain.Alive now key lease) ↔
      ∀ lease, e.leases[key]? = some lease → lease.isOver now = true := by
  simp only [alive_iff, not_and, Bool.not_eq_false]

theorem isTracked_eq (e : Expiry) (key : String) : e.isTracked key = (e.plain key).isSome :=
  Std.TreeMap.contains_eq_isSome_getElem?

theorem isExpired_eq {e : Expiry} {key : String} {lease : Lease} (h : e.plain key = some lease)
    (now : Nat) : e.isExpired now key = lease.isOver now := by
  have hlease : e.leases[key]? = some lease := h
  simp only [isExpired, hlease]

theorem isExpired_of_alive {e : Expiry} {now : Nat} {key : String} {lease : Lease}
    (h : e.plain.Alive now key lease) : e.isExpired now key = false := by
  rw [isExpired_eq h.1]
  exact (alive_iff.mp h).2

theorem isExpired_of_lost {e : Expiry} {now : Nat} {key : String}
    (h : ∀ lease, ¬e.plain.Alive now key lease) : e.isExpired now key = true := by
  unfold isExpired
  split
  · rfl
  next lease hlease => exact lost_iff.mp h lease hlease

theorem remaining_of_lost {e : Expiry} {now : Nat} {key : String}
    (h : ∀ lease, ¬e.plain.Alive now key lease) : e.remaining now key = .notFound := by
  unfold remaining
  split
  · rfl
  next lease hlease => rw [lost_iff.mp h lease hlease, if_pos rfl]

theorem remaining_of_alive {e : Expiry} {now : Nat} {key : String} {lease : Lease}
    (h : e.plain.Alive now key lease) : e.remaining now key =
      match lease.deadline with
      | none => .never
      | some deadline => .expires (deadline - now) := by
  obtain ⟨hlease, hover⟩ := alive_iff.mp h
  unfold remaining
  rw [hlease]
  exact if_neg (Bool.eq_false_iff.mp hover)

/-- The keys with a lease are counted by the size. -/
theorem encard_tracked (e : Expiry) : {key | (e.plain key).isSome}.encard = e.size := by
  have hkeys : {key | (e.plain key).isSome} = (e.leases.keys.toFinset : Set String) := by
    ext key
    rw [List.coe_toFinset, Set.mem_ofPred_eq, Set.mem_ofPred_eq, Std.TreeMap.mem_keys,
      ← Std.TreeMap.contains_iff_mem, Std.TreeMap.contains_eq_isSome_getElem?]
    rfl
  rw [hkeys, Set.encard_coe_eq_coe_finsetCard, List.toFinset_card_of_nodup e.leases.nodup_keys,
    Std.TreeMap.length_keys]
  rfl

/-! ### Leases that change -/

theorem became_enqueue {e : Expiry} {deadline : Nat} {key : String}
    (h : (e.queue.add deadline key).Queued e.plain) :
    e.Became (e.enqueue key (some deadline)) e.plain := by
  unfold enqueue
  dsimp only
  split
  · refine ⟨⟨pairwise_deadlines e.leases, ?_, h.timed⟩, rfl, rfl⟩
    exact fun other d hd ↦ mem_deadlines_iff.mpr hd
  · exact ⟨h, rfl, rfl⟩

theorem became_lease {e : Expiry} (h : e.Sound) (key : String) {lease : Lease}
    (htimed : lease.deadline.isSome → lease.ttl.isSome) :
    e.Became (e.lease key lease) (Function.update e.plain key (some lease)) := by
  have hplain : ({ e with leases := e.leases.insert key lease } : Expiry).plain =
      Function.update e.plain key (some lease) := leaseOf_insert e.leases key lease
  unfold Expiry.lease
  cases hdeadline : lease.deadline with
  | none =>
    refine ⟨?_, hplain, rfl⟩
    unfold Sound
    rw [enqueue, hplain]
    exact h.update_never key hdeadline
  | some deadline =>
    have hadded := h.update_add key hdeadline (htimed (by rw [hdeadline]; rfl))
    rw [← hplain] at hadded ⊢
    obtain ⟨hsound, hsame, hrest⟩ :=
      became_enqueue (e := { e with leases := e.leases.insert key lease }) hadded
    exact ⟨hsound, hsame, hrest⟩

theorem isSome_of_isSome_bind {ttl : Option Nat} {now : Nat}
    (h : (ttl.bind (Lease.dueAt now)).isSome) : ttl.isSome := by
  cases ttl with
  | none => exact h
  | some _ => rfl

theorem became_set {e : Expiry} (h : e.Sound) (now : Nat) (key : String) (ttl : Option Nat)
    (sliding : Bool) :
    e.Became (e.set now key ttl sliding)
      (Function.update e.plain key (some (.granted now (ttl.or e.defaultTtl) sliding))) := by
  unfold set
  rw [Lease.deadlineAfter_eq_dueAt]
  exact became_lease h key isSome_of_isSome_bind

theorem touch_of_lost {e : Expiry} {now : Nat} {key : String}
    (h : ∀ lease, ¬e.plain.Alive now key lease) : e.touch now key = (false, e) := by
  unfold touch
  split
  · rfl
  next lease hlease => rw [lost_iff.mp h lease hlease, if_pos rfl]

/-- Touching renews the lease of a key that is alive. -/
theorem became_touch {e : Expiry} (h : e.Sound) {now : Nat} {key : String} {lease : Lease}
    (halive : e.plain.Alive now key lease) :
    (e.touch now key).1 = true ∧
      e.Became (e.touch now key).2 (Function.update e.plain key (some (lease.renewed now))) := by
  obtain ⟨hlease, hover⟩ := alive_iff.mp halive
  have hstays (hsame : lease.renewed now = lease) :
      e.Became e (Function.update e.plain key (some (lease.renewed now))) := by
    rw [hsame, ← halive.1, Function.update_eq_self]
    exact .refl h
  unfold touch
  rw [hlease]
  simp only [hover, Bool.false_eq_true, if_false]
  split
  next ttl hsliding httl =>
    rw [Lease.deadlineAfter_eq_dueAt, Lease.renewed_of_ttl hsliding httl]
    exact ⟨rfl, became_lease h key fun _ ↦ httl ▸ rfl⟩
  next hfixed =>
    refine ⟨rfl, hstays ?_⟩
    by_cases hsliding : lease.sliding = true
    · -- Without a time to live there was no deadline either.
      have httl : lease.ttl = none :=
        Option.eq_none_iff_forall_ne_some.mpr fun ttl httl ↦ hfixed ttl hsliding httl
      have hnever : lease.deadline = none := by
        by_contra hsome
        have hsome := h.timed key lease halive.1 (Option.isSome_iff_ne_none.mpr hsome)
        rw [httl] at hsome
        cases hsome
      exact Lease.renewed_of_never httl hnever
    · exact if_neg hsliding

theorem updateTtl_of_lost {e : Expiry} {now : Nat} {key : String}
    (h : ∀ lease, ¬e.plain.Alive now key lease) (ttl : Nat) :
    e.updateTtl now key ttl = (false, e) := by
  unfold updateTtl
  split
  · rfl
  next lease hlease => rw [lost_iff.mp h lease hlease, if_pos rfl]

theorem became_updateTtl {e : Expiry} (h : e.Sound) {now : Nat} {key : String} {lease : Lease}
    (halive : e.plain.Alive now key lease) (ttl : Nat) :
    (e.updateTtl now key ttl).1 = true ∧
      e.Became (e.updateTtl now key ttl).2 (Function.update e.plain key
        (some { lease with deadline := Lease.dueAt now ttl, ttl := some ttl })) := by
  obtain ⟨hlease, hover⟩ := alive_iff.mp halive
  simp only [updateTtl, hlease, hover, Lease.deadlineAfter_eq_dueAt, Bool.false_eq_true, if_false,
    true_and]
  exact became_lease h key fun _ ↦ rfl

theorem became_remove {e : Expiry} (h : e.Sound) (key : String) :
    (e.remove key).1 = (e.plain key).isSome ∧
      e.Became (e.remove key).2 (Function.update e.plain key none) := by
  have hplain : (e.remove key).2.plain = Function.update e.plain key none :=
    leaseOf_erase e.leases key
  refine ⟨e.isTracked_eq key, ?_, hplain, rfl⟩
  unfold Sound
  rw [hplain]
  exact h.erase key

theorem became_clear (e : Expiry) : e.Became e.clear fun _ ↦ none := by
  obtain ⟨hsound, hplain⟩ := sound_empty (e := e.clear) rfl rfl
  exact ⟨hsound, hplain, rfl⟩

theorem became_takeExpired {e : Expiry} (h : e.Sound) (now : Nat) (limit : Option Nat) :
    e.plain.Took now (limit.getD e.batch) (e.takeExpired now limit).1
        (e.takeExpired now limit).2.plain ∧
      e.Became (e.takeExpired now limit).2 (e.takeExpired now limit).2.plain := by
  obtain ⟨htook, hqueued⟩ := takeDue_took now (limit.getD e.batch) h
  exact ⟨htook, hqueued, rfl, rfl⟩

end Expiry

end RoleAccess
