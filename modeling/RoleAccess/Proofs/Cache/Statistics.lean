import RoleAccess.Proofs.Cache.Readings

/-!
What the counters of a memory cache count. The hits are the reads that gave a value, and the
evictions are the entries that had to make room for others. The misses are the reads of keys that
were not there. A read that finds its key held beyond its deadline gives no value either, and is not
among the misses (`MemoryCache.stats_run`).
-/

set_option autoImplicit false
set_option relaxedAutoImplicit false

namespace RoleAccess

namespace MemoryCache

/-! ### Counters of a cache -/

theorem blind_deleteAll {β : Type} {view : Recency Value → β} (h : Recency.Blind view)
    (c : MemoryCache) (keys : List String) :
    view (c.deleteAll keys).2.recency = view c.recency := by
  have hfold (keys : List String) (count : Nat) (c : MemoryCache) :
      view (keys.foldl (fun (kept : Nat × MemoryCache) key ↦
        (kept.1 + (kept.2.delete key).1.toNat, (kept.2.delete key).2)) (count, c)).2.recency =
        view c.recency := by
    induction keys generalizing count c with
    | nil => rfl
    | cons key rest ih => exact (ih _ (c.delete key).2).trans (h.delete c.recency key)
  exact hfold keys 0 c

/-- What a read comes to: the key is not there, its deadline has passed, or it has a value. Only the
first and the last are counted. -/
theorem Whole.get_cases {c : MemoryCache} (h : c.Whole) (now : Nat) (key : String) :
    let lapsed := (c.standing key).lease.any (·.isOver now)
    (key ∉ c.keys ∧ lapsed = false ∧ (c.get now key).1 = none ∧
        (c.get now key).2.recency.uses = c.recency.uses.count false) ∨
      (key ∈ c.keys ∧ lapsed = true ∧ (c.get now key).1 = none ∧
        (c.get now key).2.recency.uses = c.recency.uses) ∨
      (key ∈ c.keys ∧ lapsed = false ∧ (c.get now key).1.isSome ∧
        (c.get now key).2.recency.uses = c.recency.uses.count true) := by
  have hvalue : (c.recency.get key).1 = (c.standing key).value :=
    (Recency.sound_get h.inOrder.recency key).1
  have huses := Recency.uses_get h.inOrder.recency key
  have hleased := (h.standing key).leased
  cases hlease : (c.standing key).lease with
  | none =>
    rw [hlease, Option.isSome_none] at hleased
    have hmissing := Option.not_isSome_iff_eq_none.mp (Bool.eq_false_iff.mp hleased.symm)
    rw [hvalue, ← hleased] at huses
    rw [get_of_untracked hlease (hvalue.trans hmissing), ← isSome_value_iff, ← hleased]
    exact Or.inl ⟨Bool.false_ne_true, rfl, rfl, huses⟩
  | some lease =>
    rw [hlease, Option.isSome_some] at hleased
    have hheld : key ∈ c.keys := isSome_value_iff.mp hleased.symm
    obtain ⟨v, hv⟩ := Option.isSome_iff_exists.mp hleased.symm
    rw [hvalue, ← hleased] at huses
    by_cases hover : lease.isOver now = true
    · rw [get_of_over hlease hover]
      exact Or.inr (Or.inl ⟨hheld, hover, rfl, Recency.blind_uses.delete c.recency key⟩)
    · have halive : lease.isOver now = false := Bool.eq_false_iff.mpr hover
      rw [get_of_alive hlease halive (hvalue.trans hv)]
      exact Or.inr (Or.inr ⟨hheld, halive, rfl, huses⟩)

theorem tally_get (c : MemoryCache) (now : Nat) (key : String) :
    (c.get now key).2.recency.tally = c.recency.tally := by
  unfold get
  split
  · exact Recency.tally_delete c.recency key
  · have hused := Recency.tally_get c.recency key
    dsimp only
    split <;> exact hused

/-- Writing takes out the key that is displaced, and no other. -/
theorem mem_keys_set {c : MemoryCache} (h : c.InOrder) (now : Nat) (key : String) (value : Value)
    (o : WriteOptions) {other : String} (hother : other ∈ c.keys) :
    other ∉ (c.set now key value o).keys ↔ c.displaced key value = some other := by
  have hset := congrFun (became_set h now key value o).standing other
  rw [← isSome_value_iff, hset]
  by_cases hself : other = key
  · subst hself
    simp [displaced_ne h other value]
  · rw [← isSome_value_iff] at hother
    by_cases hgone : c.displaced key value = some other <;> simp [hself, hgone, hother]

theorem evictions_set (c : MemoryCache) (now : Nat) (key : String) (value : Value)
    (o : WriteOptions) : (c.set now key value o).recency.evictions =
      c.recency.evictions + (c.displaced key value).toList.length := by
  rw [recency_set, displaced, Option.toList_map, List.length_map]
  exact congrArg Recency.Tally.evictions (Recency.tally_set c.recency key value)

/-- A key is displaced by a new one if the cache is full. -/
theorem length_displaced {c : MemoryCache} (h : c.InOrder) (key : String) (value : Value) :
    (c.displaced key value).toList.length =
      if key ∉ c.keys ∧ c.keys.length = c.options.capacity then 1 else 0 := by
  have hdisplaced := displaced_eq_some_iff h key value
  by_cases hfull : key ∉ c.keys ∧ c.keys.length = c.options.capacity
  · have hsome : c.keys ≠ [] := List.ne_nil_of_length_pos (hfull.2 ▸ c.recency.capacity_pos)
    have hlast := List.getLast?_eq_some_getLast hsome
    rw [if_pos hfull, (hdisplaced _).mpr ⟨hfull.1, hfull.2, hlast⟩]
    rfl
  · have hnone : c.displaced key value = none :=
      Option.eq_none_iff_forall_ne_some.mpr fun old hold ↦ hfull <|
        ((hdisplaced old).mp hold).imp_right And.left
    rw [if_neg hfull, hnone]
    rfl

/-- As many keys are lost in a write as are displaced. -/
theorem countP_lost {c : MemoryCache} (h : c.Whole) (now : Nat) (key : String) (value : Value)
    (o : WriteOptions) : c.keys.countP (· ∉ (c.set now key value o).keys) =
      (c.displaced key value).toList.length := by
  have hlost : c.keys.countP (· ∉ (c.set now key value o).keys) =
      c.keys.countP fun other ↦ c.displaced key value = some other :=
    List.countP_congr fun other hother ↦ by
      simpa using mem_keys_set h.inOrder now key value o hother
  rw [hlost]
  cases hdisplaced : c.displaced key value with
  | none => simp
  | some old =>
    obtain ⟨-, -, hlast⟩ := (displaced_eq_some_iff h.inOrder key value old).mp hdisplaced
    calc c.keys.countP (fun other ↦ some old = some other)
        = c.keys.count old := List.countP_congr fun other _ ↦ by
          rw [decide_eq_true_iff, Option.some_inj, beq_iff_eq, eq_comm]
      _ = 1 := List.count_eq_one_of_mem h.agrees.distinct (List.mem_of_getLast? hlast)

end MemoryCache

namespace CacheClock

/-! ### What a run comes to -/

/-- Reads that gave a value. -/
def answered (c : CacheClock) : CacheRequest → Nat
  | .get key => (c.read key).isSome.toNat
  | _ => 0

/-- Reads that gave none. -/
def unanswered (c : CacheClock) : CacheRequest → Nat
  | .get key => (c.read key).isNone.toNat
  | _ => 0

/-- Reads of keys that were not there. -/
def absent (c : CacheClock) : CacheRequest → Nat
  | .get key => if key ∈ c.cache.keys then 0 else 1
  | _ => 0

/-- Reads of keys that were there beyond their deadlines. -/
def lapsed (c : CacheClock) : CacheRequest → Nat
  | .get key => ((c.cache.standing key).lease.any (·.isOver c.now)).toNat
  | _ => 0

/-- Keys that are gone after another was written. -/
def pushedOut (c : CacheClock) : CacheRequest → Nat
  | .set key value o => c.cache.keys.countP (· ∉ (c.cache.set c.now key value o).keys)
  | _ => 0

/-- Writes of new keys to a full cache. -/
def crowded (c : CacheClock) : CacheRequest → Nat
  | .set key _ _ =>
    if key ∉ c.cache.keys ∧ c.cache.keys.length = c.cache.options.capacity then 1 else 0
  | _ => 0

/-- The sum over the requests of a run, each at its time. -/
def total (amount : CacheClock → CacheRequest → Nat) (c : CacheClock) : List CacheRequest → Nat
  | [] => 0
  | q :: rest => amount c q + total amount (c.step q) rest

/-- A quantity that grows with each request by an amount grows in a run by their sum. -/
theorem total_run {amount : CacheClock → CacheRequest → Nat} {quantity : MemoryCache → Nat}
    (hstep : ∀ c : CacheClock, c.cache.Whole → ∀ q,
      quantity (c.step q).cache = quantity c.cache + amount c q)
    {c : CacheClock} (h : c.cache.Whole) (requests : List CacheRequest) :
    quantity (c.run requests).cache = quantity c.cache + c.total amount requests := by
  induction requests generalizing c with
  | nil => rfl
  | cons q rest ih =>
    obtain ⟨hwhole, -⟩ := MemoryCache.whole_step h q
    calc quantity ((c.step q).run rest).cache
        = quantity (c.step q).cache + (c.step q).total amount rest := ih hwhole
      _ = quantity c.cache + amount c q + (c.step q).total amount rest := by rw [hstep c h q]
      _ = quantity c.cache + c.total amount (q :: rest) := Nat.add_assoc ..

/-- Amounts that add up request by request add up in a run. -/
theorem total_add {whole part rest : CacheClock → CacheRequest → Nat}
    (hstep : ∀ c : CacheClock, c.cache.Whole → ∀ q, whole c q = part c q + rest c q)
    {c : CacheClock} (h : c.cache.Whole) (requests : List CacheRequest) :
    c.total whole requests = c.total part requests + c.total rest requests := by
  induction requests generalizing c with
  | nil => rfl
  | cons q later ih =>
    obtain ⟨hwhole, -⟩ := MemoryCache.whole_step h q
    calc whole c q + (c.step q).total whole later
        = (part c q + rest c q) + ((c.step q).total part later + (c.step q).total rest later) := by
          rw [hstep c h q, ih hwhole]
      _ = (part c q + (c.step q).total part later) +
          (rest c q + (c.step q).total rest later) := Nat.add_add_add_comm ..

/-! ### One step of the counters -/

/-- What is kept apart from the entries, only reads and writes change. -/
theorem blind_step {β : Type} {view : Recency Value → β} (h : Recency.Blind view)
    (c : CacheClock) {q : CacheRequest} (hread : ∀ key, q ≠ .get key)
    (hwrite : ∀ key value o, q ≠ .set key value o) :
    view (c.step q).cache.recency = view c.cache.recency := by
  cases q with
  | get key => exact absurd rfl (hread key)
  | set key value o => exact absurd rfl (hwrite key value o)
  | delete key => exact h.delete c.cache.recency key
  | deletePattern pattern => exact MemoryCache.blind_deleteAll h c.cache _
  | deleteTag tag => exact MemoryCache.blind_deleteAll h c.cache _
  | purge =>
    exact MemoryCache.blind_deleteAll h
      { c.cache with expiry := (c.cache.expiry.takeExpired c.now none).2 } _
  | clear => exact h.clear c.cache.recency
  | advance delay => rfl

theorem uses_step {c : CacheClock} (h : c.cache.Whole) (q : CacheRequest) :
    (c.step q).cache.recency.uses =
      ⟨c.cache.recency.hits + c.answered q, c.cache.recency.misses + c.absent q⟩ := by
  have hkept := blind_step Recency.blind_uses c (q := q)
  cases q with
  | get key =>
    obtain ⟨hheld, -, hread, huses⟩ | ⟨hheld, -, hread, huses⟩ | ⟨hheld, -, hread, huses⟩ :=
      h.get_cases c.now key
    all_goals
      refine Eq.trans huses ?_
      simp [Recency.Uses.count, Recency.uses, answered, absent, read, hheld, hread]
  | set key value o =>
    change (c.cache.set c.now key value o).recency.uses = _
    rw [MemoryCache.recency_set]
    exact Recency.uses_set c.cache.recency key value
  | _ => exact hkept (by simp) (by simp)

/-- A write to a full cache pushes out a key and counts it. -/
theorem evictions_step {c : CacheClock} (h : c.cache.Whole) (q : CacheRequest) :
    (c.step q).cache.recency.evictions = c.cache.recency.evictions + c.pushedOut q ∧
      c.pushedOut q = c.crowded q := by
  have hkept := blind_step Recency.blind_tally c (q := q)
  cases q with
  | get key =>
    exact ⟨congrArg Recency.Tally.evictions (MemoryCache.tally_get c.cache c.now key), rfl⟩
  | set key value o =>
    have hlost : c.pushedOut (.set key value o) = _ := MemoryCache.countP_lost h c.now key value o
    rw [hlost]
    exact ⟨MemoryCache.evictions_set c.cache c.now key value o,
      MemoryCache.length_displaced h.inOrder key value⟩
  | _ => exact ⟨congrArg Recency.Tally.evictions (hkept (by simp) (by simp)), rfl⟩

/-- A read without a value is one of a key that is not there or one that comes too late. -/
theorem unanswered_eq {c : CacheClock} (h : c.cache.Whole) (q : CacheRequest) :
    c.unanswered q = c.absent q + c.lapsed q := by
  cases q with
  | get key =>
    obtain ⟨hheld, hover, hread, -⟩ | ⟨hheld, hover, hread, -⟩ | ⟨hheld, hover, hread, -⟩ :=
      h.get_cases c.now key
    all_goals simp [unanswered, absent, lapsed, read, hheld, hover, hread]
  | _ => rfl

end CacheClock

namespace MemoryCache

theorem stats_ofOptions {o : MemoryCacheOptions} {c : MemoryCache} (h : ofOptions o = .ok c) :
    c.stats = ⟨0, o.capacity, 0, 0, 0⟩ := by
  unfold ofOptions Recency.ofCapacity at h
  split at h
  · cases h
    rfl
  · cases h

/-- After any requests to a new cache its hits are the reads that gave a value, and its size is the
number of its keys. Its evictions are the keys that were gone after others were written, one for
each new key in a full cache. Its misses are the reads of keys that were not there, and the other
reads without a value found a key that was there beyond its deadline. -/
theorem stats_run {o : MemoryCacheOptions} (h : 0 < o.capacity) (now : Nat)
    (requests : List CacheRequest) :
    ∃ start, ofOptions o = .ok start ∧
      let clock : CacheClock := ⟨start, now⟩
      let last := (clock.run requests).cache
      last.stats.hits = clock.total CacheClock.answered requests ∧
        last.stats.misses = clock.total CacheClock.absent requests ∧
        clock.total CacheClock.unanswered requests =
          clock.total CacheClock.absent requests + clock.total CacheClock.lapsed requests ∧
        last.stats.evictions = clock.total CacheClock.pushedOut requests ∧
        last.stats.evictions = clock.total CacheClock.crowded requests ∧
        last.stats.size = last.keys.length ∧ last.keys.Nodup := by
  obtain ⟨start, hstart⟩ := exists_ofOptions h
  obtain ⟨hwhole, -, -⟩ := whole_ofOptions hstart
  obtain ⟨-, -, hhits, hmisses, hevictions⟩ := CacheStats.mk.inj (stats_ofOptions hstart)
  obtain ⟨hlast, -⟩ := whole_run (c := ⟨start, now⟩) hwhole requests
  have hfrom (quantity : MemoryCache → Nat) {amount : CacheClock → CacheRequest → Nat}
      (hzero : quantity start = 0) (hstep : ∀ c : CacheClock, c.cache.Whole → ∀ q,
        quantity (c.step q).cache = quantity c.cache + amount c q) :
      quantity (CacheClock.run ⟨start, now⟩ requests).cache =
        CacheClock.total amount ⟨start, now⟩ requests := by
    rw [CacheClock.total_run hstep hwhole, hzero, Nat.zero_add]
  refine ⟨start, hstart, ?_, ?_, ?_, ?_, ?_, hlast.agrees.size, hlast.agrees.distinct⟩
  · exact hfrom (·.recency.hits) hhits fun c hc q ↦
      congrArg Recency.Uses.hits (CacheClock.uses_step hc q)
  · exact hfrom (·.recency.misses) hmisses fun c hc q ↦
      congrArg Recency.Uses.misses (CacheClock.uses_step hc q)
  · exact CacheClock.total_add (c := ⟨start, now⟩)
      (fun c hc q ↦ CacheClock.unanswered_eq hc q) hwhole requests
  · exact hfrom (·.recency.evictions) hevictions fun c hc q ↦
      (CacheClock.evictions_step hc q).1
  · refine hfrom (·.recency.evictions) hevictions fun c hc q ↦ ?_
    obtain ⟨hcounted, hcrowded⟩ := CacheClock.evictions_step hc q
    exact hcrowded ▸ hcounted

/-- A run with a hit, a miss, a read that comes too late, and a key that makes room for another. -/
theorem stats_run_each :
    ∃ start, ofOptions { capacity := 1 } = .ok start ∧ ∃ requests,
      requests = [.set "a" (.int 1) { ttl := some 5 }, .get "a", .get "b", .advance 6, .get "a",
        .set "b" (.int 2) {}, .set "c" (.int 3) {}] ∧
      (CacheClock.run ⟨start, 0⟩ requests).cache.stats = ⟨1, 1, 1, 1, 1⟩ ∧
      CacheClock.total CacheClock.unanswered ⟨start, 0⟩ requests = 1 + 1 := by
  obtain ⟨start, hstart, -, -, hunanswered, -⟩ := stats_run (o := { capacity := 1 }) (by decide) 0
    [.set "a" (.int 1) { ttl := some 5 }, .get "a", .get "b", .advance 6, .get "a",
      .set "b" (.int 2) {}, .set "c" (.int 3) {}]
  refine ⟨start, hstart, _, rfl, ?_, hunanswered.trans ?_⟩
  · cases hstart
    rfl
  · cases hstart
    rfl

/-- A read after the deadline gives no value and is not counted: there is a read without a value,
and not one miss. -/
theorem stats_misses_of_lapsed :
    ∃ start, ofOptions {} = .ok start ∧ ∃ requests,
      requests = [.set "k" (.int 1) { ttl := some nanosPerSecond },
        .advance (2 * nanosPerSecond), .get "k"] ∧
      (CacheClock.run ⟨start, 0⟩ requests).cache.stats.misses = 0 ∧
      CacheClock.total CacheClock.unanswered ⟨start, 0⟩ requests = 1 :=
  ⟨_, rfl, _, rfl, rfl, rfl⟩

end MemoryCache

end RoleAccess
