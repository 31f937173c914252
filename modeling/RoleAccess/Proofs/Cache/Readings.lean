import RoleAccess.Proofs.Cache.Agreement

/-!
What a memory cache answers, told from its history. A key has the value that was last written to it
if nothing has taken it out since and its deadline has not passed (`MemoryCache.read_eq_some_iff`).
The history is the list of the requests so far, each with its time and the keys that there were
before and after it (`CacheMoment`).
-/

set_option autoImplicit false
set_option relaxedAutoImplicit false

namespace RoleAccess

/-- A key as it stands in a cache. -/
structure Holding where
  value : Value
  lease : Lease
  tags : List String

def Holding.standing (x : Holding) : Standing := ⟨some x.value, some x.lease, x.tags⟩

theorem Standing.Whole.exists_holding {s : Standing} (h : s.Whole) {v : Value}
    (hv : s.value = some v) : ∃ x : Holding, s = x.standing ∧ x.value = v := by
  obtain ⟨value, lease, tags⟩ := s
  have hleased := h.leased
  cases hv
  obtain ⟨l, rfl⟩ := Option.isSome_iff_exists.mp hleased
  exact ⟨⟨v, l, tags⟩, rfl, rfl⟩

theorem Holding.value_read {x : Holding} {now : Nat} {v : Value} :
    (x.standing.read now).value = some v ↔ x.value = v ∧ x.lease.isOver now = false := by
  unfold Standing.read Holding.standing
  by_cases hover : x.lease.isOver now = true <;> simp [hover]

theorem MemoryCache.mem_keys_of_standing {c : MemoryCache} {key : String} {y : Holding}
    (h : c.standing key = y.standing) : key ∈ c.keys := by
  rw [← isSome_value_iff, h]
  rfl

/-- A request, when it was made, and the keys before and after it, the latest used first. -/
structure CacheMoment where
  request : CacheRequest
  now : Nat
  before : List String
  after : List String

namespace CacheMoment

/-- Whether a request takes out a key. Reading does if the key has expired, and writing another does
if the cache is full and no key has gone unused for longer. A purge only takes what is due. -/
def TakesOut (m : CacheMoment) (capacity : Nat) (key : String) (x : Holding) : Prop :=
  match m.request with
  | .get other => other = key ∧ x.lease.isOver m.now = true
  | .set other _ _ =>
    other ∉ m.before ∧ m.before.length = capacity ∧ m.before.getLast? = some key
  | .delete other => other = key
  | .deletePattern pattern => Text.Glob.covers pattern key = true
  | .deleteTag tag => tag ∈ x.tags
  | .purge => key ∉ m.after ∧ ∃ deadline, x.lease.deadline = some deadline ∧ deadline ≤ m.now
  | .clear => True
  | .advance _ => False

/-- Reading a key renews its lease. -/
def used (m : CacheMoment) (key : String) (x : Holding) : Holding :=
  match m.request with
  | .get other => if other = key then { x with lease := x.lease.renewed m.now } else x
  | _ => x

/-- A key that a request writes stands as it is written, and any other as it did before, if it is
not taken out. -/
def Carries (m : CacheMoment) (o : MemoryCacheOptions) (key : String) (stood : Holding → Prop)
    (x : Holding) : Prop :=
  (∃ value options, m.request = .set key value options ∧
    x = ⟨value, .granted m.now (options.ttl.or o.defaultTtl) options.sliding, options.tags⟩) ∨
  (∀ value options, m.request ≠ .set key value options) ∧
    ∃ y, stood y ∧ ¬m.TakesOut o.capacity key y ∧ x = m.used key y

end CacheMoment

/-- How a key stands after requests none of which wrote it or took it out. -/
inductive Lasts (capacity : Nat) (key : String) : Holding → List CacheMoment → Holding → Prop
  | nil (x : Holding) : Lasts capacity key x [] x
  | cons {m : CacheMoment} {rest : List CacheMoment} {x last : Holding}
    (unwritten : ∀ value options, m.request ≠ .set key value options)
    (kept : ¬m.TakesOut capacity key x) (lasts : Lasts capacity key (m.used key x) rest last) :
    Lasts capacity key x (m :: rest) last

/-- How a key stands after a history: as it was written last, if it has lasted since. -/
def Stands (o : MemoryCacheOptions) (past : List CacheMoment) (key : String) (x : Holding) : Prop :=
  ∃ earlier wrote later value options, past = earlier ++ wrote :: later ∧
    wrote.request = .set key value options ∧
      Lasts o.capacity key ⟨value,
        .granted wrote.now (options.ttl.or o.defaultTtl) options.sliding, options.tags⟩ later x

/-! ### One request more -/

theorem lasts_concat {capacity : Nat} {key : String} {m : CacheMoment} {later : List CacheMoment}
    {x last : Holding} : Lasts capacity key x (later ++ [m]) last ↔
      (∀ value options, m.request ≠ .set key value options) ∧
        ∃ y, Lasts capacity key x later y ∧ ¬m.TakesOut capacity key y ∧ last = m.used key y := by
  induction later generalizing x with
  | nil =>
    constructor
    · rintro (_ | ⟨hunwritten, hkept, hrest⟩)
      cases hrest
      exact ⟨hunwritten, x, .nil x, hkept, rfl⟩
    · rintro ⟨hunwritten, y, hlasts, hkept, rfl⟩
      cases hlasts
      exact .cons hunwritten hkept (.nil _)
  | cons first rest ih =>
    constructor
    · rintro (_ | ⟨hunwritten, hkept, hrest⟩)
      obtain ⟨hlast, y, hlasts, htail⟩ := ih.mp hrest
      exact ⟨hlast, y, .cons hunwritten hkept hlasts, htail⟩
    · rintro ⟨hlast, y, _ | ⟨hunwritten, hkept, hlasts⟩, htail⟩
      exact .cons hunwritten hkept (ih.mpr ⟨hlast, y, hlasts, htail⟩)

theorem stands_nil {o : MemoryCacheOptions} {key : String} {x : Holding} :
    ¬Stands o [] key x := by
  rintro ⟨earlier, wrote, later, -, -, hpast, -⟩
  exact List.append_ne_nil_of_right_ne_nil earlier (List.cons_ne_nil _ _) hpast.symm

theorem stands_concat {o : MemoryCacheOptions} {past : List CacheMoment} {m : CacheMoment}
    {key : String} {x : Holding} :
    Stands o (past ++ [m]) key x ↔ m.Carries o key (Stands o past key) x := by
  constructor
  · rintro ⟨earlier, wrote, later, value, options, hpast, hwrote, hlasts⟩
    rcases later.eq_nil_or_concat' with rfl | ⟨init, last, rfl⟩
    · obtain ⟨rfl, hsame⟩ := List.append_inj' hpast rfl
      cases hsame
      cases hlasts
      exact Or.inl ⟨value, options, hwrote, rfl⟩
    · rw [← List.cons_append, ← List.append_assoc] at hpast
      obtain ⟨hinit, hsame⟩ := List.append_inj' hpast rfl
      cases hsame
      obtain ⟨hunwritten, y, hy, hkept, hused⟩ := lasts_concat.mp hlasts
      exact Or.inr ⟨hunwritten, y,
        ⟨earlier, wrote, init, value, options, hinit, hwrote, hy⟩, hkept, hused⟩
  · rintro (⟨value, options, hwrote, rfl⟩ |
      ⟨hunwritten, y, ⟨earlier, wrote, later, value, options, rfl, hwrote, hy⟩, hkept, hused⟩)
    · exact ⟨past, m, [], value, options, rfl, hwrote, .nil _⟩
    · have hlasts := lasts_concat.mpr ⟨hunwritten, y, hy, hkept, hused⟩
      refine ⟨earlier, wrote, later ++ [m], value, options, ?_, hwrote, hlasts⟩
      rw [List.append_assoc, List.cons_append]

namespace CacheClock

/-- What reading a key would give. -/
def read (c : CacheClock) (key : String) : Option Value := (c.cache.get c.now key).1

def moment (c : CacheClock) (q : CacheRequest) : CacheMoment :=
  ⟨q, c.now, c.cache.keys, (c.step q).cache.keys⟩

/-- The history of a run. -/
def moments (c : CacheClock) : List CacheRequest → List CacheMoment
  | [] => []
  | q :: rest => c.moment q :: (c.step q).moments rest

theorem moments_concat (c : CacheClock) (requests : List CacheRequest) (q : CacheRequest) :
    c.moments (requests ++ [q]) = c.moments requests ++ [(c.run requests).moment q] := by
  induction requests generalizing c with
  | nil => rfl
  | cons first rest ih => exact congrArg _ (ih (c.step first))

/-! ### One step of a cache -/

/-- What a request carries on of a key, where the cache goes by these options. -/
def CarriesOn (c : CacheClock) (q : CacheRequest) (key : String) : Prop :=
  ∀ x : Holding, (c.step q).cache.standing key = x.standing ↔
    (c.moment q).Carries c.cache.options key (fun y ↦ c.cache.standing key = y.standing) x

/-- A request that removes a key or leaves it as it stands. -/
theorem carriesOn_of_removed {c : CacheClock} {q : CacheRequest} {key : String} (gone : Prop)
    [Decidable gone]
    (hseen : (c.step q).cache.standing key = if gone then {} else c.cache.standing key)
    (hunwritten : ∀ value options, q ≠ .set key value options)
    (hused : ∀ y, (c.moment q).used key y = y)
    (hgone : ∀ y, c.cache.standing key = Holding.standing y →
      ((c.moment q).TakesOut c.cache.options.capacity key y ↔ gone)) : c.CarriesOn q key := by
  intro x
  rw [hseen]
  constructor
  · intro hx
    split at hx
    · cases hx
    next hkept =>
      exact Or.inr ⟨hunwritten, x, hx, fun h ↦ hkept ((hgone x hx).mp h), (hused x).symm⟩
  · rintro (⟨value, options, hwrote, -⟩ | ⟨-, y, hy, hkept, rfl⟩)
    · exact absurd hwrote (hunwritten value options)
    · rw [hused, if_neg fun h ↦ hkept ((hgone y hy).mpr h), hy]

theorem carriesOn_get {c : CacheClock} (h : c.cache.Whole) (other key : String) :
    c.CarriesOn (.get other) key := by
  have hseen : (c.step (.get other)).cache.standing = _ :=
    (MemoryCache.became_get h c.now other).2.standing
  by_cases hkey : key = other
  · subst hkey
    intro x
    rw [hseen, Function.update_self]
    constructor
    · intro hx
      unfold Standing.read at hx
      split at hx
      · cases hx
      next hover =>
        obtain ⟨hvalue, hlease, htags⟩ := Standing.mk.inj hx
        obtain ⟨lease, hheld, hrenewed⟩ := Option.map_eq_some_iff.mp hlease
        rw [hheld, Option.any_some] at hover
        refine Or.inr ⟨fun _ _ ↦ CacheRequest.noConfusion, ⟨x.value, lease, x.tags⟩, ?_,
          fun h ↦ hover h.2, ?_⟩
        · change c.cache.standing key = ⟨some x.value, some lease, x.tags⟩
          rw [← hvalue, ← hheld, ← htags]
        · obtain ⟨value, renewed, tags⟩ := x
          cases hrenewed
          exact (if_pos rfl).symm
    · rintro (⟨value, options, hwrote, -⟩ | ⟨-, y, hy, hkept, rfl⟩)
      · cases hwrote
      · have hover : y.lease.isOver c.now = false :=
          Bool.eq_false_iff.mpr fun hover ↦ hkept ⟨rfl, hover⟩
        simp [hy, Standing.read, Holding.standing, CacheMoment.used, moment, hover]
  · have hother : other ≠ key := Ne.symm hkey
    refine carriesOn_of_removed False ?_ (fun _ _ ↦ CacheRequest.noConfusion)
      (fun y ↦ if_neg hother) fun y _ ↦ iff_of_false (fun h ↦ hother h.1) id
    rw [hseen, Function.update_of_ne hkey, if_neg id]

theorem carriesOn_set {c : CacheClock} (h : c.cache.Whole) (other : String) (value : Value)
    (options : WriteOptions) (key : String) : c.CarriesOn (.set other value options) key := by
  have hseen : (c.step (.set other value options)).cache.standing = _ :=
    (MemoryCache.became_set h.inOrder c.now other value options).standing
  by_cases hkey : key = other
  · subst hkey
    intro x
    rw [hseen]
    dsimp only
    rw [if_pos rfl]
    constructor
    · intro hx
      obtain ⟨hvalue, hlease, htags⟩ := Standing.mk.inj hx
      obtain ⟨held, lease, tags⟩ := x
      cases hvalue
      cases hlease
      cases htags
      exact Or.inl ⟨held, options, rfl, rfl⟩
    · rintro (⟨v, written, hwrote, rfl⟩ | ⟨hunwritten, -⟩)
      · cases hwrote
        rfl
      · exact absurd rfl (hunwritten _ _)
  · refine carriesOn_of_removed (c.cache.displaced other value = some key) ?_
      (fun v written hwrote ↦ ?_) (fun y ↦ rfl) fun y _ ↦ ?_
    · exact (congrFun hseen key).trans (if_neg hkey)
    · cases hwrote
      exact hkey rfl
    · exact (MemoryCache.displaced_eq_some_iff h.inOrder other value key).symm

theorem carriesOn_delete {c : CacheClock} (h : c.cache.Whole) (other key : String) :
    c.CarriesOn (.delete other) key := by
  have hseen : (c.step (.delete other)).cache.standing = _ :=
    (MemoryCache.became_delete h.inOrder other).standing
  refine carriesOn_of_removed (key = other) ?_ (fun _ _ ↦ CacheRequest.noConfusion)
    (fun y ↦ rfl) fun y _ ↦ eq_comm
  rw [hseen, Function.update_apply]

theorem carriesOn_deletePattern {c : CacheClock} (h : c.cache.Whole) (pattern key : String) :
    c.CarriesOn (.deletePattern pattern) key := by
  have hseen : (c.step (.deletePattern pattern)).cache.standing = _ :=
    (MemoryCache.became_deleteAll h.inOrder
      (c.cache.keys.filter (Text.Glob.covers pattern))).standing
  refine carriesOn_of_removed _ (congrFun hseen key) (fun _ _ ↦ CacheRequest.noConfusion)
    (fun y ↦ rfl) fun y hy ↦ ?_
  rw [List.mem_filter]
  exact (and_iff_right (MemoryCache.mem_keys_of_standing hy)).symm

theorem carriesOn_deleteTag {c : CacheClock} (h : c.cache.Whole) (tag key : String) :
    c.CarriesOn (.deleteTag tag) key := by
  have hseen : (c.step (.deleteTag tag)).cache.standing = _ :=
    (MemoryCache.became_deleteAll h.inOrder
      (c.cache.keysOf[tag]?.elim [] Std.TreeSet.toList)).standing
  refine carriesOn_of_removed _ (congrFun hseen key) (fun _ _ ↦ CacheRequest.noConfusion)
    (fun y ↦ rfl) fun y hy ↦ ?_
  have htags : MemoryCache.tagsOn c.cache.tagsOf key = y.tags := congrArg Standing.tags hy
  rw [MemoryCache.mem_toList_iff, h.inOrder.tags.inverse, htags]
  rfl

theorem carriesOn_purge {c : CacheClock} (h : c.cache.Whole) (key : String) :
    c.CarriesOn .purge key := by
  have hseen : (c.step .purge).cache.standing = _ :=
    (MemoryCache.became_purge h.inOrder c.now).standing
  refine carriesOn_of_removed _ (congrFun hseen key) (fun _ _ ↦ CacheRequest.noConfusion)
    (fun y ↦ rfl) fun y hy ↦ ?_
  constructor
  · rintro ⟨hmissing, -⟩
    by_contra hkept
    refine hmissing (MemoryCache.mem_keys_of_standing (y := y) ?_)
    exact (congrFun hseen key).trans ((if_neg hkept).trans hy)
  · intro hgone
    refine ⟨fun hleft ↦ ?_, ?_⟩
    · have hsome := MemoryCache.isSome_value_iff.mpr hleft
      rw [(congrFun hseen key).trans (if_pos hgone)] at hsome
      cases hsome
    · obtain ⟨x, hx, rfl⟩ := List.mem_map.mp hgone
      obtain ⟨hdue, lease, hlease, hdeadline, -⟩ :=
        (Expiry.became_takeExpired h.inOrder.expiry c.now none).1.reported x hx
      have hsame : some y.lease = some lease := (congrArg Standing.lease hy).symm.trans hlease
      rw [Option.some.inj hsame]
      exact ⟨x.expiredAt, hdeadline, hdue⟩

theorem carriesOn {c : CacheClock} (h : c.cache.Whole) (q : CacheRequest) (key : String) :
    c.CarriesOn q key := by
  cases q with
  | get other => exact carriesOn_get h other key
  | set other value options => exact carriesOn_set h other value options key
  | delete other => exact carriesOn_delete h other key
  | deletePattern pattern => exact carriesOn_deletePattern h pattern key
  | deleteTag tag => exact carriesOn_deleteTag h tag key
  | purge => exact carriesOn_purge h key
  | clear =>
    have hseen : (c.step .clear).cache.standing = _ := (MemoryCache.became_clear c.cache).standing
    refine carriesOn_of_removed True ?_ (fun _ _ ↦ CacheRequest.noConfusion)
      (fun y ↦ rfl) fun y _ ↦ Iff.rfl
    exact (congrFun hseen key).trans (if_pos trivial).symm
  | advance delay =>
    exact carriesOn_of_removed False (if_neg id).symm
      (fun _ _ ↦ CacheRequest.noConfusion) (fun y ↦ rfl) fun y _ ↦ Iff.rfl

/-! ### A whole run -/

/-- After any requests to an empty cache, a key stands in it as its history says. -/
theorem standing_run {c : CacheClock} (h : c.cache.Whole) (hempty : c.cache.standing = fun _ ↦ {})
    (requests : List CacheRequest) (key : String) (x : Holding) :
    (c.run requests).cache.standing key = x.standing ↔
      Stands c.cache.options (c.moments requests) key x := by
  induction requests using List.reverseRecOn generalizing x with
  | nil =>
    refine iff_of_false (fun hx ↦ ?_) stands_nil
    change c.cache.standing key = x.standing at hx
    rw [hempty] at hx
    cases hx
  | append_singleton init q ih =>
    obtain ⟨hwhole, hoptions⟩ := MemoryCache.whole_run h init
    rw [run_concat, moments_concat, stands_concat, carriesOn hwhole q key x, hoptions,
      funext fun y ↦ propext (ih y)]

end CacheClock

namespace MemoryCache

/-- A cache whose parts agree answers with a value that stands in it and has not expired. -/
theorem Whole.get_eq_some_iff {c : MemoryCache} (h : c.Whole) (now : Nat) (key : String)
    (v : Value) : (c.get now key).1 = some v ↔
      ∃ x : Holding, c.standing key = x.standing ∧ x.value = v ∧
      ∀ deadline, x.lease.deadline = some deadline → now ≤ deadline := by
  rw [(became_get h now key).1]
  simp only [← Lease.isOver_eq_false_iff, ← Holding.value_read]
  constructor
  · intro hread
    have hsome : ∃ w, (c.standing key).value = some w := by
      unfold Standing.read at hread
      split at hread
      · cases hread
      · exact ⟨v, hread⟩
    obtain ⟨w, hw⟩ := hsome
    obtain ⟨x, hx, -⟩ := (h.standing key).exists_holding hw
    exact ⟨x, hx, hx ▸ hread⟩
  · rintro ⟨x, hx, hread⟩
    rw [hx]
    exact hread

/-- A value can be read as soon as it is written. -/
theorem Whole.get_set {c : MemoryCache} (h : c.Whole) (now : Nat) (key : String) (v : Value)
    (options : WriteOptions) : ((c.set now key v options).get now key).1 = some v := by
  have hset := became_set h.inOrder now key v options
  obtain ⟨hwhole, -⟩ := whole_step (c := ⟨c, now⟩) h (.set key v options)
  refine (Whole.get_eq_some_iff hwhole now key v).mpr ⟨⟨v, _, options.tags⟩,
    (congrFun hset.standing key).trans (if_pos rfl), rfl, fun deadline hdeadline ↦ ?_⟩
  obtain ⟨ttl, -, hafter⟩ := Option.bind_eq_some_iff.mp hdeadline
  obtain ⟨rfl, -⟩ := Lease.dueAt_eq_some_iff.mp hafter
  exact Nat.le_add_right now ttl

/-- After any requests to a new cache, reading a key gives a value if and only if the key stands
with this value as its history says, and its deadline has not passed. Whatever the history, a value
that is written next can be read at once. -/
theorem read_eq_some_iff {o : MemoryCacheOptions} (h : 0 < o.capacity) (now : Nat)
    (requests : List CacheRequest) :
    ∃ start, ofOptions o = .ok start ∧ ∀ key v,
      ((CacheClock.run ⟨start, now⟩ requests).read key = some v ↔
        ∃ x, Stands o (CacheClock.moments ⟨start, now⟩ requests) key x ∧ x.value = v ∧
          ∀ deadline, x.lease.deadline = some deadline →
            (CacheClock.run ⟨start, now⟩ requests).now ≤ deadline) ∧
      ∀ options, ((CacheClock.run ⟨start, now⟩ requests).step (.set key v options)).read key =
        some v := by
  obtain ⟨start, hstart⟩ := exists_ofOptions h
  obtain ⟨hwhole, hempty, hoptions⟩ := whole_ofOptions hstart
  refine ⟨start, hstart, fun key v ↦ ?_⟩
  obtain ⟨hlast, -⟩ := whole_run (c := ⟨start, now⟩) hwhole requests
  have hstanding (x : Holding) :
      (CacheClock.run ⟨start, now⟩ requests).cache.standing key = x.standing ↔
        Stands o (CacheClock.moments ⟨start, now⟩ requests) key x := by
    have hrun := CacheClock.standing_run (c := ⟨start, now⟩) hwhole hempty requests key x
    rw [hoptions] at hrun
    exact hrun
  refine ⟨?_, fun options ↦ hlast.get_set _ key v options⟩
  simp only [← hstanding]
  exact hlast.get_eq_some_iff _ key v

/-- A sliding key and another one, both read before their deadlines and left until after them. -/
def readOnce : List CacheRequest :=
  [.set "a" (.int 1) { ttl := some 5, sliding := true }, .set "b" (.int 2) { ttl := some 5 },
    .advance 3, .get "a", .get "b", .advance 4]

/-- A sliding key that has been read outlives its first deadline, and one that is not sliding does
not. -/
theorem read_eq_some_iff_renewed :
    ∃ start, ofOptions { capacity := 2 } = .ok start ∧
      (∃ x, Stands { capacity := 2 } (CacheClock.moments ⟨start, 0⟩ readOnce) "a" x ∧
        x.value = .int 1) ∧
      ¬∃ x, Stands { capacity := 2 } (CacheClock.moments ⟨start, 0⟩ readOnce) "b" x ∧
        x.value = .int 2 ∧ ∀ deadline, x.lease.deadline = some deadline → 7 ≤ deadline := by
  obtain ⟨start, hstart, hread⟩ :=
    read_eq_some_iff (o := { capacity := 2 }) (by decide) 0 readOnce
  cases hstart
  obtain ⟨x, hstands, hvalue, -⟩ := (hread "a" (.int 1)).1.mp rfl
  refine ⟨_, rfl, ⟨x, hstands, hvalue⟩, fun hb ↦ ?_⟩
  have hfound := (hread "b" (.int 2)).1.mpr hb
  cases hfound

end MemoryCache

end RoleAccess
