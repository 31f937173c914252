import RoleAccess.Proofs.Cache.Standing

/-!
Runs of a memory cache. Recency map, leases and tags agree on the keys that there are, whatever is
asked of a cache while time goes by (`MemoryCache.agrees_run`).
-/

set_option autoImplicit false
set_option relaxedAutoImplicit false

namespace RoleAccess

/-- What can be asked of a memory cache, and the passing of time. -/
inductive CacheRequest where
  | get (key : String)
  | set (key : String) (value : Value) (options : WriteOptions)
  | delete (key : String)
  | deletePattern (pattern : String)
  | deleteTag (tag : String)
  | purge
  | clear
  | advance (delay : Nat)

/-- A cache at some time. -/
structure CacheClock where
  cache : MemoryCache
  now : Nat

namespace CacheClock

def step (c : CacheClock) : CacheRequest → CacheClock
  | .get key => { c with cache := (c.cache.get c.now key).2 }
  | .set key value options => { c with cache := c.cache.set c.now key value options }
  | .delete key => { c with cache := (c.cache.delete key).2 }
  | .deletePattern pattern => { c with cache := (c.cache.deletePattern pattern).2 }
  | .deleteTag tag => { c with cache := (c.cache.deleteTag tag).2 }
  | .purge => { c with cache := (c.cache.purge c.now).2 }
  | .clear => { c with cache := c.cache.clear }
  | .advance delay => { c with now := c.now + delay }

/-- The cache and the time after requests. -/
def run (c : CacheClock) (requests : List CacheRequest) : CacheClock := requests.foldl step c

theorem run_concat (c : CacheClock) (requests : List CacheRequest) (q : CacheRequest) :
    c.run (requests ++ [q]) = (c.run requests).step q :=
  List.foldl_concat ..

end CacheClock

namespace MemoryCache

open UseOrder

/-- All parts of a cache agree on its keys, which are at most so many. -/
structure Agrees (c : MemoryCache) (capacity : Nat) : Prop where
  distinct : c.keys.Nodup
  size : c.size = c.keys.length
  size_le : c.size ≤ capacity
  /-- The keys that can expire are the keys there are. -/
  tracked : ∀ key, c.expiry.isTracked key = true ↔ key ∈ c.keys
  inverse : ∀ key tag : String,
    (∃ keys : Std.TreeSet String, c.keysOf[tag]? = some keys ∧ key ∈ keys) ↔
      ∃ tags : List String, c.tagsOf[key]? = some tags ∧ tag ∈ tags
  /-- Tags only stand by keys there are. -/
  tagged : ∀ (key : String) (tags : List String), c.tagsOf[key]? = some tags → key ∈ c.keys
  listed : ∀ (tag : String) (keys : Std.TreeSet String), c.keysOf[tag]? = some keys →
    ∀ key ∈ keys, key ∈ c.keys
  filled : ∀ (tag : String) (keys : Std.TreeSet String), c.keysOf[tag]? = some keys →
    keys.isEmpty = false

theorem mem_keysUnder_iff {keysOf : Std.TreeMap String (Std.TreeSet String)} {key tag : String} :
    key ∈ keysUnder keysOf tag ↔
      ∃ keys : Std.TreeSet String, keysOf[tag]? = some keys ∧ key ∈ keys := by
  unfold keysUnder
  cases keysOf[tag]? <;> simp

theorem mem_tagsOn_iff {tagsOf : Std.TreeMap String (List String)} {key tag : String} :
    tag ∈ tagsOn tagsOf key ↔ ∃ tags : List String, tagsOf[key]? = some tags ∧ tag ∈ tags := by
  unfold tagsOn
  cases tagsOf[key]? <;> simp

theorem isSome_value_iff {c : MemoryCache} {key : String} :
    (c.standing key).value.isSome ↔ key ∈ c.keys :=
  lookup_isSome_iff

theorem Whole.agrees {c : MemoryCache} (h : c.Whole) : c.Agrees c.options.capacity := by
  obtain ⟨⟨hrecency, -, hinverse, hfilled, hborne⟩, hwhole⟩ := h
  have hbears (key tag : String) (htag : tag ∈ tagsOn c.tagsOf key) : key ∈ c.keys :=
    isSome_value_iff.mp ((hwhole key).tagged (List.ne_nil_of_mem htag))
  have hlength : c.keys.length = c.recency.entries.length := List.length_map ..
  have hsize : c.size = c.keys.length := hrecency.size_eq.trans hlength.symm
  refine ⟨hrecency.distinct, hsize, ?_, fun key ↦ ?_, fun key tag ↦ ?_, fun key tags htags ↦ ?_,
    fun tag keys hkeys key hkey ↦ ?_, hfilled⟩
  · rw [hsize, hlength]
    exact hrecency.length_entries_le
  · rw [Expiry.isTracked_eq, ← isSome_value_iff, ← (hwhole key).leased]
    rfl
  · rw [← mem_keysUnder_iff, ← mem_tagsOn_iff]
    exact hinverse key tag
  · obtain ⟨tag, htag⟩ := List.exists_mem_of_ne_nil tags (hborne key tags htags)
    exact hbears key tag (mem_tagsOn_iff.mpr ⟨tags, htags, htag⟩)
  · exact hbears key tag ((hinverse key tag).mp (mem_keysUnder_iff.mpr ⟨keys, hkeys, hkey⟩))

/-! ### Runs -/

theorem whole_ofOptions {o : MemoryCacheOptions} {c : MemoryCache} (h : ofOptions o = .ok c) :
    c.Whole ∧ c.standing = (fun _ ↦ {}) ∧ c.options = { o with batch := max o.batch 1 } := by
  obtain ⟨hsound, hentries⟩ := sound_ofOptions h
  have hparts : c.expiry = Expiry.withBatch { defaultTtl := o.defaultTtl } o.batch ∧
      c.keysOf = ∅ ∧ c.tagsOf = ∅ ∧ c.recency.capacity = o.capacity := by
    unfold ofOptions Recency.ofCapacity at h
    split at h
    · cases h
      exact ⟨rfl, rfl, rfl, rfl⟩
    · cases h
  obtain ⟨hexpiry, hkeysOf, htagsOf, hcapacity⟩ := hparts
  obtain ⟨hqueued, hleases⟩ := Expiry.sound_empty (e := c.expiry) (by rw [hexpiry]; rfl)
    (by rw [hexpiry]; rfl)
  have hstanding := standing_of_empty hentries hleases htagsOf
  have htags : TagsAgree c.keysOf c.tagsOf := by
    rw [hkeysOf, htagsOf]
    exact tagsAgree_empty
  refine ⟨⟨⟨hsound, hqueued, htags⟩, fun key ↦ ?_⟩, hstanding, ?_⟩
  · rw [hstanding]
    exact Standing.whole_empty
  · rw [options, hexpiry, hcapacity]
    rfl

theorem whole_update {c : MemoryCache} (h : c.Whole) {s : Standing} (hs : s.Whole)
    (key other : String) : (Function.update c.standing key s other).Whole := by
  rw [Function.update_apply]
  split
  · exact hs
  · exact h.standing other

theorem whole_gone {c : MemoryCache} (h : c.Whole) (gone : Prop) [Decidable gone] (other : String) :
    (if gone then {} else c.standing other : Standing).Whole := by
  split
  · exact Standing.whole_empty
  · exact h.standing other

theorem whole_step {c : CacheClock} (h : c.cache.Whole) (q : CacheRequest) :
    (c.step q).cache.Whole ∧ (c.step q).cache.options = c.cache.options := by
  cases q with
  | get key =>
    have hbecame := (became_get h c.now key).2
    exact ⟨hbecame.whole (whole_update h ((h.standing key).read c.now) key), hbecame.options⟩
  | set key value options =>
    have hbecame := became_set h.inOrder c.now key value options
    refine ⟨hbecame.whole fun other ↦ ?_, hbecame.options⟩
    split
    · exact ⟨rfl, fun _ ↦ rfl⟩
    · exact whole_gone h _ other
  | delete key =>
    have hbecame := became_delete h.inOrder key
    exact ⟨hbecame.whole (whole_update h Standing.whole_empty key), hbecame.options⟩
  | deletePattern pattern =>
    have hbecame := became_deleteAll h.inOrder (c.cache.keys.filter (Text.Glob.covers pattern))
    exact ⟨hbecame.whole fun other ↦ whole_gone h _ other, hbecame.options⟩
  | deleteTag tag =>
    have hbecame := became_deleteAll h.inOrder (c.cache.keysOf[tag]?.elim [] Std.TreeSet.toList)
    exact ⟨hbecame.whole fun other ↦ whole_gone h _ other, hbecame.options⟩
  | purge =>
    have hbecame := became_purge h.inOrder c.now
    exact ⟨hbecame.whole fun other ↦ whole_gone h _ other, hbecame.options⟩
  | clear =>
    have hbecame := became_clear c.cache
    exact ⟨hbecame.whole fun _ ↦ Standing.whole_empty, hbecame.options⟩
  | advance delay => exact ⟨h, rfl⟩

theorem whole_run {c : CacheClock} (h : c.cache.Whole) (requests : List CacheRequest) :
    (c.run requests).cache.Whole ∧ (c.run requests).cache.options = c.cache.options := by
  induction requests generalizing c with
  | nil => exact ⟨h, rfl⟩
  | cons q rest ih =>
    obtain ⟨hwhole, hoptions⟩ := whole_step h q
    obtain ⟨hlast, hsame⟩ := ih hwhole
    exact ⟨hlast, hsame.trans hoptions⟩

/-- A new cache that may hold anything at all, asked anything in any order: afterwards its parts
agree on its keys, and these are no more than its capacity. -/
theorem agrees_run {o : MemoryCacheOptions} (h : 0 < o.capacity) (now : Nat)
    (requests : List CacheRequest) :
    ∃ start, ofOptions o = .ok start ∧
      (CacheClock.run ⟨start, now⟩ requests).cache.Agrees o.capacity := by
  obtain ⟨start, hstart⟩ := exists_ofOptions h
  obtain ⟨hwhole, -, hoptions⟩ := whole_ofOptions hstart
  obtain ⟨hlast, hsame⟩ := whole_run (c := ⟨start, now⟩) hwhole requests
  have hcapacity : (CacheClock.run ⟨start, now⟩ requests).cache.options.capacity = o.capacity := by
    rw [hsame, hoptions]
  exact ⟨start, hstart, hcapacity ▸ hlast.agrees⟩

/-- A run in which a key with a repeated tag makes room for another. -/
theorem agrees_run_displaced :
    ∃ start last, ofOptions { capacity := 1 } = .ok start ∧
      CacheClock.run ⟨start, 0⟩ [.set "a" (.int 1) { tags := ["x", "x", "y"], sliding := true },
        .advance 3, .get "a", .set "b" (.int 2) { ttl := some 5, tags := ["x"] }, .deleteTag "y",
        .advance 4, .purge] = last ∧
      last.cache.Agrees 1 ∧ last.cache.keys = ["b"] := by
  obtain ⟨start, hstart, hagrees⟩ := agrees_run (o := { capacity := 1 }) (by decide) 0
    [.set "a" (.int 1) { tags := ["x", "x", "y"], sliding := true }, .advance 3, .get "a",
      .set "b" (.int 2) { ttl := some 5, tags := ["x"] }, .deleteTag "y", .advance 4, .purge]
  refine ⟨start, _, hstart, rfl, hagrees, ?_⟩
  cases hstart
  rfl

end MemoryCache

end RoleAccess
