import RoleAccess.Proofs.Cache.Readings
import RoleAccess.Proofs.Cache.Removal

/-!
Deletion by a tag. A key that a cache holds has the tags that it was last written with, whatever was
asked in the meantime (`CacheClock.tags_run`), and the index of tags leads to just these keys. So a
deletion by a tag takes the keys whose last write gave it to them, and a key that has lost the tag
since is left as it is (`MemoryCache.deleteTag_run`).
-/

set_option autoImplicit false
set_option relaxedAutoImplicit false

namespace RoleAccess

/-! ### The last write -/

namespace CacheRequest

/-- The options that a request writes a key with, if it writes it. -/
def writes? (key : String) : CacheRequest → Option WriteOptions
  | .set other _ options => if other = key then some options else none
  | _ => none

/-- The options of the last request that writes a key. -/
def lastWrite? (key : String) (requests : List CacheRequest) : Option WriteOptions :=
  requests.reverse.findSome? (writes? key)

/-- The last request that writes the key gives it the tag. -/
def LastTags (requests : List CacheRequest) (tag key : String) : Prop :=
  ∃ options, lastWrite? key requests = some options ∧ tag ∈ options.tags

variable {key : String} {q : CacheRequest} {requests : List CacheRequest}

theorem writes?_set (key : String) (value : Value) (options : WriteOptions) :
    writes? key (.set key value options) = some options :=
  if_pos rfl

theorem writes?_eq_none (h : ∀ value options, q ≠ .set key value options) :
    writes? key q = none := by
  cases q with
  | set other value options =>
    have hother : other ≠ key := fun heq ↦ h value options (heq ▸ rfl)
    exact if_neg hother
  | get other => rfl
  | delete other => rfl
  | deletePattern pattern => rfl
  | deleteTag tag => rfl
  | purge => rfl
  | clear => rfl
  | advance delay => rfl

theorem lastWrite?_concat :
    lastWrite? key (requests ++ [q]) = (writes? key q).or (lastWrite? key requests) := by
  rw [lastWrite?, List.reverse_append, List.reverse_singleton, List.singleton_append,
    List.findSome?_cons]
  cases writes? key q <;> rfl

end CacheRequest

open CacheRequest

namespace CacheMoment

theorem tags_used (m : CacheMoment) (key : String) (x : Holding) :
    (m.used key x).tags = x.tags := by
  unfold used
  split
  · split <;> rfl
  · rfl

end CacheMoment

namespace CacheClock

/-- Whatever is asked of an empty cache, the keys that it holds have the tags that they were last
written with. -/
theorem tags_run {c : CacheClock} (h : c.cache.Whole) (hempty : c.cache.standing = fun _ ↦ {})
    (requests : List CacheRequest) {key : String} {x : Holding}
    (hx : (c.run requests).cache.standing key = x.standing) :
    (lastWrite? key requests).map WriteOptions.tags = some x.tags := by
  induction requests using List.reverseRecOn generalizing x with
  | nil =>
    change c.cache.standing key = x.standing at hx
    rw [hempty] at hx
    cases hx
  | append_singleton init q ih =>
    obtain ⟨hwhole, -⟩ := MemoryCache.whole_run h init
    rw [run_concat] at hx
    rw [lastWrite?_concat]
    rcases (carriesOn hwhole q key x).mp hx with
      ⟨value, options, hwrote, rfl⟩ | ⟨hunwritten, y, hy, -, rfl⟩
    · obtain rfl : q = .set key value options := hwrote
      rw [writes?_set]
      rfl
    · have hnone : writes? key q = none := writes?_eq_none hunwritten
      rw [hnone, Option.none_or, CacheMoment.tags_used]
      exact ih hy

theorem mem_tags_run_iff {c : CacheClock} (h : c.cache.Whole)
    (hempty : c.cache.standing = fun _ ↦ {}) (requests : List CacheRequest) {key : String}
    (hkey : key ∈ (c.run requests).cache.keys) (tag : String) :
    tag ∈ ((c.run requests).cache.standing key).tags ↔ LastTags requests tag key := by
  obtain ⟨hwhole, -⟩ := MemoryCache.whole_run h requests
  obtain ⟨v, hv⟩ := Option.isSome_iff_exists.mp (MemoryCache.isSome_value_iff.mpr hkey)
  obtain ⟨x, hx, -⟩ := (hwhole.standing key).exists_holding hv
  obtain ⟨options, hwrite, hsame⟩ := Option.map_eq_some_iff.mp (tags_run h hempty requests hx)
  have htags : ((c.run requests).cache.standing key).tags = options.tags := by rw [hx, hsame]; rfl
  simp only [LastTags, hwrite, htags, Option.some.injEq, exists_eq_left']

end CacheClock

/-! ### Removing the keys of a tag -/

namespace MemoryCache

variable {c : MemoryCache}

/-- Deletion by a tag drops the keys that have it. -/
theorem Whole.drops_deleteTag (h : c.Whole) (tag : String) :
    c.Drops (c.deleteTag tag) fun key ↦ tag ∈ (c.standing key).tags := by
  refine (drops_deleteAll h.inOrder (c.keysOf[tag]?.elim [] Std.TreeSet.toList)).congr h
    fun key _ ↦ ?_
  rw [mem_toList_iff, h.inOrder.tags.inverse]
  rfl

theorem Whole.deleteTag (h : c.Whole) (tag : String) : (c.deleteTag tag).2.Whole :=
  (whole_step (c := ⟨c, 0⟩) h (.deleteTag tag)).1

/-- The keys that are left stand under the same tags as before, and the others under none. -/
theorem Drops.mem_keysUnder_iff {removed : Nat × MemoryCache} {gone : String → Prop}
    (hdrops : c.Drops removed gone) (h : c.Whole) (hremoved : removed.2.Whole)
    {key tag : String} :
    key ∈ keysUnder removed.2.keysOf tag ↔ key ∈ keysUnder c.keysOf tag ∧ ¬gone key := by
  rw [hremoved.inOrder.tags.inverse, h.inOrder.tags.inverse]
  by_cases hgone : gone key
  · have htags : tagsOn removed.2.tagsOf key = [] :=
      congrArg Standing.tags (hdrops.cleared key hgone)
    simp [htags, hgone]
  · have htags : tagsOn removed.2.tagsOf key = tagsOn c.tagsOf key :=
      congrArg Standing.tags (hdrops.kept key hgone)
    simp [htags, hgone]

/-- After any requests to a new cache, deletion by a tag removes and counts the keys whose last
write gave them the tag. All other keys stay as they are, in the index of tags as well. -/
theorem deleteTag_run {o : MemoryCacheOptions} (h : 0 < o.capacity) (now : Nat)
    (requests : List CacheRequest) (tag : String) :
    ∃ start last, ofOptions o = .ok start ∧ CacheClock.run ⟨start, now⟩ requests = last ∧
      last.cache.Drops (last.cache.deleteTag tag) (LastTags requests tag) ∧
      ∀ key other, key ∈ keysUnder (last.cache.deleteTag tag).2.keysOf other ↔
        key ∈ keysUnder last.cache.keysOf other ∧ ¬LastTags requests tag key := by
  obtain ⟨start, hstart⟩ := exists_ofOptions h
  obtain ⟨hwhole, hempty, -⟩ := whole_ofOptions hstart
  obtain ⟨hlast, -⟩ := whole_run (c := ⟨start, now⟩) hwhole requests
  have hdrops := (hlast.drops_deleteTag tag).congr hlast fun key hkey ↦
    CacheClock.mem_tags_run_iff hwhole hempty requests hkey tag
  exact ⟨start, _, hstart, rfl, hdrops,
    fun key other ↦ hdrops.mem_keysUnder_iff hlast (hlast.deleteTag tag)⟩

/-- Of the keys that have had the tag one has made room, one has been written again without it, and
one has expired and come back without it. -/
theorem deleteTag_run_rewritten :
    let requests : List CacheRequest :=
      [.set "a" (.int 1) { tags := ["x"] }, .set "b" (.int 2) { tags := ["x", "x", "y"] },
        .set "c" (.int 3) { ttl := some 1, tags := ["x"] }, .advance 5, .get "c",
        .set "c" (.int 4) {}, .set "d" (.int 5) { tags := ["x", "y"] },
        .set "b" (.int 6) { tags := ["y"] }]
    0 < ({ capacity := 3 } : MemoryCacheOptions).capacity ∧
      ∃ start last, ofOptions { capacity := 3 } = .ok start ∧
        CacheClock.run ⟨start, 0⟩ requests = last ∧
        last.cache.Drops (last.cache.deleteTag "x") (LastTags requests "x") ∧
        (last.cache.deleteTag "x").1 = 1 ∧ (last.cache.deleteTag "x").2.keys = ["b", "c"] := by
  intro requests
  obtain ⟨start, last, hstart, hrun, hdrops, -⟩ :=
    deleteTag_run (o := { capacity := 3 }) (by decide) 0 requests "x"
  refine ⟨by decide, start, last, hstart, hrun, hdrops, ?_⟩
  cases hstart
  cases hrun
  exact ⟨rfl, rfl⟩

end MemoryCache

end RoleAccess
