import RoleAccess.Proofs.Cache.Agreement
import RoleAccess.Proofs.Text.GlobPieces

/-!
What is removed from a cache. A removal takes some keys out of all parts of the cache and counts
those that were there; whatever is held under the other keys stays as it is, in the same order of
use (`MemoryCache.Drops`). Removals one after another are one removal. Deletion by a glob drops just
the keys that the glob describes and that have as many line feeds as it (`deletePattern_run`), so a
star does not reach beyond the end of a line (`deletePattern_within_line`).
-/

set_option autoImplicit false
set_option relaxedAutoImplicit false

namespace RoleAccess

namespace MemoryCache

open UseOrder

/-- Those of the keys of a cache that are `gone` have been removed and counted. -/
structure Drops (c : MemoryCache) (removed : Nat × MemoryCache) (gone : String → Prop) : Prop where
  count : removed.1 + removed.2.keys.length = c.keys.length
  /-- The entries that are left, with their values and in their order. -/
  order : removed.2.entries.Sublist c.entries
  mem_entries_iff : ∀ entry, entry ∈ removed.2.entries ↔ entry ∈ c.entries ∧ ¬gone entry.1
  /-- Neither a lease nor tags remain. -/
  cleared : ∀ key, gone key → removed.2.standing key = {}
  kept : ∀ key, ¬gone key → removed.2.standing key = c.standing key

namespace Drops

variable {c c' : MemoryCache} {n : Nat} {removed : Nat × MemoryCache} {gone gone' : String → Prop}

theorem refl (c : MemoryCache) : c.Drops (0, c) fun _ ↦ False where
  count := Nat.zero_add _
  order := .refl _
  mem_entries_iff _ := by simp
  cleared _ h := h.elim
  kept _ _ := rfl

theorem trans (h : c.Drops (n, c') gone) {m : Nat} {c'' : MemoryCache}
    (h' : c'.Drops (m, c'') gone') : c.Drops (n + m, c'') fun key ↦ gone key ∨ gone' key where
  count := by
    have hcount := h.count
    have hcount' := h'.count
    dsimp only at hcount hcount' ⊢
    omega
  order := h'.order.trans h.order
  mem_entries_iff entry := by
    rw [h'.mem_entries_iff, h.mem_entries_iff, not_or, and_assoc]
  cleared key hkey := by
    by_cases hlater : gone' key
    · exact h'.cleared key hlater
    · exact (h'.kept key hlater).trans (h.cleared key (hkey.resolve_right hlater))
  kept key hkey := by
    rw [not_or] at hkey
    exact (h'.kept key hkey.2).trans (h.kept key hkey.1)

theorem mem_keys_iff (h : c.Drops removed gone) {key : String} :
    key ∈ removed.2.keys ↔ key ∈ c.keys ∧ ¬gone key := by
  change key ∈ removed.2.entries.map Prod.fst ↔ key ∈ c.entries.map Prod.fst ∧ ¬gone key
  simp only [List.mem_map, h.mem_entries_iff]
  constructor
  · rintro ⟨entry, ⟨hentry, hleft⟩, rfl⟩
    exact ⟨⟨entry, hentry, rfl⟩, hleft⟩
  · rintro ⟨⟨entry, hentry, rfl⟩, hleft⟩
    exact ⟨entry, ⟨hentry, hleft⟩, rfl⟩

end Drops

/-- A key that a cache does not have stands for nothing in any part of it. -/
theorem Whole.standing_of_not_mem {c : MemoryCache} (h : c.Whole) {key : String}
    (hkey : key ∉ c.keys) : c.standing key = {} := by
  have hvalue : (c.standing key).value = none :=
    Option.not_isSome_iff_eq_none.mp (mt isSome_value_iff.mp hkey)
  obtain ⟨hleased, htagged⟩ := h.standing key
  rw [hvalue] at hleased htagged
  have hlease : (c.standing key).lease = none := by simpa using hleased
  have htags : (c.standing key).tags = [] := by simpa using htagged
  cases hstanding : c.standing key
  simp_all

/-- What is gone only matters among the keys that there are. -/
theorem Drops.congr {c : MemoryCache} {removed : Nat × MemoryCache} {gone gone' : String → Prop}
    (h : c.Drops removed gone) (hwhole : c.Whole) (hiff : ∀ key ∈ c.keys, gone key ↔ gone' key) :
    c.Drops removed gone' where
  count := h.count
  order := h.order
  mem_entries_iff entry := by
    rw [h.mem_entries_iff]
    exact and_congr_right fun hentry ↦ not_congr (hiff entry.1 (List.mem_map_of_mem hentry))
  cleared key hkey := by
    by_cases hmem : key ∈ c.keys
    · exact h.cleared key ((hiff key hmem).mpr hkey)
    · by_cases hgone : gone key
      · exact h.cleared key hgone
      · exact (h.kept key hgone).trans (hwhole.standing_of_not_mem hmem)
  kept key hkey := by
    by_cases hmem : key ∈ c.keys
    · exact h.kept key (mt (hiff key hmem).mp hkey)
    · by_cases hgone : gone key
      · exact (h.cleared key hgone).trans (hwhole.standing_of_not_mem hmem).symm
      · exact h.kept key hgone

/-! ### Removing keys one by one -/

theorem drops_delete {c : MemoryCache} (h : c.InOrder) (key : String) :
    c.Drops ((c.delete key).1.toNat, (c.delete key).2) (· = key) := by
  have hheld : (c.delete key).1 = (c.entries.lookup key).isSome :=
    congrArg Option.isSome (Recency.sound_delete h.recency key).1
  have hentries : (c.delete key).2.entries = without key c.entries :=
    (sound_delete h.recency key).2
  have hstanding := (became_delete h key).standing
  refine ⟨?_, ?_, fun entry ↦ ?_, ?_, fun other hother ↦ ?_⟩
  · have hlength (c : MemoryCache) : c.keys.length = c.entries.length := List.length_map ..
    rw [hheld, hlength, hlength, hentries]
    exact length_without h.recency.distinct key
  · exact hentries ▸ List.filter_sublist
  · rw [hentries, mem_without]
  · rintro _ rfl
    rw [hstanding, Function.update_self]
  · rw [hstanding, Function.update_of_ne hother]

theorem drops_foldl_delete {c c' : MemoryCache} {n : Nat} {gone : String → Prop} (h : c'.InOrder)
    (hdrops : c.Drops (n, c') gone) (keys : List String) :
    c.Drops (keys.foldl (fun (removed : Nat × MemoryCache) key ↦
      (removed.1 + (removed.2.delete key).1.toNat, (removed.2.delete key).2)) (n, c'))
      fun key ↦ gone key ∨ key ∈ keys := by
  induction keys generalizing c' n gone with
  | nil => simpa using hdrops
  | cons key rest ih =>
    have hnext := ih (became_delete h key).inOrder (hdrops.trans (drops_delete h key))
    simpa only [List.foldl_cons, List.mem_cons, or_assoc] using hnext

theorem drops_deleteAll {c : MemoryCache} (h : c.InOrder) (keys : List String) :
    c.Drops (c.deleteAll keys) (· ∈ keys) := by
  have hdrops := drops_foldl_delete h (.refl c) keys
  simp only [false_or] at hdrops
  exact hdrops

/-- Deletion by a glob drops what the glob takes. -/
theorem Whole.drops_deletePattern {c : MemoryCache} (h : c.Whole) (pattern : String) :
    c.Drops (c.deletePattern pattern) (Text.Glob.Takes pattern) := by
  refine (drops_deleteAll h.inOrder (c.keys.filter (Text.Glob.covers pattern))).congr h
    fun key hkey ↦ ?_
  rw [List.mem_filter, Text.Glob.covers_iff]
  exact and_iff_right hkey

theorem Whole.deletePattern {c : MemoryCache} (h : c.Whole) (pattern : String) :
    (c.deletePattern pattern).2.Whole :=
  (whole_step (c := ⟨c, 0⟩) h (.deletePattern pattern)).1

/-- Whatever a cache has been asked before, deletion by a glob removes and counts the keys that the
glob describes and that have as many line feeds as it, and changes nothing else. -/
theorem deletePattern_run {o : MemoryCacheOptions} (h : 0 < o.capacity) (now : Nat)
    (requests : List CacheRequest) (pattern : String) :
    ∃ start, ofOptions o = .ok start ∧
      (CacheClock.run ⟨start, now⟩ requests).cache.Drops
        ((CacheClock.run ⟨start, now⟩ requests).cache.deletePattern pattern)
        fun key ↦ Text.Glob.Describes pattern.toList key.toList ∧
          Text.Glob.lineFeeds key.toList = Text.Glob.lineFeeds pattern.toList := by
  obtain ⟨start, hstart⟩ := exists_ofOptions h
  have hwhole := (whole_run (c := ⟨start, now⟩) (whole_ofOptions hstart).1 requests).1
  exact ⟨start, hstart, hwhole.drops_deletePattern pattern⟩

/-- Keys of several lines, a line feed in the pattern and a key that has expired. -/
theorem deletePattern_run_lines :
    0 < ({} : MemoryCacheOptions).capacity ∧
      ∃ start last, ofOptions {} = .ok start ∧
        CacheClock.run ⟨start, 0⟩ [.set "a\nb" (.int 1) { ttl := some 1 },
          .set "a\nb\nc" (.int 2) { tags := ["x"] }, .set "ab" (.int 3) {}, .advance 5,
          .set "axy\nb" (.int 4) { tags := ["x"] }] = last ∧
        last.cache.Drops (last.cache.deletePattern "a*\n?")
          (fun key ↦ Text.Glob.Describes "a*\n?".toList key.toList ∧
            Text.Glob.lineFeeds key.toList = Text.Glob.lineFeeds "a*\n?".toList) ∧
        (last.cache.deletePattern "a*\n?").1 = 2 ∧
        (last.cache.deletePattern "a*\n?").2.keys = ["ab", "a\nb\nc"] := by
  obtain ⟨start, hstart, hdrops⟩ := deletePattern_run (o := {}) (by decide) 0
    [.set "a\nb" (.int 1) { ttl := some 1 }, .set "a\nb\nc" (.int 2) { tags := ["x"] },
      .set "ab" (.int 3) {}, .advance 5, .set "axy\nb" (.int 4) { tags := ["x"] }] "a*\n?"
  refine ⟨by decide, start, _, hstart, rfl, hdrops, ?_⟩
  cases hstart
  exact ⟨rfl, rfl⟩

/-- A star describes a key of two lines, which deletion leaves all the same. -/
theorem deletePattern_within_line :
    Text.Glob.Describes "*".toList "a\nb".toList ∧
      ∃ start, ofOptions {} = .ok start ∧
        ((start.set 0 "a\nb" .null {}).deletePattern "*").1 = 0 ∧
        ((start.set 0 "a\nb" .null {}).deletePattern "*").2.keys = ["a\nb"] :=
  ⟨Text.Glob.describes_star _, _, rfl, rfl, rfl⟩

end MemoryCache

end RoleAccess
