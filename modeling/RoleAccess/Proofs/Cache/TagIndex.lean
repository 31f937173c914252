import Mathlib.Tactic.Tauto
import RoleAccess.Cache.Memory

/-!
The two indexes of tags. The one leads from a tag to its keys, the other from a key to its tags, and
each is the inverse of the other (`TagsAgree`). Dropping a key takes it from every tag that it has,
tags given twice included, and drops the tags that are left without keys.
-/

set_option autoImplicit false
set_option relaxedAutoImplicit false

namespace RoleAccess.MemoryCache

/-- The keys with a tag. -/
def keysUnder (keysOf : Std.TreeMap String (Std.TreeSet String)) (tag : String) :
    Std.TreeSet String :=
  keysOf[tag]?.getD ∅

/-- The tags of a key. -/
def tagsOn (tagsOf : Std.TreeMap String (List String)) (key : String) : List String :=
  tagsOf[key]?.getD []

/-- No tag stands without keys. -/
def Filled (keysOf : Std.TreeMap String (Std.TreeSet String)) : Prop :=
  ∀ (tag : String) (keys : Std.TreeSet String), keysOf[tag]? = some keys → keys.isEmpty = false

/-- The two indexes are inverse to each other, and hold nothing that is empty. -/
structure TagsAgree (keysOf : Std.TreeMap String (Std.TreeSet String))
    (tagsOf : Std.TreeMap String (List String)) : Prop where
  inverse : ∀ key tag, key ∈ keysUnder keysOf tag ↔ tag ∈ tagsOn tagsOf key
  filled : Filled keysOf
  borne : ∀ (key : String) (tags : List String), tagsOf[key]? = some tags → tags ≠ []

/-- The keys that a deletion by a tag goes through. -/
theorem mem_toList_iff {keysOf : Std.TreeMap String (Std.TreeSet String)} {key tag : String} :
    key ∈ keysOf[tag]?.elim [] Std.TreeSet.toList ↔ key ∈ keysUnder keysOf tag := by
  unfold keysUnder
  cases keysOf[tag]? <;> simp

theorem tagsOn_empty (key : String) : tagsOn ∅ key = [] := by simp [tagsOn]

theorem tagsAgree_empty : TagsAgree ∅ ∅ := by
  refine ⟨fun key tag ↦ ?_, fun tag keys hkeys ↦ ?_, fun key tags htags ↦ ?_⟩
  · simp [keysUnder, tagsOn]
  · simp at hkeys
  · simp at htags

theorem getD_insert {β : Type} (m : Std.TreeMap String β) (key : String) (v : β) (other : String)
    (default : β) :
    (m.insert key v)[other]?.getD default = if other = key then v else m[other]?.getD default := by
  simp only [Std.TreeMap.getElem?_insert, Std.LawfulEqCmp.compare_eq_iff_eq, eq_comm (a := key)]
  split <;> rfl

theorem getD_erase {β : Type} (m : Std.TreeMap String β) (key other : String) (default : β) :
    (m.erase key)[other]?.getD default =
      if other = key then default else m[other]?.getD default := by
  simp only [Std.TreeMap.getElem?_erase, Std.LawfulEqCmp.compare_eq_iff_eq, eq_comm (a := key)]
  split <;> rfl

section Entries

variable {keysOf : Std.TreeMap String (Std.TreeSet String)}

theorem keysUnder_insert (tag : String) (keys : Std.TreeSet String) (other : String) :
    keysUnder (keysOf.insert tag keys) other =
      if other = tag then keys else keysUnder keysOf other :=
  getD_insert keysOf tag keys other ∅

theorem keysUnder_erase (tag other : String) :
    keysUnder (keysOf.erase tag) other = if other = tag then ∅ else keysUnder keysOf other :=
  getD_erase keysOf tag other ∅

theorem Filled.insert (h : Filled keysOf) (tag : String) {keys : Std.TreeSet String}
    (hkeys : keys.isEmpty = false) : Filled (keysOf.insert tag keys) := by
  intro other held hheld
  rw [Std.TreeMap.getElem?_insert] at hheld
  split at hheld
  · cases hheld
    exact hkeys
  · exact h other held hheld

theorem Filled.erase (h : Filled keysOf) (tag : String) : Filled (keysOf.erase tag) := by
  intro other held hheld
  rw [Std.TreeMap.getElem?_erase] at hheld
  split at hheld
  · cases hheld
  · exact h other held hheld

end Entries

/-! ### Dropping a key -/

theorem mem_keysUnder_untag {key : String} {keysOf : Std.TreeMap String (Std.TreeSet String)}
    {tag other held : String} : held ∈ keysUnder (untag key keysOf tag) other ↔
      held ∈ keysUnder keysOf other ∧ ¬(other = tag ∧ held = key) := by
  by_cases hother : other = tag
  · subst hother
    unfold untag
    split
    next hnone => simp [keysUnder, hnone]
    next keys hkeys =>
      have hunder : keysUnder keysOf other = keys := by rw [keysUnder, hkeys, Option.getD_some]
      have herased : held ∈ keys.erase key ↔ held ∈ keys ∧ held ≠ key := by
        rw [Std.TreeSet.mem_erase, ne_eq, Std.LawfulEqCmp.compare_eq_iff_eq, eq_comm (a := key),
          and_comm]
      dsimp only
      split
      next hempty =>
        have hnone : held ∉ keys.erase key := Std.TreeSet.not_mem_of_isEmpty hempty
        rw [herased] at hnone
        simp [keysUnder_erase, hunder, hnone]
      next => simp [keysUnder_insert, hunder, herased]
  · have hsame : keysUnder (untag key keysOf tag) other = keysUnder keysOf other := by
      unfold untag
      split
      · rfl
      · dsimp only
        split
        · rw [keysUnder_erase, if_neg hother]
        · rw [keysUnder_insert, if_neg hother]
    simp [hsame, hother]

theorem Filled.untag {keysOf : Std.TreeMap String (Std.TreeSet String)} (h : Filled keysOf)
    (key tag : String) : Filled (untag key keysOf tag) := by
  unfold MemoryCache.untag
  split
  · exact h
  · dsimp only
    split
    · exact h.erase tag
    next hsome => exact h.insert tag (Bool.eq_false_iff.mpr hsome)

/-- Taking a key from one tag after another. -/
theorem untag_foldl (key : String) (tags : List String)
    {keysOf : Std.TreeMap String (Std.TreeSet String)} (h : Filled keysOf) :
    Filled (tags.foldl (untag key) keysOf) ∧
      ∀ other held, held ∈ keysUnder (tags.foldl (untag key) keysOf) other ↔
        held ∈ keysUnder keysOf other ∧ ¬(other ∈ tags ∧ held = key) := by
  induction tags generalizing keysOf with
  | nil => exact ⟨h, by simp⟩
  | cons tag rest ih =>
    obtain ⟨hfilled, hmem⟩ := ih (h.untag key tag)
    refine ⟨hfilled, fun other held ↦ ?_⟩
    rw [List.foldl_cons, hmem, mem_keysUnder_untag, List.mem_cons]
    tauto

theorem tagsOn_forget (c : MemoryCache) (key other : String) :
    tagsOn (c.forget key).tagsOf other = if other = key then [] else tagsOn c.tagsOf other :=
  getD_erase c.tagsOf key other []

theorem TagsAgree.forget {c : MemoryCache} (h : TagsAgree c.keysOf c.tagsOf) (key : String) :
    TagsAgree (c.forget key).keysOf (c.forget key).tagsOf := by
  obtain ⟨hfilled, hmem⟩ := untag_foldl key (tagsOn c.tagsOf key) h.filled
  refine ⟨fun held tag ↦ ?_, hfilled, fun held tags hheld ↦ ?_⟩
  · rw [tagsOn_forget]
    refine (hmem tag held).trans ?_
    rw [h.inverse]
    by_cases hkey : held = key
    · subst hkey
      simp
    · simp [hkey]
  · rw [MemoryCache.forget, Std.TreeMap.getElem?_erase] at hheld
    split at hheld
    · cases hheld
    · exact h.borne held tags hheld

/-! ### Giving tags to a key -/

theorem tagsOn_addTag (c : MemoryCache) (key tag other : String) :
    tagsOn (c.addTag key tag).tagsOf other =
      if other = key then tagsOn c.tagsOf key ++ [tag] else tagsOn c.tagsOf other :=
  getD_insert c.tagsOf key (tagsOn c.tagsOf key ++ [tag]) other []

theorem TagsAgree.addTag {c : MemoryCache} (h : TagsAgree c.keysOf c.tagsOf) (key tag : String) :
    TagsAgree (c.addTag key tag).keysOf (c.addTag key tag).tagsOf := by
  refine ⟨fun held other ↦ ?_, h.filled.insert tag Std.TreeSet.isEmpty_insert,
    fun held tags hheld ↦ ?_⟩
  · change held ∈ keysUnder (c.keysOf.insert tag ((keysUnder c.keysOf tag).insert key)) other ↔ _
    have hinverse := h.inverse held other
    rw [keysUnder_insert, tagsOn_addTag]
    by_cases hother : other = tag <;> by_cases hheld : held = key
    · simp [hother, hheld]
    · subst hother
      simp [hheld, hinverse, eq_comm (a := key)]
    · subst hheld
      simp [hother, hinverse]
    · simp [hother, hheld, hinverse]
  · rw [MemoryCache.addTag, Std.TreeMap.getElem?_insert] at hheld
    split at hheld
    · cases hheld
      exact List.append_ne_nil_of_right_ne_nil _ (List.cons_ne_nil _ _)
    · exact h.borne held tags hheld

/-- A key gets all the tags, repeated ones included, and no other key changes. -/
theorem addTag_foldl (key : String) (tags : List String) {c : MemoryCache}
    (h : TagsAgree c.keysOf c.tagsOf) :
    TagsAgree (tags.foldl (addTag key) c).keysOf (tags.foldl (addTag key) c).tagsOf ∧
      ∀ other, tagsOn (tags.foldl (addTag key) c).tagsOf other =
        if other = key then tagsOn c.tagsOf key ++ tags else tagsOn c.tagsOf other := by
  induction tags generalizing c with
  | nil =>
    refine ⟨h, fun other ↦ ?_⟩
    by_cases hother : other = key <;> simp [hother]
  | cons tag rest ih =>
    obtain ⟨hagree, htags⟩ := ih (h.addTag key tag)
    refine ⟨hagree, fun other ↦ ?_⟩
    rw [List.foldl_cons, htags, tagsOn_addTag, tagsOn_addTag, if_pos rfl]
    by_cases hother : other = key <;> simp [hother]

end RoleAccess.MemoryCache
