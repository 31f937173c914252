import RoleAccess.Proofs.Cache.RecencyChain

/-!
A recency map is the list of its entries, the latest used first. `Layout` says that a list of cells
is the chain of a map and that index and free slots agree with it; every operation keeps some layout
within the capacity (`Sound`), and changes the entries as the same operation on a plain list does:
reading moves an entry to the front, writing puts it there and cuts the list at the capacity, and
removing takes it out.
-/

set_option autoImplicit false
set_option relaxedAutoImplicit false

namespace RoleAccess

/-! ### Lists of entries in the order of their use -/

namespace UseOrder

variable {α : Type}

def without (key : String) (entries : List (String × α)) : List (String × α) :=
  entries.filter (·.1 ≠ key)

/-- Moves the entry of a key to the front, if there is one. -/
def toFront (key : String) (entries : List (String × α)) : List (String × α) :=
  match entries.lookup key with
  | none => entries
  | some v => (key, v) :: without key entries

/-- Puts an entry in front, in place of one with its key. -/
def put (key : String) (value : α) (entries : List (String × α)) : List (String × α) :=
  (key, value) :: without key entries

theorem mem_without {key : String} {entry : String × α} {entries : List (String × α)} :
    entry ∈ without key entries ↔ entry ∈ entries ∧ entry.1 ≠ key := by
  simp [without]

theorem without_of_forall_ne {key : String} {entries : List (String × α)}
    (h : ∀ e ∈ entries, e.1 ≠ key) : without key entries = entries :=
  List.filter_eq_self.mpr fun e he ↦ by simpa using h e he

/-- A list with one entry of a key, split at it. -/
theorem without_split {key : String} {v : α} {a b : List (String × α)}
    (h : ∀ e ∈ a ++ b, e.1 ≠ key) : without key (a ++ (key, v) :: b) = a ++ b := by
  have hb := without_of_forall_ne (fun e he ↦ h e (List.mem_append_right a he))
  have ha := without_of_forall_ne (fun e he ↦ h e (List.mem_append_left b he))
  unfold without at ha hb ⊢
  rw [List.filter_append, List.filter_cons_of_neg (by simp), ha, hb]

theorem lookup_eq_none {key : String} {entries : List (String × α)}
    (h : ∀ e ∈ entries, e.1 ≠ key) : entries.lookup key = none :=
  List.lookup_eq_none_iff.mpr fun e he ↦ bne_iff_ne.mpr (h e he).symm

theorem lookup_split {key : String} {v : α} {a b : List (String × α)}
    (h : ∀ e ∈ a, e.1 ≠ key) : (a ++ (key, v) :: b).lookup key = some v :=
  List.lookup_eq_some_iff.mpr ⟨a, b, rfl, fun e he ↦ bne_iff_ne.mpr (h e he).symm⟩

theorem mem_of_lookup {key : String} {v : α} {entries : List (String × α)}
    (h : entries.lookup key = some v) : (key, v) ∈ entries := by
  obtain ⟨a, b, rfl, -⟩ := List.lookup_eq_some_iff.mp h
  exact List.mem_append_right a List.mem_cons_self

theorem mem_of_mem_toFront {key : String} {entry : String × α} {entries : List (String × α)}
    (h : entry ∈ toFront key entries) : entry ∈ entries := by
  unfold toFront at h
  split at h
  next => exact h
  next v hv =>
    rcases List.mem_cons.mp h with rfl | h
    · exact mem_of_lookup hv
    · exact (mem_without.mp h).1

end UseOrder

namespace Cell

variable {α : Type}

/-- What leads to a cell: its key and its slot. -/
def label (c : Cell α) : String × Nat := (c.key, c.place)

theorem map_snd_label (cells : List (Cell α)) :
    (cells.map label).map Prod.snd = cells.map place := by
  simp [label]

end Cell

namespace Recency

open UseOrder

variable {α : Type}

/-! ### Index and free slots -/

/-- Index and free slots agree with a list of cells: the index leads to their slots, and all other
slots are free, each once. -/
structure Housed (r : Recency α) (cells : List (Cell α)) : Prop where
  indexed : ∀ key i, r.index[key]? = some i ↔ (key, i) ∈ cells.map Cell.label
  counted : r.index.size = cells.length
  free_distinct : r.free.Nodup
  mem_free : ∀ i, i ∈ r.free ↔ i < r.slots.size ∧ r.slot? i = none
  used : ∀ i, (r.slot? i).isSome → i ∈ cells.map Cell.place

theorem Housed.relink {r r' : Recency α} {cells cells' : List (Cell α)} (h : r.Housed cells)
    (hr : Relinked r r') (hperm : (cells'.map Cell.label).Perm (cells.map Cell.label)) :
    r'.Housed cells' where
  indexed key i := by rw [hr.index, h.indexed, hperm.mem_iff]
  counted := by
    have := hperm.length_eq
    simp only [List.length_map] at this
    rw [hr.index, h.counted, this]
  free_distinct := hr.free ▸ h.free_distinct
  mem_free i := by
    rw [hr.free, h.mem_free, hr.size, ← Option.isNone_iff_eq_none, ← Option.isNone_iff_eq_none,
      ← Option.not_isSome, ← Option.not_isSome, hr.isSome_slot?]
  used i hi := by
    rw [hr.isSome_slot?] at hi
    rw [← Cell.map_snd_label, (hperm.map Prod.snd).mem_iff, Cell.map_snd_label]
    exact h.used i hi

theorem slot?_release (r : Recency α) (i j : Nat) :
    (r.release i).slot? j = if i = j then none else r.slot? j := by
  unfold slot? release
  rw [Array.getElem?_setIfInBounds]
  split
  · split <;> rfl
  · rfl

namespace Housed

variable {r : Recency α} {cells a b : List (Cell α)} {c : Cell α}

/-- No two cells have one key, since they have different slots. -/
theorem key_ne (h : r.Housed (a ++ c :: b)) (hdistinct : ((a ++ c :: b).map Cell.place).Nodup) :
    ∀ d ∈ a ++ b, d.key ≠ c.key := by
  intro d hd hkey
  have hc : r.index[c.key]? = some c.place :=
    (h.indexed _ _).mpr (List.mem_map.mpr ⟨c, by simp, rfl⟩)
  have hplace : r.index[c.key]? = some d.place := by
    refine (h.indexed _ _).mpr (List.mem_map.mpr ⟨d, ?_, Prod.ext hkey rfl⟩)
    exact List.perm_middle.mem_iff.mpr (List.mem_cons_of_mem c hd)
  rw [hc, Option.some.injEq] at hplace
  have hnodup := (List.perm_middle.map Cell.place).nodup_iff.mp hdistinct
  exact (List.nodup_cons.mp hnodup).1 (hplace ▸ List.mem_map_of_mem hd)

/-! #### Releasing a slot -/

theorem index_erase (h : r.Housed (a ++ c :: b)) (hdistinct : ((a ++ c :: b).map Cell.place).Nodup)
    (key : String) (i : Nat) :
    (r.index.erase c.key)[key]? = some i ↔ (key, i) ∈ (a ++ b).map Cell.label := by
  rw [Std.TreeMap.getElem?_erase]
  split
  next heq =>
    obtain rfl := Std.LawfulEqCmp.eq_of_compare heq
    refine iff_of_false (by simp) fun hmem ↦ ?_
    obtain ⟨d, hd, he⟩ := List.mem_map.mp hmem
    exact h.key_ne hdistinct d hd (Prod.mk.inj he).1
  next hne =>
    have hlabel : (key, i) ≠ c.label := by
      intro he
      rw [(Prod.mk.inj he).1] at hne
      exact hne Std.ReflCmp.compare_self
    rw [h.indexed, (List.perm_middle.map Cell.label).mem_iff, List.map_cons, List.mem_cons,
      or_iff_right hlabel]

theorem size_index_erase (h : r.Housed (a ++ c :: b)) :
    (r.index.erase c.key).size = (a ++ b).length := by
  have hc : r.index[c.key]? = some c.place :=
    (h.indexed _ _).mpr (List.mem_map.mpr ⟨c, by simp, rfl⟩)
  have hcontains : r.index.contains c.key = true := by
    rw [Std.TreeMap.contains_eq_isSome_getElem?, hc]
    rfl
  rw [Std.TreeMap.size_erase, if_pos hcontains, h.counted]
  simp

theorem mem_free_release (h : r.Housed cells) {i : Nat} (hi : (r.slot? i).isSome) (j : Nat) :
    j ∈ (r.release i).free ↔ j < (r.release i).slots.size ∧ (r.release i).slot? j = none := by
  have hlt : i < r.slots.size := by
    by_contra hge
    rw [slot?, Array.getElem?_eq_none (Nat.le_of_not_lt hge)] at hi
    cases hi
  rw [slot?_release]
  change j ∈ i :: r.free ↔ j < (r.slots.setIfInBounds i none).size ∧ _
  rw [List.mem_cons, h.mem_free, Array.size_setIfInBounds]
  by_cases he : i = j
  · subst he
    simp [hlt]
  · rw [if_neg he]
    simp [Ne.symm he]

/-- Giving up a cell: its slot is released, and the index forgets its key. -/
theorem release (h : r.Housed (a ++ c :: b)) (hdistinct : ((a ++ c :: b).map Cell.place).Nodup)
    (hslot : (r.slot? c.place).isSome) :
    ({ r.release c.place with index := r.index.erase c.key } : Recency α).Housed (a ++ b) where
  indexed := h.index_erase hdistinct
  counted := h.size_index_erase
  free_distinct := by
    refine List.nodup_cons.mpr ⟨fun hm ↦ ?_, h.free_distinct⟩
    rw [((h.mem_free _).mp hm).2] at hslot
    cases hslot
  mem_free := h.mem_free_release hslot
  used i hi := by
    change ((r.release c.place).slot? i).isSome at hi
    rw [slot?_release] at hi
    split at hi
    next => cases hi
    next hne =>
      have hplace := h.used i hi
      rw [(List.perm_middle.map Cell.place).mem_iff, List.map_cons, List.mem_cons] at hplace
      exact hplace.resolve_left (Ne.symm hne)

/-! #### Taking a slot -/

/-- A new entry takes a slot that was not in use. -/
theorem slot?_taken (h : r.Housed cells) (s : Slot α) : r.slot? (r.occupy s).2 = none := by
  unfold Recency.occupy
  split
  next i rest hfree => exact ((h.mem_free i).mp (hfree ▸ List.mem_cons_self)).2
  next => simp [slot?]

theorem slot?_occupy (h : r.Housed cells) (s : Slot α) (j : Nat) :
    (r.occupy s).1.slot? j = if (r.occupy s).2 = j then some s else r.slot? j := by
  unfold Recency.occupy
  split
  next i rest hfree =>
    have hlt := ((h.mem_free i).mp (hfree ▸ List.mem_cons_self)).1
    simp only [slot?, Array.getElem?_setIfInBounds, hlt, if_true]
    split <;> rfl
  next =>
    simp only [slot?, Array.getElem?_push, eq_comm (a := j)]
    split <;> rfl

theorem free_occupy (h : r.Housed cells) (s : Slot α) : (r.occupy s).1.free.Nodup ∧
    ∀ j, j ∈ (r.occupy s).1.free ↔
      j < (r.occupy s).1.slots.size ∧ (r.occupy s).1.slot? j = none := by
  have hslot := h.slot?_occupy s
  have hdistinct := h.free_distinct
  unfold Recency.occupy at hslot ⊢
  cases hfree : r.free with
  | nil =>
    simp only [hfree] at hslot ⊢
    refine ⟨List.nodup_nil, fun j ↦ iff_of_false List.not_mem_nil ?_⟩
    rintro ⟨hlt, hnone⟩
    rw [hslot] at hnone
    split at hnone
    next => cases hnone
    next hne =>
      rw [Array.size_push] at hlt
      have hold : j ∈ r.free :=
        (h.mem_free j).mpr ⟨Nat.lt_of_le_of_ne (Nat.le_of_lt_succ hlt) (Ne.symm hne), hnone⟩
      rw [hfree] at hold
      cases hold
  | cons i rest =>
    rw [hfree, List.nodup_cons] at hdistinct
    simp only [hfree] at hslot ⊢
    refine ⟨hdistinct.2, fun j ↦ ?_⟩
    have hmem := h.mem_free j
    rw [hfree, List.mem_cons] at hmem
    rw [hslot, Array.size_setIfInBounds]
    by_cases he : i = j
    · subst he
      simp [hdistinct.1]
    · rw [if_neg he, ← hmem]
      simp [Ne.symm he]

theorem index_insert (h : r.Housed cells) {key : String} (hkey : r.index[key]? = none) (i : Nat)
    (value : α) (other : String) (j : Nat) : (r.index.insert key i)[other]? = some j ↔
      (other, j) ∈ ((⟨i, key, value⟩ : Cell α) :: cells).map Cell.label := by
  rw [Std.TreeMap.getElem?_insert, List.map_cons, List.mem_cons]
  split
  next heq =>
    obtain rfl := Std.LawfulEqCmp.eq_of_compare heq
    have hold : (key, j) ∉ cells.map Cell.label := by
      intro hm
      rw [← h.indexed, hkey] at hm
      cases hm
    simp [Cell.label, hold, eq_comm]
  next hne =>
    have hlabel : (other, j) ≠ (⟨i, key, value⟩ : Cell α).label := by
      intro he
      rw [(Prod.mk.inj he).1] at hne
      exact hne Std.ReflCmp.compare_self
    rw [h.indexed, or_iff_right hlabel]

/-- Taking a cell: its entry takes a slot, and the index learns of its key. -/
theorem occupy (h : r.Housed cells) {key : String} (hkey : r.index[key]? = none) (value : α) :
    ({ (r.occupy { key, value }).1 with
        index := r.index.insert key (r.occupy { key, value }).2 } : Recency α).Housed
      (⟨(r.occupy { key, value }).2, key, value⟩ :: cells) where
  indexed := h.index_insert hkey _ value
  counted := by
    have hcontains : r.index.contains key = false := by
      rw [Std.TreeMap.contains_eq_isSome_getElem?, hkey]
      rfl
    change (r.index.insert key _).size = _
    rw [Std.TreeMap.size_insert, hcontains, h.counted]
    rfl
  free_distinct := (h.free_occupy _).1
  mem_free := (h.free_occupy _).2
  used j hj := by
    change ((r.occupy { key, value }).1.slot? j).isSome at hj
    rw [h.slot?_occupy] at hj
    rw [List.map_cons, List.mem_cons]
    split at hj
    next he => exact Or.inl he.symm
    next => exact Or.inr (h.used j hj)

end Housed

/-- A list of cells is the chain of a recency map and all that it holds. -/
structure Layout (r : Recency α) (cells : List (Cell α)) : Prop where
  chained : r.Chained cells
  housed : r.Housed cells

namespace Layout

theorem congr {r r' : Recency α} {cells : List (Cell α)} (h : r.Layout cells)
    (hslots : r'.slots = r.slots) (hfree : r'.free = r.free) (hindex : r'.index = r.index)
    (hnewest : r'.newest = r.newest) (holdest : r'.oldest = r.oldest) : r'.Layout cells := by
  have hslot : ∀ i, r'.slot? i = r.slot? i := fun i ↦ by simp only [slot?, hslots]
  refine ⟨h.chained.congr (fun i _ ↦ hslot i) hnewest holdest, ?_⟩
  obtain ⟨hindexed, hcounted, hdistinct, hmem, hused⟩ := h.housed
  exact ⟨hindex ▸ hindexed, hindex ▸ hcounted, hfree ▸ hdistinct,
    fun i ↦ by rw [hfree, hmem, hslots, hslot], fun i hi ↦ hused i (hslot i ▸ hi)⟩

/-- The cell that the index leads to is the only one with its key. -/
theorem split {r : Recency α} {cells : List (Cell α)} (h : r.Layout cells) {key : String} {i : Nat}
    (hi : r.index[key]? = some i) :
    ∃ (a b : List (Cell α)) (c : Cell α), cells = a ++ c :: b ∧ c.key = key ∧ c.place = i ∧
      ∀ e ∈ (a ++ b).map Cell.entry, e.1 ≠ key := by
  obtain ⟨c, hc, heq⟩ := List.mem_map.mp ((h.housed.indexed key i).mp hi)
  obtain ⟨a, b, rfl⟩ := List.append_of_mem hc
  obtain ⟨rfl, rfl⟩ := Prod.mk.inj heq
  refine ⟨a, b, c, rfl, rfl, rfl, fun e he ↦ ?_⟩
  obtain ⟨d, hd, rfl⟩ := List.mem_map.mp he
  exact h.housed.key_ne h.chained.distinct d hd

theorem length_le_size {r : Recency α} {cells : List (Cell α)} (h : r.Layout cells) :
    cells.length ≤ r.slots.size := by
  have hsub : cells.map Cell.place ⊆ List.range r.slots.size := fun i hi ↦ by
    obtain ⟨c, hc, rfl⟩ := List.mem_map.mp hi
    obtain ⟨a, b, rfl⟩ := List.append_of_mem hc
    have hslot := h.chained.linked.slot?
    rw [List.mem_range]
    by_contra hlt
    rw [slot?, Array.getElem?_eq_none (Nat.le_of_not_lt hlt)] at hslot
    cases hslot
  simpa using h.chained.distinct.length_le_of_subset hsub

theorem entries {r : Recency α} {cells : List (Cell α)} (h : r.Layout cells) :
    r.entries = cells.map Cell.entry := by
  rw [Recency.entries, h.chained.newest, h.chained.linked.entriesFrom,
    List.take_of_length_le h.length_le_size]

theorem not_mem_of_index_none {r : Recency α} {cells : List (Cell α)} (h : r.Layout cells)
    {key : String} (hkey : r.index[key]? = none) :
    ∀ e ∈ cells.map Cell.entry, e.1 ≠ key := by
  rintro e he rfl
  obtain ⟨c, hc, rfl⟩ := List.mem_map.mp he
  have := (h.housed.indexed c.key c.place).mpr (List.mem_map_of_mem hc)
  simp only [Cell.entry, this] at hkey
  cases hkey

/-! ### Steps on layouts -/

theorem update {r : Recency α} {a b : List (Cell α)} {c : Cell α} (h : r.Layout (a ++ c :: b))
    (value : α) :
    (r.update c.place ({ · with value })).Layout (a ++ { c with value } :: b) := by
  have hplaces : (a ++ { c with value } :: b).map Cell.place = (a ++ c :: b).map Cell.place := by
    simp
  obtain ⟨hdistinct, hlinked, hnewest, holdest⟩ := h.chained
  have hnodup := (List.perm_middle.map Cell.place).nodup_iff.mp hdistinct
  have hother : ∀ i ∈ (a ++ b).map Cell.place,
      (r.update c.place ({ · with value })).slot? i = r.slot? i := fun i hi ↦ by
    rw [slot?_update, if_neg]
    exact fun he : c.place = i ↦ (List.nodup_cons.mp hnodup).1 (he ▸ hi)
  obtain ⟨ha, hc, hb⟩ := linked_append.mp hlinked
  refine ⟨⟨hplaces ▸ hdistinct, linked_append.mpr ⟨?_, ?_, ?_⟩, ?_, ?_⟩, ?_⟩
  · exact ha.congr fun i hi ↦ hother i (by simp only [List.map_append, List.mem_append]; tauto)
  · rw [slot?_update, if_pos rfl, hc]
    rfl
  · exact hb.congr fun i hi ↦ hother i (by simp only [List.map_append, List.mem_append]; tauto)
  · simpa [Recency.update, Cell.first?_append] using hnewest
  · simpa [Recency.update, Cell.last?_append, Cell.last?_cons] using holdest
  · exact h.housed.relink (Relinked.update r _ _) (List.Perm.of_eq (by simp [Cell.label]))

theorem promote {r : Recency α} {a b : List (Cell α)} {c : Cell α} (h : r.Layout (a ++ c :: b)) :
    (r.promote c.place).Layout (c :: (a ++ b)) :=
  ⟨h.chained.promote,
    h.housed.relink (Relinked.promote r _) (List.perm_middle.symm.map Cell.label)⟩

/-- Removing a cell: it is unlinked, its slot is released, and the index forgets it. -/
theorem remove {r : Recency α} {a b : List (Cell α)} {c : Cell α} (h : r.Layout (a ++ c :: b)) :
    ({ (r.unlink c.place).release c.place with index := r.index.erase c.key } :
      Recency α).Layout (a ++ b) := by
  obtain ⟨hchain, hslot⟩ := h.chained.unlink
  have hrel := Relinked.unlink r c.place
  have hunlinked : (r.unlink c.place).Housed (a ++ c :: b) :=
    h.housed.relink hrel (List.Perm.refl _)
  constructor
  · have hnodup := (List.perm_middle.map Cell.place).nodup_iff.mp h.chained.distinct
    refine hchain.congr (fun i hi ↦ ?_) rfl rfl
    have hne : c.place ≠ i := fun he ↦ (List.nodup_cons.mp hnodup).1 (he ▸ hi)
    exact (slot?_release _ _ i).trans (if_neg hne)
  · rw [← hrel.index]
    exact hunlinked.release h.chained.distinct (hslot ▸ rfl)

theorem place_ne_taken {r : Recency α} {cells : List (Cell α)} (h : r.Layout cells) (s : Slot α) :
    (r.occupy s).2 ∉ cells.map Cell.place := by
  intro hmem
  obtain ⟨c, hc, hplace⟩ := List.mem_map.mp hmem
  obtain ⟨a, b, rfl⟩ := List.append_of_mem hc
  have hnone := h.housed.slot?_taken s
  rw [← hplace, h.chained.linked.slot?] at hnone
  cases hnone

/-- Taking a slot leaves the chain as it is. -/
theorem chained_occupy {r : Recency α} {cells : List (Cell α)} (h : r.Layout cells) (s : Slot α) :
    (r.occupy s).1.Chained cells := by
  have hnewest : (r.occupy s).1.newest = r.newest := by
    unfold Recency.occupy
    split <;> rfl
  have holdest : (r.occupy s).1.oldest = r.oldest := by
    unfold Recency.occupy
    split <;> rfl
  refine h.chained.congr (fun j hj ↦ ?_) hnewest holdest
  have hne : (r.occupy s).2 ≠ j := fun he ↦ h.place_ne_taken s (he ▸ hj)
  exact (h.housed.slot?_occupy s j).trans (if_neg hne)

/-- Inserting a cell: its entry takes a slot, the index learns of it, and it is linked in front. -/
theorem insert {r : Recency α} {cells : List (Cell α)} (h : r.Layout cells) {key : String}
    (hkey : r.index[key]? = none) (value : α) :
    ({ (r.occupy { key, value }).1 with
        index := (r.occupy { key, value }).1.index.insert key (r.occupy { key, value }).2 } :
      Recency α).linkNewest (r.occupy { key, value }).2 |>.Layout
        (⟨(r.occupy { key, value }).2, key, value⟩ :: cells) := by
  have hindex : (r.occupy { key, value }).1.index = r.index := by
    unfold Recency.occupy
    split <;> rfl
  have hslot := h.housed.slot?_occupy { key, value }
  have hchain : ({ (r.occupy { key, value }).1 with
      index := r.index.insert key (r.occupy { key, value }).2 } : Recency α).Chained cells :=
    (h.chained_occupy { key, value }).congr (fun _ _ ↦ rfl) rfl rfl
  rw [hindex]
  constructor
  · exact hchain.linkNewest (c := ⟨_, key, value⟩) (h.place_ne_taken { key, value })
      ((hslot _).trans (if_pos rfl))
  · exact (h.housed.occupy hkey value).relink (Relinked.linkNewest _ _) (List.Perm.refl _)

end Layout

/-! ### The operations -/

/-- A recency map in order: it has a layout, and it holds no more than it may. -/
def Sound (r : Recency α) : Prop := ∃ cells : List (Cell α), r.Layout cells ∧
  cells.length ≤ r.capacity

theorem sound_ofCapacity {capacity : Nat} {r : Recency α} (h : ofCapacity capacity = .ok r) :
    r.Sound ∧ r.entries = [] := by
  unfold ofCapacity at h
  split at h
  · cases h
    refine ⟨⟨[], ⟨⟨List.nodup_nil, trivial, rfl, rfl⟩, ?_⟩, Nat.zero_le _⟩, rfl⟩
    exact ⟨fun key i ↦ by simp, rfl, List.nodup_nil, fun i ↦ by simp [slot?],
      fun i hi ↦ by simp [slot?] at hi⟩
  · cases h

theorem sound_clear (r : Recency α) : r.clear.Sound ∧ r.clear.entries = [] := by
  refine ⟨⟨[], ⟨⟨List.nodup_nil, trivial, rfl, rfl⟩, ?_⟩, Nat.zero_le _⟩, rfl⟩
  exact ⟨fun key i ↦ by simp [clear], rfl, List.nodup_nil, fun i ↦ by simp [clear, slot?],
    fun i hi ↦ by simp [clear, slot?] at hi⟩

theorem Sound.lookup_of_index_none {r : Recency α} (h : r.Sound) {key : String}
    (hi : r.index[key]? = none) : r.entries.lookup key = none := by
  obtain ⟨cells, hlayout, -⟩ := h
  exact lookup_eq_none (hlayout.entries ▸ hlayout.not_mem_of_index_none hi)

/-- The index leads to the entry of a key, and promoting its slot moves the entry to the front. -/
theorem sound_promote {r : Recency α} (h : r.Sound) {key : String} {i : Nat}
    (hi : r.index[key]? = some i) :
    (∃ v, (r.slot? i).map Slot.value = some v ∧ r.entries.lookup key = some v) ∧
      (r.promote i).Sound ∧ (r.promote i).entries = toFront key r.entries := by
  obtain ⟨cells, hlayout, hlength⟩ := h
  obtain ⟨a, b, c, rfl, rfl, rfl, hne⟩ := hlayout.split hi
  rw [List.map_append] at hne
  have hlookup : r.entries.lookup c.key = some c.value := by
    rw [hlayout.entries, List.map_append, List.map_cons]
    exact lookup_split fun e he ↦ hne e (List.mem_append_left _ he)
  refine ⟨⟨c.value, ?_, hlookup⟩, ⟨_, hlayout.promote, ?_⟩, ?_⟩
  · rw [hlayout.chained.linked.slot?]
    rfl
  · rw [(Relinked.promote r c.place).capacity]
    simp only [List.length_append, List.length_cons] at hlength ⊢
    omega
  · simp only [toFront, hlookup]
    rw [hlayout.promote.entries, hlayout.entries, List.map_append, List.map_cons]
    simp only [Cell.entry, without_split hne, List.map_cons, List.map_append]

/-- Counters and announcements make no difference to the entries. -/
theorem sound_congr {r s : Recency α} (h : r.Sound) (hslots : s.slots = r.slots)
    (hfree : s.free = r.free) (hindex : s.index = r.index) (hnewest : s.newest = r.newest)
    (holdest : s.oldest = r.oldest) (hcapacity : s.capacity = r.capacity) :
    s.Sound ∧ s.entries = r.entries := by
  obtain ⟨cells, hlayout, hlength⟩ := h
  have hsame := hlayout.congr hslots hfree hindex hnewest holdest
  exact ⟨⟨cells, hsame, hcapacity ▸ hlength⟩, hsame.entries.trans hlayout.entries.symm⟩

/-- Reading gives the value of the key, and moves its entry to the front. -/
theorem sound_get {r : Recency α} (h : r.Sound) (key : String) :
    (r.get key).1 = r.entries.lookup key ∧ (r.get key).2.Sound ∧
      (r.get key).2.entries = toFront key r.entries := by
  cases hi : r.index[key]? with
  | none =>
    have hnone := h.lookup_of_index_none hi
    simp only [get, hi, toFront, hnone, true_and]
    exact sound_congr h rfl rfl rfl rfl rfl rfl
  | some i =>
    obtain ⟨hcounted, hentries⟩ :=
      sound_congr (s := { r with hits := r.hits + 1 }) h rfl rfl rfl rfl rfl rfl
    obtain ⟨⟨v, hvalue, hlookup⟩, hsound, hfront⟩ := sound_promote hcounted hi
    rw [hentries] at hlookup hfront
    simp only [get, hi]
    exact ⟨hvalue.trans hlookup.symm, hsound, hfront⟩

theorem unlink_index (r : Recency α) (index : Std.TreeMap String Nat) (i : Nat) :
    ({ r with index } : Recency α).unlink i = { r.unlink i with index } := by
  have hslot : ({ r with index } : Recency α).slot? i = r.slot? i := rfl
  unfold unlink
  rw [hslot]
  cases r.slot? i with
  | none => rfl
  | some s =>
    obtain ⟨key, value, newer, older⟩ := s
    cases newer <;> cases older <;> rfl

/-- Removing gives the value of the key, and takes its entry out. -/
theorem sound_delete {r : Recency α} (h : r.Sound) (key : String) :
    (r.delete key).1 = r.entries.lookup key ∧ (r.delete key).2.Sound ∧
      (r.delete key).2.entries = without key r.entries := by
  obtain ⟨cells, hlayout, hlength⟩ := h
  cases hi : r.index[key]? with
  | none =>
    have hne := hlayout.not_mem_of_index_none hi
    rw [← hlayout.entries] at hne
    simp only [delete, hi, lookup_eq_none hne, without_of_forall_ne hne, true_and, and_true]
    exact ⟨cells, hlayout, hlength⟩
  | some i =>
    obtain ⟨a, b, c, rfl, rfl, rfl, hne⟩ := hlayout.split hi
    rw [List.map_append] at hne
    have hlookup : r.entries.lookup c.key = some c.value := by
      rw [hlayout.entries, List.map_append, List.map_cons]
      exact lookup_split fun e he ↦ hne e (List.mem_append_left _ he)
    have hcapacity := (Relinked.unlink r c.place).capacity
    have hremoved : (({ r with index := r.index.erase c.key } : Recency α).unlink
        c.place |>.release c.place).Layout (a ++ b) := by
      rw [unlink_index]
      exact hlayout.remove
    simp only [delete, hi, hlookup]
    refine ⟨?_, ⟨_, hremoved, ?_⟩, ?_⟩
    · rw [unlink_index]
      change ((r.unlink c.place).slot? c.place).map Slot.value = _
      rw [hlayout.chained.unlink.2]
      rfl
    · rw [unlink_index]
      change _ ≤ (r.unlink c.place).capacity
      rw [hcapacity]
      simp only [List.length_append, List.length_cons] at hlength ⊢
      omega
    · rw [hremoved.entries, hlayout.entries, List.map_append, List.map_append, List.map_cons]
      exact (without_split hne).symm

/-- Giving up the oldest entry. -/
theorem Layout.evict {r : Recency α} {cells : List (Cell α)} {c : Cell α}
    (h : r.Layout (cells ++ [c])) :
    r.evict.1 = some c.entry ∧ r.evict.2.Layout cells ∧ r.evict.2.capacity = r.capacity := by
  have hslot := h.chained.linked.slot?
  have holdest : r.oldest = some c.place := h.chained.oldest.trans (Cell.last?_concat _ _)
  have hremoved := h.remove
  rw [List.append_nil] at hremoved
  simp only [Recency.evict, holdest, hslot, Cell.slot]
  have hrel := Relinked.unlink r c.place
  exact ⟨rfl, hremoved.congr rfl rfl (congrArg (·.erase c.key) hrel.index) rfl rfl, hrel.capacity⟩

theorem Layout.evict_nil {r : Recency α} (h : r.Layout []) : r.evict = (none, r) := by
  have holdest : r.oldest = none := h.chained.oldest
  simp only [Recency.evict, holdest]

/-- What writing comes to: the entry stands in front, and the last one is given up if there are too
many. -/
def Wrote (r : Recency α) (key : String) (value : α) : Prop :=
  (r.set key value).1 = (put key value r.entries)[r.capacity]? ∧ (r.set key value).2.Sound ∧
    (r.set key value).2.capacity = r.capacity ∧
    (r.set key value).2.entries = (put key value r.entries).take r.capacity

theorem Layout.set_held {r : Recency α} {a b : List (Cell α)} {c : Cell α}
    (h : r.Layout (a ++ c :: b)) (hlength : (a ++ c :: b).length ≤ r.capacity)
    (hi : r.index[c.key]? = some c.place) (hne : ∀ e ∈ (a ++ b).map Cell.entry, e.1 ≠ c.key)
    (value : α) : r.Wrote c.key value := by
  rw [List.map_append] at hne
  have hwritten := (h.update value).promote
  have hcapacity := ((Relinked.update r c.place ({ · with value })).trans
    (Relinked.promote _ c.place)).capacity
  have hput : put c.key value r.entries =
      (({ c with value } : Cell α) :: (a ++ b)).map Cell.entry := by
    rw [put, h.entries, List.map_append, List.map_cons]
    simp only [Cell.entry, without_split hne, List.map_cons, List.map_append]
  have hle : (({ c with value } : Cell α) :: (a ++ b)).length ≤ r.capacity := by
    simp only [List.length_append, List.length_cons] at hlength ⊢
    omega
  simp only [Wrote, set, hi, hput]
  refine ⟨?_, ⟨_, hwritten, hcapacity ▸ hle⟩, hcapacity, ?_⟩
  · rw [List.getElem?_eq_none]
    rwa [List.length_map]
  · rw [List.take_of_length_le (by rwa [List.length_map])]
    exact hwritten.entries

/-- Giving up the oldest of one cell too many. -/
theorem Layout.evict_over {r : Recency α} {cells : List (Cell α)} (h : r.Layout cells)
    (hover : cells.length = r.capacity + 1) :
    r.evict.1 = (cells.map Cell.entry)[r.capacity]? ∧ r.evict.2.Sound ∧
      r.evict.2.capacity = r.capacity ∧
      r.evict.2.entries = (cells.map Cell.entry).take r.capacity := by
  rcases cells.eq_nil_or_concat' with rfl | ⟨init, c, rfl⟩
  · cases hover
  have hinit : init.length = r.capacity := by simpa using hover
  obtain ⟨hgone, hleft, hcapacity⟩ := h.evict
  refine ⟨?_, ⟨init, hleft, Nat.le_of_eq (hinit.trans hcapacity.symm)⟩, hcapacity, ?_⟩
  · rw [hgone, List.map_append, List.getElem?_append_right (by simp [hinit])]
    simp [hinit]
  · rw [hleft.entries, List.map_append, List.take_append_of_le_length (by simp [hinit]),
      List.take_of_length_le (by simp [hinit])]

theorem Layout.set_new {r : Recency α} {cells : List (Cell α)} (h : r.Layout cells)
    (hlength : cells.length ≤ r.capacity) {key : String} (hi : r.index[key]? = none) (value : α) :
    r.Wrote key value := by
  have hne := h.not_mem_of_index_none hi
  rw [← h.entries] at hne
  have hinserted := h.insert hi value
  have hcapacity : (r.occupy { key, value }).1.capacity = r.capacity := by
    unfold Recency.occupy
    split <;> rfl
  simp only [Wrote, set, hi, put, without_of_forall_ne hne]
  generalize r.occupy { key, value } = taken at hinserted hcapacity ⊢
  obtain ⟨r', i⟩ := taken
  simp only at hinserted hcapacity ⊢
  generalize hr : ({ r' with index := r'.index.insert key i } : Recency α).linkNewest i = full
    at hinserted ⊢
  have hfull : full.capacity = r.capacity := by
    rw [← hr, (Relinked.linkNewest _ i).capacity]
    exact hcapacity
  have hentries : (key, value) :: r.entries =
      ((⟨i, key, value⟩ : Cell α) :: cells).map Cell.entry := by
    rw [h.entries]
    rfl
  have hsize : full.size = cells.length + 1 := hinserted.housed.counted
  rw [← hfull] at hlength ⊢
  rw [hsize, hentries]
  split
  next hover =>
    refine hinserted.evict_over ?_
    rw [List.length_cons]
    omega
  next hunder =>
    refine ⟨?_, ⟨_, hinserted, ?_⟩, rfl, ?_⟩
    · rw [List.getElem?_eq_none]
      simp only [List.length_map, List.length_cons]
      omega
    · exact Nat.le_of_not_lt hunder
    · rw [hinserted.entries, List.take_of_length_le]
      simp only [List.length_map, List.length_cons]
      omega

theorem sound_set {r : Recency α} (h : r.Sound) (key : String) (value : α) :
    r.Wrote key value := by
  obtain ⟨cells, hlayout, hlength⟩ := h
  cases hi : r.index[key]? with
  | some i =>
    obtain ⟨a, b, c, rfl, rfl, rfl, hne⟩ := hlayout.split hi
    exact hlayout.set_held hlength hi hne value
  | none => exact hlayout.set_new hlength hi value

end Recency

end RoleAccess
