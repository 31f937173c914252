import RoleAccess.Proofs.Cache.RecencyRuns

/-!
Two recency maps of different capacity that are asked the same. Whatever is asked, the larger one
holds all that the smaller one holds, in the same order of use (`Recency.larger_holds_smaller`). The
runs differ: a key may be read that only the larger one still has, and a removal may leave room in
one of them. What carries the inclusion is that the larger one has no more entries beside those of
the smaller one than it has room beside (`UseList.Within`), so that it is never full before the
smaller one is, and where both give up an entry, each gives up its last.
-/

set_option autoImplicit false
set_option relaxedAutoImplicit false

namespace RoleAccess

namespace UseOrder

section Parts

variable {β : Type} {s l : List β}

/-- A filter leaves no more of a list beside a sublist than there was. -/
theorem length_filter_add_le (h : s.Sublist l) (p : β → Bool) :
    (l.filter p).length + s.length ≤ (s.filter p).length + l.length := by
  induction h with
  | slnil => exact Nat.le_refl _
  | cons e _ ih =>
    rw [List.filter_cons]
    split
    · simp only [List.length_cons]
      omega
    · rw [List.length_cons]
      omega
  | cons_cons e _ ih =>
    rw [List.filter_cons, List.filter_cons]
    split
    · simp only [List.length_cons]
      omega
    · simp only [List.length_cons]
      omega

/-- Both lists lose their last entries at most, and the longer one only where the other does. -/
theorem take_sublist_take {m n : Nat} (h : s.Sublist l) (hs : s.length ≤ m + 1)
    (hl : l.length ≤ n + 1) (hroom : l.length + m ≤ s.length + n) :
    (s.take m).Sublist (l.take n) := by
  by_cases hfits : l.length ≤ n
  · rw [List.take_of_length_le hfits]
    exact (List.take_sublist m s).trans h
  · have hlast : s.length = m + 1 := by omega
    have hlast' : l.length = n + 1 := by omega
    have hdropped := List.Sublist.tail (List.reverse_sublist.mpr h)
    rw [List.tail_reverse, List.tail_reverse, List.reverse_sublist] at hdropped
    rwa [List.dropLast_eq_take, List.dropLast_eq_take, hlast, hlast'] at hdropped

end Parts

variable {α : Type} {s l : List (String × α)}

theorem lookup_of_sublist (h : s.Sublist l) (hdistinct : (l.map Prod.fst).Nodup) {key : String}
    {v : α} (hv : s.lookup key = some v) : l.lookup key = some v :=
  lookup_of_mem hdistinct (h.subset (mem_of_lookup hv))

theorem toFront_sublist_toFront (h : s.Sublist l) (hdistinct : (l.map Prod.fst).Nodup)
    (key : String) : (toFront key s).Sublist (toFront key l) := by
  have hrest : (without key s).Sublist (without key l) := h.filter _
  unfold toFront
  cases hs : s.lookup key with
  | some v =>
    rw [lookup_of_sublist h hdistinct hs]
    exact hrest.cons_cons (key, v)
  | none =>
    cases hl : l.lookup key with
    | none => exact h
    | some v =>
      have hall : without key s = s := by
        refine without_of_forall_ne fun e he hkey ↦ ?_
        have hheld : (s.lookup key).isSome := lookup_isSome_iff.mpr (hkey ▸ List.mem_map_of_mem he)
        rw [hs] at hheld
        cases hheld
      exact (hall ▸ hrest).cons (key, v)

end UseOrder

/-! ### Plain lists -/

namespace UseList

open UseOrder

variable {α : Type}

/-- Every key stands once in the list, and the entries are within the capacity. -/
structure Fits (l : UseList α) : Prop where
  distinct : (l.entries.map Prod.fst).Nodup
  length_le : l.entries.length ≤ l.capacity

/-- All entries of one list are in another, in their order, and the other has no more entries beside
them than it has room beside. -/
structure Within (s l : UseList α) : Prop where
  capacity_le : s.capacity ≤ l.capacity
  sublist : s.entries.Sublist l.entries
  room : l.entries.length + s.capacity ≤ s.entries.length + l.capacity

variable {s l : UseList α}

theorem Within.set (h : s.Within l) (hs : s.Fits) (hl : l.Fits) (key : String) (value : α) :
    (s.answer (.set key value)).2.Within (l.answer (.set key value)).2 := by
  have hput : (put key value s.entries).Sublist (put key value l.entries) :=
    (h.sublist.filter _).cons_cons (key, value)
  have hroom : (put key value l.entries).length + s.capacity ≤
      (put key value s.entries).length + l.capacity := by
    have hrest := length_filter_add_le h.sublist (·.1 ≠ key)
    have hbefore := h.room
    simp only [put, without, List.length_cons]
    omega
  refine ⟨h.capacity_le, take_sublist_take hput ?_ ?_ hroom, ?_⟩
  · exact Nat.le_trans (length_put_le key value s.entries) (Nat.succ_le_succ hs.length_le)
  · exact Nat.le_trans (length_put_le key value l.entries) (Nat.succ_le_succ hl.length_le)
  · change ((put key value l.entries).take l.capacity).length + s.capacity ≤
      ((put key value s.entries).take s.capacity).length + l.capacity
    rw [List.length_take, List.length_take]
    omega

theorem Within.toFront (h : s.Within l) (hs : s.Fits) (hl : l.Fits) (key : String) :
    Within { s with entries := toFront key s.entries }
      { l with entries := toFront key l.entries } where
  capacity_le := h.capacity_le
  sublist := toFront_sublist_toFront h.sublist hl.distinct key
  room := by
    rw [length_toFront hs.distinct, length_toFront hl.distinct]
    exact h.room

theorem Within.delete (h : s.Within l) (key : String) :
    (s.answer (.delete key)).2.Within (l.answer (.delete key)).2 where
  capacity_le := h.capacity_le
  sublist := h.sublist.filter _
  room := by
    have hrest := length_filter_add_le h.sublist (·.1 ≠ key)
    have hbefore := h.room
    change (without key l.entries).length + s.capacity ≤
      (without key s.entries).length + l.capacity
    unfold without
    omega

/-- Every request but a change of the capacity keeps one list within the other. -/
theorem Within.answer (h : s.Within l) (hs : s.Fits) (hl : l.Fits) {q : UseRequest α}
    (hq : ∀ capacity, q ≠ .resize capacity) : (s.answer q).2.Within (l.answer q).2 := by
  cases q with
  | set key value => exact h.set hs hl key value
  | get key => exact h.toFront hs hl key
  | touch key => exact h.toFront hs hl key
  | delete key => exact h.delete key
  | clear => exact ⟨h.capacity_le, .refl [], Nat.add_le_add_left h.capacity_le 0⟩
  | resize capacity => exact absurd rfl (hq capacity)
  | peek key => exact h
  | contains key => exact h
  | newest => exact h
  | oldest => exact h
  | size => exact h
  | keys => exact h
  | entries => exact h

end UseList

/-! ### Two maps -/

namespace Recency

variable {α : Type}

theorem Follows.fits {r : Recency α} {l : UseList α} (h : r.Follows l) : l.Fits where
  distinct := h.entries ▸ h.sound.distinct
  length_le := by
    rw [← h.entries, ← h.capacity]
    exact h.sound.length_entries_le

theorem Follows.within_run {r r' : Recency α} {s l : UseList α} (hs : r.Follows s)
    (hl : r'.Follows l) (h : s.Within l) {requests : List (UseRequest α)}
    (hfixed : ∀ capacity, .resize capacity ∉ requests) :
    (s.run requests).2.Within (l.run requests).2 := by
  induction requests generalizing r r' s l with
  | nil => exact h
  | cons q rest ih =>
    have hq (capacity : Nat) : q ≠ .resize capacity :=
      fun heq ↦ hfixed capacity (heq ▸ List.mem_cons_self)
    have hrest (capacity : Nat) : .resize capacity ∉ rest :=
      fun hmem ↦ hfixed capacity (List.mem_cons_of_mem q hmem)
    exact ih (hs.answer q).follows (hl.answer q).follows (h.answer hs.fits hl.fits hq) hrest

/-- Every key of one map is in another with the same value, and the keys that both have were used in
the same order. -/
structure HoldsAllOf (r' r : Recency α) : Prop where
  held : ∀ key, r.contains key = true → r'.contains key = true ∧ r'.peek? key = r.peek? key
  order : r.keys.Sublist r'.keys

theorem Follows.holdsAllOf {r r' : Recency α} {s l : UseList α} (hs : r.Follows s)
    (hl : r'.Follows l) (h : s.Within l) : r'.HoldsAllOf r where
  held key hkey := by
    rw [hs.sound.contains_eq, hs.entries] at hkey
    obtain ⟨v, hv⟩ := Option.isSome_iff_exists.mp hkey
    have hv' := UseOrder.lookup_of_sublist h.sublist hl.fits.distinct hv
    rw [hl.sound.contains_eq, hl.sound.peek?_eq, hs.sound.peek?_eq, hl.entries, hs.entries, hv, hv']
    exact ⟨rfl, rfl⟩
  order := by
    unfold keys
    rw [hs.entries, hl.entries]
    exact h.sublist.map Prod.fst

/-- For any two capacities, whether anyone listens or not: after the same requests, none of which
changes a capacity, the map of the larger capacity holds all that the other one holds. -/
theorem larger_holds_smaller {small large : Nat} (hpos : 0 < small) (hle : small ≤ large)
    (watched watched' : Bool) {requests : List (UseRequest α)}
    (hfixed : ∀ capacity, .resize capacity ∉ requests) :
    ∃ r r' : Recency α, ofCapacity small = .ok r ∧ ofCapacity large = .ok r' ∧
      (run { r' with watched := watched' } requests).2.HoldsAllOf
        (run { r with watched } requests).2 := by
  obtain ⟨r, hr, hs, -⟩ := exists_ofCapacity (α := α) hpos watched
  obtain ⟨r', hr', hl, -⟩ := exists_ofCapacity (α := α) (Nat.lt_of_lt_of_le hpos hle) watched'
  have hstart : UseList.Within (α := α) { capacity := small } { capacity := large } :=
    ⟨hle, .refl [], Nat.add_le_add_left hle 0⟩
  have hwithin := hs.within_run hl hstart hfixed
  exact ⟨r, r', hr, hr', (hs.run requests).2.1.holdsAllOf (hl.run requests).2.1 hwithin⟩

/-- A key that only the larger map still has is read, and a removal leaves room in the smaller. -/
theorem larger_holds_smaller_reordered :
    let requests : List (UseRequest Nat) :=
      [.set "a" 1, .set "b" 2, .set "c" 3, .get "a", .delete "b", .set "d" 4, .touch "c"]
    0 < 2 ∧ 2 ≤ 3 ∧ (∀ capacity, .resize capacity ∉ requests) ∧
      ∃ r r' : Recency Nat, ofCapacity 2 = .ok r ∧ ofCapacity 3 = .ok r' ∧
        (run r' requests).2.HoldsAllOf (run r requests).2 ∧
        (run r requests).2.keys = ["c", "d"] ∧ (run r' requests).2.keys = ["c", "d", "a"] := by
  intro requests
  have hfixed : ∀ capacity, .resize capacity ∉ requests := by simp [requests]
  obtain ⟨r, r', hr, hr', hholds⟩ :=
    larger_holds_smaller (show 0 < 2 by decide) (show 2 ≤ 3 by decide) false false hfixed
  cases hr
  cases hr'
  exact ⟨by decide, by decide, hfixed, _, _, rfl, rfl, hholds, rfl, rfl⟩

end Recency

end RoleAccess
