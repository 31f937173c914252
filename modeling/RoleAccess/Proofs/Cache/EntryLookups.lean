import RoleAccess.Proofs.Cache.RecencyEntries

/-!
What a key leads to in a list of entries that is kept in the order of use. Moving an entry to the
front changes nothing of it, and writing to a full list takes away the last entry and no other.
-/

set_option autoImplicit false
set_option relaxedAutoImplicit false

namespace RoleAccess.UseOrder

variable {α : Type}

theorem lookup_cons_if (held : String) (v : α) (rest : List (String × α)) (key : String) :
    ((held, v) :: rest).lookup key = if key = held then some v else rest.lookup key := by
  by_cases h : key = held
  · subst h
    rw [List.lookup_cons_self, if_pos rfl]
  · have hne : (key == held) = false := beq_false_of_ne h
    rw [List.lookup_cons, hne, if_neg h]

theorem lookup_without (key : String) (entries : List (String × α)) (other : String) :
    (without key entries).lookup other = if other = key then none else entries.lookup other := by
  induction entries with
  | nil => simp [without]
  | cons e rest ih =>
    obtain ⟨held, v⟩ := e
    unfold without at ih ⊢
    by_cases hheld : held = key
    · subst hheld
      rw [List.filter_cons_of_neg (by simp), ih, lookup_cons_if]
      split <;> rfl
    · rw [List.filter_cons_of_pos (by simpa using hheld), lookup_cons_if, lookup_cons_if, ih]
      by_cases hother : other = held
      · subst hother
        simp [hheld]
      · simp [hother]

theorem lookup_toFront (key : String) (entries : List (String × α)) (other : String) :
    (toFront key entries).lookup other = entries.lookup other := by
  unfold toFront
  split
  · rfl
  next v hv =>
    rw [lookup_cons_if, lookup_without]
    by_cases hother : other = key
    · rw [if_pos hother, hother, hv]
    · rw [if_neg hother, if_neg hother]

theorem lookup_put (key : String) (value : α) (entries : List (String × α)) (other : String) :
    (put key value entries).lookup other =
      if other = key then some value else entries.lookup other := by
  rw [put, lookup_cons_if, lookup_without]
  split <;> rfl

theorem lookup_isSome_iff {entries : List (String × α)} {key : String} :
    (entries.lookup key).isSome ↔ key ∈ entries.map Prod.fst := by
  induction entries with
  | nil => simp
  | cons e rest ih =>
    obtain ⟨held, v⟩ := e
    rw [lookup_cons_if, List.map_cons, List.mem_cons, ← ih]
    by_cases hkey : key = held <;> simp [hkey]

/-- Entries cut off the end of a list are those that it no longer has. -/
theorem lookup_take {entries : List (String × α)} (hdistinct : (entries.map Prod.fst).Nodup)
    {n : Nat} (hlength : entries.length ≤ n + 1) (key : String) :
    (entries.take n).lookup key =
      if entries[n]?.map Prod.fst = some key then none else entries.lookup key := by
  by_cases hn : n < entries.length
  · have hsplit : entries = entries.take n ++ [entries[n]] := by
      rw [List.take_append_getElem, List.take_of_length_le hlength]
    have hlast : entries[n].1 ∉ (entries.take n).map Prod.fst := by
      intro hmem
      rw [hsplit, List.map_append, List.nodup_append] at hdistinct
      exact hdistinct.2.2 _ hmem _ (by simp) rfl
    rw [List.getElem?_eq_getElem hn, Option.map_some]
    by_cases hkey : entries[n].1 = key
    · rw [if_pos (congrArg some hkey), ← Option.not_isSome_iff_eq_none, lookup_isSome_iff, ← hkey]
      exact hlast
    · rw [if_neg fun he ↦ hkey (Option.some.inj he)]
      conv_rhs => rw [hsplit, List.lookup_append]
      rw [show ([entries[n]] : List (String × α)).lookup key = none from
        lookup_eq_none (by simpa using hkey), Option.or_none]
  · rw [List.take_of_length_le (Nat.le_of_not_lt hn), List.getElem?_eq_none (Nat.le_of_not_lt hn)]
    rfl

theorem length_without_lt {key : String} {entries : List (String × α)}
    (h : key ∈ entries.map Prod.fst) : (without key entries).length < entries.length := by
  obtain ⟨e, he, rfl⟩ := List.mem_map.mp h
  exact List.length_filter_lt_length_iff_exists.mpr ⟨e, he, by simp⟩

/-- Taking out a key makes a list of entries shorter by one if the key is in it. -/
theorem length_without {entries : List (String × α)} (hdistinct : (entries.map Prod.fst).Nodup)
    (key : String) :
    (entries.lookup key).isSome.toNat + (without key entries).length = entries.length := by
  cases hlookup : entries.lookup key with
  | none =>
    have hne : ∀ e ∈ entries, e.1 ≠ key := fun e he ↦
      (bne_iff_ne.mp (List.lookup_eq_none_iff.mp hlookup e he)).symm
    rw [without_of_forall_ne hne]
    exact Nat.zero_add _
  | some v =>
    obtain ⟨a, b, rfl, -⟩ := List.lookup_eq_some_iff.mp hlookup
    rw [List.map_append, List.map_cons, List.nodup_middle, List.nodup_cons, ← List.map_append]
      at hdistinct
    have hne : ∀ e ∈ a ++ b, e.1 ≠ key := by
      intro e he hkey
      have hmem : e.1 ∈ (a ++ b).map Prod.fst := List.mem_map_of_mem he
      exact hdistinct.1 (hkey ▸ hmem)
    rw [without_split hne, List.length_append, List.length_append, List.length_cons]
    exact Nat.add_comm 1 _

/-- Among entries with distinct keys a key leads to its entry. -/
theorem lookup_of_mem {entries : List (String × α)} (hdistinct : (entries.map Prod.fst).Nodup)
    {key : String} {v : α} (h : (key, v) ∈ entries) : entries.lookup key = some v := by
  obtain ⟨a, b, rfl⟩ := List.append_of_mem h
  rw [List.map_append, List.map_cons, List.nodup_middle, List.nodup_cons] at hdistinct
  refine lookup_split fun e he hkey ↦ hdistinct.1 (List.mem_append_left _ ?_)
  have hmem : e.1 ∈ a.map Prod.fst := List.mem_map_of_mem he
  exact hkey ▸ hmem

theorem length_toFront {entries : List (String × α)} (hdistinct : (entries.map Prod.fst).Nodup)
    (key : String) : (toFront key entries).length = entries.length := by
  have hlength := length_without hdistinct key
  unfold toFront
  cases hlookup : entries.lookup key with
  | none => rfl
  | some v =>
    rw [hlookup, Option.isSome_some, Bool.toNat_true] at hlength
    rw [List.length_cons, Nat.add_comm]
    exact hlength

/-- Writing pushes an entry over the end only if the key is new and the list is full, and then it is
the last one. -/
theorem put_over_iff {entries : List (String × α)} {capacity : Nat} (hpos : 0 < capacity)
    (hlength : entries.length ≤ capacity) (key : String) (value : α) (other : String) :
    (put key value entries)[capacity]?.map Prod.fst = some other ↔
      key ∉ entries.map Prod.fst ∧ entries.length = capacity ∧
        (entries.map Prod.fst).getLast? = some other := by
  obtain ⟨n, rfl⟩ := Nat.exists_eq_succ_of_ne_zero (Nat.ne_of_gt hpos)
  rw [put, List.getElem?_cons_succ]
  by_cases hkey : key ∈ entries.map Prod.fst
  · have hnone : (without key entries)[n]? = none :=
      List.getElem?_eq_none (by have := length_without_lt hkey; omega)
    rw [hnone]
    exact iff_of_false (by simp) fun h ↦ h.1 hkey
  · have hsame : without key entries = entries :=
      without_of_forall_ne fun e he hne ↦ hkey (hne ▸ List.mem_map_of_mem he)
    rw [hsame, List.getLast?_eq_getElem?, List.length_map, ← List.getElem?_map]
    by_cases hfull : entries.length = n + 1
    · simp [hkey, hfull]
    · have hnone : (entries.map Prod.fst)[n]? = none :=
        List.getElem?_eq_none (by rw [List.length_map]; omega)
      rw [hnone]
      exact iff_of_false (by simp) fun h ↦ hfull h.2.1

theorem length_put_le (key : String) (value : α) (entries : List (String × α)) :
    (put key value entries).length ≤ entries.length + 1 :=
  Nat.succ_le_succ (List.length_filter_le _ _)

theorem distinct_put {entries : List (String × α)} (h : (entries.map Prod.fst).Nodup)
    (key : String) (value : α) : ((put key value entries).map Prod.fst).Nodup := by
  rw [put, List.map_cons, List.nodup_cons]
  refine ⟨fun hmem ↦ ?_, h.sublist (List.filter_sublist.map _)⟩
  obtain ⟨e, he, hkey⟩ := List.mem_map.mp hmem
  exact (mem_without.mp he).2 hkey

end RoleAccess.UseOrder
