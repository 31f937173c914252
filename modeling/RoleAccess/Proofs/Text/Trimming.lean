import Mathlib.Data.List.DropRight
import RoleAccess.Proofs.Text.Casing

/-!
Trimming a text that is put together from parts, and trimming before or after it is lowered. A
character that is not white space keeps what stands on either side of it apart: only the part
before it is trimmed at the start, and only the part after it at the end.
-/

set_option autoImplicit false
set_option relaxedAutoImplicit false

namespace RoleAccess.Text

section Parts

variable {c : Char} {s t : List Char}

theorem trimStart_cons_of_blank (hc : isBlank c = true) (s : List Char) :
    trimStart (c :: s) = trimStart s :=
  List.dropWhile_cons_of_pos hc

theorem trimStart_cons (hc : isBlank c = false) (s : List Char) : trimStart (c :: s) = c :: s :=
  List.dropWhile_cons_of_neg (Bool.eq_false_iff.mp hc)

theorem trimStart_append_cons (hc : isBlank c = false) (s t : List Char) :
    trimStart (s ++ c :: t) = trimStart s ++ c :: t := by
  induction s with
  | nil => exact trimStart_cons hc t
  | cons first rest ih =>
    by_cases hfirst : isBlank first = true
    · rw [List.cons_append, trimStart_cons_of_blank hfirst, trimStart_cons_of_blank hfirst, ih]
    · have hfirst := Bool.eq_false_iff.mpr hfirst
      rw [List.cons_append, trimStart_cons hfirst, trimStart_cons hfirst]
      rfl

theorem trimEnd_append_cons (hc : isBlank c = false) (s t : List Char) :
    trimEnd (s ++ c :: t) = s ++ c :: trimEnd t := by
  unfold trimEnd
  rw [List.reverse_append, List.reverse_cons, List.append_assoc, List.singleton_append]
  change (trimStart (t.reverse ++ c :: s.reverse)).reverse = _
  rw [trimStart_append_cons hc, List.reverse_append, List.reverse_cons, List.reverse_reverse,
    List.append_assoc, List.singleton_append]
  rfl

theorem trim_append_cons (hc : isBlank c = false) (s t : List Char) :
    trim (s ++ c :: t) = trimStart s ++ c :: trimEnd t := by
  rw [trim, trimStart_append_cons hc, trimEnd_append_cons hc]

theorem trimEnd_concat_of_blank (hc : isBlank c = true) (s : List Char) :
    trimEnd (s ++ [c]) = trimEnd s :=
  List.rdropWhile_concat_pos isBlank s c hc

theorem trimEnd_concat (hc : isBlank c = false) (s : List Char) : trimEnd (s ++ [c]) = s ++ [c] :=
  List.rdropWhile_concat_neg isBlank s c (Bool.eq_false_iff.mp hc)

theorem mem_of_mem_trimStart (h : c ∈ trimStart s) : c ∈ s :=
  (List.dropWhile_suffix isBlank).subset h

theorem mem_of_mem_trimEnd (h : c ∈ trimEnd s) : c ∈ s :=
  (List.rdropWhile_prefix isBlank s).subset h

theorem mem_of_mem_trim (h : c ∈ trim s) : c ∈ s :=
  mem_of_mem_trimStart (mem_of_mem_trimEnd h)

theorem trimStart_eq_nil (h : ∀ c ∈ s, isBlank c = true) : trimStart s = [] :=
  List.dropWhile_eq_nil_iff.mpr h

theorem trimEnd_eq_nil (h : ∀ c ∈ s, isBlank c = true) : trimEnd s = [] :=
  List.rdropWhile_eq_nil_iff.mpr h

/-- A text is blank or has a character that is not. -/
theorem blank_or_split (s : List Char) :
    (∀ c ∈ s, isBlank c = true) ∨ ∃ l c r, s = l ++ c :: r ∧ isBlank c = false := by
  by_cases h : ∀ c ∈ s, isBlank c = true
  · exact Or.inl h
  · push Not at h
    obtain ⟨c, hc, hblank⟩ := h
    obtain ⟨l, r, hs⟩ := List.append_of_mem hc
    exact Or.inr ⟨l, c, r, hs, Bool.eq_false_iff.mpr hblank⟩

theorem trimStart_trimEnd (s : List Char) : trimStart (trimEnd s) = trim s := by
  rcases blank_or_split s with hblank | ⟨l, c, r, rfl, hc⟩
  · rw [trim, trimEnd_eq_nil hblank, trimStart_eq_nil hblank]
    rfl
  · rw [trimEnd_append_cons hc, trimStart_append_cons hc, trim_append_cons hc]

theorem trimStart_trimStart (s : List Char) : trimStart (trimStart s) = trimStart s :=
  List.dropWhile_idempotent isBlank s

theorem trimEnd_trimEnd (s : List Char) : trimEnd (trimEnd s) = trimEnd s :=
  List.rdropWhile_idempotent isBlank s

theorem trim_trimStart (s : List Char) : trim (trimStart s) = trim s := by
  rw [trim, trimStart_trimStart, trim]

theorem trim_trimEnd (s : List Char) : trim (trimEnd s) = trim s := by
  rw [← trimStart_trimEnd, trimEnd_trimEnd, trimStart_trimEnd]

theorem trimStart_trim (s : List Char) : trimStart (trim s) = trim s := by
  rw [← trimStart_trimEnd, trimStart_trimStart]

theorem trim_trim (s : List Char) : trim (trim s) = trim s := by
  rw [trim, trimStart_trim, trim, trimEnd_trimEnd]

theorem trim_sublist (s : List Char) : (trim s).Sublist s :=
  (List.rdropWhile_prefix isBlank (trimStart s)).sublist.trans
    (List.dropWhile_suffix isBlank).sublist

theorem trimEnd_of_no_blank (h : ∀ c ∈ s, isBlank c = false) : trimEnd s = s := by
  apply List.rdropWhile_eq_self_iff.mpr
  intro hne
  exact Bool.eq_false_iff.mp (h _ (List.getLast_mem hne))

theorem trim_of_no_blank (h : ∀ c ∈ s, isBlank c = false) : trim s = s := by
  have hstart : trimStart s = s := by
    cases s with
    | nil => rfl
    | cons c rest => exact trimStart_cons (h c List.mem_cons_self) rest
  rw [trim, hstart, trimEnd_of_no_blank h]

/-- A text without white space stays whole at the end of another one. -/
theorem trim_append_of_no_blank (s : List Char) (ht : ∀ c ∈ t, isBlank c = false) (hne : t ≠ []) :
    trim (s ++ t) = trimStart s ++ t := by
  obtain ⟨c, rest, rfl⟩ := List.exists_cons_of_ne_nil hne
  obtain ⟨hc, hrest⟩ := List.forall_mem_cons.mp ht
  rw [trim_append_cons hc, trimEnd_of_no_blank hrest]

theorem exists_split (h : trim s ≠ []) : ∃ l c r, s = l ++ c :: r ∧ isBlank c = false := by
  refine (blank_or_split s).resolve_left fun hblank ↦ h ?_
  rw [trim, trimStart_eq_nil hblank]
  rfl

theorem trimStart_append (hs : trim s ≠ []) (t : List Char) :
    trimStart (s ++ t) = trimStart s ++ t := by
  obtain ⟨l, c, r, rfl, hc⟩ := exists_split hs
  rw [List.append_assoc, List.cons_append, trimStart_append_cons hc, trimStart_append_cons hc,
    List.append_assoc, List.cons_append]

theorem trimEnd_append (s : List Char) (ht : trim t ≠ []) : trimEnd (s ++ t) = s ++ trimEnd t := by
  obtain ⟨l, c, r, rfl, hc⟩ := exists_split ht
  rw [← List.append_assoc, trimEnd_append_cons hc, trimEnd_append_cons hc, List.append_assoc]

/-- Between two texts that are not blank nothing is trimmed. -/
theorem trim_append_append (hs : trim s ≠ []) (m : List Char) (ht : trim t ≠ []) :
    trim (s ++ (m ++ t)) = trimStart s ++ (m ++ trimEnd t) := by
  rw [trim, trimStart_append hs, ← List.append_assoc, trimEnd_append _ ht, List.append_assoc]

theorem trim_ne_nil_of_trimStart_eq (hne : s ≠ []) (h : trimStart s = s) : trim s ≠ [] := by
  rcases blank_or_split s with hblank | ⟨l, c, r, rfl, hc⟩
  · exact absurd (h.symm.trans (trimStart_eq_nil hblank)) hne
  · rw [trim_append_cons hc]
    exact List.append_ne_nil_of_right_ne_nil _ (List.cons_ne_nil c _)

theorem trimEnd_ne_nil (h : trim s ≠ []) : trimEnd s ≠ [] := by
  intro hend
  rw [← trimStart_trimEnd, hend] at h
  exact h rfl

/-- What a trimmed text starts with is trimmed at the start. -/
theorem trimStart_of_trimStart_append (hne : s ≠ []) (h : trimStart (s ++ t) = s ++ t) :
    trimStart s = s := by
  obtain ⟨c, rest, rfl⟩ := List.exists_cons_of_ne_nil hne
  by_cases hc : isBlank c = true
  · rw [List.cons_append, trimStart_cons_of_blank hc] at h
    have hshort : (trimStart (rest ++ t)).length ≤ (rest ++ t).length :=
      (List.dropWhile_suffix isBlank).length_le
    rw [h, List.length_cons] at hshort
    omega
  · exact trimStart_cons (Bool.eq_false_iff.mpr hc) rest

end Parts

/-! ### Trimming and lowercase -/

section Lowercase

variable (before s after : List Char)

theorem exists_trimStart_lowerBetween :
    ∃ before', trimStart (lowerBetween before s after) =
      lowerBetween before' (trimStart s) after := by
  induction s generalizing before with
  | nil => exact ⟨before, rfl⟩
  | cons c rest ih =>
    by_cases hc : isBlank c = true
    · rw [lowerBetween, (caseless_of_isBlank hc).settled, List.singleton_append,
        trimStart_cons_of_blank hc, trimStart_cons_of_blank hc]
      exact ih (c :: before)
    · have hc := Bool.eq_false_iff.mpr hc
      refine ⟨before, ?_⟩
      rw [trimStart_cons hc, lowerBetween]
      cases hlower : lowerAt before c (rest ++ after) with
      | nil => exact absurd hlower (lowerAt_ne_nil before c (rest ++ after))
      | cons d more =>
        exact trimStart_cons (isBlank_of_mem_lowerAt hc (hlower ▸ List.mem_cons_self)) _

theorem exists_trimEnd_lowerBetween :
    ∃ after', trimEnd (lowerBetween before s after) = lowerBetween before (trimEnd s) after' := by
  induction s using List.reverseRecOn generalizing after with
  | nil => exact ⟨after, rfl⟩
  | append_singleton rest c ih =>
    rw [lowerBetween_append, lowerBetween, lowerBetween, List.append_nil]
    by_cases hc : isBlank c = true
    · rw [(caseless_of_isBlank hc).settled, trimEnd_concat_of_blank hc, trimEnd_concat_of_blank hc]
      exact ih ([c] ++ after)
    · have hc := Bool.eq_false_iff.mpr hc
      refine ⟨after, ?_⟩
      have hlower := lowerAt_ne_nil (rest.reverse ++ before) c ([] ++ after)
      rw [trimEnd_concat hc, lowerBetween_append, lowerBetween, lowerBetween, List.append_nil,
        ← List.dropLast_append_getLast hlower, ← List.append_assoc, trimEnd_concat]
      exact isBlank_of_mem_lowerAt hc (List.getLast_mem hlower)

/-- Trimming and lowercase may change places. -/
theorem exists_trim_lowerBetween :
    ∃ before' after',
      trim (lowerBetween before s after) = lowerBetween before' (trim s) after' := by
  obtain ⟨before', hstart⟩ := exists_trimStart_lowerBetween before s after
  obtain ⟨after', hend⟩ := exists_trimEnd_lowerBetween before' (trimStart s) after
  exact ⟨before', after', by rw [trim, hstart, hend, trim]⟩

end Lowercase

end RoleAccess.Text
