import Mathlib.Data.List.Infix
import Mathlib.Data.List.Nodup

/-!
First occurrences in lists: of an entry with some property (`IsFirst`), and of every entry, which
are what is left when repetitions are dropped. Where entries are met again and again, only the order
of their first occurrences counts, and what a list goes on with changes it by its new entries only
(`eraseDups_append_of_subset`, `eraseDups_append_congr`).
-/

set_option autoImplicit false
set_option relaxedAutoImplicit false

namespace RoleAccess

/-! ### The first entry with a property -/

section First

variable {α : Type} {P : α → Prop} {l before after : List α} {x y z : α}

/-- The entry has the property, and none before it has. -/
def IsFirst (P : α → Prop) (l : List α) (x : α) : Prop :=
  ∃ before after, l = before ++ x :: after ∧ (∀ y ∈ before, ¬P y) ∧ P x

theorem IsFirst.mem (h : IsFirst P l x) : x ∈ l := by
  obtain ⟨before, after, rfl, -⟩ := h
  exact List.mem_append_right before List.mem_cons_self

theorem IsFirst.holds (h : IsFirst P l x) : P x := by
  obtain ⟨-, -, -, -, hx⟩ := h
  exact hx

theorem IsFirst.extend {l' : List α} (h : IsFirst P l x) (hl : l <+: l') : IsFirst P l' x := by
  obtain ⟨before, after, rfl, hx⟩ := h
  obtain ⟨more, rfl⟩ := hl
  exact ⟨before, after ++ more, by rw [List.append_assoc, List.cons_append], hx⟩

theorem isFirst_cons_iff : IsFirst P (y :: l) x ↔ (P y ∧ x = y) ∨ (¬P y ∧ IsFirst P l x) := by
  constructor
  · rintro ⟨before, after, hsplit, hbefore, hPx⟩
    cases before with
    | nil =>
      obtain ⟨rfl, -⟩ := List.cons.inj hsplit
      exact Or.inl ⟨hPx, rfl⟩
    | cons z before =>
      obtain ⟨rfl, rfl⟩ := List.cons.inj hsplit
      obtain ⟨hPy, hbefore⟩ := List.forall_mem_cons.mp hbefore
      exact Or.inr ⟨hPy, before, after, rfl, hbefore, hPx⟩
  · rintro (⟨hPy, rfl⟩ | ⟨hPy, before, after, rfl, hbefore, hPx⟩)
    · exact ⟨[], l, rfl, fun z hz ↦ absurd hz List.not_mem_nil, hPy⟩
    · exact ⟨y :: before, after, rfl, List.forall_mem_cons.mpr ⟨hPy, hbefore⟩, hPx⟩

theorem IsFirst.unique (hx : IsFirst P l x) (hy : IsFirst P l y) : x = y := by
  induction l with
  | nil => exact absurd hx.mem List.not_mem_nil
  | cons z rest ih =>
    rcases isFirst_cons_iff.mp hx with ⟨hz, rfl⟩ | ⟨hz, hx⟩
    · rcases isFirst_cons_iff.mp hy with ⟨-, rfl⟩ | ⟨hnot, -⟩
      · rfl
      · exact absurd hz hnot
    · rcases isFirst_cons_iff.mp hy with ⟨hz', -⟩ | ⟨-, hy⟩
      · exact absurd hz' hz
      · exact ih hx hy

theorem exists_isFirst (h : ∃ x ∈ l, P x) : ∃ x, IsFirst P l x := by
  induction l with
  | nil =>
    obtain ⟨x, hx, -⟩ := h
    exact absurd hx List.not_mem_nil
  | cons y rest ih =>
    by_cases hPy : P y
    · exact ⟨y, isFirst_cons_iff.mpr (Or.inl ⟨hPy, rfl⟩)⟩
    · obtain ⟨x, hx⟩ := ih ((List.exists_mem_cons_iff ..).mp h |>.resolve_left hPy)
      exact ⟨x, isFirst_cons_iff.mpr (Or.inr ⟨hPy, hx⟩)⟩

/-- Where no entry is repeated, what comes before an entry is in the part before it. -/
theorem mem_of_pair_sublist (hnodup : (before ++ y :: after).Nodup)
    (h : [x, y].Sublist (before ++ y :: after)) : x ∈ before := by
  have hlast : y ∉ after := (List.nodup_cons.mp hnodup.of_append_right).1
  obtain ⟨first, second, hsplit, hfirst, hsecond⟩ := List.sublist_append_iff.mp h
  cases first with
  | nil =>
    -- Both would stand at or behind the only `y`.
    rw [List.nil_append] at hsplit
    subst hsplit
    exact absurd (List.singleton_sublist.mp hsecond.tail) hlast
  | cons w first =>
    obtain ⟨rfl, -⟩ := List.cons.inj hsplit
    exact hfirst.subset List.mem_cons_self

theorem IsFirst.eq_or_sublist (h : IsFirst P l z) (hx : x ∈ l) (hPx : P x) :
    z = x ∨ [z, x].Sublist l := by
  obtain ⟨before, after, rfl, hbefore, -⟩ := h
  rcases List.mem_append.mp hx with hx | hx
  · exact absurd hPx (hbefore x hx)
  · refine (List.mem_cons.mp hx).imp Eq.symm fun hafter ↦ ?_
    exact ((List.singleton_sublist.mpr hafter).cons_cons z).trans
      (List.sublist_append_right before _)

theorem IsFirst.ne_of_sublist (h : IsFirst P l z) (hnodup : l.Nodup) (hsub : [x, y].Sublist l)
    (hPx : P x) : z ≠ y := by
  rintro rfl
  obtain ⟨before, after, rfl, hbefore, -⟩ := h
  exact hbefore x (mem_of_pair_sublist hnodup hsub) hPx

end First

/-! ### The first occurrence of each entry -/

section FirstOfEach

variable {l l' ahead more rest : List String} {x y : String}

theorem nodup_eraseDups (l : List String) : l.eraseDups.Nodup := by
  induction hlength : l.length using Nat.strong_induction_on generalizing l with
  | _ n ih =>
    cases l with
    | nil => exact List.nodup_nil
    | cons x rest =>
      rw [List.eraseDups_cons, List.nodup_cons]
      constructor
      · rw [List.mem_eraseDups, List.mem_filter]
        simp
      · refine ih _ ?_ _ rfl
        rw [← hlength, List.length_cons]
        exact Nat.lt_succ_of_le (List.length_filter_le _ rest)

theorem eraseDups_sublist (l : List String) : l.eraseDups.Sublist l := by
  induction hlength : l.length using Nat.strong_induction_on generalizing l with
  | _ n ih =>
    cases l with
    | nil => exact List.nil_sublist []
    | cons x rest =>
      have hshorter : (rest.filter fun y ↦ !y == x).length < n := by
        rw [← hlength, List.length_cons]
        exact Nat.lt_succ_of_le (List.length_filter_le _ rest)
      rw [List.eraseDups_cons]
      exact ((ih _ hshorter _ rfl).trans List.filter_sublist).cons_cons x

theorem eraseDups_append_of_subset (h : ∀ x ∈ more, x ∈ l) :
    (l ++ more).eraseDups = l.eraseDups := by
  have hnone : more.removeAll l = [] := by
    rw [List.removeAll, List.filter_eq_nil_iff]
    intro x hx
    simp [h x hx]
  rw [List.eraseDups_append, hnone, List.eraseDups_nil, List.append_nil]

theorem eraseDups_append_of_not_mem (h : x ∉ l) : (l ++ [x]).eraseDups = l.eraseDups ++ [x] := by
  have hall : [x].removeAll l = [x] := by
    simp [List.removeAll, h]
  rw [List.eraseDups_append, hall, List.eraseDups_cons, List.filter_nil, List.eraseDups_nil]

theorem mem_of_mem_append_of_subset (hmore : ∀ x ∈ more, x ∈ l) (h : x ∈ l ++ more) : x ∈ l :=
  (List.mem_append.mp h).elim (fun hx ↦ hx) (hmore x)

theorem eraseDups_append_congr (h : l.eraseDups = l'.eraseDups) :
    (l ++ more).eraseDups = (l' ++ more).eraseDups := by
  have hsame : more.removeAll l = more.removeAll l' := by
    refine List.filter_congr fun x _ ↦ ?_
    have hmem : x ∈ l ↔ x ∈ l' := by rw [← List.mem_eraseDups, h, List.mem_eraseDups]
    simp only [List.elem_eq_mem, hmem]
  rw [List.eraseDups_append, List.eraseDups_append, h, hsame]

theorem eraseDups_append_cons_of_mem (h : x ∈ l) :
    (l ++ x :: rest).eraseDups = (l ++ rest).eraseDups := by
  rw [List.append_cons, eraseDups_append_congr]
  exact eraseDups_append_of_subset (by simp [h])

/-- Two lists that go on with the same new entries have the same one next. -/
theorem exists_of_eraseDups_eq (hnew : x ∉ l)
    (h : (l ++ x :: rest).eraseDups = (l ++ ahead).eraseDups) :
    ∃ pre post, ahead = pre ++ x :: post ∧ ∀ y ∈ pre, y ∈ l := by
  rw [List.eraseDups_append, List.eraseDups_append] at h
  have hnext := List.append_cancel_left h
  rw [List.cons_removeAll, if_pos (by simpa using hnew), List.eraseDups_cons] at hnext
  cases hahead : ahead.removeAll l with
  | nil => simp [hahead] at hnext
  | cons y others =>
    rw [hahead, List.eraseDups_cons] at hnext
    obtain ⟨rfl, -⟩ := List.cons.inj hnext
    obtain ⟨pre, post, rfl, hpre, -⟩ := List.filter_eq_cons_iff.mp hahead
    exact ⟨pre, post, rfl, fun y hy ↦ by simpa using hpre y hy⟩

/-- What precedes each place of an entry precedes it when the repetitions are dropped. -/
theorem pair_sublist_eraseDups (hy : y ∈ l)
    (hx : ∀ before after, l = before ++ y :: after → x ∈ before) : [x, y].Sublist l.eraseDups := by
  obtain ⟨before, after, rfl, hnew⟩ := List.eq_append_cons_of_mem hy
  rw [List.eraseDups_append]
  refine (List.singleton_sublist.mpr ?_).append (List.singleton_sublist.mpr ?_)
  · exact List.mem_eraseDups.mpr (hx before after rfl)
  · rw [List.mem_eraseDups, List.removeAll, List.mem_filter]
    simpa using hnew

end FirstOfEach

end RoleAccess
