import RoleAccess.Text.Cut

/-!
Cutting a text that is put together from parts. A part comes back as it was if the separator behind
it is the first one in the text, which does not depend on what comes later
(`cut_append_append_iff`). That is so if the separator begins with a character that the part does
not have, or if it does not occur in the part and does not overlap itself (`Unbordered`). The parts
between all separators, joined again, are the text, and parts without the separator come back from
the text that they are joined to.
-/

set_option autoImplicit false
set_option relaxedAutoImplicit false

namespace RoleAccess.Text

section Occurrences

variable {sep s before after : List Char} {c : Char}

theorem cut_of_isPrefix (h : sep <+: s) : cut sep s = some ([], s.drop sep.length) := by
  cases s with
  | nil =>
    rw [List.prefix_nil.mp h]
    rfl
  | cons first rest => rw [cut, if_pos (List.isPrefixOf_iff_prefix.mpr h)]

theorem cut_self (sep : List Char) : cut sep sep = some ([], []) := by
  rw [cut_of_isPrefix (List.prefix_refl sep), List.drop_length]

theorem cut_cons (h : ¬sep <+: c :: s) :
    cut sep (c :: s) = (cut sep s).map fun (before, after) ↦ (c :: before, after) := by
  rw [cut, if_neg fun hsep ↦ h (List.isPrefixOf_iff_prefix.mp hsep)]

theorem cut_cons_eq_some_iff (h : ¬sep <+: c :: s) :
    cut sep (c :: s) = some (c :: before, after) ↔ cut sep s = some (before, after) := by
  rw [cut_cons h]
  simp

theorem cut_eq_none_iff : cut sep s = none ↔ ¬sep <:+: s := by
  induction s with
  | nil =>
    rw [List.infix_nil, cut]
    split <;> simp_all
  | cons c rest ih =>
    rw [List.infix_cons_iff, not_or]
    by_cases hc : sep <+: c :: rest
    · rw [cut_of_isPrefix hc]
      exact iff_of_false (Option.some_ne_none _) fun h ↦ h.1 hc
    · rw [cut_cons hc, Option.map_eq_none_iff, ih]
      exact (and_iff_right hc).symm

theorem occursIn_eq_false_iff : occursIn sep s = false ↔ ¬sep <:+: s := by
  rw [← cut_eq_none_iff, occursIn, Option.isSome_eq_false_iff, Option.isNone_iff_eq_none]

/-- Where a separator is the first one in a text does not depend on what comes after it. -/
theorem cut_append_append_iff (s t : List Char) :
    cut sep (s ++ (sep ++ t)) = some (s, t) ↔ cut sep (s ++ sep) = some (s, []) := by
  induction s with
  | nil =>
    rw [List.nil_append, List.nil_append, cut_of_isPrefix (List.prefix_append sep t),
      List.drop_left]
    exact iff_of_true rfl (cut_self sep)
  | cons c rest ih =>
    have hlong : sep <+: c :: (rest ++ (sep ++ t)) ↔ sep <+: c :: (rest ++ sep) := by
      have hextend : c :: (rest ++ sep) <+: c :: (rest ++ (sep ++ t)) :=
        ⟨t, by rw [List.cons_append, List.append_assoc]⟩
      refine ⟨fun h ↦ List.prefix_of_prefix_length_le h hextend ?_, fun h ↦ h.trans hextend⟩
      simp only [List.length_cons, List.length_append]
      omega
    by_cases hc : sep <+: c :: (rest ++ sep)
    · rw [List.cons_append, List.cons_append, cut_of_isPrefix hc, cut_of_isPrefix (hlong.mpr hc)]
      exact iff_of_false (by simp) (by simp)
    · rw [List.cons_append, List.cons_append, cut_cons_eq_some_iff hc,
        cut_cons_eq_some_iff (mt hlong.mp hc)]
      exact ih

/-- In front of a separator that is the first one in a text there is none. -/
theorem cut_eq_none_of_cut_append_self (hsep : sep ≠ []) (h : cut sep (s ++ sep) = some (s, [])) :
    cut sep s = none := by
  induction s with
  | nil => exact cut_eq_none_iff.mpr (mt List.infix_nil.mp hsep)
  | cons c rest ih =>
    have hlater : ¬sep <+: c :: (rest ++ sep) := by
      intro hc
      rw [List.cons_append, cut_of_isPrefix hc] at h
      simp at h
    have hrest : cut sep rest = none := ih ((cut_cons_eq_some_iff hlater).mp h)
    rw [cut_cons fun hc ↦ hlater (hc.trans (List.prefix_append (c :: rest) sep)), hrest]
    rfl

end Occurrences

section FirstCharacter

variable {c : Char} {sep s : List Char}

theorem cut_of_not_mem (h : c ∉ s) : cut (c :: sep) s = none :=
  cut_eq_none_iff.mpr fun hsep ↦ h (hsep.subset List.mem_cons_self)

theorem cut_append_self_of_not_mem (h : c ∉ s) :
    cut (c :: sep) (s ++ c :: sep) = some (s, []) := by
  induction s with
  | nil => exact cut_self (c :: sep)
  | cons first rest ih =>
    obtain ⟨hfirst, hrest⟩ := not_or.mp (mt List.mem_cons.mpr h)
    have hapart : ¬c :: sep <+: first :: (rest ++ c :: sep) :=
      fun hsep ↦ hfirst (List.cons_prefix_cons.mp hsep).1
    exact (cut_cons_eq_some_iff hapart).mpr (ih hrest)

end FirstCharacter

section Borders

/-- A text that agrees with no shift of itself by less than its length. -/
def Unbordered (s : List Char) : Prop := ∀ n < s.length, 0 < n → ¬s.drop n <+: s

instance (s : List Char) : Decidable (Unbordered s) :=
  inferInstanceAs (Decidable (∀ n < s.length, 0 < n → ¬s.drop n <+: s))

/-- A separator without borders does not reach back into a text in which it does not occur. -/
theorem Unbordered.cut_append_self {sep s : List Char} (hsep : Unbordered sep)
    (h : ¬sep <:+: s) : cut sep (s ++ sep) = some (s, []) := by
  induction s with
  | nil => exact cut_self sep
  | cons c rest ih =>
    obtain ⟨hhere, hrest⟩ := not_or.mp (mt List.infix_cons_iff.mpr h)
    refine (cut_cons_eq_some_iff fun hbegin ↦ ?_).mpr (ih hrest)
    rcases Nat.lt_or_ge (c :: rest).length sep.length with hlong | hshort
    · obtain ⟨part, rfl⟩ : c :: rest <+: sep :=
        List.prefix_of_prefix_length_le (List.prefix_append _ sep) hbegin (Nat.le_of_lt hlong)
      refine hsep (c :: rest).length hlong (Nat.succ_pos _) ?_
      rw [List.drop_left]
      exact (List.prefix_append_right_inj (c :: rest)).mp hbegin
    · exact hhere (List.prefix_of_prefix_length_le hbegin (List.prefix_append _ sep) hshort)

end Borders

section OneCharacter

variable {c : Char} {s : List Char}

theorem cut_append_cons (h : c ∉ s) (t : List Char) : cut [c] (s ++ c :: t) = some (s, t) :=
  (cut_append_append_iff s t).mpr (cut_append_self_of_not_mem h)

/-- Only one part before the first separator and one after it make up a text. -/
theorem append_cons_inj {s' t t' : List Char} (hs : c ∉ s) (hs' : c ∉ s') :
    s ++ c :: t = s' ++ c :: t' ↔ s = s' ∧ t = t' := by
  constructor
  · intro h
    have hcut := congrArg (cut [c]) h
    rw [cut_append_cons hs, cut_append_cons hs'] at hcut
    exact Prod.mk.inj (Option.some.inj hcut)
  · intro ⟨hbefore, hafter⟩
    rw [hbefore, hafter]

end OneCharacter

section AllParts

variable {sep : List Char} (hsep : sep ≠ [])

theorem splitAll_of_cut_eq_none {s : List Char} (h : cut sep s = none) :
    splitAll sep hsep s = [s] := by
  rw [splitAll]
  split <;> simp_all

theorem splitAll_of_cut_eq_some {s before after : List Char}
    (h : cut sep s = some (before, after)) :
    splitAll sep hsep s = before :: splitAll sep hsep after := by
  rw [splitAll]
  split <;> simp_all

theorem splitAll_ne_nil (s : List Char) : splitAll sep hsep s ≠ [] := by
  unfold splitAll
  split <;> exact List.cons_ne_nil _ _

theorem intercalate_splitAll (s : List Char) : sep.intercalate (splitAll sep hsep s) = s := by
  fun_induction splitAll sep hsep s with
  | case1 s hcut => simp
  | case2 s before after hcut hlt ih =>
    rw [List.intercalate_cons_of_ne_nil (splitAll_ne_nil hsep after), ih, cut_eq_append hcut]

theorem splitAll_intercalate {c : Char} (hsep : [c] ≠ []) {parts : List (List Char)}
    (hne : parts ≠ []) (hc : ∀ part ∈ parts, c ∉ part) :
    splitAll [c] hsep ([c].intercalate parts) = parts := by
  induction parts with
  | nil => exact absurd rfl hne
  | cons first rest ih =>
    obtain ⟨hfirst, hrest⟩ := List.forall_mem_cons.mp hc
    rcases rest with _ | ⟨second, rest⟩
    · rw [List.intercalate_singleton, splitAll_of_cut_eq_none hsep (cut_of_not_mem hfirst)]
    · rw [List.intercalate_cons_cons, List.append_assoc, List.singleton_append,
        splitAll_of_cut_eq_some hsep (cut_append_cons hfirst _), ih (List.cons_ne_nil _ _) hrest]

end AllParts

end RoleAccess.Text
