import RoleAccess.Proofs.Permission.Segments

/-!
Which patterns grant every permission: exactly those that leave all segments open
(`grants_all_iff`). A pattern with a closed segment is refuted by a permission of fresh texts
(`IsFresh`), which are longer than both tokens, so that they are none, and do not have the first
character of the separator in them, so that they are never cut.
-/

set_option autoImplicit false
set_option relaxedAutoImplicit false

namespace RoleAccess

open Dialect Text

/-- A pattern with no closed segment. -/
def Pattern.IsOpen (p : Pattern) : Prop :=
  p.isGlobstar = true ∨
    p.isResourceWildcard = true ∧ p.isActionWildcard = true ∧ p.concreteScope = none

namespace Dialect

theorem admits_iff (pattern permission : Pattern) :
    admits pattern permission = true ↔
      pattern.isGlobstar = true ∨
        (pattern.isResourceWildcard = true ∨ permission.isResourceWildcard = true ∨
            pattern.resource = permission.resource) ∧
          (pattern.isActionWildcard = true ∨ permission.isActionWildcard = true ∨
              pattern.action = permission.action) ∧
            ∀ scope, pattern.concreteScope = some scope → permission.scope = some scope := by
  unfold admits
  cases pattern.concreteScope with
  | none => simp [or_assoc]
  | some scope => simp [and_assoc, or_assoc]

theorem admits_of_isOpen {pattern : Pattern} (h : pattern.IsOpen) (permission : Pattern) :
    admits pattern permission = true := by
  refine (admits_iff pattern permission).mpr (h.imp_right fun ⟨hresource, haction, hscope⟩ ↦ ?_)
  refine ⟨Or.inl hresource, Or.inl haction, fun scope hsome ↦ ?_⟩
  rw [hscope] at hsome
  exact absurd hsome (Option.some_ne_none scope).symm

/-! ### Readings of any string -/

section Readings

variable {d : Dialect} {s : String}

theorem isToken_wildcard (d : Dialect) : d.isToken d.wildcard = true := by
  simp [isToken]

theorem isGlobstar_parse_iff : (d.parse s).isGlobstar = true ↔ d.fold s = d.globstar := by
  by_cases h : d.fold s = d.globstar
  · rw [parse_of_fold_eq h]
    exact iff_of_true rfl h
  · rw [parse_of_segments h rfl]
    exact iff_of_false Bool.false_ne_true h

theorem isResourceWildcard_parse :
    (d.parse s).isResourceWildcard = d.isToken (d.parse s).resource := by
  by_cases h : d.fold s = d.globstar
  · rw [parse_of_fold_eq h]
    exact d.isToken_wildcard.symm
  · rw [parse_of_segments h rfl]
    rfl

theorem isActionWildcard_parse :
    (d.parse s).isActionWildcard = d.isToken (d.parse s).action := by
  by_cases h : d.fold s = d.globstar
  · rw [parse_of_fold_eq h]
    exact d.isToken_wildcard.symm
  · rw [parse_of_segments h rfl]
    rfl

theorem action_of_not_isInfix (h : ¬d.separator.toList <:+: (d.fold s).toList) :
    (d.parse s).action = d.wildcard := by
  by_cases hglobstar : d.fold s = d.globstar
  · rw [parse_of_fold_eq hglobstar]
    rfl
  · have hsegments : d.segments (d.fold s).toList = ((d.fold s).toList, [], []) := by
      rw [segments, cut_eq_none_iff.mpr h]
    rw [parse_of_segments hglobstar hsegments]
    rfl

/-- Only a separator in the case that counts is ever found. -/
theorem isKept_separator (h : (d.parse s).action ≠ d.wildcard) :
    d.IsKept d.separator.toList := by
  have hfound : d.separator.toList <:+: (d.fold s).toList := by
    by_contra hnone
    exact h (action_of_not_isInfix hnone)
  exact isKept_of_subset (d.isKept_fold s) hfound.subset

end Readings

/-! ### Fresh texts -/

/-- A string that can be one segment as it is written. -/
structure IsPart (d : Dialect) (s : String) : Prop where
  not_blank : trim s.toList ≠ []
  no_separator : occursIn d.separator.toList s.toList = false

/-- A text that is read as itself, longer than the tokens and free of the character that the
separator begins with. -/
structure IsFresh (d : Dialect) (x : List Char) : Prop where
  no_blank : ∀ c ∈ x, isBlank c = false
  kept : d.IsKept x
  globstar_lt : d.globstar.toList.length < x.length
  wildcard_lt : d.wildcard.toList.length < x.length
  no_separator : ∀ c rest, d.separator.toList = c :: rest → c ∉ x

theorem ne_ofList_of_lt {s : String} {x : List Char} (h : s.toList.length < x.length) :
    s ≠ String.ofList x := by
  rintro rfl
  rw [String.toList_ofList] at h
  exact absurd h (Nat.lt_irrefl _)

theorem exists_digit_ne (c : Char) :
    ∃ digit, digit ≠ c ∧ isBlank digit = false ∧ IsSettled digit := by
  have hzero : IsSettled '0' := (caseless_of_isOutside (by decide +kernel)).settled
  have hone : IsSettled '1' := (caseless_of_isOutside (by decide +kernel)).settled
  by_cases hc : c = '0'
  · exact ⟨'1', hc ▸ by decide, by decide, hone⟩
  · exact ⟨'0', Ne.symm hc, by decide, hzero⟩

theorem exists_isFresh (d : Dialect) (n : Nat) : ∃ x, d.IsFresh x ∧ n < x.length := by
  obtain ⟨first, rest, hsep⟩ := List.exists_cons_of_ne_nil d.separator_ne_nil
  obtain ⟨digit, hne, hblank, hsettled⟩ := exists_digit_ne first
  let length := d.globstar.toList.length + d.wildcard.toList.length + n + 1
  have hmem : ∀ c ∈ List.replicate length digit, c = digit := fun _ ↦ List.eq_of_mem_replicate
  have hlength : (List.replicate length digit).length = length := List.length_replicate
  refine ⟨List.replicate length digit, ⟨?_, ?_, ?_, ?_, ?_⟩, ?_⟩
  · exact fun c hc ↦ hmem c hc ▸ hblank
  · exact fun _ c hc ↦ hmem c hc ▸ hsettled
  · omega
  · omega
  · intro c rest' hsep' hc
    rw [hsep] at hsep'
    exact hne ((hmem c hc).symm.trans (List.cons.inj hsep').1.symm)
  · omega

namespace IsFresh

variable {d : Dialect} {x : List Char}

theorem ne_nil (h : d.IsFresh x) : x ≠ [] :=
  List.length_pos_iff.mp (Nat.zero_lt_of_lt h.globstar_lt)

theorem trim_eq (h : d.IsFresh x) : trim x = x := trim_of_no_blank h.no_blank

theorem trim_ne_nil (h : d.IsFresh x) : trim x ≠ [] := h.trim_eq.symm ▸ h.ne_nil

theorem trimStart_eq (h : d.IsFresh x) : trimStart x = x := by
  rw [← h.trim_eq, trimStart_trim]

theorem standsApart (h : d.IsFresh x) : d.StandsApart x := by
  obtain ⟨first, rest, hsep⟩ := List.exists_cons_of_ne_nil d.separator_ne_nil
  rw [StandsApart, hsep]
  exact cut_append_self_of_not_mem (h.no_separator first rest hsep)

theorem cut_eq_none (h : d.IsFresh x) : cut d.separator.toList x = none :=
  cut_eq_none_of_cut_append_self d.separator_ne_nil h.standsApart

/-- A string that stays as long as a fresh text is not the globstar. -/
theorem fold_ne_globstar (h : d.IsFresh x) {s : String}
    (hx : x.length ≤ (d.fold s).toList.length) : d.fold s ≠ d.globstar := by
  intro heq
  rw [heq] at hx
  exact absurd h.globstar_lt (Nat.not_lt.mpr hx)

theorem isToken_eq_false (h : d.IsFresh x) : d.isToken (String.ofList x) = false := by
  simp [isToken, (ne_ofList_of_lt h.wildcard_lt).symm, (ne_ofList_of_lt h.globstar_lt).symm]

theorem parse_eq (h : d.IsFresh x) :
    d.parse (String.ofList x) =
      d.ofSegments (String.ofList x) d.wildcard none (String.ofList x) := by
  have hfold : (d.fold (String.ofList x)).toList = x := by
    rw [toList_fold, String.toList_ofList, h.trim_eq, foldBetween_of_isKept h.kept]
  have hsegments : d.segments (d.fold (String.ofList x)).toList = (x, [], []) := by
    rw [hfold, segments, h.cut_eq_none]
  have hlong := (congrArg List.length hfold).ge
  exact parse_of_segments (h.fold_ne_globstar hlong) hsegments

theorem foldedResource_eq (h : d.IsFresh x) (action : String) :
    d.foldedResource (String.ofList x) action = x := by
  rw [foldedResource, String.toList_ofList, h.trimStart_eq, foldBetween_of_isKept h.kept]

theorem foldedAction_eq (h : d.IsFresh x) (resource : String) :
    d.foldedAction resource (String.ofList x) = x := by
  rw [foldedAction, String.toList_ofList, trimEnd_of_no_blank h.no_blank,
    foldBetween_of_isKept h.kept]

theorem isPart (h : d.IsFresh x) : d.IsPart (String.ofList x) where
  not_blank := String.toList_ofList.symm ▸ h.trim_ne_nil
  no_separator := by
    rw [String.toList_ofList, occursIn_eq_false_iff, ← cut_eq_none_iff]
    exact h.cut_eq_none

theorem standsApart_foldedResource (h : d.IsFresh x) (action : String) :
    d.StandsApart (d.foldedResource (String.ofList x) action) :=
  (h.foldedResource_eq action).symm ▸ h.standsApart

theorem fold_create_ne_globstar (h : d.IsFresh x) {action : String}
    (haction : trim action.toList ≠ []) (hsep : d.IsKept d.separator.toList) :
    d.fold (d.create (String.ofList x) action none) ≠ d.globstar := by
  apply h.fold_ne_globstar
  rw [toList_fold_create h.isPart.not_blank haction hsep, h.foldedResource_eq]
  exact (List.prefix_append x _).length_le

theorem parse_create (h : d.IsFresh x) (hsep : d.IsKept d.separator.toList) :
    d.parse (d.create (String.ofList x) (String.ofList x) none) =
      d.ofSegments (String.ofList x) (String.ofList x) none
        (d.create (String.ofList x) (String.ofList x) none) := by
  have hblank := h.isPart.not_blank
  have hsegments :=
    segments_fold_create hblank hblank hsep (h.standsApart_foldedResource (String.ofList x))
  rw [h.foldedResource_eq, h.foldedAction_eq, h.cut_eq_none, Option.getD_none] at hsegments
  rw [parse_of_segments (h.fold_create_ne_globstar hblank hsep) hsegments,
    List.isEmpty_eq_false_iff.mpr h.ne_nil]
  rfl

end IsFresh

/-! ### Granting everything -/

/-- A pattern grants every permission exactly if it is open. -/
theorem grants_all_iff (d : Dialect) (pattern : String) :
    (∀ permission, d.grants pattern permission = true) ↔ (d.parse pattern).IsOpen := by
  refine ⟨fun hall ↦ ?_, fun h permission ↦ admits_of_isOpen h (d.parse permission)⟩
  by_cases hglobstar : (d.parse pattern).isGlobstar = true
  · exact Or.inl hglobstar
  have hclosed : ∀ permission, _ := fun permission ↦
    ((admits_iff _ _).mp (hall permission)).resolve_left hglobstar
  obtain ⟨x, hx, hlong⟩ := d.exists_isFresh
    ((d.parse pattern).resource.toList.length + (d.parse pattern).action.toList.length)
  obtain ⟨hresource, -, hscope⟩ := hclosed (String.ofList x)
  rw [hx.parse_eq] at hresource hscope
  refine Or.inr ⟨?_, ?_, ?_⟩
  · rcases hresource with hopen | htoken | hsame
    · exact hopen
    · exact absurd htoken (Bool.eq_false_iff.mp hx.isToken_eq_false)
    · exact absurd hsame (ne_ofList_of_lt (by omega))
  · rw [isActionWildcard_parse]
    by_cases haction : (d.parse pattern).action = d.wildcard
    · rw [haction, isToken_wildcard]
    · obtain ⟨-, hgranted, -⟩ := hclosed (d.create (String.ofList x) (String.ofList x) none)
      rw [hx.parse_create (isKept_separator haction)] at hgranted
      rcases hgranted with hopen | htoken | hsame
      · exact isActionWildcard_parse.symm.trans hopen
      · exact absurd htoken (Bool.eq_false_iff.mp hx.isToken_eq_false)
      · exact absurd hsame (ne_ofList_of_lt (by omega))
  · cases hconcrete : (d.parse pattern).concreteScope with
    | none => rfl
    | some scope => exact absurd (hscope scope hconcrete) (Option.some_ne_none scope).symm

end Dialect

end RoleAccess
