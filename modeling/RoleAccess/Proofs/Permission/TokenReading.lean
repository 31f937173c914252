import RoleAccess.Proofs.Permission.OpenPatterns

/-!
Which tokens do what they are for. A dialect takes any tokens that can be told apart, also those
that are never found again in a folded string, such as capitals where case does not count. The
tokens are read back exactly if the dialect is `Legible`: if folding leaves them as they are and the
separator is found behind the wildcard. They work for every resource and action (`TokensWork`) if
the separator is besides one that is always found where it was put (`HasClearSeparator`).
-/

set_option autoImplicit false
set_option relaxedAutoImplicit false

namespace RoleAccess.Dialect

open Text

/-- The globstar grants everything, and the wildcard stands for every resource and action. -/
structure TokensWork (d : Dialect) : Prop where
  grants_all : ∀ permission, d.grants d.globstar permission = true
  every_resource : ∀ action, d.IsPart action →
    (d.parse (d.createResourceWildcard action)).isResourceWildcard = true
  every_action : ∀ resource, d.IsPart resource →
    (d.parse (d.createActionWildcard resource)).isActionWildcard = true

/-- The tokens are folded, the separator is in the case that counts, and it is found behind the
wildcard. -/
structure Legible (d : Dialect) : Prop where
  globstar : d.fold d.globstar = d.globstar
  wildcard : d.fold d.wildcard = d.wildcard
  separator : d.IsKept d.separator.toList
  apart : d.StandsApart d.wildcard.toList

/-- The separator does not overlap itself, and no letter of it is the lowercase of another. -/
structure HasClearSeparator (d : Dialect) : Prop where
  unbordered : Unbordered d.separator.toList
  caseless : d.caseSensitive = false → ∀ c ∈ d.separator.toList, Caseless c

variable {d : Dialect} {s resource action : String} {x : List Char}

theorem wildcard_ne_nil (d : Dialect) : d.wildcard.toList ≠ [] := by
  intro h
  have hsound := d.sound
  have hempty : d.wildcard.isEmpty = true := by
    rw [String.toList_eq_nil_iff.mp h]
    rfl
  simp only [Tokens.fault?, hempty, Bool.true_or] at hsound
  split at hsound <;> simp at hsound

/-- Behind a part as it stands in the folded string a clear separator is the first one. -/
theorem HasClearSeparator.standsApart (hd : d.HasClearSeparator) (h : d.IsPart resource)
    (action : String) : d.StandsApart (d.foldedResource resource action) := by
  apply hd.unbordered.cut_append_self
  intro hoccurs
  have hstart : d.separator.toList <:+: trimStart resource.toList := by
    unfold foldedResource foldBetween at hoccurs
    split at hoccurs
    next => exact hoccurs
    next hcase =>
      exact isInfix_of_isInfix_lowerBetween (hd.caseless (Bool.eq_false_iff.mpr hcase)) hoccurs
  exact occursIn_eq_false_iff.mp h.no_separator
    (hstart.trans (List.dropWhile_suffix isBlank).isInfix)

/-! ### Reading the wildcard back -/

namespace Legible

theorem isKept_wildcard (h : d.Legible) : d.IsKept d.wildcard.toList :=
  (fold_eq_self_iff.mp h.wildcard).2

theorem trim_wildcard (h : d.Legible) : trim d.wildcard.toList = d.wildcard.toList :=
  (fold_eq_self_iff.mp h.wildcard).1

theorem trim_wildcard_ne_nil (h : d.Legible) : trim d.wildcard.toList ≠ [] :=
  h.trim_wildcard.symm ▸ d.wildcard_ne_nil

theorem foldedResource_wildcard (h : d.Legible) (action : String) :
    d.foldedResource d.wildcard action = d.wildcard.toList := by
  rw [foldedResource, ← h.trim_wildcard, trimStart_trim, h.trim_wildcard,
    foldBetween_of_isKept h.isKept_wildcard]

theorem foldedAction_wildcard (h : d.Legible) (resource : String) :
    d.foldedAction resource d.wildcard = d.wildcard.toList := by
  have htrim : trimEnd d.wildcard.toList = d.wildcard.toList := by
    rw [← h.trim_wildcard, trim, trimEnd_trimEnd]
  rw [foldedAction, htrim, foldBetween_of_isKept h.isKept_wildcard]

theorem resource_createResourceWildcard (h : d.Legible) (haction : trim action.toList ≠ []) :
    (d.parse (d.createResourceWildcard action)).resource = d.wildcard := by
  by_cases hglobstar : d.fold (d.createResourceWildcard action) = d.globstar
  · rw [parse_of_fold_eq hglobstar]
    rfl
  · have hapart : d.StandsApart (d.foldedResource d.wildcard action) :=
      (h.foldedResource_wildcard action).symm ▸ h.apart
    have hsegments := segments_fold_create h.trim_wildcard_ne_nil haction h.separator hapart
    rw [parse_of_segments hglobstar hsegments, h.foldedResource_wildcard]
    exact String.ofList_toList

theorem action_createActionWildcard (h : d.Legible) (hresource : trim resource.toList ≠ [])
    (hapart : d.StandsApart (d.foldedResource resource d.wildcard)) :
    (d.parse (d.createActionWildcard resource)).action = d.wildcard := by
  by_cases hglobstar : d.fold (d.createActionWildcard resource) = d.globstar
  · rw [parse_of_fold_eq hglobstar]
    rfl
  · have huncut := cut_eq_none_of_cut_append_self d.separator_ne_nil h.apart
    have hsegments := segments_fold_create hresource h.trim_wildcard_ne_nil h.separator hapart
    rw [h.foldedAction_wildcard, huncut, Option.getD_none] at hsegments
    rw [parse_of_segments hglobstar hsegments, List.isEmpty_eq_false_iff.mpr d.wildcard_ne_nil]
    exact String.ofList_toList

theorem tokensWork (h : d.Legible) (hclear : d.HasClearSeparator) : d.TokensWork where
  grants_all := (d.grants_all_iff d.globstar).mpr (Or.inl (isGlobstar_parse_iff.mpr h.globstar))
  every_resource action haction := by
    rw [isResourceWildcard_parse, h.resource_createResourceWildcard haction.not_blank,
      isToken_wildcard]
  every_action resource hresource := by
    have hapart := hclear.standsApart hresource d.wildcard
    rw [isActionWildcard_parse, h.action_createActionWildcard hresource.not_blank hapart,
      isToken_wildcard]

end Legible

/-! ### Tokens that are read back -/

theorem fst_segments (d : Dialect) (folded : List Char) :
    (d.segments folded).1 = ((cut d.separator.toList folded).map Prod.fst).getD folded := by
  unfold segments
  cases hcut : cut d.separator.toList folded with
  | none => rfl
  | some parts =>
    obtain ⟨before, rest⟩ := parts
    cases hrest : cut d.separator.toList rest with
    | none => simp [hrest]
    | some others => simp [hrest]

theorem resource_parse (hne : d.fold s ≠ d.globstar) :
    (d.parse s).resource = String.ofList (d.segments (d.fold s).toList).1 := by
  rw [parse_of_segments hne rfl]
  rfl

section ReadBack

variable (hx : d.IsFresh x)
include hx

/-- In front of a fresh text the resource ends at a separator, since the whole would be too long to
be the wildcard. -/
theorem IsFresh.exists_cut {before : List Char} (hs : s.toList = before ++ x)
    (hreads : (d.parse s).resource = d.wildcard) :
    ∃ rest, cut d.separator.toList (d.fold s).toList = some (d.wildcard.toList, rest) := by
  have hsuffix : x <:+ (d.fold s).toList := by
    rw [toList_fold, hs, trim_append_of_no_blank _ hx.no_blank hx.ne_nil, foldBetween_append,
      foldBetween_of_isKept hx.kept]
    exact List.suffix_append _ x
  have hfirst : (d.segments (d.fold s).toList).1 = d.wildcard.toList := by
    rw [resource_parse (hx.fold_ne_globstar hsuffix.length_le)] at hreads
    rw [← hreads, String.toList_ofList]
  rw [fst_segments] at hfirst
  cases hcut : cut d.separator.toList (d.fold s).toList with
  | none =>
    rw [hcut, Option.map_none, Option.getD_none] at hfirst
    exact absurd (hfirst ▸ hsuffix.length_le) (Nat.not_le.mpr hx.wildcard_lt)
  | some parts =>
    rw [hcut] at hfirst
    exact ⟨parts.2, congrArg some (Prod.ext hfirst rfl)⟩

/-- In front of a fresh text the wildcard is read back only if it was kept and trimmed, and the
separator was found behind it. -/
theorem IsFresh.wildcard_of_resource
    (hreads : (d.parse (d.createResourceWildcard (String.ofList x))).resource = d.wildcard) :
    d.IsKept (d.wildcard.toList ++ d.separator.toList) ∧
      trimStart d.wildcard.toList = d.wildcard.toList ∧ d.StandsApart d.wildcard.toList := by
  have hwritten : (d.createResourceWildcard (String.ofList x)).toList =
      (d.wildcard.toList ++ d.separator.toList) ++ x := by
    rw [createResourceWildcard, create, String.toList_append, String.toList_append,
      String.toList_ofList]
  generalize d.createResourceWildcard (String.ofList x) = written at hreads hwritten
  obtain ⟨rest, hcut⟩ := hx.exists_cut hwritten hreads
  have hparts := cut_eq_append hcut
  have hkept : d.IsKept (d.wildcard.toList ++ d.separator.toList) :=
    isKept_of_subset (d.isKept_fold written) (hparts ▸ List.subset_append_left _ rest)
  have hfold : (d.fold written).toList = trim written.toList := by
    have hall : d.IsKept written.toList := hwritten ▸ isKept_append_iff.mpr ⟨hkept, hx.kept⟩
    rw [toList_fold, foldBetween_of_isKept (isKept_of_subset hall fun _ ↦ mem_of_mem_trim)]
  have hstart : trimStart d.wildcard.toList = d.wildcard.toList := by
    apply trimStart_of_trimStart_append d.wildcard_ne_nil (t := d.separator.toList ++ rest)
    rw [← List.append_assoc, ← hparts, hfold, trimStart_trim]
  have hblank := trim_ne_nil_of_trimStart_eq d.wildcard_ne_nil hstart
  have hrest : rest = x := by
    rw [hfold, hwritten, trim_append_of_no_blank _ hx.no_blank hx.ne_nil,
      trimStart_append hblank, hstart] at hparts
    exact (List.append_cancel_left hparts).symm
  rw [hparts, hrest, List.append_assoc, cut_append_append_iff] at hcut
  exact ⟨hkept, hstart, hcut⟩

/-- Behind a fresh text the wildcard is read back only if it was trimmed. -/
theorem IsFresh.trimEnd_wildcard
    (hkept : d.IsKept (d.wildcard.toList ++ d.separator.toList))
    (hblank : trim d.wildcard.toList ≠ []) (hapart : d.StandsApart d.wildcard.toList)
    (hreads : (d.parse (d.createActionWildcard (String.ofList x))).action = d.wildcard) :
    trimEnd d.wildcard.toList = d.wildcard.toList := by
  obtain ⟨hwildcard, hseparator⟩ := isKept_append_iff.mp hkept
  have hsubset : trimEnd d.wildcard.toList ⊆ d.wildcard.toList := fun _ ↦ mem_of_mem_trimEnd
  have haction : d.foldedAction (String.ofList x) d.wildcard = trimEnd d.wildcard.toList :=
    foldBetween_of_isKept (isKept_of_subset hwildcard hsubset)
  have huncut : cut d.separator.toList (trimEnd d.wildcard.toList) = none := by
    have hnone := cut_eq_none_of_cut_append_self d.separator_ne_nil hapart
    rw [cut_eq_none_iff] at hnone ⊢
    exact fun hoccurs ↦ hnone (hoccurs.trans (List.rdropWhile_prefix isBlank _).isInfix)
  have hsegments := segments_fold_create hx.isPart.not_blank hblank hseparator
    (hx.standsApart_foldedResource d.wildcard)
  rw [haction, huncut, Option.getD_none] at hsegments
  rw [createActionWildcard,
    parse_of_segments (hx.fold_create_ne_globstar hblank hseparator) hsegments,
    List.isEmpty_eq_false_iff.mpr (trimEnd_ne_nil hblank)] at hreads
  exact String.toList_ofList.symm.trans (congrArg String.toList hreads)

end ReadBack

/-! ### What the tokens do -/

/-- A colon and stars work, whether case counts or not. -/
theorem tokensWork_standard (caseSensitive : Bool) : (standard caseSensitive).TokensWork := by
  have hclear : (standard caseSensitive).HasClearSeparator := by
    refine ⟨by cases caseSensitive <;> decide, fun _ c hc ↦ ?_⟩
    rw [toList_separator] at hc
    exact List.mem_singleton.mp hc ▸ caseless_colon
  have hlegible : (standard caseSensitive).Legible := by
    refine ⟨?_, ?_, ?_, by cases caseSensitive <;> decide⟩
    · cases caseSensitive <;> decide +kernel
    · cases caseSensitive <;> decide +kernel
    · exact fun hcase c hc ↦ (hclear.caseless hcase c hc).settled
  exact hlegible.tokensWork hclear

/-- In a legible dialect with a clear separator the tokens work. In every dialect the globstar
grants everything exactly if its own reading is open, and the tokens are read back exactly if the
dialect is legible: the globstar as the grant of everything, the wildcard before every part, and
behind every part whose separator is found where it was put. -/
theorem token_readings (d : Dialect) :
    (d.Legible → d.HasClearSeparator → d.TokensWork) ∧
      ((∀ permission, d.grants d.globstar permission = true) ↔ (d.parse d.globstar).IsOpen) ∧
        (d.Legible ↔
          (d.parse d.globstar).isGlobstar = true ∧
            (∀ action, d.IsPart action →
              (d.parse (d.createResourceWildcard action)).resource = d.wildcard) ∧
              ∀ resource, d.IsPart resource →
                d.StandsApart (d.foldedResource resource d.wildcard) →
                  (d.parse (d.createActionWildcard resource)).action = d.wildcard) := by
  refine ⟨Legible.tokensWork, d.grants_all_iff d.globstar, fun h ↦ ?_,
    fun ⟨hglobstar, hbefore, hbehind⟩ ↦ ?_⟩
  · exact ⟨isGlobstar_parse_iff.mpr h.globstar,
      fun action haction ↦ h.resource_createResourceWildcard haction.not_blank,
      fun resource hresource ↦ h.action_createActionWildcard hresource.not_blank⟩
  · obtain ⟨x, hx, -⟩ := d.exists_isFresh 0
    obtain ⟨hkept, hstart, hapart⟩ := hx.wildcard_of_resource (hbefore _ hx.isPart)
    have hblank := trim_ne_nil_of_trimStart_eq d.wildcard_ne_nil hstart
    have hfresh := hx.standsApart_foldedResource d.wildcard
    have hend := hx.trimEnd_wildcard hkept hblank hapart (hbehind _ hx.isPart hfresh)
    obtain ⟨hwildcard, hseparator⟩ := isKept_append_iff.mp hkept
    refine ⟨isGlobstar_parse_iff.mp hglobstar, fold_eq_self_iff.mpr ⟨?_, hwildcard⟩, hseparator,
      hapart⟩
    rw [trim, hstart, hend]

/-- A separator that overlaps itself is found too early behind a resource that ends like it. -/
example :
    let d : Dialect := ⟨⟨"::", "*", "**", false⟩, by decide⟩
    d.createActionWildcard "a:" = "a:::*" ∧
      (d.parse (d.createActionWildcard "a:")).action = ":*" := by
  decide +kernel

/-- Words as tokens, with an arrow between the segments. -/
theorem token_readings_words :
    ∃ d, ofTokens ⟨"->", "any", "all", false⟩ = .ok d ∧
      d.Legible ∧ d.HasClearSeparator ∧ d.TokensWork := by
  let d : Dialect := ⟨⟨"->", "any", "all", false⟩, by decide⟩
  have harrow : d.separator.toList = ['-', '>'] := by decide
  have hcaseless : ∀ c ∈ d.separator.toList, Caseless c := by
    rw [harrow]
    exact List.forall_mem_cons.mpr ⟨caseless_of_isOutside (by decide +kernel),
      List.forall_mem_singleton.mpr (caseless_of_isOutside (by decide +kernel))⟩
  have hclear : d.HasClearSeparator := ⟨by decide, fun _ ↦ hcaseless⟩
  have hlegible : d.Legible :=
    ⟨by decide +kernel, by decide +kernel, fun _ c hc ↦ (hcaseless c hc).settled, by decide⟩
  exact ⟨d, rfl, hlegible, hclear, (token_readings d).1 hlegible hclear⟩

/-- Capitals as tokens are not found where case does not count, though they are well formed. -/
theorem capital_tokens_not_found :
    ∃ d, ofTokens ⟨":", "ANY", "ALL", false⟩ = .ok d ∧
      (d.isValid "ALL" = true ∧ d.isValid "ANY:read" = true ∧ d.isValid "users:ANY" = true) ∧
        d.grants "ALL" "users:read" = false ∧
          (d.parse (d.createResourceWildcard "read")).isResourceWildcard = false ∧
            (d.parse (d.createActionWildcard "users")).isActionWildcard = false ∧
              ¬d.TokensWork := by
  let d : Dialect := ⟨⟨":", "ANY", "ALL", false⟩, by decide⟩
  have hdenied : d.grants "ALL" "users:read" = false := by decide +kernel
  refine ⟨d, rfl, by decide +kernel, hdenied, by decide +kernel, by decide +kernel, fun hwork ↦ ?_⟩
  exact absurd (hwork.grants_all "users:read") (Bool.eq_false_iff.mp hdenied)

end RoleAccess.Dialect
