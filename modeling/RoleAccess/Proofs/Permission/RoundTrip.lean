import RoleAccess.Proofs.Permission.FieldSegments
import RoleAccess.Proofs.Permission.OpenPatterns
import RoleAccess.Proofs.Permission.ShortForm

/-!
What comes back of segments that are put together and read again. The joined string is folded as a
whole, and a colon does not end a word, so a capital sigma may take another form in it than in its
segment alone. Each segment comes back as its own fold exactly if its capital sigmas take the same
forms in both places (`SigmasAgree`, `lowerBetween_eq_iff`), and up to their forms it always does
(`create_round_trip`). A wildcard action leaves the resource as it is alone, so that it grants an
action unless the resource ends in a final sigma and the action begins with a letter
(`grants_createActionWildcard_iff`). Well-formed segments have no capital sigma in them
(`parse_create_of_isSegment`).
-/

set_option autoImplicit false
set_option relaxedAutoImplicit false

namespace RoleAccess

/-! ### Sigmas in two places -/

namespace Text

/-- The capital sigmas of a text take the same forms between two texts as between two others. -/
def SigmasAgree (s before after before' after' : List Char) : Prop :=
  ∀ left right, s = left ++ capitalSigma :: right →
    lowerSigma (left.reverse ++ before) (right ++ after) =
      lowerSigma (left.reverse ++ before') (right ++ after')

section Places

variable {before after before' after' s rest : List Char} {c : Char}

theorem sigmasAgree_of_no_sigma (h : capitalSigma ∉ s) :
    SigmasAgree s before after before' after' := by
  rintro left right rfl
  exact absurd (List.mem_append_right left List.mem_cons_self) h

theorem sigmasAgree_cons_iff :
    SigmasAgree (c :: rest) before after before' after' ↔
      (c = capitalSigma →
        lowerSigma before (rest ++ after) = lowerSigma before' (rest ++ after')) ∧
      SigmasAgree rest (c :: before) after (c :: before') after' := by
  constructor
  · refine fun h ↦ ⟨fun hc ↦ h [] rest (congrArg (· :: rest) hc), fun left right hrest ↦ ?_⟩
    have hhere := h (c :: left) right (congrArg (c :: ·) hrest)
    rwa [List.reverse_cons, List.append_assoc, List.append_assoc] at hhere
  · rintro ⟨hfirst, hlater⟩ left right hs
    cases left with
    | nil =>
      obtain ⟨rfl, rfl⟩ := List.cons.inj hs
      exact hfirst rfl
    | cons first left =>
      obtain ⟨rfl, hrest⟩ := List.cons.inj hs
      rw [List.reverse_cons, List.append_assoc, List.append_assoc]
      exact hlater left right hrest

theorem length_lowerAt (before : List Char) (c : Char) (after : List Char) :
    (lowerAt before c after).length = (plainLower c).length := by
  rw [← map_plainSigma_lowerAt before c after, List.length_map]

theorem lowerAt_eq_iff :
    lowerAt before c after = lowerAt before' c after' ↔
      (c = capitalSigma → lowerSigma before after = lowerSigma before' after') := by
  unfold lowerAt
  split
  next hc => simp [hc]
  next hc => simp [hc]

/-- Lowercase is the same in two places exactly if the sigmas are. -/
theorem lowerBetween_eq_iff :
    lowerBetween before s after = lowerBetween before' s after' ↔
      SigmasAgree s before after before' after' := by
  induction s generalizing before before' with
  | nil => exact iff_of_true rfl (sigmasAgree_of_no_sigma List.not_mem_nil)
  | cons c rest ih =>
    rw [sigmasAgree_cons_iff, ← lowerAt_eq_iff, ← ih, lowerBetween, lowerBetween]
    constructor
    · exact fun h ↦ List.append_inj h ((length_lowerAt _ _ _).trans (length_lowerAt _ _ _).symm)
    · rintro ⟨hfirst, hlater⟩
      rw [hfirst, hlater]

end Places

/-! ### The end of a word -/

theorem meetsCased_append (s after : List Char) :
    meetsCased (s ++ after) = if s.all isCaseIgnorable then meetsCased after else meetsCased s := by
  induction s with
  | nil => rfl
  | cons c rest ih =>
    by_cases hc : isCaseIgnorable c = true
    · simp only [meetsCased, List.cons_append, List.dropWhile_cons_of_pos hc, List.all_cons, hc,
        Bool.true_and] at ih ⊢
      exact ih
    · simp only [meetsCased, List.cons_append, List.dropWhile_cons_of_neg hc, List.all_cons,
        Bool.eq_false_iff.mpr hc, Bool.false_and, Bool.false_eq_true, if_false]

theorem meetsCased_of_all_ignorable {s : List Char} (h : s.all isCaseIgnorable = true) :
    meetsCased s = false := by
  have hnone := meetsCased_append s []
  rw [List.append_nil, if_pos h] at hnone
  exact hnone

/-- The last word of a text ends in a capital sigma that is not its first letter. -/
def EndsInSigma (s : List Char) : Prop :=
  ∃ left right, s = left ++ capitalSigma :: right ∧ meetsCased left.reverse = true ∧
    right.all isCaseIgnorable = true

theorem EndsInSigma.mem {s : List Char} (h : EndsInSigma s) : capitalSigma ∈ s := by
  obtain ⟨left, right, rfl, -⟩ := h
  exact List.mem_append_right left List.mem_cons_self

/-- What follows a text changes its sigmas exactly if it goes on with the last word. -/
theorem sigmasAgree_alone_iff {s after : List Char} :
    SigmasAgree s [] after [] [] ↔ ¬(EndsInSigma s ∧ meetsCased after = true) := by
  constructor
  · rintro h ⟨⟨left, right, hs, hleft, hright⟩, hafter⟩
    have hforms := h left right hs
    simp only [lowerSigma, List.append_nil, meetsCased_append, hright, hleft, hafter,
      meetsCased_of_all_ignorable hright, if_true] at hforms
    exact absurd hforms (by decide)
  · intro h left right hs
    unfold lowerSigma
    rw [List.append_nil, List.append_nil, meetsCased_append]
    by_cases hright : right.all isCaseIgnorable = true
    · rw [if_pos hright, meetsCased_of_all_ignorable hright]
      by_cases hleft : meetsCased left.reverse = true
      · have hafter : meetsCased after = false :=
          Bool.eq_false_iff.mpr fun hafter ↦ h ⟨⟨left, right, hs, hleft, hright⟩, hafter⟩
        rw [hafter]
      · rw [Bool.eq_false_iff.mpr hleft, Bool.false_and, Bool.false_and]
    · rw [if_neg hright]

theorem isCaseIgnorable_colon : isCaseIgnorable ':' = true := by
  decide +kernel

theorem meetsCased_colon_cons (s : List Char) : meetsCased (':' :: s) = meetsCased s := by
  unfold meetsCased
  rw [List.dropWhile_cons_of_pos isCaseIgnorable_colon]

theorem meetsCased_star : meetsCased ['*'] = false := by
  decide +kernel

end Text

namespace Dialect

open Text

/-! ### Plain segments -/

/-- A string that can be one segment: not empty, without a colon, and trimmed. -/
structure IsPlain (s : String) : Prop where
  ne_empty : s ≠ ""
  no_colon : ':' ∉ s.toList
  trimmed_eq : trimmed s = s

instance (s : String) : Decidable (IsPlain s) :=
  decidable_of_iff (s ≠ "" ∧ ':' ∉ s.toList ∧ trimmed s = s)
    ⟨fun ⟨hne, hcolon, htrim⟩ ↦ ⟨hne, hcolon, htrim⟩, fun h ↦ ⟨h.1, h.2, h.3⟩⟩

section Plain

variable {s : String}

theorem IsPlain.ne_nil (h : IsPlain s) : s.toList ≠ [] :=
  mt String.toList_eq_nil_iff.mp h.ne_empty

theorem IsPlain.trim_eq (h : IsPlain s) : trim s.toList = s.toList := by
  rw [← toList_trimmed, h.trimmed_eq]

theorem IsPlain.trimStart_eq (h : IsPlain s) : trimStart s.toList = s.toList := by
  have hidle := trimStart_trim s.toList
  rwa [h.trim_eq] at hidle

theorem IsPlain.trimEnd_eq (h : IsPlain s) : trimEnd s.toList = s.toList := by
  have hidle := trimEnd_trimEnd (trimStart s.toList)
  rwa [← trim, h.trim_eq] at hidle

theorem IsPlain.fold_eq (h : IsPlain s) (d : Dialect) :
    d.fold s = String.ofList (d.foldBetween [] s.toList []) := by
  rw [← String.toList_inj, toList_fold, h.trim_eq, String.toList_ofList]

theorem isPlain_star : IsPlain "*" := by
  decide

theorem isPlain_of_none (s : String) (h : none = some s) : IsPlain s := nomatch h

theorem isPlain_of_isSegment {cs : Bool}
    (h : (standard cs).isSegment s.toList = true) : IsPlain s := by
  obtain ⟨hne, hcolon, hblank⟩ := isSegment_text h
  refine ⟨fun hempty ↦ hne (hempty ▸ rfl), hcolon, ?_⟩
  rw [← String.toList_inj, toList_trimmed, trim_of_no_blank hblank]

theorem no_sigma_of_isSegment {cs : Bool} {part : List Char}
    (h : (standard cs).isSegment part = true) : capitalSigma ∉ part := by
  intro hmem
  rcases Bool.or_eq_true_iff.mp h with htoken | hchars
  · rw [isToken_iff, String.toList_ofList] at htoken
    rcases htoken with rfl | rfl
    · exact absurd hmem (by decide)
    · exact absurd hmem (by decide)
  · have hchar := List.all_eq_true.mp (Bool.and_eq_true_iff.mp hchars).2 capitalSigma hmem
    exact absurd hchar (by decide)

end Plain

/-- What a scope adds to a string. -/
def scopeSuffix (scope : Option String) : List Char := scope.elim [] fun s ↦ ':' :: s.toList

section Joined

variable (cs : Bool) {resource action : String} {scope : Option String}

theorem toList_create (resource action : String) (scope : Option String) :
    ((standard cs).create resource action scope).toList =
      resource.toList ++ ':' :: (action.toList ++ scopeSuffix scope) := by
  cases scope with
  | none => rw [toList_create_none, scopeSuffix, Option.elim_none, List.append_nil]
  | some scope => rw [toList_create_some, scopeSuffix, Option.elim_some]

theorem trim_create (hresource : IsPlain resource) (haction : IsPlain action)
    (hscope : ∀ s, scope = some s → IsPlain s) :
    trim ((standard cs).create resource action scope).toList =
      ((standard cs).create resource action scope).toList := by
  have hcolon : isBlank ':' = false := by decide
  rw [toList_create, trim_append_cons hcolon, hresource.trimStart_eq]
  cases scope with
  | none => rw [scopeSuffix, Option.elim_none, List.append_nil, haction.trimEnd_eq]
  | some scope =>
    rw [scopeSuffix, Option.elim_some, trimEnd_append_cons hcolon, (hscope scope rfl).trimEnd_eq]

theorem IsPlain.colon_not_mem {s : String} (h : IsPlain s) (cs : Bool) (before after : List Char) :
    ':' ∉ (standard cs).foldBetween before s.toList after :=
  mt (mem_foldBetween_iff caseless_colon).mp h.no_colon

theorem IsPlain.isEmpty_foldBetween {s : String} (h : IsPlain s) (d : Dialect)
    (before after : List Char) : (d.foldBetween before s.toList after).isEmpty = false :=
  List.isEmpty_eq_false_iff.mpr (mt foldBetween_eq_nil_iff.mp h.ne_nil)

/-- The reading of a joined string has the segments, each folded where it stands. -/
theorem parse_create_plain (hresource : IsPlain resource) (haction : IsPlain action)
    (hscope : ∀ s, scope = some s → IsPlain s) :
    (standard cs).parse ((standard cs).create resource action scope) =
      (standard cs).ofSegments
        (String.ofList ((standard cs).foldBetween [] resource.toList
          (':' :: (action.toList ++ scopeSuffix scope))))
        (String.ofList ((standard cs).foldBetween (':' :: resource.toList.reverse) action.toList
          (scopeSuffix scope)))
        (scope.map fun s ↦ String.ofList ((standard cs).foldBetween
          (':' :: (action.toList.reverse ++ ':' :: resource.toList.reverse)) s.toList []))
        ((standard cs).create resource action scope) := by
  have hfold : ((standard cs).fold ((standard cs).create resource action scope)).toList =
      (standard cs).foldBetween [] resource.toList (':' :: (action.toList ++ scopeSuffix scope)) ++
        ':' :: (standard cs).foldBetween (':' :: resource.toList.reverse)
          (action.toList ++ scopeSuffix scope) [] := by
    rw [toList_fold, trim_create cs hresource haction hscope, toList_create, foldBetween_colon,
      List.append_nil, List.append_nil]
  have hne := fold_ne_globstar (hfold ▸ List.mem_append_right _ List.mem_cons_self)
  cases scope with
  | none =>
    simp only [scopeSuffix, Option.elim_none, List.append_nil] at hfold ⊢
    have hsegments : (standard cs).segments _ = _ := segments_two
      (hresource.colon_not_mem cs [] (':' :: action.toList))
      (haction.colon_not_mem cs (':' :: resource.toList.reverse) [])
    rw [parse_of_segments hne (hfold ▸ hsegments), haction.isEmpty_foldBetween]
    rfl
  | some scope =>
    simp only [scopeSuffix, Option.elim_some, foldBetween_colon, List.append_nil] at hfold ⊢
    have hsegments : ∀ z, (standard cs).segments _ = (_, _, z) := segments_three
      (hresource.colon_not_mem cs [] (':' :: (action.toList ++ ':' :: scope.toList)))
      (haction.colon_not_mem cs (':' :: resource.toList.reverse) (':' :: scope.toList))
    rw [parse_of_segments hne (hfold ▸ hsegments _), haction.isEmpty_foldBetween,
      (hscope scope rfl).isEmpty_foldBetween]
    rfl

end Joined

/-! ### What comes back -/

section Folding

variable {d : Dialect} {before after before' after' s : List Char}

theorem foldBetween_eq_foldBetween_iff :
    d.foldBetween before s after = d.foldBetween before' s after' ↔
      d.caseSensitive = true ∨ SigmasAgree s before after before' after' := by
  unfold foldBetween
  split
  next hcase => exact iff_of_true rfl (Or.inl hcase)
  next hcase => rw [or_iff_right hcase, lowerBetween_eq_iff]

end Folding

/-- What is read of a segment that stands between two texts. Up to the forms of small sigmas it is
the fold of the segment, and it is just that exactly if case counts or the capital sigmas of the
segment take the same forms as when it stands alone. -/
structure ReadsAs (d : Dialect) (segment : String) (before after : List Char) (read : String) :
    Prop where
  plain : read.toList.map plainSigma = (d.fold segment).toList.map plainSigma
  eq_iff : read = d.fold segment ↔
    d.caseSensitive = true ∨ SigmasAgree segment.toList before after [] []

theorem ReadsAs.eq_of_no_sigma {d : Dialect} {segment read : String} {before after : List Char}
    (h : d.ReadsAs segment before after read)
    (hfree : d.caseSensitive = true ∨ capitalSigma ∉ segment.toList) : read = d.fold segment :=
  h.eq_iff.mpr (hfree.imp_right sigmasAgree_of_no_sigma)

/-- What is read of segments that were put together: each of them, next to the others. -/
structure ComesBack (d : Dialect) (resource action : String) (scope : Option String)
    (p : Pattern) : Prop where
  closed : p.isGlobstar = false
  resource_reads : d.ReadsAs resource [] (':' :: (action.toList ++ scopeSuffix scope)) p.resource
  action_reads : d.ReadsAs action (':' :: resource.toList.reverse) (scopeSuffix scope) p.action
  scope_reads : Option.Rel (fun segment read ↦ d.ReadsAs segment
    (':' :: (action.toList.reverse ++ ':' :: resource.toList.reverse)) [] read) scope p.scope

section Reading

variable (cs : Bool) {resource action : String} {scope : Option String}

theorem IsPlain.readsAs {s : String} (h : IsPlain s) (d : Dialect) (before after : List Char) :
    d.ReadsAs s before after (String.ofList (d.foldBetween before s.toList after)) := by
  constructor
  · rw [h.fold_eq, String.toList_ofList, String.toList_ofList]
    exact map_plainSigma_foldBetween
  · rw [h.fold_eq, ← String.toList_inj, String.toList_ofList, String.toList_ofList]
    exact foldBetween_eq_foldBetween_iff

theorem comesBack_parse_create (hresource : IsPlain resource) (haction : IsPlain action)
    (hscope : ∀ s, scope = some s → IsPlain s) :
    (standard cs).ComesBack resource action scope
      ((standard cs).parse ((standard cs).create resource action scope)) := by
  rw [parse_create_plain cs hresource haction hscope]
  refine ⟨rfl, hresource.readsAs _ _ _, haction.readsAs _ _ _, ?_⟩
  cases scope with
  | none => exact .none
  | some scope => exact .some ((hscope scope rfl).readsAs _ _ _)

theorem no_sigma_create_iff :
    capitalSigma ∉ ((standard cs).create resource action scope).toList ↔
      capitalSigma ∉ resource.toList ∧ capitalSigma ∉ action.toList ∧
        ∀ s, scope = some s → capitalSigma ∉ s.toList := by
  have hcolon : capitalSigma ≠ ':' := by decide
  rw [toList_create]
  cases scope with
  | none => simp [scopeSuffix, hcolon]
  | some scope => simp [scopeSuffix, hcolon]

/-- If case counts or there is no capital sigma, the segments come back exactly. -/
theorem ComesBack.exact {cs : Bool} {p : Pattern}
    (h : (standard cs).ComesBack resource action scope p)
    (hfree : cs = true ∨ capitalSigma ∉ ((standard cs).create resource action scope).toList) :
    p.resource = (standard cs).fold resource ∧ p.action = (standard cs).fold action ∧
      p.scope = scope.map (standard cs).fold := by
  rw [no_sigma_create_iff] at hfree
  refine ⟨h.resource_reads.eq_of_no_sigma (hfree.imp_right And.left),
    h.action_reads.eq_of_no_sigma (hfree.imp_right fun hnone ↦ hnone.2.1), ?_⟩
  have hscope := h.scope_reads
  generalize p.scope = found at hscope
  cases hscope with
  | none => rfl
  | @some s read hread =>
    exact congrArg some (hread.eq_of_no_sigma (hfree.imp_right fun hnone ↦ hnone.2.2 s rfl))

/-! ### The wildcard action -/

theorem isResourceWildcard_parse_create (hresource : IsPlain resource) (haction : IsPlain action)
    (hscope : ∀ s, scope = some s → IsPlain s) :
    ((standard cs).parse ((standard cs).create resource action scope)).isResourceWildcard = true ↔
      resource.toList = ['*'] ∨ resource.toList = ['*', '*'] := by
  rw [parse_create_plain cs hresource haction hscope]
  exact FoldsTo.isToken_iff ⟨_, _, rfl⟩

/-- The resource comes back as it is alone unless its last word goes on in the action. -/
theorem resource_parse_create_iff (hresource : IsPlain resource) (haction : IsPlain action) :
    ((standard cs).parse ((standard cs).create resource action none)).resource =
        (standard cs).fold resource ↔
      cs = true ∨ ¬(EndsInSigma resource.toList ∧ meetsCased action.toList = true) := by
  rw [parse_create_plain cs hresource haction isPlain_of_none]
  refine (hresource.readsAs (standard cs) _ _).eq_iff.trans (or_congr_right ?_)
  rw [sigmasAgree_alone_iff, meetsCased_colon_cons, scopeSuffix, Option.elim_none, List.append_nil]

theorem createActionWildcard_standard (resource : String) :
    (standard cs).createActionWildcard resource = (standard cs).create resource "*" none :=
  rfl

theorem admits_createActionWildcard_iff (hresource : IsPlain resource) (permission : Pattern) :
    admits ((standard cs).parse ((standard cs).createActionWildcard resource)) permission = true ↔
      (resource.toList = ['*'] ∨ resource.toList = ['*', '*']) ∨
        permission.isResourceWildcard = true ∨
          (standard cs).fold resource = permission.resource := by
  rw [createActionWildcard_standard, admits_iff,
    isResourceWildcard_parse_create cs hresource isPlain_star isPlain_of_none]
  have hread := (resource_parse_create_iff cs hresource isPlain_star).mpr
    (Or.inr fun ⟨_, hmeets⟩ ↦ absurd hmeets (Bool.eq_false_iff.mp meetsCased_star))
  have hparse := parse_create_plain cs hresource isPlain_star isPlain_of_none
  have haction : ((standard cs).parse
      ((standard cs).create resource "*" none)).isActionWildcard = true := by
    rw [hparse]
    exact (FoldsTo.isToken_iff ⟨_, _, rfl⟩).mpr (Or.inl (by decide))
  have hglobstar : ((standard cs).parse
      ((standard cs).create resource "*" none)).isGlobstar = false := by
    rw [hparse]
    rfl
  have hscope : ((standard cs).parse
      ((standard cs).create resource "*" none)).concreteScope = none := by
    rw [hparse]
    rfl
  rw [hread, haction, hglobstar, hscope]
  simp

/-- A wildcard action grants another one exactly if that leaves the resource as it is alone. -/
theorem grants_createActionWildcard_iff (hresource : IsPlain resource) (haction : IsPlain action) :
    (standard cs).grants ((standard cs).createActionWildcard resource)
        ((standard cs).create resource action none) = true ↔
      cs = true ∨ ¬(EndsInSigma resource.toList ∧ meetsCased action.toList = true) := by
  rw [grants, admits_createActionWildcard_iff cs hresource,
    isResourceWildcard_parse_create cs hresource haction isPlain_of_none, ← or_assoc, or_self,
    @eq_comm _ ((standard cs).fold resource), resource_parse_create_iff cs hresource haction,
    or_iff_right_iff_imp]
  -- A token has no sigma in it, so nothing changes its fold.
  rintro (hstar | hstars)
  · exact Or.inr fun ⟨hends, _⟩ ↦ absurd (hstar ▸ hends.mem) (by decide)
  · exact Or.inr fun ⟨hends, _⟩ ↦ absurd (hstars ▸ hends.mem) (by decide)

/-! ### Round trips -/

/-- Segments that are put together come back one by one, each as its own fold up to the forms of
small sigmas, and exactly so if case counts or there is no capital sigma among them. A wildcard
action grants an action just if case counts or the last word of the resource does not go on in the
action, behind a capital sigma. -/
theorem create_round_trip (resource action : String) (scope : Option String)
    (hresource : IsPlain resource) (haction : IsPlain action)
    (hscope : ∀ s, scope = some s → IsPlain s) :
    (standard cs).ComesBack resource action scope
        ((standard cs).parse ((standard cs).create resource action scope)) ∧
      (cs = true ∨ capitalSigma ∉ ((standard cs).create resource action scope).toList →
        ((standard cs).parse ((standard cs).create resource action scope)).resource =
            (standard cs).fold resource ∧
          ((standard cs).parse ((standard cs).create resource action scope)).action =
            (standard cs).fold action ∧
          ((standard cs).parse ((standard cs).create resource action scope)).scope =
            scope.map (standard cs).fold) ∧
      ((standard cs).grants ((standard cs).createActionWildcard resource)
          ((standard cs).create resource action none) = true ↔
        cs = true ∨ ¬(EndsInSigma resource.toList ∧ meetsCased action.toList = true)) :=
  have hback := comesBack_parse_create cs hresource haction hscope
  ⟨hback, hback.exact, grants_createActionWildcard_iff cs hresource haction⟩

/-- Capitals and a hyphen in the resource, and a scope. -/
theorem create_round_trip_capitals :
    (standard false).ComesBack "Blog-Posts" "Edit" (some "Own")
        ((standard false).parse "Blog-Posts:Edit:Own") ∧
      ((standard false).parse "Blog-Posts:Edit:Own").resource = "blog-posts" ∧
      (standard false).grants "Blog-Posts:*" "Blog-Posts:Edit" = true := by
  obtain ⟨hback, hexact, hgrants⟩ := create_round_trip false "Blog-Posts" "Edit" (some "Own")
    (by decide) (by decide) fun _ hscope ↦ Option.some.inj hscope ▸ by decide
  have hfree : ¬(EndsInSigma "Blog-Posts".toList ∧ meetsCased "Edit".toList = true) :=
    fun ⟨hends, _⟩ ↦ absurd hends.mem (by decide)
  have hfold : (standard false).fold "Blog-Posts" = "blog-posts" := by decide +kernel
  exact ⟨hback, hfold ▸ (hexact (Or.inr (by decide))).1, hgrants.mpr (Or.inr hfree)⟩

/-- A resource that ends in a capital sigma comes back in another form before an action than alone
or before a wildcard, which therefore does not grant the action. -/
theorem create_round_trip_final_sigma :
    IsPlain "\u0391\u03a3" ∧ IsPlain "read" ∧
      (standard false).create "\u0391\u03a3" "read" none = "\u0391\u03a3:read" ∧
      ((standard false).parse "\u0391\u03a3:read").resource = "\u03b1\u03c3" ∧
      (standard false).fold "\u0391\u03a3" = "\u03b1\u03c2" ∧
      (standard false).grants ((standard false).createActionWildcard "\u0391\u03a3")
        "\u0391\u03a3:read" = false := by
  decide +kernel

/-- Segments of well-formed strings always come back, and a wildcard action grants each action. -/
theorem parse_create_of_isSegment
    (hresource : (standard cs).isSegment resource.toList = true)
    (haction : (standard cs).isSegment action.toList = true)
    (hscope : ∀ s, scope = some s → (standard cs).isSegment s.toList = true) :
    ((standard cs).parse ((standard cs).create resource action scope)).resource =
        (standard cs).fold resource ∧
      ((standard cs).parse ((standard cs).create resource action scope)).action =
        (standard cs).fold action ∧
      ((standard cs).parse ((standard cs).create resource action scope)).scope =
        scope.map (standard cs).fold ∧
      (standard cs).grants ((standard cs).createActionWildcard resource)
        ((standard cs).create resource action none) = true := by
  have hplain := isPlain_of_isSegment hresource
  have hplain' := isPlain_of_isSegment haction
  have hback := comesBack_parse_create cs hplain hplain' fun s hs ↦
    isPlain_of_isSegment (hscope s hs)
  have hfree : capitalSigma ∉ ((standard cs).create resource action scope).toList :=
    (no_sigma_create_iff cs).mpr ⟨no_sigma_of_isSegment hresource, no_sigma_of_isSegment haction,
      fun s hs ↦ no_sigma_of_isSegment (hscope s hs)⟩
  obtain ⟨hread, hread', hread''⟩ := hback.exact (Or.inr hfree)
  refine ⟨hread, hread', hread'', (grants_createActionWildcard_iff cs hplain hplain').mpr ?_⟩
  exact Or.inr fun ⟨hends, _⟩ ↦ no_sigma_of_isSegment hresource hends.mem

end Reading

end Dialect

end RoleAccess
