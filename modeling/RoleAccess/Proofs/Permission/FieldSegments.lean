import RoleAccess.Proofs.Permission.Segments

/-!
What a held permission grants, told from its fields. The candidate of a permission is read from its
fields joined by colons, so a field that holds a colon spreads over several segments, and nothing
ties the segments to the fields any more. Fields without a colon stay in their places: a resource
grants no other resource and an action no other action (`satisfies_fields`). Two things get lost on
the way, the white space at the inner ends of the fields and the form of a small sigma, which
depends on the letters beyond the end of the field; `Covers` allows for both.
-/

set_option autoImplicit false
set_option relaxedAutoImplicit false

namespace RoleAccess.Dialect

open Text

/-! ### Folds in two places -/

section Folding

variable {d : Dialect} {before after before' after' s : List Char}

theorem map_plainSigma_foldBetween :
    (d.foldBetween before s after).map plainSigma =
      (d.foldBetween before' s after').map plainSigma := by
  unfold foldBetween
  split
  · rfl
  · rw [map_plainSigma_lowerBetween, map_plainSigma_lowerBetween]

theorem foldBetween_of_no_sigma (h : capitalSigma ∉ s) :
    d.foldBetween before s after = d.foldBetween before' s after' := by
  unfold foldBetween
  split
  · rfl
  · rw [lowerBetween_of_no_sigma h, lowerBetween_of_no_sigma h]

end Folding

/-! ### Segments of joined fields -/

/-- A segment that one field becomes where it stands, white space at its ends aside. -/
def IsSegmentOf (d : Dialect) (field segment : List Char) : Prop :=
  ∃ text, trim text = trim field ∧ d.FoldsTo text segment

theorem segments_create (cs : Bool) {resource : String} (hresource : ':' ∉ resource.toList)
    (action : String) (scope : Option String) :
    ∃ x y z,
      (standard cs).segments
          ((standard cs).fold ((standard cs).create resource action scope)).toList = (x, y, z) ∧
        ':' ∈ ((standard cs).fold ((standard cs).create resource action scope)).toList ∧
        (standard cs).IsSegmentOf resource.toList x ∧
        (':' ∉ action.toList → (standard cs).IsSegmentOf action.toList y) := by
  have hblank : isBlank ':' = false := by decide
  have htrimmed : ':' ∉ trimStart resource.toList := mt mem_of_mem_trimStart hresource
  rw [toList_fold]
  cases scope with
  | none =>
    rw [toList_create_none, trim_append_cons hblank, foldBetween_colon]
    generalize hx : (standard cs).foldBetween _ (trimStart resource.toList) _ = x
    generalize hy : (standard cs).foldBetween _ (trimEnd action.toList) _ = y
    have hcolon : ':' ∉ x := hx ▸ mt (mem_foldBetween_iff caseless_colon).mp htrimmed
    refine ⟨x, _, _, segments_colon hcolon y, List.mem_append_right x List.mem_cons_self,
      ⟨_, trim_trimStart _, _, _, hx⟩, fun haction ↦ ?_⟩
    have hcolon : ':' ∉ y :=
      hy ▸ mt (mem_foldBetween_iff caseless_colon).mp (mt mem_of_mem_trimEnd haction)
    rw [cut_of_not_mem hcolon]
    exact ⟨_, trim_trimEnd _, _, _, hy⟩
  | some scope =>
    rw [toList_create_some, trim_append_cons hblank, trimEnd_append_cons hblank, foldBetween_colon,
      foldBetween_colon]
    generalize hx : (standard cs).foldBetween _ (trimStart resource.toList) _ = x
    generalize hy : (standard cs).foldBetween _ action.toList _ = y
    have hcolon : ':' ∉ x := hx ▸ mt (mem_foldBetween_iff caseless_colon).mp htrimmed
    refine ⟨x, _, _, segments_colon hcolon _, List.mem_append_right x List.mem_cons_self,
      ⟨_, trim_trimStart _, _, _, hx⟩, fun haction ↦ ?_⟩
    have hcolon : ':' ∉ y := hy ▸ mt (mem_foldBetween_iff caseless_colon).mp haction
    rw [cut_append_cons hcolon]
    exact ⟨_, rfl, _, _, hy⟩

/-! ### Fields that cover a segment -/

/-- A field names a token or the required segment. Both are taken without the white space at their
ends, and a small sigma in either form, unless the field has no capital sigma. -/
def Covers (d : Dialect) (field segment : String) : Prop :=
  d.isToken (trimmed field) = true ∨
    ((d.fold field).toList.map plainSigma = (trimmed segment).toList.map plainSigma ∧
      (capitalSigma ∉ field.toList → d.fold field = trimmed segment))

section Covering

variable {cs : Bool} {field segment : String} {x : List Char}

theorem IsSegmentOf.isToken (h : (standard cs).IsSegmentOf field.toList x)
    (htoken : (standard cs).isToken (String.ofList x) = true) :
    (standard cs).isToken (trimmed field) = true := by
  obtain ⟨text, htrim, hx⟩ := h
  rw [isToken_iff, toList_trimmed, ← htrim]
  rcases hx.isToken_iff.mp htoken with hstars | hstars
  · rw [hstars]
    exact Or.inl (by decide)
  · rw [hstars]
    exact Or.inr (by decide)

theorem IsSegmentOf.covers {d : Dialect} (h : d.IsSegmentOf field.toList x)
    (heq : String.ofList x = segment) : d.Covers field segment := by
  obtain ⟨text, htrim, before, after, hx⟩ := h
  obtain ⟨before', after', hfold⟩ := d.exists_trim_foldBetween before text after
  rw [hx, htrim] at hfold
  refine Or.inr ⟨?_, fun hsigma ↦ ?_⟩
  · rw [← heq, toList_trimmed, String.toList_ofList, hfold, toList_fold]
    exact map_plainSigma_foldBetween
  · rw [← String.toList_inj, ← heq, toList_trimmed, String.toList_ofList, hfold, toList_fold]
    exact foldBetween_of_no_sigma (mt mem_of_mem_trim hsigma)

theorem IsSegmentOf.ne_nil {d : Dialect} (h : d.IsSegmentOf field.toList x)
    (hfield : trimmed field ≠ "") : x ≠ [] := by
  obtain ⟨text, htrim, before, after, rfl⟩ := h
  intro hnil
  apply hfield
  rw [← String.toList_inj, toList_trimmed, ← htrim, foldBetween_eq_nil_iff.mp hnil]
  decide

end Covering

/-! ### Grants -/

section Grants

variable {cs : Bool} {p : Permission}

theorem isToken_of_isSuperadmin (h : (standard cs).isSuperadmin p = true) :
    (standard cs).isToken (trimmed p.resource) = true ∧
      (trimmed p.action ≠ "" → (standard cs).isToken (trimmed p.action) = true) := by
  simp only [isSuperadmin, isOpenAction, Bool.and_eq_true, Bool.or_eq_true, beq_iff_eq,
    String.isEmpty_iff] at h
  obtain ⟨⟨hresource, haction⟩, -⟩ := h
  refine ⟨?_, haction.resolve_left⟩
  rw [isToken, Bool.or_eq_true, beq_iff_eq, beq_iff_eq]
  exact Or.inr hresource

theorem exists_candidate_eq (hsuper : ¬(standard cs).isSuperadmin p = true)
    (hresource : ':' ∉ p.resource.toList) :
    ∃ x y scope written,
      (standard cs).candidate p =
          (standard cs).ofSegments (String.ofList x)
            (if y.isEmpty then "*" else String.ofList y) scope written ∧
        (standard cs).IsSegmentOf p.resource.toList x ∧
        (':' ∉ p.action.toList → (standard cs).IsSegmentOf p.action.toList y) := by
  obtain ⟨x, y, z, hsegments, hcolon, hx, hy⟩ :=
    segments_create cs hresource p.action p.scope
  have hcandidate : (standard cs).candidate p = _ :=
    (if_neg hsuper).trans (parse_of_segments (fold_ne_globstar hcolon) hsegments)
  exact ⟨x, y, _, _, hcandidate, hx, hy⟩

theorem admits_of_satisfies {d : Dialect} {required : Pattern} {context : Option Context}
    (h : d.satisfies required p context = true) (hglobstar : (d.candidate p).isGlobstar = false) :
    ((d.candidate p).isResourceWildcard = true ∨ required.isResourceWildcard = true ∨
        (d.candidate p).resource = required.resource) ∧
      ((d.candidate p).isActionWildcard = true ∨ required.isActionWildcard = true ∨
        (d.candidate p).action = required.action) := by
  simp only [satisfies, hglobstar, Bool.false_or, Bool.and_eq_true, Bool.or_eq_true, beq_iff_eq,
    or_assoc] at h
  exact ⟨h.1.1.1, h.1.1.2⟩

/-- A held permission that grants a requirement with a concrete resource and a concrete action
covers the resource by its own resource and the action by its own action, provided that there is no
colon in the fields, and that the action is not blank. -/
theorem satisfies_fields (required : String) (p : Permission) (context : Option Context)
    (hresource : ((standard false).parse required).isResourceWildcard = false)
    (haction : ((standard false).parse required).isActionWildcard = false)
    (h : (standard false).satisfies ((standard false).parse required) p context = true)
    (hcolon : ':' ∉ p.resource.toList) :
    (standard false).Covers p.resource ((standard false).parse required).resource ∧
      (':' ∉ p.action.toList → trimmed p.action ≠ "" →
        (standard false).Covers p.action ((standard false).parse required).action) := by
  by_cases hsuper : (standard false).isSuperadmin p = true
  · obtain ⟨hresource, haction⟩ := isToken_of_isSuperadmin hsuper
    exact ⟨Or.inl hresource, fun _ hblank ↦ Or.inl (haction hblank)⟩
  · obtain ⟨x, y, scope, written, hcandidate, hx, hy⟩ := exists_candidate_eq hsuper hcolon
    have hglobstar : ((standard false).candidate p).isGlobstar = false :=
      congrArg Pattern.isGlobstar hcandidate
    obtain ⟨hadmitted, hadmitted'⟩ := admits_of_satisfies h hglobstar
    rw [hcandidate] at hadmitted hadmitted'
    constructor
    · rcases hadmitted with htoken | hwildcard | heq
      · exact Or.inl (hx.isToken htoken)
      · exact absurd hwildcard (Bool.eq_false_iff.mp hresource)
      · exact hx.covers heq
    · intro hcolon' hblank
      have hy := hy hcolon'
      rw [List.isEmpty_eq_false_iff.mpr (hy.ne_nil hblank)] at hadmitted'
      rcases hadmitted' with htoken | hwildcard | heq
      · exact Or.inl (hy.isToken htoken)
      · exact absurd hwildcard (Bool.eq_false_iff.mp haction)
      · exact hy.covers heq

/-- Any action on users, with blanks around the resource and for everyone. -/
def allUsers : Permission :=
  { id := "p", resource := " Users ", action := "*", scope := some "all" }

theorem satisfies_fields_users :
    ((standard false).parse "users :READ:own").isResourceWildcard = false ∧
      ((standard false).parse "users :READ:own").isActionWildcard = false ∧
      (standard false).satisfies ((standard false).parse "users :READ:own") allUsers none = true ∧
      (standard false).Covers " Users " ((standard false).parse "users :READ:own").resource ∧
      (standard false).Covers "*" ((standard false).parse "users :READ:own").action := by
  have hresource : ((standard false).parse "users :READ:own").isResourceWildcard = false := by
    decide +kernel
  have haction : ((standard false).parse "users :READ:own").isActionWildcard = false := by
    decide +kernel
  have hgrants : (standard false).satisfies ((standard false).parse "users :READ:own") allUsers
      none = true := by
    decide +kernel
  obtain ⟨hcovers, hcovers'⟩ := satisfies_fields "users :READ:own" allUsers none hresource haction
    hgrants (by decide)
  exact ⟨hresource, haction, hgrants, hcovers, hcovers' (by decide) (by decide)⟩

/-- A permission without a blank action grants a requirement with a concrete resource and a concrete
action, although one of its fields is no token and does not fold to what is required there. -/
def Oversteps (d : Dialect) (p : Permission) (required : String) : Prop :=
  d.isSuperadmin p = false ∧ trimmed p.action ≠ "" ∧
    (d.parse required).isResourceWildcard = false ∧ (d.parse required).isActionWildcard = false ∧
    d.satisfies (d.parse required) p none = true ∧
    ¬((d.isToken p.resource = true ∨ d.fold p.resource = (d.parse required).resource) ∧
      (d.isToken p.action = true ∨ d.fold p.action = (d.parse required).action))

instance (d : Dialect) (p : Permission) (required : String) : Decidable (d.Oversteps p required) :=
  inferInstanceAs (Decidable (_ ∧ _))

/-- A colon in a field, white space at its inner end, and a capital sigma there. -/
theorem oversteps_joined :
    (standard false).Oversteps { id := "p", resource := "users:read", action := "x" } "users:read" ∧
      (standard false).Oversteps { id := "p", resource := "users ", action := "read" }
        "users :read" ∧
      (standard false).Oversteps { id := "p", resource := "\u0391\u03a3", action := "read" }
        "\u0391\u03a3:read" := by
  decide +kernel

end Grants

end RoleAccess.Dialect
