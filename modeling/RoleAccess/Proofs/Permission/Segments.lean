import RoleAccess.Permission.Matching
import RoleAccess.Proofs.Text.Cutting
import RoleAccess.Proofs.Text.Trimming

/-!
The segments of a permission string that is put together from fields. A folded text is kept: folding
leaves it as it is wherever it stands (`IsKept`). Two fields come back as segments of the folded
string if the separator is kept and the first of them stands apart from it (`segments_fold_create`).
With a colon as separator the string is folded part by part (`foldBetween_colon`) and cut at the
colons that were there before (`segments_colon`), so that each segment is one part of the trimmed
string, folded where it stands (`FoldsTo`). Words, which are folded and have neither colons nor
white space in them, come back as they are (`parse_create_words`).
-/

set_option autoImplicit false
set_option relaxedAutoImplicit false

namespace RoleAccess.Dialect

open Text

/-- A text in the case that counts, where it stands between two others. -/
def foldBetween (d : Dialect) (before s after : List Char) : List Char :=
  if d.caseSensitive then s else lowerBetween before s after

theorem caseless_colon : Caseless ':' := caseless_of_isOutside (by decide +kernel)

theorem caseless_star : Caseless '*' := caseless_of_isOutside (by decide +kernel)

section Folding

variable (d : Dialect) (before s t after : List Char)

theorem toList_trimmed (s : String) : (trimmed s).toList = trim s.toList :=
  String.toList_ofList

theorem toList_fold (s : String) : (d.fold s).toList = d.foldBetween [] (trim s.toList) [] := by
  unfold fold foldBetween
  split
  · exact toList_trimmed s
  · rw [lowered, String.toList_ofList, toList_trimmed, lower_eq_lowerBetween]

theorem foldBetween_append :
    d.foldBetween before (s ++ t) after =
      d.foldBetween before s (t ++ after) ++ d.foldBetween (s.reverse ++ before) t after := by
  unfold foldBetween
  split
  · rfl
  · exact lowerBetween_append before s t after

/-- A text that folding leaves as it is, wherever it stands. -/
def IsKept (s : List Char) : Prop := d.caseSensitive = false → ∀ c ∈ s, IsSettled c

theorem isKept_foldBetween : d.IsKept (d.foldBetween before s after) := by
  intro hcase c hc
  rw [foldBetween, if_neg (Bool.eq_false_iff.mp hcase)] at hc
  exact settled_of_mem_lowerBetween hc

theorem isKept_fold (s : String) : d.IsKept (d.fold s).toList :=
  d.toList_fold s ▸ d.isKept_foldBetween _ _ _

theorem exists_trim_foldBetween :
    ∃ before' after',
      trim (d.foldBetween before s after) = d.foldBetween before' (trim s) after' := by
  unfold foldBetween
  split
  · exact ⟨before, after, rfl⟩
  · exact exists_trim_lowerBetween before s after

variable {d before s t after}

theorem foldBetween_eq_nil_iff : d.foldBetween before s after = [] ↔ s = [] := by
  unfold foldBetween
  split
  · rfl
  · exact lowerBetween_eq_nil_iff

theorem mem_foldBetween_iff {c : Char} (hc : Caseless c) :
    c ∈ d.foldBetween before s after ↔ c ∈ s := by
  unfold foldBetween
  split
  · rfl
  · exact hc.mem_lowerBetween_iff

theorem foldBetween_of_isKept (h : d.IsKept s) : d.foldBetween before s after = s := by
  unfold foldBetween
  split
  next => rfl
  next hcase => exact lowerBetween_of_settled (h (Bool.eq_false_iff.mpr hcase))

theorem isKept_of_subset (h : d.IsKept t) (hst : s ⊆ t) : d.IsKept s :=
  fun hcase c hc ↦ h hcase c (hst hc)

theorem isKept_append_iff : d.IsKept (s ++ t) ↔ d.IsKept s ∧ d.IsKept t := by
  simp only [IsKept, List.forall_mem_append, ← forall_and]

/-- A string is folded already when it has no white space at its ends and is kept. -/
theorem fold_eq_self_iff {s : String} :
    d.fold s = s ↔ trim s.toList = s.toList ∧ d.IsKept s.toList := by
  rw [← String.toList_inj, toList_fold]
  constructor
  · intro h
    have hkept : d.IsKept s.toList := h ▸ d.isKept_foldBetween _ _ _
    rw [foldBetween_of_isKept (isKept_of_subset hkept fun _ ↦ mem_of_mem_trim)] at h
    exact ⟨h, hkept⟩
  · intro ⟨htrim, hkept⟩
    rw [htrim, foldBetween_of_isKept hkept]

theorem foldBetween_eq_iff (ht : ∀ c ∈ t, Caseless c) :
    d.foldBetween before s after = t ↔ s = t := by
  constructor
  · intro h
    unfold foldBetween at h
    split at h
    · exact h
    · exact eq_of_lowerBetween_eq ht h
  · intro h
    rw [h, foldBetween_of_isKept fun _ c hc ↦ (ht c hc).settled]

theorem foldBetween_colon :
    d.foldBetween before (s ++ ':' :: t) after =
      d.foldBetween before s (':' :: (t ++ after)) ++
        ':' :: d.foldBetween (':' :: (s.reverse ++ before)) t after := by
  have hcolon : d.IsKept [':'] := fun _ ↦ List.forall_mem_singleton.mpr caseless_colon.settled
  change d.foldBetween before (s ++ ([':'] ++ t)) after = _
  rw [foldBetween_append, foldBetween_append, foldBetween_of_isKept hcolon]
  rfl

end Folding

/-! ### Tokens -/

section Tokens

variable {cs : Bool} {s : String} {part x : List Char}

theorem isToken_iff :
    (standard cs).isToken s = true ↔ s.toList = ['*'] ∨ s.toList = ['*', '*'] := by
  change (s == "*" || s == "**") = true ↔ s.toList = "*".toList ∨ s.toList = "**".toList
  rw [Bool.or_eq_true, beq_iff_eq, beq_iff_eq, String.toList_inj, String.toList_inj]

theorem toList_globstar : (standard cs).globstar.toList = ['*', '*'] := by
  change "**".toList = ['*', '*']
  decide

/-- A part of a string folded where it stands. -/
def FoldsTo (d : Dialect) (part x : List Char) : Prop :=
  ∃ before after, d.foldBetween before part after = x

theorem FoldsTo.eq_stars_iff (hx : (standard cs).FoldsTo part x) (n : Nat) :
    x = List.replicate n '*' ↔ part = List.replicate n '*' := by
  obtain ⟨before, after, rfl⟩ := hx
  exact foldBetween_eq_iff fun _ hc ↦ List.eq_of_mem_replicate hc ▸ caseless_star

theorem FoldsTo.isToken_iff (hx : (standard cs).FoldsTo part x) :
    (standard cs).isToken (String.ofList x) = true ↔ part = ['*'] ∨ part = ['*', '*'] := by
  rw [Dialect.isToken_iff, String.toList_ofList]
  exact or_congr (hx.eq_stars_iff 1) (hx.eq_stars_iff 2)

theorem FoldsTo.eq_globstar_iff (hx : (standard cs).FoldsTo part x) :
    String.ofList x = (standard cs).globstar ↔ part = ['*', '*'] := by
  rw [← String.toList_inj, String.toList_ofList, toList_globstar]
  exact hx.eq_stars_iff 2

end Tokens

/-! ### Readings -/

section Reading

variable {cs : Bool} {s resource action : String} {scope : Option String} {x y z : List Char}

theorem parse_of_fold_eq {d : Dialect} (h : d.fold s = d.globstar) :
    d.parse s = d.everything s :=
  if_pos h

theorem parse_of_segments {d : Dialect} (hne : d.fold s ≠ d.globstar)
    (h : d.segments (d.fold s).toList = (x, y, z)) :
    d.parse s =
      d.ofSegments (String.ofList x) (if y.isEmpty then d.wildcard else String.ofList y)
        (if z.isEmpty then none else some (String.ofList z)) s := by
  unfold parse
  simp only [h]
  exact if_neg hne

/-- A text behind which a separator is the first one. -/
def StandsApart (d : Dialect) (x : List Char) : Prop :=
  cut d.separator.toList (x ++ d.separator.toList) = some (x, [])

instance (d : Dialect) (x : List Char) : Decidable (d.StandsApart x) :=
  inferInstanceAs (Decidable (cut _ _ = _))

theorem StandsApart.segments_eq {d : Dialect} (hx : d.StandsApart x) (y : List Char) :
    d.segments (x ++ (d.separator.toList ++ y)) =
      (x, (cut d.separator.toList y).getD (y, [])) := by
  rw [segments, (cut_append_append_iff x y).mpr hx]
  cases hcut : cut d.separator.toList y with
  | none => simp only [hcut, Option.getD_none]
  | some parts => simp only [hcut, Option.getD_some]

theorem toList_separator : (standard cs).separator.toList = [':'] := by
  change ":".toList = [':']
  decide

theorem segments_of_not_mem (hx : ':' ∉ x) : (standard cs).segments x = (x, [], []) := by
  rw [segments, toList_separator, cut_of_not_mem hx]

theorem segments_colon (hx : ':' ∉ x) (y : List Char) :
    (standard cs).segments (x ++ ':' :: y) = (x, (cut [':'] y).getD (y, [])) := by
  have hapart : (standard cs).StandsApart x := by
    rw [StandsApart, toList_separator]
    exact cut_append_self_of_not_mem hx
  have hsegments := hapart.segments_eq y
  rw [toList_separator] at hsegments
  exact hsegments

theorem segments_two (hx : ':' ∉ x) (hy : ':' ∉ y) :
    (standard cs).segments (x ++ ':' :: y) = (x, y, []) := by
  rw [segments_colon hx, cut_of_not_mem hy, Option.getD_none]

theorem segments_three (hx : ':' ∉ x) (hy : ':' ∉ y) (z : List Char) :
    (standard cs).segments (x ++ ':' :: (y ++ ':' :: z)) = (x, y, z) := by
  rw [segments_colon hx, cut_append_cons hy, Option.getD_some]

theorem fold_ne_globstar (h : ':' ∈ ((standard cs).fold s).toList) :
    (standard cs).fold s ≠ (standard cs).globstar := by
  intro heq
  rw [heq] at h
  change ':' ∈ "**".toList at h
  exact absurd h (by decide)

theorem toList_create_none (resource action : String) :
    ((standard cs).create resource action none).toList =
      resource.toList ++ ':' :: action.toList := by
  rw [create, String.toList_append, String.toList_append, toList_separator, List.append_assoc]
  rfl

theorem toList_create_some (resource action scope : String) :
    ((standard cs).create resource action (some scope)).toList =
      resource.toList ++ ':' :: (action.toList ++ ':' :: scope.toList) := by
  rw [create, String.toList_append, String.toList_append, String.toList_append,
    String.toList_append, toList_separator, List.append_assoc, List.append_assoc, List.append_assoc]
  rfl

end Reading

/-! ### Two fields -/

section TwoFields

variable (d : Dialect) (resource action : String)

/-- The resource of a string put together from two fields, as it stands in the folded string. -/
def foldedResource : List Char :=
  d.foldBetween [] (trimStart resource.toList) (d.separator.toList ++ trimEnd action.toList)

/-- The action of a string put together from two fields, as it stands in the folded string. -/
def foldedAction : List Char :=
  d.foldBetween (d.separator.toList.reverse ++ (trimStart resource.toList).reverse)
    (trimEnd action.toList) []

variable {d resource action}

theorem toList_fold_create (hresource : trim resource.toList ≠ [])
    (haction : trim action.toList ≠ []) (hsep : d.IsKept d.separator.toList) :
    (d.fold (d.create resource action none)).toList =
      d.foldedResource resource action ++
        (d.separator.toList ++ d.foldedAction resource action) := by
  rw [toList_fold, create, String.toList_append, String.toList_append, List.append_assoc,
    trim_append_append hresource _ haction, foldBetween_append, foldBetween_append,
    foldBetween_of_isKept hsep, List.append_nil, List.append_nil]
  rfl

theorem segments_fold_create (hresource : trim resource.toList ≠ [])
    (haction : trim action.toList ≠ []) (hsep : d.IsKept d.separator.toList)
    (hapart : d.StandsApart (d.foldedResource resource action)) :
    d.segments (d.fold (d.create resource action none)).toList =
      (d.foldedResource resource action,
        (cut d.separator.toList (d.foldedAction resource action)).getD
          (d.foldedAction resource action, [])) := by
  rw [toList_fold_create hresource haction hsep, hapart.segments_eq]

end TwoFields

/-! ### Words -/

/-- A segment that reads as itself wherever it stands. -/
structure IsWord (d : Dialect) (x : List Char) : Prop where
  ne_nil : x ≠ []
  no_colon : ':' ∉ x
  no_blank : ∀ c ∈ x, isBlank c = false
  folded : ∀ before after, d.foldBetween before x after = x

section Words

variable {cs : Bool} {resource action : String}

theorem IsWord.isEmpty {d : Dialect} {x : List Char} (h : d.IsWord x) : x.isEmpty = false :=
  List.isEmpty_eq_false_iff.mpr h.ne_nil

/-- Words that are put together are read back one by one. -/
theorem parse_create_words (hresource : (standard cs).IsWord resource.toList)
    (haction : (standard cs).IsWord action.toList) {scope : Option String}
    (hscope : ∀ word, scope = some word → (standard cs).IsWord word.toList) :
    (standard cs).parse ((standard cs).create resource action scope) =
      (standard cs).ofSegments resource action scope
        ((standard cs).create resource action scope) := by
  have hcolon : isBlank ':' = false := by decide
  cases scope with
  | none =>
    have hfold : ((standard cs).fold ((standard cs).create resource action none)).toList =
        resource.toList ++ ':' :: action.toList := by
      rw [toList_fold, toList_create_none, trim_of_no_blank, foldBetween_colon, hresource.folded,
        haction.folded]
      exact List.forall_mem_append.mpr
        ⟨hresource.no_blank, List.forall_mem_cons.mpr ⟨hcolon, haction.no_blank⟩⟩
    have hne := fold_ne_globstar (hfold ▸ List.mem_append_right _ List.mem_cons_self)
    rw [parse_of_segments hne (hfold ▸ segments_two hresource.no_colon haction.no_colon),
      haction.isEmpty, String.ofList_toList, String.ofList_toList]
    rfl
  | some scope =>
    have hscope := hscope scope rfl
    have hfold : ((standard cs).fold ((standard cs).create resource action (some scope))).toList =
        resource.toList ++ ':' :: (action.toList ++ ':' :: scope.toList) := by
      rw [toList_fold, toList_create_some, trim_of_no_blank, foldBetween_colon, foldBetween_colon,
        hresource.folded, haction.folded, hscope.folded]
      exact List.forall_mem_append.mpr ⟨hresource.no_blank, List.forall_mem_cons.mpr ⟨hcolon,
        List.forall_mem_append.mpr ⟨haction.no_blank,
          List.forall_mem_cons.mpr ⟨hcolon, hscope.no_blank⟩⟩⟩⟩
    have hne := fold_ne_globstar (hfold ▸ List.mem_append_right _ List.mem_cons_self)
    rw [parse_of_segments hne (hfold ▸ segments_three hresource.no_colon haction.no_colon _),
      haction.isEmpty, hscope.isEmpty, String.ofList_toList, String.ofList_toList,
      String.ofList_toList]
    rfl

end Words

end RoleAccess.Dialect
