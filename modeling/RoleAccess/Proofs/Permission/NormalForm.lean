import Mathlib.Data.List.Infix
import RoleAccess.Proofs.Permission.RoundTrip

/-!
Normal forms of permission strings. A folded string stays as it is when it is folded again
(`fold_fold`): lowercase neither adds nor removes white space, and no letter is lowered twice. A
string is in normal form (`IsNormal`) when it is folded and is the globstar or has a separator in
it. Normalizing reaches such a form (`isNormal_normalize`), leaves it as it is
(`normalize_of_isNormal`) and keeps the reading (`parse_normalize`). A well-formed string stays so,
because a colon keeps its parts apart while they are folded (`foldBetween_intercalate`), and in
normal form it is its segments put together (`IsNormal.eq_create`).
-/

set_option autoImplicit false
set_option relaxedAutoImplicit false

namespace RoleAccess.Dialect

open Text

/-! ### Folding twice -/

section Folding

variable (d : Dialect)

theorem trim_foldBetween_trim (before s after : List Char) :
    trim (d.foldBetween before (trim s) after) = d.foldBetween before (trim s) after := by
  obtain ⟨before', after', htrim⟩ := d.exists_trim_foldBetween before (trim s) after
  rw [trim_trim] at htrim
  -- the two folds may differ in their sigmas, but not in their length
  have hplain : (d.foldBetween before' (trim s) after').map plainSigma =
      (d.foldBetween before (trim s) after).map plainSigma := map_plainSigma_foldBetween
  have hlength := congrArg List.length hplain
  rw [List.length_map, List.length_map, ← htrim] at hlength
  exact (trim_sublist _).eq_of_length hlength

theorem trim_fold (s : String) : trim (d.fold s).toList = (d.fold s).toList := by
  rw [toList_fold]
  exact d.trim_foldBetween_trim [] s.toList []

theorem fold_fold (s : String) : d.fold (d.fold s) = d.fold s :=
  fold_eq_self_iff.mpr ⟨d.trim_fold s, d.isKept_fold s⟩

end Folding

/-! ### Normal forms -/

/-- A folded string that is the globstar or has a separator in it. -/
structure IsNormal (d : Dialect) (s : String) : Prop where
  folded : d.fold s = s
  complete : s = d.globstar ∨ occursIn d.separator.toList s.toList = true

theorem normalize_of_isNormal {d : Dialect} {s : String} (h : d.IsNormal s) :
    d.normalize s = s := by
  have hcomplete : (decide (s = d.globstar) || occursIn d.separator.toList s.toList) = true :=
    Bool.or_eq_true_iff.mpr (h.complete.imp_left decide_eq_true)
  unfold normalize
  rw [h.folded, if_pos hcomplete]

section Standard

variable {cs : Bool} {s t : String}

theorem occursIn_separator_iff {x : List Char} :
    occursIn (standard cs).separator.toList x = true ↔ ':' ∈ x := by
  rw [toList_separator, ← Bool.not_eq_false, occursIn_eq_false_iff, not_not,
    List.singleton_infix_iff]

theorem normalize_cases (cs : Bool) (s : String) :
    ((standard cs).IsNormal ((standard cs).fold s) ∧
        (standard cs).normalize s = (standard cs).fold s) ∨
      ((standard cs).fold s ≠ (standard cs).globstar ∧ ':' ∉ ((standard cs).fold s).toList ∧
        (standard cs).normalize s = (standard cs).create ((standard cs).fold s) "*" none) := by
  by_cases hcomplete : (standard cs).fold s = (standard cs).globstar ∨
      occursIn (standard cs).separator.toList ((standard cs).fold s).toList = true
  · have hnormal : (standard cs).IsNormal ((standard cs).fold s) :=
      ⟨(standard cs).fold_fold s, hcomplete⟩
    refine Or.inl ⟨hnormal, (if_pos ?_ : (standard cs).normalize s = _)⟩
    simpa using hcomplete
  · obtain ⟨hne, hcolon⟩ := not_or.mp hcomplete
    refine Or.inr ⟨hne, mt occursIn_separator_iff.mpr hcolon,
      (if_neg ?_ : (standard cs).normalize s = _)⟩
    simpa using And.intro hne (Bool.eq_false_iff.mpr hcolon)

theorem isNormal_normalize (cs : Bool) (s : String) :
    (standard cs).IsNormal ((standard cs).normalize s) := by
  rcases normalize_cases cs s with ⟨hnormal, hform⟩ | ⟨-, -, hform⟩
  · rw [hform]
    exact hnormal
  · have hblank : isBlank ':' = false := by decide
    have hstart := trimStart_trim ((standard cs).fold s).toList
    rw [trim_fold] at hstart
    rw [hform]
    refine ⟨fold_eq_self_iff.mpr ⟨?_, ?_⟩, Or.inr (occursIn_separator_iff.mpr ?_)⟩
    · rw [toList_create_none, trim_append_cons hblank, hstart]
      rfl
    · rw [toList_create_none]
      refine isKept_append_iff.mpr ⟨(standard cs).isKept_fold s, fun _ ↦ ?_⟩
      exact List.forall_mem_cons.mpr
        ⟨caseless_colon.settled, List.forall_mem_singleton.mpr caseless_star.settled⟩
    · rw [toList_create_none]
      exact List.mem_append_right _ List.mem_cons_self

theorem parse_of_fold_eq_fold {d : Dialect} (h : d.fold t = d.fold s) :
    d.parse t = { d.parse s with written := t } := by
  by_cases hglobstar : d.fold s = d.globstar
  · rw [parse_of_fold_eq hglobstar, parse_of_fold_eq (h.trans hglobstar)]
    rfl
  · rcases hsegments : d.segments (d.fold s).toList with ⟨x, y, z⟩
    have hglobstar' : d.fold t ≠ d.globstar := h.symm ▸ hglobstar
    have hsegments' : d.segments (d.fold t).toList = (x, y, z) := by rw [h, hsegments]
    rw [parse_of_segments hglobstar hsegments, parse_of_segments hglobstar' hsegments']
    rfl

theorem parse_normalize (cs : Bool) (s : String) :
    (standard cs).parse ((standard cs).normalize s) =
      { (standard cs).parse s with written := (standard cs).normalize s } := by
  have hfolded := (isNormal_normalize cs s).folded
  rcases normalize_cases cs s with ⟨-, hform⟩ | ⟨hne, hcolon, hform⟩
  · rw [hform]
    exact parse_of_fold_eq_fold ((standard cs).fold_fold s)
  · have hsegments : (standard cs).segments ((standard cs).normalize s).toList =
        (((standard cs).fold s).toList, ['*'], []) := by
      rw [hform, toList_create_none]
      exact segments_two hcolon (by decide)
    have hne' : (standard cs).fold ((standard cs).normalize s) ≠ (standard cs).globstar := by
      apply fold_ne_globstar
      rw [hfolded, hform, toList_create_none]
      exact List.mem_append_right _ List.mem_cons_self
    rw [parse_of_segments hne' (hfolded.symm ▸ hsegments),
      parse_of_segments hne (segments_of_not_mem hcolon)]
    rfl

end Standard

/-! ### Well-formed strings -/

section WellFormed

variable {cs : Bool} {s : String} {part x : List Char}

theorem validate_eq_ok_iff {d : Dialect} : d.validate s = .ok () ↔ d.isValid s = true := by
  unfold validate isValid
  cases d.fault? s with
  | none => exact iff_of_true rfl rfl
  | some fault => exact iff_of_false nofun nofun

/-- A well-formed string is one to three segments put together. -/
theorem isValid_iff_exists_parts :
    (standard cs).isValid s = true ↔
      ∃ parts : List (List Char), parts ≠ [] ∧ parts.length ≤ segmentLimit ∧
        (∀ part ∈ parts, (standard cs).isSegment part = true) ∧
          [':'].intercalate parts = trim s.toList := by
  constructor
  · intro h
    by_cases hglobstar : trimmed s = "**"
    · refine ⟨[['*', '*']], List.cons_ne_nil _ _, by decide, ?_, ?_⟩
      · exact List.forall_mem_singleton.mpr (by cases cs <;> decide)
      · rw [← toList_trimmed, hglobstar]
        decide
    · exact parts_of_isValid h hglobstar
  · rintro ⟨parts, hne, hlimit, hsegments, hjoin⟩
    have hcolon : ∀ part ∈ parts, ':' ∉ part := fun part hpart ↦
      (isSegment_text (hsegments part hpart)).2.1
    have hsep : [':'] ≠ [] := List.cons_ne_nil _ _
    have hsplit : splitAll [':'] hsep (trim s.toList) = parts :=
      hjoin ▸ splitAll_intercalate hsep hne hcolon
    have hempty : (trimmed s).isEmpty = false := by
      apply Bool.eq_false_iff.mpr
      intro hempty
      have hnil : trim s.toList = [] := by
        rw [← toList_trimmed, String.isEmpty_iff.mp hempty]
        rfl
      rw [hnil, splitAll_of_cut_eq_none hsep (cut_of_not_mem List.not_mem_nil)] at hsplit
      exact (isSegment_text (hsegments [] (hsplit ▸ List.mem_singleton_self []))).1 rfl
    have hfind : parts.find? (!(standard cs).isSegment ·) = none :=
      List.find?_eq_none.mpr fun part hpart ↦ by simp [hsegments part hpart]
    rw [isValid, Option.isNone_iff_eq_none, fault?]
    simp only [hempty, toList_trimmed, toList_separator, hsplit, hfind, Nat.not_lt.mpr hlimit,
      Option.map_none, ite_self, Bool.false_eq_true, if_false]

/-- The parts of a text are folded one by one. -/
theorem foldBetween_intercalate (d : Dialect) (parts : List (List Char))
    (before after : List Char) :
    ∃ xs : List (List Char), xs.length = parts.length ∧
      (∀ x ∈ xs, ∃ part ∈ parts, d.FoldsTo part x) ∧
        d.foldBetween before ([':'].intercalate parts) after = [':'].intercalate xs := by
  induction parts generalizing before with
  | nil => exact ⟨[], rfl, nofun, foldBetween_eq_nil_iff.mpr rfl⟩
  | cons first rest ih =>
    rcases rest with _ | ⟨second, rest⟩
    · refine ⟨[d.foldBetween before first after], rfl, ?_, ?_⟩
      · exact List.forall_mem_singleton.mpr ⟨first, List.mem_cons_self, before, after, rfl⟩
      · rw [List.intercalate_singleton, List.intercalate_singleton]
    · obtain ⟨xs, hlength, hfolds, hfold⟩ := ih (':' :: (first.reverse ++ before))
      have hne : xs ≠ [] := List.ne_nil_of_length_eq_add_one hlength
      rw [List.intercalate_cons_cons, List.append_assoc, List.singleton_append, foldBetween_colon,
        hfold]
      generalize hx : d.foldBetween before first _ = x
      refine ⟨x :: xs, congrArg (· + 1) hlength, List.forall_mem_cons.mpr ⟨?_, ?_⟩, ?_⟩
      · exact ⟨first, List.mem_cons_self, _, _, hx⟩
      · intro y hy
        obtain ⟨part, hpart, hfolds⟩ := hfolds y hy
        exact ⟨part, List.mem_cons_of_mem first hpart, hfolds⟩
      · rw [List.intercalate_cons_of_ne_nil hne, List.append_assoc, List.singleton_append]

theorem toNat_lt_of_isSegmentChar {c : Char} (h : isSegmentChar c = true) : c.toNat < 128 := by
  simp only [isSegmentChar, Bool.or_eq_true, Bool.and_eq_true, decide_eq_true_eq, beq_iff_eq,
    Char.le_def, UInt32.le_iff_toNat_le] at h
  rcases h with (((⟨-, h⟩ | ⟨-, h⟩) | ⟨-, h⟩) | rfl) | rfl
  · exact Nat.lt_of_le_of_lt h (by decide)
  · exact Nat.lt_of_le_of_lt h (by decide)
  · exact Nat.lt_of_le_of_lt h (by decide)
  · decide
  · decide

theorem isSegmentChar_of_mem_lowerAt {c e : Char} {before after : List Char}
    (hc : isSegmentChar c = true) (he : e ∈ lowerAt before c after) : isSegmentChar e = true := by
  have hcodes : ∀ n < 128, isSegmentChar (Char.ofNat n) = true →
      (lowerChar (Char.ofNat n)).all isSegmentChar = true := by
    decide +kernel
  have hsigma : c ≠ capitalSigma := by
    rintro rfl
    exact absurd hc (by decide)
  have hlower := hcodes c.toNat (toNat_lt_of_isSegmentChar hc)
  rw [Char.ofNat_toNat] at hlower
  rw [lowerAt, if_neg hsigma] at he
  exact List.all_eq_true.mp (hlower hc) e he

/-- Folding keeps a segment of a well-formed string well formed. -/
theorem FoldsTo.isSegment (hx : (standard cs).FoldsTo part x)
    (h : (standard cs).isSegment part = true) : (standard cs).isSegment x = true := by
  rcases Bool.or_eq_true_iff.mp h with htoken | hchars
  · rw [Dialect.isToken_iff, String.toList_ofList] at htoken
    exact Bool.or_eq_true_iff.mpr (Or.inl (hx.isToken_iff.mpr htoken))
  · obtain ⟨hne, hall⟩ := Bool.and_eq_true_iff.mp hchars
    obtain ⟨before, after, rfl⟩ := hx
    refine Bool.or_eq_true_iff.mpr (Or.inr (Bool.and_eq_true_iff.mpr ⟨?_, ?_⟩))
    · simpa [foldBetween_eq_nil_iff] using hne
    · unfold foldBetween
      split
      · exact hall
      · rw [List.all_eq_true] at hall ⊢
        intro e he
        obtain ⟨c, hc, left, right, hlower⟩ := exists_of_mem_lowerBetween he
        exact isSegmentChar_of_mem_lowerAt (hall c hc) hlower

theorem isSegment_wildcard : (standard cs).isSegment ['*'] = true := by
  cases cs <;> decide

/-- The parts of a well-formed string, folded, are segments that make up the folded string. -/
theorem exists_folded_parts (h : (standard cs).isValid s = true) :
    ∃ xs : List (List Char), xs ≠ [] ∧ xs.length ≤ segmentLimit ∧
      (∀ x ∈ xs, (standard cs).isSegment x = true ∧ (standard cs).IsWord x) ∧
        [':'].intercalate xs = ((standard cs).fold s).toList := by
  obtain ⟨parts, hne, hlimit, hsegments, hjoin⟩ := isValid_iff_exists_parts.mp h
  obtain ⟨xs, hlength, hfolds, hfold⟩ := (standard cs).foldBetween_intercalate parts [] []
  rw [hjoin, ← toList_fold] at hfold
  refine ⟨xs, ?_, hlength ▸ hlimit, fun x hx ↦ ?_, hfold.symm⟩
  · rintro rfl
    exact hne (List.eq_nil_of_length_eq_zero hlength.symm)
  · obtain ⟨part, hpart, hx⟩ := hfolds x hx
    exact ⟨hx.isSegment (hsegments part hpart), hx.isWord (hsegments part hpart)⟩

theorem mem_intercalate_cons_cons (x y : List Char) (rest : List (List Char)) :
    ':' ∈ [':'].intercalate (x :: y :: rest) := by
  rw [List.intercalate_cons_cons, List.append_assoc]
  exact List.mem_append_right x List.mem_cons_self

theorem isValid_normalize (h : (standard cs).isValid s = true) :
    (standard cs).isValid ((standard cs).normalize s) = true := by
  obtain ⟨xs, hne, hlimit, hsegments, hjoin⟩ := exists_folded_parts h
  have hsegments := fun x hx ↦ (hsegments x hx).1
  rw [isValid_iff_exists_parts, (fold_eq_self_iff.mp (isNormal_normalize cs s).folded).1]
  rcases normalize_cases cs s with ⟨-, hform⟩ | ⟨-, hcolon, hform⟩
  · rw [hform]
    exact ⟨xs, hne, hlimit, hsegments, hjoin⟩
  · -- without a colon the string is its only segment
    rcases xs with _ | ⟨x, _ | ⟨y, rest⟩⟩
    · exact absurd rfl hne
    · refine ⟨[x, ['*']], List.cons_ne_nil _ _, by simp [segmentLimit], ?_, ?_⟩
      · exact List.forall_mem_cons.mpr ⟨hsegments x List.mem_cons_self,
          List.forall_mem_singleton.mpr isSegment_wildcard⟩
      · rw [List.intercalate_singleton] at hjoin
        rw [hform, toList_create_none, ← hjoin, List.intercalate_cons_cons,
          List.intercalate_singleton, List.append_assoc]
        rfl
    · exact absurd (hjoin ▸ mem_intercalate_cons_cons x y rest) hcolon

/-- A well-formed string in normal form is put together from words. -/
theorem IsNormal.exists_eq_create (h : (standard cs).IsNormal s)
    (hvalid : (standard cs).isValid s = true) (hne : s ≠ (standard cs).globstar) :
    ∃ resource action scope, s = (standard cs).create resource action scope ∧
      ∀ segment ∈ resource :: action :: scope.toList, (standard cs).IsWord segment.toList := by
  have hcolon : ':' ∈ s.toList := occursIn_separator_iff.mp (h.complete.resolve_left hne)
  obtain ⟨xs, hxs, hlimit, hwords, hjoin⟩ := exists_folded_parts hvalid
  have hwords : ∀ segment ∈ xs.map String.ofList, (standard cs).IsWord segment.toList := by
    intro segment hsegment
    obtain ⟨x, hx, rfl⟩ := List.mem_map.mp hsegment
    rw [String.toList_ofList]
    exact (hwords x hx).2
  rw [h.folded] at hjoin
  rcases xs with _ | ⟨r, _ | ⟨a, _ | ⟨sc, _ | ⟨more, rest⟩⟩⟩⟩
  · exact absurd rfl hxs
  · rw [List.intercalate_singleton] at hjoin
    have hword := (hwords (String.ofList r) List.mem_cons_self).no_colon
    rw [String.toList_ofList, hjoin] at hword
    exact absurd hcolon hword
  · refine ⟨String.ofList r, String.ofList a, none, ?_, hwords⟩
    rw [List.intercalate_cons_cons, List.intercalate_singleton, List.append_assoc] at hjoin
    rw [← String.toList_inj, toList_create_none, String.toList_ofList, String.toList_ofList]
    exact hjoin.symm
  · refine ⟨String.ofList r, String.ofList a, some (String.ofList sc), ?_, hwords⟩
    rw [List.intercalate_cons_cons, List.intercalate_cons_cons, List.intercalate_singleton,
      List.append_assoc, List.append_assoc] at hjoin
    rw [← String.toList_inj, toList_create_some, String.toList_ofList, String.toList_ofList,
      String.toList_ofList]
    exact hjoin.symm
  · exact absurd hlimit (by simp [segmentLimit])

theorem fold_eq_globstar_iff :
    (standard cs).fold s = (standard cs).globstar ↔ trimmed s = (standard cs).globstar := by
  have hfolds : (standard cs).FoldsTo (trim s.toList) ((standard cs).fold s).toList :=
    ⟨[], [], ((standard cs).toList_fold s).symm⟩
  have hstars := hfolds.eq_globstar_iff
  rw [String.ofList_toList] at hstars
  rw [hstars, ← String.toList_inj, toList_trimmed, toList_globstar]

theorem normalize_eq_globstar_iff :
    (standard cs).normalize s = (standard cs).globstar ↔ trimmed s = (standard cs).globstar := by
  rw [← fold_eq_globstar_iff]
  rcases normalize_cases cs s with ⟨-, hform⟩ | ⟨hne, -, hform⟩
  · rw [hform]
  · refine iff_of_false (fun heq ↦ ?_) hne
    have hcolon : ':' ∈ ((standard cs).normalize s).toList := by
      rw [hform, toList_create_none]
      exact List.mem_append_right _ List.mem_cons_self
    rw [heq, toList_globstar] at hcolon
    exact absurd hcolon (by decide)

/-- Normalizing is canonical. Once is enough, and it keeps the reading. A well-formed string other
than the globstar becomes its segments put together, which have text in them and no separator, and
the globstar becomes itself. -/
theorem normalize_canonical (cs : Bool) (s : String) :
    (standard cs).normalize ((standard cs).normalize s) = (standard cs).normalize s ∧
      (standard cs).parse ((standard cs).normalize s) =
        { (standard cs).parse s with written := (standard cs).normalize s } ∧
      (trimmed s = (standard cs).globstar → (standard cs).normalize s = (standard cs).globstar) ∧
      ((standard cs).validate s = .ok () → trimmed s ≠ (standard cs).globstar →
        (standard cs).validate ((standard cs).normalize s) = .ok () ∧
          (standard cs).normalize s =
            (standard cs).create ((standard cs).parse s).resource ((standard cs).parse s).action
              ((standard cs).parse s).scope ∧
          ∀ segment ∈ ((standard cs).parse s).resource :: ((standard cs).parse s).action ::
              ((standard cs).parse s).scope.toList,
            segment ≠ "" ∧
              occursIn (standard cs).separator.toList segment.toList = false) := by
  have hnormal := isNormal_normalize cs s
  refine ⟨normalize_of_isNormal hnormal, parse_normalize cs s, normalize_eq_globstar_iff.mpr,
    fun hok hne ↦ ?_⟩
  have hvalid := isValid_normalize (validate_eq_ok_iff.mp hok)
  obtain ⟨resource, action, scope, hcreate, hwords⟩ :=
    hnormal.exists_eq_create hvalid (mt normalize_eq_globstar_iff.mp hne)
  have hscope : ∀ word, scope = some word → (standard cs).IsWord word.toList := fun word hword ↦
    hwords word (List.mem_cons_of_mem _ (List.mem_cons_of_mem _ (Option.mem_toList.mpr hword)))
  have hparse := parse_create_words (hwords resource List.mem_cons_self)
    (hwords action (List.mem_cons_of_mem _ List.mem_cons_self)) hscope
  rw [← hcreate, parse_normalize] at hparse
  have hresource : ((standard cs).parse s).resource = resource := congrArg Pattern.resource hparse
  have haction : ((standard cs).parse s).action = action := congrArg Pattern.action hparse
  have hscope : ((standard cs).parse s).scope = scope := congrArg Pattern.scope hparse
  rw [hresource, haction, hscope]
  refine ⟨validate_eq_ok_iff.mpr hvalid, hcreate, fun segment hsegment ↦ ?_⟩
  have hword := hwords segment hsegment
  refine ⟨fun hempty ↦ hword.ne_nil (hempty ▸ rfl), Bool.eq_false_iff.mpr ?_⟩
  exact mt occursIn_separator_iff.mp hword.no_colon

/-- A resource in capitals, with white space around it and without an action. -/
theorem normalize_canonical_users :
    (standard false).validate " Users\t" = .ok () ∧
      trimmed " Users\t" ≠ (standard false).globstar ∧
      (standard false).normalize " Users\t" = "users:*" ∧
      (standard false).validate "users:*" = .ok () ∧
      (standard false).create ((standard false).parse " Users\t").resource
        ((standard false).parse " Users\t").action ((standard false).parse " Users\t").scope =
          "users:*" := by
  have hok : (standard false).validate " Users\t" = .ok () := by decide +kernel
  have hne : trimmed " Users\t" ≠ (standard false).globstar := by decide
  have hform : (standard false).normalize " Users\t" = "users:*" := by decide +kernel
  obtain ⟨-, -, -, hcanonical⟩ := normalize_canonical false " Users\t"
  obtain ⟨hvalid, hcreate, -⟩ := hcanonical hok hne
  rw [hform] at hvalid hcreate
  exact ⟨hok, hne, hform, hvalid, hcreate.symm⟩

end WellFormed

end RoleAccess.Dialect
