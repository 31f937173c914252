import RoleAccess.Role.RosterFile
import RoleAccess.Proofs.Permission.Segments

/-!
Permissions in short form. A well-formed string is made of one to three words, and the permission
built from it holds these words, so that its fields, put together again, have the reading of the
string (`parse_create_words`). There is one exception. A globstar resource with an open action and
no scope is how a held permission says that it grants everything, and `**:*` and `**:**` come out in
that form although neither string is the globstar.
-/

set_option autoImplicit false
set_option relaxedAutoImplicit false

namespace RoleAccess.Dialect

open Text

/-! ### The words of a well-formed string -/

section WellFormed

variable {cs : Bool} {s : String} {part x : List Char}

theorem not_isBlank_of_isSegmentChar {c : Char} (h : isSegmentChar c = true) :
    isBlank c = false := by
  have hnone : ∀ n ∈ blankCodes, isSegmentChar (Char.ofNat n) = false := by decide
  apply Bool.eq_false_iff.mpr
  intro hblank
  have hc := hnone c.toNat (mem_blankCodes hblank)
  rw [Char.ofNat_toNat, h] at hc
  exact Bool.noConfusion hc

/-- A segment of a well-formed string has text in it, but no colon and no white space. -/
theorem isSegment_text (h : (standard cs).isSegment part = true) :
    part ≠ [] ∧ ':' ∉ part ∧ ∀ c ∈ part, isBlank c = false := by
  unfold isSegment at h
  rcases Bool.or_eq_true_iff.mp h with htoken | hchars
  · rw [isToken_iff, String.toList_ofList] at htoken
    have hstars : part ≠ [] ∧ ∀ c ∈ part, c = '*' := by
      rcases htoken with hpart | hpart
      · simp [hpart]
      · simp [hpart]
    refine ⟨hstars.1, fun hcolon ↦ ?_, fun c hc ↦ ?_⟩
    · exact absurd (hstars.2 ':' hcolon) (by decide)
    · rw [hstars.2 c hc]
      decide
  · obtain ⟨hne, hall⟩ := Bool.and_eq_true_iff.mp hchars
    rw [List.all_eq_true] at hall
    refine ⟨fun hnil ↦ ?_, fun hcolon ↦ ?_, fun c hc ↦ not_isBlank_of_isSegmentChar (hall c hc)⟩
    · rw [hnil] at hne
      exact Bool.noConfusion hne
    · exact absurd (hall ':' hcolon) (by decide)

theorem FoldsTo.isWord (hx : (standard cs).FoldsTo part x)
    (h : (standard cs).isSegment part = true) : (standard cs).IsWord x := by
  obtain ⟨hne, hcolon, hblank⟩ := isSegment_text h
  obtain ⟨before, after, rfl⟩ := hx
  refine ⟨mt foldBetween_eq_nil_iff.mp hne, mt (mem_foldBetween_iff caseless_colon).mp hcolon, ?_,
    fun _ _ ↦ foldBetween_of_isKept (isKept_foldBetween _ _ _ _)⟩
  intro c hc
  apply Bool.eq_false_iff.mpr
  intro hc'
  have hpart := (mem_foldBetween_iff (caseless_of_isBlank hc')).mp hc
  exact absurd hc' (Bool.eq_false_iff.mp (hblank c hpart))

theorem isWord_wildcard : (standard cs).IsWord "*".toList where
  ne_nil := by decide
  no_colon := by decide
  no_blank := List.forall_mem_singleton.mpr (by decide)
  folded _ _ := foldBetween_of_isKept fun _ ↦ List.forall_mem_singleton.mpr caseless_star.settled

/-- Up to three segments that make up the string, unless it is the globstar. -/
theorem parts_of_isValid (h : (standard cs).isValid s = true) (hne : trimmed s ≠ "**") :
    ∃ parts : List (List Char), parts ≠ [] ∧ parts.length ≤ segmentLimit ∧
      (∀ part ∈ parts, (standard cs).isSegment part = true) ∧
        [':'].intercalate parts = trim s.toList := by
  have hfault : (standard cs).fault? s = none := Option.isNone_iff_eq_none.mp h
  have hglobstar : ¬trimmed s = (standard cs).globstar := hne
  simp only [fault?, if_neg hglobstar] at hfault
  split at hfault
  · exact absurd hfault (Option.some_ne_none _)
  split at hfault
  · exact absurd hfault (Option.some_ne_none _)
  next hlimit =>
    have hfind := List.find?_eq_none.mp (Option.map_eq_none_iff.mp hfault)
    have hsep := (standard cs).separator_ne_nil
    have hjoin := intercalate_splitAll hsep (trimmed s).toList
    have hparts := splitAll_ne_nil hsep (trimmed s).toList
    -- `splitAll` carries a proof about the separator, so it goes before the separator is rewritten
    generalize splitAll (standard cs).separator.toList hsep (trimmed s).toList = parts at *
    rw [toList_separator, toList_trimmed] at hjoin
    refine ⟨parts, hparts, Nat.le_of_not_lt hlimit, fun part hpart ↦ ?_, hjoin⟩
    simpa using hfind part hpart

end WellFormed

/-! ### The permission in words -/

/-- The strings `**:*` and `**:**`: a globstar resource, with the action left open in writing. -/
def IsOpenGlobstar (s : String) : Prop := trimmed s = "**:*" ∨ trimmed s = "**:**"

instance (s : String) : Decidable (IsOpenGlobstar s) := inferInstanceAs (Decidable (_ ∨ _))

/-- A string is made of these words, and they say whether it is a globstar with an open action. -/
structure IsMadeOf (d : Dialect) (s resource action : String) (scope : Option String) : Prop where
  resource_word : d.IsWord resource.toList
  action_word : d.IsWord action.toList
  scope_word : ∀ word, scope = some word → d.IsWord word.toList
  parse_eq : d.parse s = d.ofSegments resource action scope s
  open_iff : (resource = d.globstar ∧ d.isToken action = true ∧ scope = none) ↔ IsOpenGlobstar s

section Words

variable {cs : Bool} {s : String} {r a sc rest : List Char}

theorem not_isOpenGlobstar_of_not_mem (h : ':' ∉ trim s.toList) : ¬IsOpenGlobstar s := by
  unfold IsOpenGlobstar
  rw [← String.toList_inj, ← String.toList_inj, toList_trimmed]
  rintro (hs | hs)
  · exact h (hs ▸ by decide)
  · exact h (hs ▸ by decide)

theorem isOpenGlobstar_iff (hr : ':' ∉ r) (h : trim s.toList = r ++ ':' :: rest) :
    IsOpenGlobstar s ↔ r = ['*', '*'] ∧ (rest = ['*'] ∨ rest = ['*', '*']) := by
  have hglobstar : ':' ∉ ['*', '*'] := by decide
  unfold IsOpenGlobstar
  rw [← String.toList_inj, ← String.toList_inj, toList_trimmed, h]
  change r ++ ':' :: rest = ['*', '*'] ++ ':' :: ['*'] ∨
    r ++ ':' :: rest = ['*', '*'] ++ ':' :: ['*', '*'] ↔ _
  rw [append_cons_inj hr hglobstar, append_cons_inj hr hglobstar, and_or_left]

theorem isMadeOf_one (hr : (standard cs).isSegment r = true) (h : trim s.toList = r)
    (hne : r ≠ ['*', '*']) : ∃ resource action, (standard cs).IsMadeOf s resource action none := by
  have hfold := (standard cs).toList_fold s
  rw [h] at hfold
  have hx : (standard cs).FoldsTo r ((standard cs).fold s).toList := ⟨[], [], hfold.symm⟩
  have hword := hx.isWord hr
  have hglobstar : (standard cs).fold s ≠ (standard cs).globstar := by
    rw [← String.ofList_toList (s := (standard cs).fold s)]
    exact mt hx.eq_globstar_iff.mp hne
  refine ⟨String.ofList ((standard cs).fold s).toList, "*", ?_, isWord_wildcard, nofun, ?_, ?_⟩
  · rw [String.toList_ofList]
    exact hword
  · exact parse_of_segments hglobstar (segments_of_not_mem hword.no_colon)
  · refine iff_of_false (fun hopen ↦ hne (hx.eq_globstar_iff.mp hopen.1)) ?_
    apply not_isOpenGlobstar_of_not_mem
    rw [h]
    exact (isSegment_text hr).2.1

theorem isMadeOf_two (hr : (standard cs).isSegment r = true) (ha : (standard cs).isSegment a = true)
    (h : trim s.toList = r ++ ':' :: a) :
    ∃ resource action, (standard cs).IsMadeOf s resource action none := by
  have hfold := (standard cs).toList_fold s
  rw [h, foldBetween_colon] at hfold
  have hglobstar := fold_ne_globstar (hfold ▸ List.mem_append_right _ List.mem_cons_self)
  generalize hx : (standard cs).foldBetween _ r _ = x at hfold
  generalize hy : (standard cs).foldBetween _ a _ = y at hfold
  have hx : (standard cs).FoldsTo r x := ⟨_, _, hx⟩
  have hy : (standard cs).FoldsTo a y := ⟨_, _, hy⟩
  have hresource := hx.isWord hr
  have haction := hy.isWord ha
  refine ⟨String.ofList x, String.ofList y, ?_, ?_, nofun, ?_, ?_⟩
  · rwa [String.toList_ofList]
  · rwa [String.toList_ofList]
  · rw [parse_of_segments hglobstar (hfold ▸ segments_two hresource.no_colon haction.no_colon),
      haction.isEmpty]
    rfl
  · rw [hx.eq_globstar_iff, hy.isToken_iff, isOpenGlobstar_iff (isSegment_text hr).2.1 h]
    simp only [and_true]

theorem isMadeOf_three (hr : (standard cs).isSegment r = true)
    (ha : (standard cs).isSegment a = true) (hsc : (standard cs).isSegment sc = true)
    (h : trim s.toList = r ++ ':' :: (a ++ ':' :: sc)) :
    ∃ resource action scope, (standard cs).IsMadeOf s resource action (some scope) := by
  have hfold := (standard cs).toList_fold s
  rw [h, foldBetween_colon, foldBetween_colon] at hfold
  have hglobstar := fold_ne_globstar (hfold ▸ List.mem_append_right _ List.mem_cons_self)
  generalize hx : (standard cs).foldBetween _ r _ = x at hfold
  generalize hy : (standard cs).foldBetween _ a _ = y at hfold
  generalize hz : (standard cs).foldBetween _ sc _ = z at hfold
  have hresource := FoldsTo.isWord ⟨_, _, hx⟩ hr
  have haction := FoldsTo.isWord ⟨_, _, hy⟩ ha
  have hscope := FoldsTo.isWord ⟨_, _, hz⟩ hsc
  refine ⟨String.ofList x, String.ofList y, String.ofList z, ?_, ?_, ?_, ?_, ?_⟩
  · rwa [String.toList_ofList]
  · rwa [String.toList_ofList]
  · intro word hword
    rwa [← Option.some.inj hword, String.toList_ofList]
  · rw [parse_of_segments hglobstar (hfold ▸ segments_three hresource.no_colon haction.no_colon z),
      haction.isEmpty, hscope.isEmpty]
    rfl
  · rw [isOpenGlobstar_iff (isSegment_text hr).2.1 h]
    refine iff_of_false (fun hopen ↦ Option.some_ne_none _ hopen.2.2) ?_
    -- the second colon would have to be in a token
    have hcolon : ':' ∈ a ++ ':' :: sc := List.mem_append_right a List.mem_cons_self
    rintro ⟨-, hrest | hrest⟩
    · exact absurd (hrest ▸ hcolon) (by decide)
    · exact absurd (hrest ▸ hcolon) (by decide)

theorem exists_isMadeOf (h : (standard cs).isValid s = true) (hne : trimmed s ≠ "**") :
    ∃ resource action scope, (standard cs).IsMadeOf s resource action scope := by
  obtain ⟨parts, hparts, hlimit, hsegments, hjoin⟩ := parts_of_isValid h hne
  rcases parts with _ | ⟨r, _ | ⟨a, _ | ⟨sc, _ | ⟨more, rest⟩⟩⟩⟩
  · exact absurd rfl hparts
  · rw [List.intercalate_singleton] at hjoin
    have hr : r ≠ ['*', '*'] := by
      intro hr
      apply hne
      rw [← String.toList_inj, toList_trimmed, ← hjoin, hr]
      decide
    obtain ⟨resource, action, hmade⟩ :=
      isMadeOf_one (hsegments r List.mem_cons_self) hjoin.symm hr
    exact ⟨resource, action, none, hmade⟩
  · rw [List.intercalate_cons_cons, List.intercalate_singleton, List.append_assoc] at hjoin
    obtain ⟨resource, action, hmade⟩ := isMadeOf_two (hsegments r List.mem_cons_self)
      (hsegments a (List.mem_cons_of_mem r List.mem_cons_self)) hjoin.symm
    exact ⟨resource, action, none, hmade⟩
  · rw [List.intercalate_cons_cons, List.intercalate_cons_cons, List.intercalate_singleton,
      List.append_assoc, List.append_assoc] at hjoin
    have hr := hsegments r List.mem_cons_self
    have ha := hsegments a (List.mem_cons_of_mem r List.mem_cons_self)
    have hsc := hsegments sc (List.mem_cons_of_mem r (List.mem_cons_of_mem a List.mem_cons_self))
    obtain ⟨resource, action, scope, hmade⟩ := isMadeOf_three hr ha hsc hjoin.symm
    exact ⟨resource, action, some scope, hmade⟩
  · exact absurd hlimit (by simp [segmentLimit])

end Words

/-! ### The reading of the permission -/

section Readings

variable {cs : Bool} {s resource action : String} {scope : Option String}

theorem parse_of_globstar (h : trimmed s = "**") :
    (standard cs).parse s = (standard cs).everything s := by
  have hstars : trim s.toList = ['*', '*'] := by
    rw [← toList_trimmed, h]
    decide
  have hfold : (standard cs).fold s = (standard cs).globstar := by
    rw [← String.toList_inj, toList_fold, hstars, toList_globstar]
    exact foldBetween_of_isKept fun _ c hc ↦
      List.eq_of_mem_replicate (n := 2) hc ▸ caseless_star.settled
  exact parse_of_fold_eq hfold

theorem trimmed_of_isWord (h : (standard cs).IsWord resource.toList) :
    trimmed resource = resource := by
  rw [← String.toList_inj, toList_trimmed, trim_of_no_blank h.no_blank]

theorem isSuperadmin_iff_of_words (hresource : (standard cs).IsWord resource.toList)
    (haction : (standard cs).IsWord action.toList) :
    (standard cs).isSuperadmin { id := s, resource, action, scope } = true ↔
      resource = (standard cs).globstar ∧ (standard cs).isToken action = true ∧ scope = none := by
  have hempty : action.isEmpty = false := by
    apply Bool.eq_false_iff.mpr
    intro hempty
    exact haction.ne_nil (String.toList_eq_nil_iff.mpr (String.isEmpty_iff.mp hempty))
  simp only [isSuperadmin, isOpenAction, trimmed_of_isWord hresource, trimmed_of_isWord haction,
    hempty, Bool.false_or, Bool.and_eq_true, beq_iff_eq, Option.isNone_iff_eq_none, and_assoc]

theorem permissionOf_of_isValid (h : (standard cs).isValid s = true) :
    (standard cs).permissionOf s = .ok
      (if ((standard cs).parse s).isGlobstar then
        { id := s, resource := (standard cs).globstar, action := (standard cs).wildcard }
      else
        { id := s, resource := ((standard cs).parse s).resource,
          action := ((standard cs).parse s).action, scope := ((standard cs).parse s).scope }) := by
  have hvalid : (standard cs).validate s = .ok () := by
    rw [validate, Option.isNone_iff_eq_none.mp h]
  rw [permissionOf, hvalid]
  rfl

/-- The candidate of the grant of everything in table form. -/
theorem candidate_of_isSuperadmin {p : Permission} (h : (standard cs).isSuperadmin p = true) :
    (standard cs).candidate p = (standard cs).everything (standard cs).globstar := by
  have hglobstar : trimmed "**" = "**" := by decide
  rw [candidate, if_pos h]
  exact parse_of_globstar hglobstar

/-- The candidate of words that do not have that form. -/
theorem candidate_of_isMadeOf (h : (standard cs).IsMadeOf s resource action scope)
    (hopen : ¬IsOpenGlobstar s) :
    { (standard cs).candidate { id := s, resource, action, scope } with written := s } =
      (standard cs).parse s := by
  have hsuper : ¬(standard cs).isSuperadmin { id := s, resource, action, scope } = true :=
    fun hsuper ↦ hopen (h.open_iff.mp
      ((isSuperadmin_iff_of_words h.resource_word h.action_word).mp hsuper))
  rw [candidate, if_neg hsuper, parse_create_words h.resource_word h.action_word h.scope_word,
    h.parse_eq]
  rfl

theorem isGlobstar_candidate_iff (h : (standard cs).IsMadeOf s resource action scope) :
    ((standard cs).candidate { id := s, resource, action, scope }).isGlobstar = true ↔
      IsOpenGlobstar s := by
  by_cases hopen : IsOpenGlobstar s
  · have hsuper : (standard cs).isSuperadmin { id := s, resource, action, scope } = true :=
      (isSuperadmin_iff_of_words h.resource_word h.action_word).mpr (h.open_iff.mpr hopen)
    rw [candidate_of_isSuperadmin hsuper]
    exact iff_of_true rfl hopen
  · have hreading := congrArg Pattern.isGlobstar (candidate_of_isMadeOf h hopen)
    rw [h.parse_eq] at hreading
    exact iff_of_false (Bool.eq_false_iff.mp hreading) hopen

theorem isSuperadmin_table :
    (standard cs).isSuperadmin
      { id := s, resource := (standard cs).globstar, action := (standard cs).wildcard } = true := by
  have hwritten : (trimmed "**" == "**" && ((trimmed "*").isEmpty ||
      (trimmed "*" == "*" || trimmed "*" == "**")) && true) = true := by
    decide
  exact hwritten

end Readings

end RoleAccess.Dialect

namespace RoleAccess

open Dialect Text

/-! ### Short forms in a roles file -/

theorem mem_of_mapM {ε α β : Type} {f : α → Except ε β} {inputs : List α} {outputs : List β}
    (h : inputs.mapM f = .ok outputs) {a : α} (ha : a ∈ inputs) {b : β} (hb : f a = .ok b) :
    b ∈ outputs := by
  induction inputs generalizing outputs with
  | nil => exact absurd ha List.not_mem_nil
  | cons first rest ih =>
    rw [List.mapM_cons] at h
    cases hfirst : f first with
    | error e =>
      rw [hfirst] at h
      cases h
    | ok output =>
      cases hrest : rest.mapM f with
      | error e =>
        rw [hfirst, hrest] at h
        cases h
      | ok others =>
        rw [hfirst, hrest] at h
        cases h
        rcases List.mem_cons.mp ha with heq | hmem
        · rw [heq, hfirst] at hb
          cases hb
          exact List.mem_cons_self
        · exact List.mem_cons_of_mem output (ih hrest hmem)

theorem RoleEntry.mem_permissions {d : Dialect} {entry : RoleEntry} {role : Role}
    (h : entry.role d = .ok role) {held : PermissionEntry} (hheld : held ∈ entry.permissions)
    {p : Permission} (hp : held.permission d = .ok p) : p ∈ role.permissions := by
  unfold RoleEntry.role at h
  cases hpermissions : entry.permissions.mapM (PermissionEntry.permission d) with
  | error e =>
    rw [hpermissions] at h
    cases h
  | ok permissions =>
    rw [hpermissions] at h
    cases h
    exact mem_of_mapM hpermissions hheld hp

/-- Every well-formed short form is accepted, in every role that holds it, and the permission built
from it is read as the string is, unless that is `**:*` or `**:**`. It grants everything exactly in
those two cases and for the globstar. -/
theorem PermissionEntry.short_reads (cs : Bool) (s : String)
    (h : (standard cs).isValid s = true) :
    ∃ p, PermissionEntry.permission (standard cs) (.short s) = .ok p ∧
      (∀ entry role, RoleEntry.role (standard cs) entry = .ok role →
        .short s ∈ entry.permissions → p ∈ role.permissions) ∧
      (((standard cs).candidate p).isGlobstar = true ↔ trimmed s = "**" ∨ IsOpenGlobstar s) ∧
      (¬IsOpenGlobstar s →
        { (standard cs).candidate p with written := s } = (standard cs).parse s) := by
  have hbuilt := permissionOf_of_isValid h
  by_cases hglobstar : trimmed s = "**"
  · have hpattern : ((standard cs).everything s).isGlobstar = true := rfl
    rw [parse_of_globstar hglobstar, if_pos hpattern] at hbuilt
    refine ⟨_, hbuilt, fun entry role hrole hmem ↦ RoleEntry.mem_permissions hrole hmem hbuilt, ?_⟩
    rw [candidate_of_isSuperadmin isSuperadmin_table, parse_of_globstar hglobstar]
    exact ⟨iff_of_true rfl (Or.inl hglobstar), fun _ ↦ rfl⟩
  · obtain ⟨resource, action, scope, hmade⟩ := exists_isMadeOf h hglobstar
    have hpattern : ¬((standard cs).ofSegments resource action scope s).isGlobstar = true :=
      Bool.false_ne_true
    rw [hmade.parse_eq, if_neg hpattern] at hbuilt
    refine ⟨_, hbuilt, fun entry role hrole hmem ↦ RoleEntry.mem_permissions hrole hmem hbuilt, ?_⟩
    refine ⟨(isGlobstar_candidate_iff hmade).trans (or_iff_right hglobstar).symm, fun hopen ↦ ?_⟩
    exact candidate_of_isMadeOf hmade hopen

theorem PermissionEntry.short_reads_posts :
    (standard false).isValid "Posts:edit:own" = true ∧
      ∃ p, PermissionEntry.permission (standard false) (.short "Posts:edit:own") = .ok p ∧
        ((standard false).candidate p).resource = "posts" ∧
        ((standard false).candidate p).scope = some "own" ∧
        ((standard false).candidate p).isGlobstar = false := by
  have hvalid : (standard false).isValid "Posts:edit:own" = true := by decide +kernel
  have hopen : ¬IsOpenGlobstar "Posts:edit:own" := by decide
  obtain ⟨p, hp, -, -, hreads⟩ := PermissionEntry.short_reads false "Posts:edit:own" hvalid
  have hparse : ((standard false).parse "Posts:edit:own").resource = "posts" ∧
      ((standard false).parse "Posts:edit:own").scope = some "own" ∧
      ((standard false).parse "Posts:edit:own").isGlobstar = false := by
    decide +kernel
  rw [← hreads hopen] at hparse
  exact ⟨hvalid, p, hp, hparse⟩

/-- The string `**:*` is well formed and not the globstar, and is granted everything. -/
theorem PermissionEntry.short_reads_open_globstar :
    (standard false).isValid "**:*" = true ∧
      ∃ p, PermissionEntry.permission (standard false) (.short "**:*") = .ok p ∧
        ((standard false).candidate p).isGlobstar = true ∧
        ((standard false).parse "**:*").isGlobstar = false := by
  have hvalid : (standard false).isValid "**:*" = true := by decide +kernel
  refine ⟨hvalid, _, permissionOf_of_isValid hvalid, ?_⟩
  decide +kernel

end RoleAccess
