import RoleAccess.Proofs.Permission.OpenPatterns

/-!
What a held permission with an open scope grants. The scope of a candidate is open if it is a token,
or if the candidate is the grant of everything. Judging scopes only knows the single wildcard: with
it the permission grants whatever its resource and action fit, in any scope and context, but with
the globstar as scope it grants just what asks for no scope of its own (`satisfies_open_scope`,
`open_globstar_scope_refused`).
-/

set_option autoImplicit false
set_option relaxedAutoImplicit false

namespace RoleAccess

/-- The resource and the action of a held pattern fit the required ones. -/
def Pattern.Fits (held required : Pattern) : Prop :=
  held.isGlobstar = true ∨
    (held.isResourceWildcard = true ∨ required.isResourceWildcard = true ∨
        held.resource = required.resource) ∧
      (held.isActionWildcard = true ∨ required.isActionWildcard = true ∨
        held.action = required.action)

instance (held required : Pattern) : Decidable (held.Fits required) :=
  inferInstanceAs (Decidable (_ ∨ _))

namespace Dialect

section Readings

variable {d : Dialect} {s : String}

theorem isScopeWildcard_parse :
    (d.parse s).isScopeWildcard =
      ((d.parse s).isGlobstar || (d.parse s).scope.any d.isToken) := by
  by_cases h : d.fold s = d.globstar
  · rw [parse_of_fold_eq h]
    rfl
  · rw [parse_of_segments h rfl]
    exact (Bool.false_or _).symm

theorem scope_of_isGlobstar_parse (h : (d.parse s).isGlobstar = true) :
    (d.parse s).scope = none := by
  rw [parse_of_fold_eq (isGlobstar_parse_iff.mp h)]
  rfl

theorem open_scope_cases (h : (d.parse s).isScopeWildcard = true) :
    (d.parse s).isGlobstar = true ∨ (d.parse s).scope = some d.wildcard ∨
      (d.parse s).scope = some d.globstar := by
  rw [isScopeWildcard_parse, Bool.or_eq_true] at h
  refine h.imp_right fun htoken ↦ ?_
  cases hscope : (d.parse s).scope with
  | none => simp [hscope] at htoken
  | some scope => simpa [hscope, isToken] using htoken

/-- A concrete scope is no token. -/
theorem concreteScope_parse_eq_none_iff :
    (d.parse s).concreteScope = none ↔
      ∀ scope, (d.parse s).concreteScope = some scope → d.isToken scope = true := by
  unfold Pattern.concreteScope
  rw [isScopeWildcard_parse]
  cases (d.parse s).scope with
  | none => simp
  | some scope => cases (d.parse s).isGlobstar <;> cases htoken : d.isToken scope <;> simp [htoken]

theorem exists_candidate_parse (d : Dialect) (p : Permission) : ∃ s, d.candidate p = d.parse s := by
  unfold candidate
  split
  · exact ⟨_, rfl⟩
  · exact ⟨_, rfl⟩

theorem conditionsHold_of_no_conditions {p : Permission} (h : p.hasConditions = false)
    (context : Option Context) : conditionsHold p context = true := by
  unfold conditionsHold
  cases hconditions : p.conditions with
  | none => rfl
  | some conditions =>
    rw [Permission.hasConditions, hconditions, Option.any_some, Bool.not_eq_false'] at h
    simp only [h, Bool.true_or]

/-- A permission without conditions grants what its resource and action fit and its scope admits;
the grant of everything does not look at the scope. -/
theorem satisfies_iff {p : Permission} (h : p.hasConditions = false) (required : Pattern)
    (context : Option Context) :
    d.satisfies required p context = true ↔
      (d.candidate p).Fits required ∧
        ((d.candidate p).isGlobstar = true ∨
          d.scopeAdmits required.concreteScope (d.candidate p).scope context = true) := by
  have hholds := conditionsHold_of_no_conditions h context
  cases hglobstar : (d.candidate p).isGlobstar with
  | true => simp [satisfies, Pattern.Fits, hglobstar, hholds]
  | false =>
    simp only [satisfies, Pattern.Fits, hglobstar, hholds, Bool.false_or, Bool.and_true,
      Bool.false_eq_true, false_or, Bool.and_eq_true, Bool.or_eq_true, beq_iff_eq, or_assoc]

end Readings

/-! ### Open scopes -/

section OpenScopes

variable {cs : Bool}

theorem scopeAdmits_wildcard (d : Dialect) (required : Option String) (context : Option Context) :
    d.scopeAdmits required (some d.wildcard) context = true := by
  unfold scopeAdmits
  cases required with
  | none => rfl
  | some required => simp

/-- The globstar admits the two tokens, and no scope besides. -/
theorem scopeAdmits_globstar_iff {required : Option String} {context : Option Context} :
    (standard cs).scopeAdmits required (some "**") context = true ↔
      ∀ scope, required = some scope → (standard cs).isToken scope = true := by
  cases required with
  | none => simp [scopeAdmits]
  | some required =>
    have htokens : "**" ≠ "*" ∧ "**" ≠ ownScope ∧ "**" ≠ allScope := by decide
    have hjudged : (standard cs).scopeAdmits (some required) (some "**") context =
        (decide (required = "*") || "**" == required) := by
      simp [scopeAdmits, standard, htokens]
    rw [hjudged, Bool.or_eq_true, decide_eq_true_iff, beq_iff_eq, eq_comm (a := "**")]
    simp only [Option.some.injEq, forall_eq', isToken, Bool.or_eq_true, beq_iff_eq]
    rfl

/-- A permission without conditions whose scope is the wildcard grants whatever its resource and
action fit. If its scope is the globstar, it only grants what names no concrete scope. -/
theorem satisfies_open_scope (p : Permission) (hfree : p.hasConditions = false)
    (hopen : ((standard false).candidate p).isScopeWildcard = true) (context : Option Context) :
    (((standard false).candidate p).scope ≠ some "**" → ∀ required : Pattern,
        ((standard false).satisfies required p context = true ↔
          ((standard false).candidate p).Fits required)) ∧
      (((standard false).candidate p).scope = some "**" → ∀ required : String,
        ((standard false).satisfies ((standard false).parse required) p context = true ↔
          ((standard false).candidate p).Fits ((standard false).parse required) ∧
            ((standard false).parse required).concreteScope = none)) := by
  obtain ⟨s, hs⟩ := (standard false).exists_candidate_parse p
  rw [hs] at hopen ⊢
  constructor
  · intro hscope required
    rw [satisfies_iff hfree, hs, and_iff_left_iff_imp]
    intro _
    obtain hglobstar | hwildcard | hstars := open_scope_cases hopen
    · exact Or.inl hglobstar
    · rw [hwildcard]
      exact Or.inr (scopeAdmits_wildcard _ _ _)
    · exact absurd hstars hscope
  · intro hscope required
    have hclosed : ¬((standard false).parse s).isGlobstar = true := by
      intro hglobstar
      rw [scope_of_isGlobstar_parse hglobstar] at hscope
      cases hscope
    rw [satisfies_iff hfree, hs, or_iff_right hclosed, hscope, scopeAdmits_globstar_iff,
      concreteScope_parse_eq_none_iff]

/-- The permission to read users in a scope. -/
def readUsers (scope : String) : Permission :=
  { id := "p", resource := "users", action := "read", scope := some scope }

/-- The wildcard as scope grants to nobody in particular what the owner may do. -/
theorem satisfies_open_scope_star :
    (readUsers "*").hasConditions = false ∧
      ((standard false).candidate (readUsers "*")).isScopeWildcard = true ∧
      (standard false).satisfies ((standard false).parse "users:read:own") (readUsers "*") none =
        true := by
  have hopen : ((standard false).candidate (readUsers "*")).isScopeWildcard = true := by
    decide +kernel
  obtain ⟨hstar, -⟩ := satisfies_open_scope (readUsers "*") rfl hopen none
  exact ⟨rfl, hopen, (hstar (by decide +kernel) _).mpr (by decide +kernel)⟩

/-- The globstar as scope is open, and refuses the owner all the same. -/
theorem open_globstar_scope_refused :
    (readUsers "**").hasConditions = false ∧
      ((standard false).candidate (readUsers "**")).isScopeWildcard = true ∧
      ((standard false).candidate (readUsers "**")).Fits
        ((standard false).parse "users:read:own") ∧
      (standard false).satisfies ((standard false).parse "users:read:own") (readUsers "**")
        (some { userId := some "u", ownerId := some "u" }) = false := by
  decide +kernel

end OpenScopes

end Dialect

end RoleAccess
