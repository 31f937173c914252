import RoleAccess.Proofs.Permission.BestMatch

/-!
What becomes of a decision when more is known about a request. A context extends another if it knows
the same ids and has the same attributes, and perhaps more (`Context.Extends`). Whatever a
permission grants in a context it grants in every context that extends it, and what it grants
without one it grants in any. So nothing that was permitted is refused, and though another
permission may become the best match, it never scores less (`Dialect.context_mono`).
-/

set_option autoImplicit false
set_option relaxedAutoImplicit false

namespace RoleAccess

/-! ### Equal values -/

theorem Binary64.same_trans {x y z : Binary64} (hxy : x.same y = true) (hyz : y.same z = true) :
    x.same z = true := by
  simp only [Binary64.same, Bool.and_eq_true, Bool.or_eq_true, beq_iff_eq] at hxy hyz ⊢
  obtain ⟨hx, hxy⟩ := hxy
  obtain ⟨-, hyz⟩ := hyz
  refine ⟨hx, ?_⟩
  rcases hxy with hbits | ⟨hxzero, hyzero⟩
  · obtain rfl : x = y := congrArg Binary64.mk hbits
    exact hyz
  · rcases hyz with hbits | ⟨-, hzzero⟩
    · obtain rfl : y = z := congrArg Binary64.mk hbits
      exact Or.inr ⟨hxzero, hyzero⟩
    · exact Or.inr ⟨hxzero, hzzero⟩

namespace Value

mutual

theorem same_trans {a b c : Value} (hab : a.same b = true) (hbc : b.same c = true) :
    a.same c = true := by
  cases a with
  | array as =>
    cases b <;> cases c <;> try contradiction
    exact sameItems_trans hab hbc
  | object as =>
    cases b <;> cases c <;> try contradiction
    exact sameFields_trans hab hbc
  | float x =>
    cases b <;> cases c <;> try contradiction
    exact Binary64.same_trans hab hbc
  | _ =>
    cases b <;> cases c <;> try contradiction
    all_goals simp_all [same]
termination_by structural a

theorem sameItems_trans {as bs cs : List Value} (hab : sameItems as bs = true)
    (hbc : sameItems bs cs = true) : sameItems as cs = true := by
  cases as <;> cases bs <;> cases cs <;> try contradiction
  · rfl
  · simp only [sameItems, Bool.and_eq_true] at *
    exact ⟨same_trans hab.1 hbc.1, sameItems_trans hab.2 hbc.2⟩
termination_by structural as

theorem sameFields_trans {as bs cs : List (String × Value)} (hab : sameFields as bs = true)
    (hbc : sameFields bs cs = true) : sameFields as cs = true := by
  rcases as with _ | ⟨⟨k, a⟩, as⟩ <;> rcases bs with _ | ⟨⟨l, b⟩, bs⟩ <;>
    rcases cs with _ | ⟨⟨m, c⟩, cs⟩ <;> try contradiction
  · rfl
  · simp only [sameFields, Bool.and_eq_true, beq_iff_eq] at *
    exact ⟨⟨hab.1.1.trans hbc.1.1, same_trans hab.1.2 hbc.1.2⟩, sameFields_trans hab.2 hbc.2⟩
termination_by structural as

end

end Value

/-! ### Contexts that know more -/

namespace Context

/-- One context knows what another knows: its ids, and its attributes with the same values. -/
structure Extends (more known : Context) : Prop where
  userId : ∀ id, known.userId = some id → more.userId = some id
  ownerId : ∀ id, known.ownerId = some id → more.ownerId = some id
  attributes : ∀ name value, Fields.find? known.attributes name = some value →
    ∃ kept, Fields.find? more.attributes name = some kept ∧
      (kept = value ∨ kept.same value = true)

/-- A second context knows what the first does, if there is a first one at all. -/
def Widens (context context' : Option Context) : Prop :=
  ∀ known, context = some known → ∃ more, context' = some more ∧ more.Extends known

variable {context context' : Option Context}

theorem isOwner_iff {c : Context} :
    c.isOwner = true ↔ ∃ id, c.userId = some id ∧ c.ownerId = some id := by
  unfold isOwner
  cases c.userId with
  | none => simp
  | some user =>
    cases c.ownerId with
    | none => simp
    | some owner =>
      simp only [beq_iff_eq, Option.some.injEq, exists_eq_left']
      exact eq_comm

theorem Extends.isOwner {more known : Context} (h : more.Extends known)
    (howner : known.isOwner = true) : more.isOwner = true := by
  obtain ⟨id, huser, howner⟩ := isOwner_iff.mp howner
  exact isOwner_iff.mpr ⟨id, h.userId id huser, h.ownerId id howner⟩

theorem Extends.conditionHolds {more known : Context} (h : more.Extends known)
    {condition : String × Value} (hholds : Dialect.conditionHolds known condition = true) :
    Dialect.conditionHolds more condition = true := by
  unfold Dialect.conditionHolds at hholds ⊢
  obtain ⟨value, hvalue, hsame⟩ := (Option.any_eq_true _ _).mp hholds
  obtain ⟨kept, hkept, hequal⟩ := h.attributes _ _ hvalue
  rw [hkept, Option.any_some]
  rcases hequal with rfl | hequal
  · exact hsame
  · exact Value.same_trans hequal hsame

theorem Widens.any (h : Widens context context') {P : Context → Bool}
    (hP : ∀ more known : Context, more.Extends known → P known = true → P more = true)
    (hany : context.any P = true) : context'.any P = true := by
  obtain ⟨known, hknown, hholds⟩ := (Option.any_eq_true _ _).mp hany
  obtain ⟨more, hmore, hextends⟩ := h known hknown
  rw [hmore, Option.any_some]
  exact hP more known hextends hholds

end Context

namespace Dialect

open Context

variable {d : Dialect} {context context' : Option Context}

theorem scopeAdmits_mono (h : Widens context context') {required granted : Option String}
    (hadmits : d.scopeAdmits required granted context = true) :
    d.scopeAdmits required granted context' = true := by
  have howner : context.any isOwner = true → context'.any isOwner = true :=
    h.any fun _ _ hextends ↦ hextends.isOwner
  cases required with
  | none => rfl
  | some required =>
    cases granted with
    | none => exact hadmits
    | some granted =>
      unfold scopeAdmits at hadmits ⊢
      dsimp only at hadmits ⊢
      -- The context only counts where the owner asks and the owner is granted.
      by_cases hown : (required = ownScope && granted = ownScope) = true
      · simp only [hown, if_true] at hadmits ⊢
        split
        · rfl
        next hrequired =>
          rw [if_neg hrequired] at hadmits
          split
          · rfl
          next hgranted =>
            rw [if_neg hgranted] at hadmits
            exact howner hadmits
      · simp only [hown] at hadmits ⊢
        exact hadmits

theorem conditionsHold_eq (p : Permission) (context : Option Context) :
    conditionsHold p context = p.conditions.all fun conditions ↦
      conditions.isEmpty || context.any fun c ↦ conditions.all (conditionHolds c) := by
  unfold conditionsHold
  cases p.conditions with
  | none => rfl
  | some conditions => cases context <;> rfl

theorem conditionsHold_mono (h : Widens context context') {p : Permission}
    (hholds : conditionsHold p context = true) : conditionsHold p context' = true := by
  rw [conditionsHold_eq] at hholds ⊢
  refine (Option.all_eq_true _ _).mpr fun conditions hconditions ↦ ?_
  have hheld := (Option.all_eq_true _ _).mp hholds conditions hconditions
  rw [Bool.or_eq_true] at hheld ⊢
  refine hheld.imp_right (h.any fun more known hextends hall ↦ ?_)
  rw [List.all_eq_true] at hall ⊢
  exact fun condition hcondition ↦ hextends.conditionHolds (hall condition hcondition)

/-- What a permission grants in a context it grants wherever more is known. -/
theorem satisfies_mono (h : Widens context context') {required : Pattern} {p : Permission}
    (hgrants : d.satisfies required p context = true) :
    d.satisfies required p context' = true := by
  simp only [satisfies, Bool.and_eq_true, Bool.or_eq_true] at hgrants ⊢
  obtain ⟨hfits, hholds⟩ := hgrants
  refine ⟨?_, conditionsHold_mono h hholds⟩
  exact hfits.imp_right fun ⟨hsegments, hscope⟩ ↦ ⟨hsegments, scopeAdmits_mono h hscope⟩

theorem permits_mono (h : Widens context context') {required : String} {held : List Permission}
    (hpermits : d.permits required held context = true) :
    d.permits required held context' = true := by
  rw [permits, List.any_eq_true] at hpermits ⊢
  obtain ⟨p, hp, hgrants⟩ := hpermits
  exact ⟨p, hp, satisfies_mono h hgrants⟩

/-- The best match may be another one, and scores as much or more. -/
theorem score_bestMatch_mono (h : Widens context context') (required : String)
    (held : List Permission) :
    (d.bestMatch required held context).score ≤ (d.bestMatch required held context').score := by
  cases hbest : d.bestMatch required held context with
  | none => exact Nat.zero_le _
  | some grant =>
    obtain ⟨p, hp, rfl⟩ := bestMatch_eq_some_iff.mp hbest
    obtain ⟨hheld, hgrants⟩ := mem_candidates_iff.mp hp.mem
    have hkept := satisfies_mono h hgrants
    obtain ⟨grant', hbest'⟩ :=
      Option.isSome_iff_exists.mp (bestMatch_isSome_iff.mpr ⟨p, hheld, hkept⟩)
    obtain ⟨q, hq, rfl⟩ := bestMatch_eq_some_iff.mp hbest'
    rw [hbest']
    exact hq.le (mem_candidates_iff.mpr ⟨hheld, hkept⟩)

/-- Where more is known, whatever was permitted stays permitted, of one requirement, of any of
several and of all of them, and the best match scores no less. -/
theorem context_mono (d : Dialect) {context context' : Option Context}
    (h : Widens context context') (held : List Permission) :
    (∀ required, d.permits required held context = true →
        d.permits required held context' = true) ∧
      (∀ required, d.permitsAny required held context = true →
        d.permitsAny required held context' = true) ∧
      (∀ required, d.permitsAll required held context = true →
        d.permitsAll required held context' = true) ∧
      ∀ required, (d.bestMatch required held context).score ≤
        (d.bestMatch required held context').score := by
  refine ⟨fun _ ↦ permits_mono h, fun required hany ↦ ?_, fun required hall ↦ ?_,
    fun required ↦ score_bestMatch_mono h required held⟩
  · rw [permitsAny, List.any_eq_true] at hany ⊢
    obtain ⟨r, hr, hpermits⟩ := hany
    exact ⟨r, hr, permits_mono h hpermits⟩
  · rw [permitsAll, List.all_eq_true] at hall ⊢
    exact fun r hr ↦ permits_mono h (hall r hr)

/-- The owner becomes known, and a zero is given with the other sign: the permission of the owner
then matches better than the one over all. -/
theorem context_mono_owner :
    let held : List Permission := [
      { id := "a", resource := "docs", action := "*", scope := some "all" },
      { id := "b", resource := "docs", action := "read", scope := some "own",
        conditions := some [("level", .float (Binary64.zero false))] }]
    let known : Context :=
      { userId := some "u", attributes := [("level", .float (Binary64.zero false))] }
    let more : Context :=
      { userId := some "u", ownerId := some "u",
        attributes := [("level", .float (Binary64.zero true)), ("team", .int 3)] }
    Widens (some known) (some more) ∧
      (standard false).permits "docs:read:own" held (some known) = true ∧
      (standard false).permits "docs:read:own" held (some more) = true ∧
      ((standard false).bestMatch "docs:read:own" held (some known)).score = 15 ∧
      15 ≤ ((standard false).bestMatch "docs:read:own" held (some more)).score ∧
      ((standard false).bestMatch "docs:read:own" held (some more)).score = 28 := by
  intro held known more
  have hwidens : Widens (some known) (some more) := by
    rintro _ ⟨⟩
    refine ⟨more, rfl, fun id hid ↦ hid, fun id hid ↦ (by cases hid), fun name value hfound ↦ ?_⟩
    change List.lookup name [("level", .float (Binary64.zero false))] = some value at hfound
    rw [List.lookup_cons] at hfound
    split at hfound
    next hname =>
      cases hfound
      rw [beq_iff_eq.mp hname]
      exact ⟨.float (Binary64.zero true), rfl, Or.inr (by decide +kernel)⟩
    next => cases hfound
  obtain ⟨hpermits, -, -, hscore⟩ := (standard false).context_mono hwidens held
  have hknown : (standard false).permits "docs:read:own" held (some known) = true := by
    decide +kernel
  have hbest : ((standard false).bestMatch "docs:read:own" held (some known)).score = 15 := by
    decide +kernel
  exact ⟨hwidens, hknown, hpermits _ hknown, hbest, hbest ▸ hscore _, by decide +kernel⟩

end Dialect

end RoleAccess
