import Mathlib.Data.List.Induction
import RoleAccess.Permission.Matching

/-!
The questions that can be asked about one required permission have answers that agree. Its
candidates are the held permissions that satisfy it. There are any just where it is permitted, has a
best match, or is not refused; the best match is the first candidate of highest weight, told by its
pattern, its weight and the reason why it matches (`Dialect.Describes`), and the list of all of them
ranks them by weight, with ties in the order in which they are held (`Dialect.answers_agree`).
-/

set_option autoImplicit false
set_option relaxedAutoImplicit false

namespace RoleAccess

/-! ### The first of the highest score -/

section Scores

variable {α : Type} {score : α → Nat} {l ranked : List α} {p q : α}

/-- An occurrence that scores more than all before it and no less than any after it. -/
def FirstOfHighest (score : α → Nat) (l : List α) (p : α) : Prop :=
  ∃ before after, l = before ++ p :: after ∧
    (∀ q ∈ before, score q < score p) ∧ ∀ q ∈ after, score q ≤ score p

/-- A list in the order of falling score. Equal scores stay in the order they had. -/
structure Ranked (score : α → Nat) (l ranked : List α) : Prop where
  perm : ranked.Perm l
  falling : ranked.Pairwise fun p q ↦ score q ≤ score p
  ties : ∀ n, ranked.filter (score · = n) = l.filter (score · = n)

theorem FirstOfHighest.mem (h : FirstOfHighest score l p) : p ∈ l := by
  obtain ⟨before, after, rfl, -, -⟩ := h
  exact List.mem_append_right before List.mem_cons_self

theorem FirstOfHighest.le (h : FirstOfHighest score l p) (hq : q ∈ l) : score q ≤ score p := by
  obtain ⟨before, after, rfl, hbefore, hafter⟩ := h
  rcases List.mem_append.mp hq with hq | hq
  · exact Nat.le_of_lt (hbefore q hq)
  · rcases List.mem_cons.mp hq with rfl | hq
    · exact Nat.le_refl _
    · exact hafter q hq

/-- One more element that scores no more leaves the first of the highest score in its place. -/
theorem FirstOfHighest.concat (h : FirstOfHighest score l p) (hle : score q ≤ score p) :
    FirstOfHighest score (l ++ [q]) p := by
  obtain ⟨before, after, rfl, hbefore, hafter⟩ := h
  refine ⟨before, after ++ [q], by rw [List.append_assoc, List.cons_append], hbefore, ?_⟩
  intro other hother
  rcases List.mem_append.mp hother with hother | hother
  · exact hafter other hother
  · rw [List.mem_singleton.mp hother]
    exact hle

theorem firstOfHighest_concat (h : ∀ other ∈ l, score other < score q) :
    FirstOfHighest score (l ++ [q]) q :=
  ⟨l, [], rfl, h, fun _ hother ↦ absurd hother List.not_mem_nil⟩

theorem ranked_mergeSort (score : α → Nat) (l : List α) :
    Ranked score l (l.mergeSort fun p q ↦ score q ≤ score p) := by
  have htrans : ∀ a b c : α, decide (score b ≤ score a) = true → decide (score c ≤ score b) = true →
      decide (score c ≤ score a) = true := by
    intro a b c hab hbc
    rw [decide_eq_true_iff] at hab hbc ⊢
    exact Nat.le_trans hbc hab
  have htotal : ∀ a b : α, (decide (score b ≤ score a) || decide (score a ≤ score b)) = true := by
    intro a b
    rw [Bool.or_eq_true, decide_eq_true_iff, decide_eq_true_iff]
    exact Nat.le_total (score b) (score a)
  have hperm := List.mergeSort_perm l fun p q ↦ score q ≤ score p
  refine ⟨hperm, ?_, ?_⟩
  · exact (List.pairwise_mergeSort htrans htotal l).imp fun hle ↦ of_decide_eq_true hle
  · intro n
    -- All elements of one score are in order as they stand, so that sorting keeps them as they are.
    have hlevel :
        (l.filter (score · = n)).Pairwise fun p q ↦ decide (score q ≤ score p) = true := by
      refine List.pairwise_of_forall_mem_list fun a ha b hb ↦ ?_
      have hscoreA := of_decide_eq_true (List.mem_filter.mp ha).2
      have hscoreB := of_decide_eq_true (List.mem_filter.mp hb).2
      exact decide_eq_true (Nat.le_of_eq (hscoreB.trans hscoreA.symm))
    have hkept := (List.sublist_mergeSort htrans htotal hlevel List.filter_sublist).filter
      (score · = n)
    rw [List.filter_filter] at hkept
    simp only [Bool.and_self] at hkept
    exact (hkept.eq_of_length (hperm.filter _).length_eq.symm).symm

/-- A ranking starts with the first of the highest score. -/
theorem Ranked.head?_eq (h : Ranked score l ranked) (hp : FirstOfHighest score l p) :
    ranked.head? = some p := by
  have hmem : p ∈ ranked := h.perm.mem_iff.mpr hp.mem
  cases ranked with
  | nil => exact absurd hmem List.not_mem_nil
  | cons top rest =>
    have hscore : score top = score p := by
      apply Nat.le_antisymm
      · exact hp.le (h.perm.mem_iff.mp List.mem_cons_self)
      · rcases List.mem_cons.mp hmem with rfl | hrest
        · exact Nat.le_refl _
        · exact (List.pairwise_cons.mp h.falling).1 p hrest
    obtain ⟨before, after, rfl, hbefore, -⟩ := hp
    have hnone : before.filter (score · = score p) = [] := by
      rw [List.filter_eq_nil_iff]
      intro q hq
      rw [decide_eq_true_iff]
      exact Nat.ne_of_lt (hbefore q hq)
    have hlevel := h.ties (score p)
    rw [List.filter_append, hnone, List.nil_append] at hlevel
    simp only [List.filter_cons, hscore, decide_true, if_true] at hlevel
    rw [List.head?_cons, (List.cons.inj hlevel).1]

end Scores

/-! ### What a match is told by -/

/-- What the segments of a pattern weigh: ten for a resource, ten for an action and five for a scope
that are no wildcards. The pattern of everything weighs nothing. -/
def Pattern.weight (p : Pattern) : Nat :=
  if p.isGlobstar then 0
  else
    (if p.isResourceWildcard then 0 else 10) + (if p.isActionWildcard then 0 else 10) +
      if p.scope.isNone || p.isScopeWildcard then 0 else 5

/-- Why a pattern matches: that of everything as such, and any other by which of its segments are
wildcards. -/
inductive Pattern.MatchesBy (p : Pattern) : Reason → Prop
  | superadmin (everything : p.isGlobstar = true) : p.MatchesBy .superadmin
  | fullWildcard (bounded : p.isGlobstar = false) (resource : p.isResourceWildcard = true)
    (action : p.isActionWildcard = true) : p.MatchesBy .fullWildcard
  | resourceWildcard (bounded : p.isGlobstar = false) (resource : p.isResourceWildcard = true)
    (action : p.isActionWildcard = false) : p.MatchesBy .resourceWildcard
  | actionWildcard (bounded : p.isGlobstar = false) (resource : p.isResourceWildcard = false)
    (action : p.isActionWildcard = true) : p.MatchesBy .actionWildcard
  | exactMatch (bounded : p.isGlobstar = false) (resource : p.isResourceWildcard = false)
    (action : p.isActionWildcard = false) : p.MatchesBy .exactMatch

namespace Dialect

/-- What a held permission weighs: its pattern, and three more for any conditions. -/
def weight (d : Dialect) (p : Permission) : Nat :=
  (d.candidate p).weight +
    match p.conditions with
    | none | some [] => 0
    | some (_ :: _) => 3

/-- A pattern in writing: that of everything as the globstar, and any other by its segments. -/
def inWriting (d : Dialect) (p : Pattern) : String :=
  if p.isGlobstar then d.globstar
  else String.intercalate d.separator (p.resource :: p.action :: p.scope.toList)

/-- What a grant tells of its permission: the pattern in writing, the weight, and why the pattern
matches. -/
structure Describes (d : Dialect) (grant : Grant) : Prop where
  pattern : grant.pattern = d.inWriting (d.candidate grant.permission)
  score : grant.score = d.weight grant.permission
  reason : (d.candidate grant.permission).MatchesBy grant.reason

variable {d : Dialect} {required : String} {held : List Permission} {context : Option Context}

theorem render_eq_inWriting (d : Dialect) (held : Pattern) : d.render held = d.inWriting held := by
  unfold render create inWriting
  cases held.scope <;> simp [String.append_assoc]

theorem scoreOf_eq_weight (d : Dialect) : d.scoreOf = d.weight := by
  funext p
  unfold scoreOf score weight Pattern.weight Permission.hasConditions Pattern.concreteScope
  congr 1
  -- The two sums differ in how they tell a concrete scope, and that there are conditions.
  · cases (d.candidate p).scope <;> cases (d.candidate p).isScopeWildcard <;> simp
  · rcases p.conditions with _ | _ | _ <;> simp

theorem matchesBy_reason (held : Pattern) : held.MatchesBy (reason held) := by
  unfold reason
  cases hglobstar : held.isGlobstar with
  | true => exact .superadmin hglobstar
  | false =>
    cases hresource : held.isResourceWildcard <;> cases haction : held.isActionWildcard
    · exact .exactMatch hglobstar hresource haction
    · exact .actionWildcard hglobstar hresource haction
    · exact .resourceWildcard hglobstar hresource haction
    · exact .fullWildcard hglobstar hresource haction

theorem describes_grantOf (d : Dialect) (p : Permission) : d.Describes (d.grantOf p) where
  pattern := d.render_eq_inWriting (d.candidate p)
  score := congrFun d.scoreOf_eq_weight p
  reason := matchesBy_reason (d.candidate p)

/-- The held permissions that satisfy a required one. -/
def candidates (d : Dialect) (required : String) (held : List Permission)
    (context : Option Context) : List Permission :=
  held.filter fun p ↦ d.satisfies (d.parse required) p context

theorem mem_candidates_iff {p : Permission} : p ∈ d.candidates required held context ↔
    p ∈ held ∧ d.satisfies (d.parse required) p context = true :=
  List.mem_filter

theorem bestMatch_eq_foldl : d.bestMatch required held context =
    (d.candidates required held context).foldl (fun best p ↦ better best (d.grantOf p)) none := by
  unfold bestMatch candidates
  rw [List.foldl_filter]

/-- Going through candidates ends with the grant of the first one of highest score. -/
theorem foldl_better (d : Dialect) (l : List Permission) :
    (l = [] ∧ l.foldl (fun best p ↦ better best (d.grantOf p)) none = none) ∨
      ∃ p, FirstOfHighest d.scoreOf l p ∧
        l.foldl (fun best p ↦ better best (d.grantOf p)) none = some (d.grantOf p) := by
  induction l using List.reverseRecOn with
  | nil => exact Or.inl ⟨rfl, rfl⟩
  | append_singleton l q ih =>
    right
    rw [List.foldl_append, List.foldl_cons, List.foldl_nil]
    rcases ih with ⟨rfl, hnone⟩ | ⟨p, hp, hbest⟩
    · rw [hnone]
      exact ⟨q, firstOfHighest_concat fun _ hother ↦ absurd hother List.not_mem_nil, rfl⟩
    · rw [hbest]
      by_cases hlt : (d.grantOf p).score < (d.grantOf q).score
      · refine ⟨q, firstOfHighest_concat ?_, if_pos hlt⟩
        exact fun other hother ↦ Nat.lt_of_le_of_lt (hp.le hother) hlt
      · exact ⟨p, hp.concat (Nat.le_of_not_lt hlt), if_neg hlt⟩

theorem bestMatch_eq_some_iff {grant : Grant} : d.bestMatch required held context = some grant ↔
    ∃ p, FirstOfHighest d.scoreOf (d.candidates required held context) p ∧
      grant = d.grantOf p := by
  rw [bestMatch_eq_foldl]
  rcases d.foldl_better (d.candidates required held context) with ⟨hnil, hnone⟩ | ⟨p, hp, hbest⟩
  · rw [hnone, hnil]
    refine iff_of_false (by simp) ?_
    rintro ⟨p, hp, -⟩
    exact absurd hp.mem List.not_mem_nil
  · rw [hbest]
    constructor
    · intro h
      exact ⟨p, hp, (Option.some.inj h).symm⟩
    · rintro ⟨other, hother, rfl⟩
      have hranked := ranked_mergeSort d.scoreOf (d.candidates required held context)
      have hsame : p = other :=
        Option.some.inj ((hranked.head?_eq hp).symm.trans (hranked.head?_eq hother))
      rw [hsame]

/-- There is a best match just where there is any. -/
theorem bestMatch_isSome_iff : (d.bestMatch required held context).isSome = true ↔
    ∃ p ∈ held, d.satisfies (d.parse required) p context = true := by
  rw [bestMatch_eq_foldl]
  rcases d.foldl_better (d.candidates required held context) with ⟨hnil, hnone⟩ | ⟨p, hp, hbest⟩
  · rw [hnone]
    refine iff_of_false Bool.false_ne_true ?_
    rintro ⟨p, hheld, hsatisfies⟩
    have hp := mem_candidates_iff.mpr ⟨hheld, hsatisfies⟩
    rw [hnil] at hp
    exact absurd hp List.not_mem_nil
  · rw [hbest]
    exact iff_of_true rfl ⟨p, mem_candidates_iff.mp hp.mem⟩

theorem ranked_matching : Ranked d.scoreOf (d.candidates required held context)
    (d.matching required held context) :=
  ranked_mergeSort d.scoreOf _

theorem matching_ne_nil_iff : d.matching required held context ≠ [] ↔
    ∃ p ∈ held, d.satisfies (d.parse required) p context = true := by
  rw [← List.length_pos_iff, List.length_pos_iff_exists_mem]
  simp only [ranked_matching.perm.mem_iff, mem_candidates_iff]

theorem require_eq_ok_iff {grant : Grant} : d.require required held context = .ok grant ↔
    d.bestMatch required held context = some grant := by
  unfold require
  cases d.bestMatch required held context <;> simp

/-- A requirement is permitted just where it has a best match, is not refused, or has any matching
permission. The best match is the first of the matching permissions, with the pattern, the score and
the reason of that permission, and the first candidate of highest weight; the matching permissions
are the candidates ranked by weight. -/
theorem answers_agree (d : Dialect) (required : String) (held : List Permission)
    (context : Option Context) :
    (d.permits required held context = true ↔
        (d.bestMatch required held context).isSome = true) ∧
      ((∃ grant, d.require required held context = .ok grant) ↔
        (d.bestMatch required held context).isSome = true) ∧
      (d.matching required held context ≠ [] ↔
        (d.bestMatch required held context).isSome = true) ∧
      (∀ grant, d.bestMatch required held context = some grant →
        d.require required held context = .ok grant ∧
          (d.matching required held context).head? = some grant.permission ∧
          d.Describes grant ∧
          FirstOfHighest d.weight (d.candidates required held context) grant.permission) ∧
      Ranked d.weight (d.candidates required held context)
        (d.matching required held context) := by
  rw [← scoreOf_eq_weight]
  refine ⟨?_, ?_, ?_, ?_, ranked_matching⟩
  · rw [bestMatch_isSome_iff, permits, List.any_eq_true]
  · rw [Option.isSome_iff_exists]
    exact exists_congr fun _ ↦ require_eq_ok_iff
  · rw [bestMatch_isSome_iff, matching_ne_nil_iff]
  · intro grant hgrant
    obtain ⟨p, hp, rfl⟩ := bestMatch_eq_some_iff.mp hgrant
    exact ⟨require_eq_ok_iff.mpr hgrant, ranked_matching.head?_eq hp, d.describes_grantOf p, hp⟩

def openBoth : Permission := ⟨"a", "*", "*", none, none, none⟩

def openResource : Permission := ⟨"b", "*", "y", none, none, none⟩

def openAction : Permission := ⟨"c", "x", "*", none, none, none⟩

/-- Of three candidates the first weighs nothing and the other two the same. -/
theorem answers_agree_tie :
    (standard true).require "x:y" [openBoth, openResource, openAction] none =
        .ok ⟨openResource, "*:y", 10, .resourceWildcard⟩ ∧
      ((standard true).matching "x:y" [openBoth, openResource, openAction] none).head? =
        some openResource ∧
      (standard true).weight openResource = 10 ∧
      ((standard true).candidate openResource).MatchesBy .resourceWildcard ∧
      FirstOfHighest (standard true).weight
        ((standard true).candidates "x:y" [openBoth, openResource, openAction] none)
        openResource := by
  have hbest : (standard true).bestMatch "x:y" [openBoth, openResource, openAction] none =
      some ⟨openResource, "*:y", 10, .resourceWildcard⟩ := by
    rfl
  obtain ⟨-, -, -, hgrant, -⟩ :=
    (standard true).answers_agree "x:y" [openBoth, openResource, openAction] none
  obtain ⟨hrequire, hfirst, hdescribes, hhighest⟩ := hgrant _ hbest
  exact ⟨hrequire, hfirst, hdescribes.score.symm, hdescribes.reason, hhighest⟩

end Dialect

end RoleAccess
