import RoleAccess.Proofs.Role.Coherence
import RoleAccess.Proofs.Role.FirstLoop
import RoleAccess.Proofs.Role.PathSearch

/-!
A parent edge is only added after it has been judged. The judgement refuses an edge between two
roles just where it would close a loop (`RoleSource.exists_judgeEdge`), so a roster without loops
that grows by judged edges only stays without them (`validated_edges`).
-/

set_option autoImplicit false
set_option relaxedAutoImplicit false

namespace RoleAccess

/-! ### Looking for a loop -/

theorem RoleGraph.findCycle_of_acyclic {g : RoleGraph} (h : g.roles.Acyclic) :
    g.findCycle = none := by
  rw [findCycle_eq_none_iff]
  rintro ⟨id, -, hloop⟩
  exact h id hloop

namespace RoleSource

variable {s : RoleSource} {root : Role} {g : RoleGraph}

theorem acyclic_snapshot (hroot : s.roster.find? root.id = some root)
    (hg : s.snapshot root = .ok g) (h : s.roster.Acyclic) : g.roles.Acyclic := by
  intro id hloop
  refine h id (Relation.TransGen.mono (fun child parent hedge ↦ ?_) _ _ hloop)
  exact ((parent_snapshot_iff hroot hg).mp hedge).2

theorem findCycle_of_acyclic (hanswers : s.failedFinds = []) (h : s.roster.Acyclic) (id : String) :
    s.findCycle id = .ok none := by
  unfold findCycle
  rw [find?_of_no_failure hanswers]
  cases hrole : s.roster.find? id with
  | none => rfl
  | some root =>
    obtain rfl := Roster.id_of_find? hrole
    obtain ⟨g, hg⟩ := exists_snapshot_of_no_failure hanswers root
    have hnone := RoleGraph.findCycle_of_acyclic (acyclic_snapshot hrole hg h)
    simp only [bind, Except.bind, hg, pure, Except.pure, hnone]

/-- Over a roster without loops only the limit stops the search for ancestors. -/
theorem ancestors_error_of_acyclic (hanswers : s.failedFinds = []) (h : s.roster.Acyclic)
    (hroot : s.roster.find? root.id = some root) {mode : WalkMode} {e : RoleError}
    (herror : s.ancestors mode root = .error e) :
    ∃ chain, e = .tooDeep chain (mode.limit + 1) mode.limit := by
  obtain ⟨g, hg⟩ := exists_snapshot_of_no_failure hanswers root
  unfold ancestors at herror
  rw [hg] at herror
  cases hancestors : g.ancestors mode with
  | ok a => simp [hancestors, bind, Except.bind, pure, Except.pure] at herror
  | error e' =>
    simp only [hancestors, bind, Except.bind, Except.error.injEq] at herror
    subst herror
    cases (RoleGraph.ancestors_eq_error hancestors).2 with
    | @loop before mid x hway hnodup =>
      exact absurd hway.reaches_loop.2 (acyclic_snapshot hroot hg h x)
    | @tooDeep chain hway hnodup hlength => exact ⟨chain, rfl⟩

end RoleSource

/-- Whatever is kept in a cache, an error comes from the search for ancestors. -/
theorem Resolver.parentRoles_error {r : Resolver} {now : Nat} {id : String} {limit : Option Nat}
    {cache : Attached} {root : Role} {e : RoleError} (hroot : r.source.require id = .ok root)
    (h : (r.parentRoles now id limit cache).1 = .error e) :
    r.source.ancestors (r.mode (limit.getD r.options.maxDepth)) root = .error e := by
  simp only [parentRoles, withCache, hroot, ancestors, Keeping.through] at h
  split at h
  next => cases h
  next =>
    split at h
    next hcompute =>
      cases h
      exact (Prod.mk.inj hcompute).1
    next => cases h

/-! ### Judging an edge -/

/-- An edge to a role is refused just where the parent already has the child above it. -/
theorem RoleSource.exists_judgeEdge {s : RoleSource} (hanswers : s.failedFinds = [])
    {child parent : String} (hne : child ≠ parent) (hparent : s.roster.contains parent = true) :
    ∃ v, s.judgeEdge child parent = .ok v ∧ (v.isValid = false ↔ s.roster.Names parent child) := by
  obtain ⟨role, hrole⟩ := Roster.exists_of_contains hparent
  obtain rfl := Roster.id_of_find? hrole
  obtain ⟨g, hg⟩ := exists_snapshot_of_no_failure hanswers role
  have hpath := RoleGraph.pathTo_isSome_iff g child
  rw [(find?_snapshot_iff hrole hg).1, names_snapshot_iff hrole hg] at hpath
  unfold judgeEdge
  rw [if_neg hne, find?_of_no_failure hanswers, hrole]
  simp only [bind, Except.bind, hg]
  cases hway : g.pathTo child with
  | none =>
    refine ⟨.valid, rfl, iff_of_false (by decide) fun hnames ↦ ?_⟩
    have := hpath.mpr ⟨hne, hnames⟩
    rw [hway] at this
    cases this
  | some path => exact ⟨_, rfl, iff_of_true rfl (hpath.mp (hway ▸ rfl)).2⟩

theorem RoleSource.judgeEdge_eq_valid {s : RoleSource} (hanswers : s.failedFinds = [])
    {child parent : String} (h : s.judgeEdge child parent = .ok .valid) :
    ¬s.roster.Names parent child := by
  have hne : child ≠ parent := by
    rintro rfl
    simp [judgeEdge, pure, Except.pure] at h
  have hparent : s.roster.contains parent = true := by
    rw [Roster.contains, Option.isSome_iff_ne_none]
    intro hnone
    simp [judgeEdge, hne, find?_of_no_failure hanswers, hnone, bind, Except.bind, pure,
      Except.pure] at h
  obtain ⟨v, hv, hrefused⟩ := exists_judgeEdge hanswers hne hparent
  cases hv.symm.trans h
  exact fun hnames ↦ absurd (hrefused.mpr hnames) (by decide)

/-! ### Adding an edge -/

namespace Roster

variable {r : Roster} {child parent a b : String}

/-- A parent edge that lies on a loop. -/
def OnLoop (r : Roster) (child parent : String) : Prop :=
  r.Parent child parent ∧ r.Reaches parent child

/-- Adds a parent to a role if the edge is judged valid. -/
def addValidated (r : Roster) (edge : String × String) : Roster :=
  match RoleSource.judgeEdge { roster := r } edge.1 edge.2 with
  | .ok .valid => r.addParent edge.1 edge.2
  | _ => r

theorem contains_addParent (r : Roster) (child parent id : String) :
    (r.addParent child parent).contains id = r.contains id := by
  unfold addParent
  cases hrole : r.find? child with
  | none => rfl
  | some role =>
    obtain rfl := id_of_find? hrole
    dsimp only
    split
    · rfl
    · unfold contains
      rw [find?_insert]
      split
      next heq => rw [← heq, Role.withParent, hrole, Option.isSome_some, Option.isSome_some]
      next => rfl

theorem lists_addParent_iff : (r.addParent child parent).Lists a b ↔
    r.Lists a b ∨ (a = child ∧ b = parent ∧ r.contains child = true) := by
  unfold addParent
  cases hrole : r.find? child with
  | none => simp [contains, hrole]
  | some role =>
    obtain rfl := id_of_find? hrole
    have hhere : r.contains role.id = true := contains_of_find? hrole
    dsimp only
    split
    next hold =>
      rw [List.contains_iff_mem] at hold
      constructor
      · exact Or.inl
      · rintro (hlists | ⟨rfl, rfl, -⟩)
        · exact hlists
        · exact ⟨role, hrole, hold⟩
    next =>
      unfold Lists
      by_cases heq : a = role.id
      · subst heq
        simp [find?_insert, Role.withParent, hrole, hhere]
      · simp [find?_insert, Role.withParent, heq, Ne.symm heq]

theorem parent_addParent_iff : (r.addParent child parent).Parent a b ↔ r.Parent a b ∨
    (a = child ∧ b = parent ∧ r.contains child = true ∧ r.contains parent = true) := by
  unfold Parent
  rw [lists_addParent_iff, contains_addParent]
  constructor
  · rintro ⟨hlists | ⟨rfl, rfl, hchild⟩, hb⟩
    · exact Or.inl ⟨hlists, hb⟩
    · exact Or.inr ⟨rfl, rfl, hchild, hb⟩
  · rintro (⟨hlists, hb⟩ | ⟨rfl, rfl, hchild, hparent⟩)
    · exact ⟨Or.inl hlists, hb⟩
    · exact ⟨Or.inr ⟨rfl, rfl, hchild⟩, hparent⟩

/-- A way upwards with a new edge either does without it, or goes up to the edge and on from it. -/
theorem transGen_addParent (h : Relation.TransGen (r.addParent child parent).Parent a b) :
    Relation.TransGen r.Parent a b ∨ (r.Reaches a child ∧ r.Reaches parent b) := by
  induction h with
  | single hedge =>
    rcases parent_addParent_iff.mp hedge with hold | ⟨rfl, rfl, -, -⟩
    · exact Or.inl (.single hold)
    · exact Or.inr ⟨.refl, .refl⟩
  | tail _ hedge ih =>
    rcases parent_addParent_iff.mp hedge with hold | ⟨rfl, rfl, -, -⟩
    · rcases ih with hway | ⟨hup, hon⟩
      · exact Or.inl (hway.tail hold)
      · exact Or.inr ⟨hup, hon.tail hold⟩
    · rcases ih with hway | ⟨hup, -⟩
      · exact Or.inr ⟨hway.to_reflTransGen, .refl⟩
      · exact Or.inr ⟨hup, .refl⟩

theorem Acyclic.addParent (h : r.Acyclic) (hfar : ¬r.Reaches parent child) :
    (r.addParent child parent).Acyclic := by
  intro id hloop
  rcases transGen_addParent hloop with hold | ⟨hup, hon⟩
  · exact h id hold
  · exact hfar (hon.trans hup)

theorem Acyclic.addValidated (h : r.Acyclic) (edge : String × String) :
    (r.addValidated edge).Acyclic := by
  unfold Roster.addValidated
  split
  next hvalid =>
    have hfar := RoleSource.judgeEdge_eq_valid rfl hvalid
    exact h.addParent fun hway ↦ hfar hway.names
  next => exact h

theorem Acyclic.addAllValidated (h : r.Acyclic) (edges : List (String × String)) :
    (edges.foldl Roster.addValidated r).Acyclic := by
  induction edges generalizing r with
  | nil => exact h
  | cons edge rest ih => exact ih (h.addValidated edge)

/-- A new edge lies on a loop just where there was a way from the parent to the child before. -/
theorem onLoop_addParent_iff (hchild : r.contains child = true)
    (hparent : r.contains parent = true) :
    (r.addParent child parent).OnLoop child parent ↔ r.Reaches parent child := by
  constructor
  · rintro ⟨-, hway⟩
    rcases Relation.reflTransGen_iff_eq_or_transGen.mp hway with rfl | hmore
    · exact .refl
    · rcases transGen_addParent hmore with hold | ⟨hup, -⟩
      · exact hold.to_reflTransGen
      · exact hup
  · intro hway
    refine ⟨parent_addParent_iff.mpr (Or.inr ⟨rfl, rfl, hchild, hparent⟩), ?_⟩
    refine Relation.ReflTransGen.mono (fun _ _ hedge ↦ ?_) _ _ hway
    exact parent_addParent_iff.mpr (Or.inl hedge)

end Roster

/-- A roster without loops that grows by judged edges only stays without loops, so that no loop is
found in it and only the limit stops a search for ancestors. On any roster the judgement refuses an
edge between two different roles just where the child is above the parent already, that is, where
the edge would lie on a loop. -/
theorem validated_edges :
    (∀ (r : Roster) (edges : List (String × String)), r.Acyclic →
      (edges.foldl Roster.addValidated r).Acyclic ∧
      (∀ id, RoleSource.findCycle { roster := edges.foldl Roster.addValidated r } id = .ok none) ∧
      ∀ (o : ResolverOptions) (now : Nat) (id : String) (limit : Option Nat) (cache : Attached)
        (e : RoleError), (edges.foldl Roster.addValidated r).contains id = true →
        ((Resolver.ofRoster o (edges.foldl Roster.addValidated r)).parentRoles now id limit
          cache).1 = .error e →
        ∃ chain, e = .tooDeep chain (limit.getD o.maxDepth + 1) (limit.getD o.maxDepth)) ∧
    ∀ (r : Roster) (child parent : String), r.contains child = true → r.contains parent = true →
      child ≠ parent →
      ∃ v, RoleSource.judgeEdge { roster := r } child parent = .ok v ∧
        (v.isValid = false ↔ Relation.TransGen r.Parent parent child) ∧
        (v.isValid = false ↔ (r.addParent child parent).OnLoop child parent) := by
  constructor
  · intro r edges h
    have hlast := h.addAllValidated edges
    refine ⟨hlast, RoleSource.findCycle_of_acyclic rfl hlast, ?_⟩
    intro o now id limit cache e hid herror
    obtain ⟨root, hroot⟩ := Roster.exists_of_contains hid
    obtain rfl := Roster.id_of_find? hroot
    have hrequire : RoleSource.require { roster := edges.foldl Roster.addValidated r } root.id =
        .ok root :=
      RoleSource.require_eq_ok_iff.mpr (congrArg Except.ok hroot)
    exact RoleSource.ancestors_error_of_acyclic rfl hlast hroot
      (Resolver.parentRoles_error hrequire herror)
  · intro r child parent hchild hparent hne
    obtain ⟨v, hv, hrefused⟩ :=
      RoleSource.exists_judgeEdge (s := { roster := r }) rfl hne hparent
    have hreaches : r.Names parent child ↔ r.Reaches parent child :=
      ⟨fun hnames ↦ Roster.reaches_of_names hnames hchild, Roster.Reaches.names⟩
    refine ⟨v, hv, ?_, ?_⟩
    · exact (hrefused.trans hreaches).trans
        (Relation.reflTransGen_iff_eq_or_transGen.trans (or_iff_right hne))
    · rw [hrefused, hreaches, Roster.onLoop_addParent_iff hchild hparent]

/-- Two roles without parents. -/
def Roster.unrelated : Roster := .ofList [⟨"a", [], [], true⟩, ⟨"b", [], [], true⟩]

/-- The same after the second has become the parent of the first. -/
def Roster.related : Roster := .ofList [⟨"a", [], ["b"], true⟩, ⟨"b", [], [], true⟩]

/-- Of two roles each is to become the parent of the other. -/
theorem validated_edges_pair :
    ([("a", "b"), ("b", "a")].foldl Roster.addValidated .unrelated).Acyclic ∧
      ∃ v, RoleSource.judgeEdge { roster := .related } "b" "a" = .ok v ∧
        (v.isValid = false ↔ Relation.TransGen Roster.related.Parent "a" "b") := by
  have hstart : Roster.unrelated.Acyclic := by
    intro id hloop
    obtain ⟨next, ⟨⟨role, hrole, hmem⟩, -⟩, -⟩ := Relation.TransGen.head'_iff.mp hloop
    obtain rfl := Roster.id_of_find? hrole
    have hroles : Roster.unrelated.roles = [⟨"a", [], [], true⟩, ⟨"b", [], [], true⟩] := rfl
    have hlisted := Roster.mem_roles_iff.mpr hrole
    rw [hroles] at hlisted
    rcases List.mem_pair.mp hlisted with rfl | rfl <;> cases hmem
  obtain ⟨v, hv, hrefused, -⟩ := validated_edges.2 .related "b" "a" rfl rfl (by decide)
  exact ⟨(validated_edges.1 _ _ hstart).1, v, hv, hrefused⟩

end RoleAccess
