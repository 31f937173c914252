import RoleAccess.Proofs.Role.UpwardWalk

/-!
The strict search for ancestors is exact. It succeeds just on graphs in which no loop can be reached
from the root and no chain of parents is longer than the limit, and then finds every role above the
root once and the height of the root. Otherwise it reports a way from the root that shows what is
wrong (`strict_ancestors`).
-/

set_option autoImplicit false
set_option relaxedAutoImplicit false

namespace RoleAccess

namespace Roster

variable {r : Roster} {id last : String} {chain : List String}

theorem reaches_of_isChain (h : List.IsChain r.Parent (id :: chain)) :
    ∀ other ∈ id :: chain, r.Reaches id other := by
  induction chain generalizing id with
  | nil =>
    intro other hother
    rw [List.mem_singleton.mp hother]
  | cons next rest ih =>
    obtain ⟨hedge, hrest⟩ := List.isChain_cons_cons.mp h
    intro other hother
    rcases List.mem_cons.mp hother with rfl | hother
    · exact .refl
    · exact .head hedge (ih hrest other hother)

/-- A chain from a role back to it is a loop. -/
theorem loop_of_isChain {mid : List String} (h : List.IsChain r.Parent (id :: mid ++ [id])) :
    Relation.TransGen r.Parent id id := by
  cases mid with
  | nil => exact .single (List.isChain_cons_cons.mp h).1
  | cons next rest =>
    obtain ⟨hedge, hrest⟩ := List.isChain_cons_cons.mp h
    have hback := reaches_of_isChain hrest id (by simp)
    exact Relation.TransGen.head' hedge hback

/-- A chain from a role that ends in an id it has met before leads up to a loop. -/
theorem reaches_loop_of_isChain {above before mid : List String} {x : String}
    (h : List.IsChain r.Parent (id :: above)) (hclosed : id :: above = before ++ x :: mid ++ [x]) :
    r.Reaches id x ∧ Relation.TransGen r.Parent x x := by
  refine ⟨reaches_of_isChain h x (hclosed ▸ by simp), ?_⟩
  rw [hclosed, List.append_assoc] at h
  exact loop_of_isChain (List.isChain_append.mp h).2.1

end Roster

/-- Some loop can be reached from the root. -/
def RoleGraph.HasLoop (g : RoleGraph) : Prop :=
  ∃ id, g.roles.Reaches g.rootId id ∧ Relation.TransGen g.roles.Parent id id

/-- Every role above the root is listed once, and the height is the length of the longest chain of
parents. -/
structure Ancestry.IsExact (g : RoleGraph) (a : Ancestry) : Prop where
  nodup : a.ids.Nodup
  mem_ids_iff : ∀ id, id ∈ a.ids ↔ id ≠ g.rootId ∧ g.roles.Reaches g.rootId id
  height : g.roles.Height g.rootId a.height

namespace RoleGraph

variable {g : RoleGraph} {mode : WalkMode}

theorem ancestors_eq_ok {a : Ancestry} (h : g.ancestors mode = .ok a) :
    ∃ w, Walk.visit g mode mode.limit [] g.rootId {} = .ok (a.height, w) ∧ a.ids = w.collected := by
  unfold ancestors at h
  cases hvisit : Walk.visit g mode mode.limit [] g.rootId {} with
  | error e => simp [hvisit, bind, Except.bind] at h
  | ok found =>
    obtain ⟨height, w⟩ := found
    simp only [hvisit, bind, Except.bind, pure, Except.pure, Except.ok.injEq] at h
    subst h
    exact ⟨w, rfl, rfl⟩

/-- Whatever the mode, what the search finds lies above the root. -/
theorem transGen_of_mem_ancestors {a : Ancestry} (h : g.ancestors mode = .ok a) {id : String}
    (hid : id ∈ a.ids) : Relation.TransGen g.roles.Parent g.rootId id := by
  obtain ⟨w, hvisit, hids⟩ := ancestors_eq_ok h
  have habove := Walk.visit_above .refl (fun x hx ↦ absurd hx List.not_mem_nil) hvisit
  exact habove id (hids ▸ hid)

theorem ancestors_eq_error {e : RoleError} (h : g.ancestors mode = .error e) :
    mode.strict = true ∧ AncestryFault g mode.limit e := by
  unfold ancestors at h
  cases hvisit : Walk.visit g mode mode.limit [] g.rootId {} with
  | error e' =>
    rw [hvisit] at h
    cases h
    exact Walk.visit_error g.isTrail_root (Nat.zero_add _) hvisit
  | ok found => simp [hvisit, bind, Except.bind, pure, Except.pure] at h

theorem IsWay.eq_cons {chain : List String} (h : g.IsWay chain) :
    ∃ above, chain = g.rootId :: above ∧ g.roles.IsChainAbove g.rootId above := by
  obtain ⟨hstarts, hedges⟩ := h
  obtain ⟨above, rfl⟩ := List.head?_eq_some_iff.mp hstarts
  exact ⟨above, rfl, hedges⟩

/-- A way that ends in an id it has met before closes a loop. -/
theorem IsWay.reaches_loop {before mid : List String} {x : String}
    (h : g.IsWay (before ++ x :: mid ++ [x])) :
    g.roles.Reaches g.rootId x ∧ Relation.TransGen g.roles.Parent x x := by
  obtain ⟨above, hclosed, hchain⟩ := h.eq_cons
  exact Roster.reaches_loop_of_isChain hchain hclosed.symm

end RoleGraph

/-- What a fault shows is there. -/
theorem AncestryFault.shown {g : RoleGraph} {limit : Nat} {e : RoleError}
    (h : AncestryFault g limit e) : g.HasLoop ∨ ¬g.roles.HeightLE g.rootId limit := by
  cases h with
  | @loop before mid x hway hnodup =>
    left
    exact ⟨x, hway.reaches_loop⟩
  | @tooDeep chain hway hnodup hlength =>
    right
    intro hheight
    obtain ⟨above, rfl, hchain⟩ := hway.eq_cons
    have := hheight above hchain
    rw [List.length_cons] at hlength
    omega

namespace RoleGraph

variable {g : RoleGraph} {mode : WalkMode}

theorem HasLoop.not_heightLE {limit : Nat} (h : g.HasLoop) : ¬g.roles.HeightLE g.rootId limit := by
  obtain ⟨id, hway, hloop⟩ := h
  exact fun hheight ↦ (hheight.reaches hway).no_loop hloop

/-- Where no chain from the root is too long, the search succeeds, strict or not. -/
theorem exists_ancestors_of_heightLE (mode : WalkMode)
    (h : g.roles.HeightLE g.rootId mode.limit) :
    ∃ a, g.ancestors mode = .ok a := by
  cases hancestors : g.ancestors mode with
  | ok a => exact ⟨a, rfl⟩
  | error e =>
    rcases (ancestors_eq_error hancestors).2.shown with hloop | hlong
    · exact absurd h hloop.not_heightLE
    · exact absurd h hlong

/-- The ancestors come in the order in which a walk upwards first meets them. -/
theorem ancestors_ids_eq {a : Ancestry} (hheight : g.roles.HeightLE g.rootId mode.limit)
    (h : g.ancestors mode = .ok a) :
    a.ids = (g.roles.upwards mode.limit g.rootId).eraseDups := by
  obtain ⟨w, hvisit, hids⟩ := ancestors_eq_ok h
  have hnoted := Walk.visit_noted hheight (fun x hx ↦ absurd hx List.not_mem_nil)
    (Walk.noted_start g) hvisit
  rw [hids, hnoted.collected, List.nil_append]

theorem height_of_ancestors {a : Ancestry} (hstrict : mode.strict = true)
    (h : g.ancestors mode = .ok a) :
    g.roles.Height g.rootId a.height ∧ a.height ≤ mode.limit := by
  obtain ⟨w, hvisit, -⟩ := ancestors_eq_ok h
  have hmeasured : Walk.Measured g {} := fun id height least hnoted ↦ by simp at hnoted
  obtain ⟨hheight, hle, -⟩ := Walk.visit_strict hstrict (Nat.zero_add _) hmeasured hvisit
  exact ⟨hheight, Nat.zero_add a.height ▸ hle⟩

theorem isExact_of_ancestors {a : Ancestry} (hstrict : mode.strict = true)
    (h : g.ancestors mode = .ok a) : a.IsExact g := by
  obtain ⟨hheight, hle⟩ := height_of_ancestors hstrict h
  have hbound := hheight.le.mono hle
  have hids := ancestors_ids_eq hbound h
  refine ⟨hids ▸ nodup_eraseDups _, fun id ↦ ?_, hheight⟩
  rw [hids, List.mem_eraseDups, hbound.mem_upwards_iff]
  constructor
  · intro hway
    refine ⟨?_, hway.to_reflTransGen⟩
    rintro rfl
    exact hbound.no_loop hway
  · rintro ⟨hne, hway⟩
    rcases Relation.reflTransGen_iff_eq_or_transGen.mp hway with heq | hmore
    · exact absurd heq hne
    · exact hmore

/-- The strict search succeeds just where there is no loop and no chain longer than the limit. What
it finds is exact, and what it reports otherwise is a fault. -/
theorem strict_ancestors (g : RoleGraph) (limit : Nat) :
    ((∃ a, g.ancestors ⟨limit, true⟩ = .ok a) ↔
        ¬g.HasLoop ∧ ∀ above, g.roles.IsChainAbove g.rootId above → above.length ≤ limit) ∧
      (∀ a, g.ancestors ⟨limit, true⟩ = .ok a → a.IsExact g) ∧
      ∀ e, g.ancestors ⟨limit, true⟩ = .error e → AncestryFault g limit e := by
  refine ⟨?_, fun a h ↦ isExact_of_ancestors rfl h, fun e h ↦ (ancestors_eq_error h).2⟩
  constructor
  · rintro ⟨a, h⟩
    obtain ⟨hheight, hle⟩ := height_of_ancestors rfl h
    have hbound := hheight.le.mono hle
    exact ⟨fun hloop ↦ hloop.not_heightLE hbound, hbound⟩
  · rintro ⟨-, hbound⟩
    exact exists_ancestors_of_heightLE ⟨limit, true⟩ hbound

/-- A role with one parent, whose own parent is missing. -/
def orphanedParent : RoleGraph := ofRoles ⟨"a", [], ["b"], true⟩ [⟨"b", [], ["gone"], true⟩]

/-- Two roles that are parents of each other. -/
def mutualParents : RoleGraph := ofRoles ⟨"a", [], ["b"], true⟩ [⟨"b", [], ["a"], true⟩]

theorem strict_ancestors_pair :
    (∃ a, orphanedParent.ancestors ⟨1, true⟩ = .ok a ∧ a.IsExact orphanedParent) ∧
      AncestryFault mutualParents 5 (.circular .direct ["a", "b", "a"] none none) :=
  ⟨⟨⟨["b"], 1⟩, rfl, (strict_ancestors _ 1).2.1 _ rfl⟩, (strict_ancestors _ 5).2.2 _ rfl⟩

end RoleGraph

end RoleAccess
