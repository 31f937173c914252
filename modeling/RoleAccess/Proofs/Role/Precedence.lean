import RoleAccess.Proofs.Role.Contributors
import RoleAccess.Proofs.Role.Hops

/-!
Which of several permissions with one id a role inherits. The roles that contribute to it are looked
through depth first in the order of the parent lists, and the first of them that has the id gives
its permission (`Resolver.earlier_role_wins`). A role comes after every other one that all chains of
parents up to it go through (`Roster.Dominates.sublist_contributors`), the role at their start among
them. Of two that do not lie on one way the earlier need not be the one that is fewer edges away
(`Resolver.farther_role_taken`).
-/

set_option autoImplicit false
set_option relaxedAutoImplicit false

namespace RoleAccess

/-! ### The order of the roles that contribute -/

/-- The place of an entry in a list of lists. -/
theorem exists_mem_of_flatMap_split {α β : Type} {f : α → List β} {l : List α}
    {before after : List β} {b : β} (h : l.flatMap f = before ++ b :: after) :
    ∃ x ∈ l, ∃ within behind, f x = within ++ b :: behind ∧ within <:+ before := by
  induction l generalizing before with
  | nil => simp at h
  | cons x rest ih =>
    rw [List.flatMap_cons] at h
    rcases List.append_eq_append_iff.mp h with ⟨more, rfl, hrest⟩ | ⟨behind, hfirst, hbehind⟩
    · obtain ⟨y, hy, within, behind, hsplit, hwithin⟩ := ih hrest
      exact ⟨y, List.mem_cons_of_mem x hy, within, behind, hsplit,
        hwithin.trans (List.suffix_append _ _)⟩
    · cases behind with
      | nil =>
        have hrest : rest.flatMap f = [] ++ b :: after := hbehind.symm
        obtain ⟨y, hy, within, behind, hsplit, hwithin⟩ := ih hrest
        exact ⟨y, List.mem_cons_of_mem x hy, within, behind, hsplit,
          hwithin.trans List.nil_suffix⟩
      | cons c behind =>
        obtain ⟨rfl, -⟩ := List.cons.inj hbehind
        exact ⟨x, List.mem_cons_self, before, behind, hfirst, List.suffix_rfl⟩

namespace Roster

variable {r : Roster} {root near far : Role} {id other : String} {limit steps : Nat}

/-- Every chain of parents from `start` up to `far` goes through `near`. -/
def Dominates (r : Roster) (start near far : String) : Prop :=
  ∀ above, r.IsChainAbove start above → (start :: above).getLast? = some far →
    near ∈ start :: above

/-- Where a walk upwards meets a role, it has met all roles on some chain of parents to it. -/
theorem exists_chain_of_upwards {before after : List String}
    (h : r.upwards steps id = before ++ other :: after) :
    ∃ way, r.IsChainAbove id (way ++ [other]) ∧ ∀ x ∈ way, x ∈ before := by
  induction steps generalizing id before after with
  | zero => simp [upwards] at h
  | succ steps ih =>
    obtain ⟨parent, hmem, within, behind, hsplit, hwithin⟩ := exists_mem_of_flatMap_split h
    have hparent : r.Parent id parent := mem_parentsIn_iff.mp hmem
    cases within with
    | nil =>
      obtain ⟨rfl, -⟩ := List.cons.inj hsplit
      refine ⟨[], isChainAbove_cons_iff.mpr ⟨hparent, isChainAbove_nil r parent⟩, ?_⟩
      exact fun x hx ↦ absurd hx List.not_mem_nil
    | cons head within =>
      obtain ⟨rfl, habove⟩ := List.cons.inj hsplit
      obtain ⟨way, hway, hbefore⟩ := ih habove
      refine ⟨parent :: way, isChainAbove_cons_iff.mpr ⟨hparent, hway⟩, fun x hx ↦ ?_⟩
      exact hwithin.subset (List.mem_cons.mpr ((List.mem_cons.mp hx).imp_right (hbefore x)))

theorem Contributes.find? (hroot : r.find? root.id = some root) (h : r.Contributes root near) :
    r.find? near.id = some near := by
  rcases h with rfl | ⟨hnear, -, -⟩
  · exact hroot
  · exact hnear

theorem Contributes.eq_of_id (hroot : r.find? root.id = some root) (hnear : r.Contributes root near)
    (hfar : r.Contributes root far) (heq : near.id = far.id) : near = far := by
  have hsame := hnear.find? hroot
  rw [heq, hfar.find? hroot] at hsame
  exact (Option.some.inj hsame).symm

theorem nodup_contributors (hheight : r.HeightLE root.id limit) :
    (r.contributors limit root).Nodup := by
  refine List.nodup_cons.mpr ⟨fun hmem ↦ ?_, List.Nodup.filter _ ?_⟩
  · exact hheight.no_loop ((mem_discovered_iff hheight).mp (List.mem_filter.mp hmem).1).2
  · refine (nodup_eraseDups _).filterMap fun x y role hx hy ↦ ?_
    exact (id_of_find? hx).symm.trans (id_of_find? hy)

/-- Roles come after those that every chain to them goes through. -/
theorem Dominates.sublist_contributors (hroot : r.find? root.id = some root)
    (hheight : r.HeightLE root.id limit) (hnear : r.Contributes root near)
    (hfar : r.Contributes root far) (hne : near ≠ far)
    (h : r.Dominates root.id near.id far.id) : [near, far].Sublist (r.contributors limit root) := by
  have hids : near.id ≠ far.id := mt (hnear.eq_of_id hroot hfar) hne
  rcases id hfar with rfl | ⟨hfound, hactive, hway⟩
  · -- Nothing but the root lies on the chain of no edge.
    have hmem := h [] (isChainAbove_nil r far.id) rfl
    exact absurd (List.mem_singleton.mp hmem) hids
  rcases id hnear with rfl | ⟨hfound', hactive', hway'⟩
  · refine (List.singleton_sublist.mpr ?_).cons_cons near
    exact List.mem_filter.mpr ⟨(mem_discovered_iff hheight).mpr ⟨hfound, hway⟩, hactive⟩
  · have hstart : near.id ≠ root.id := fun heq ↦ hheight.no_loop (heq ▸ hway')
    have hearlier : [near.id, far.id].Sublist (r.upwards limit root.id).eraseDups := by
      refine pair_sublist_eraseDups (hheight.mem_upwards_iff.mpr hway) fun before after hsplit ↦ ?_
      obtain ⟨way, hchain, hbefore⟩ := exists_chain_of_upwards hsplit
      have hmem := h _ hchain (by rw [← List.cons_append, List.getLast?_concat])
      rw [List.mem_cons, List.mem_append, List.mem_singleton] at hmem
      exact hbefore near.id ((hmem.resolve_left hstart).resolve_right hids)
    have hroles := (hearlier.filterMap r.find?).filter Role.active
    simp only [List.filterMap_cons, hfound, hfound', List.filterMap_nil, List.filter_cons, hactive,
      hactive', if_true, List.filter_nil] at hroles
    exact hroles.cons root

/-- The permissions that a role inherits when those that contribute to it are looked through in this
order. -/
structure Precedence (r : Roster) (root : Role) (order : List Role) (found : List Permission) :
    Prop where
  nodup : order.Nodup
  contributes : ∀ role, role ∈ order ↔ r.Contributes root role
  taken : ∀ p, p ∈ found ↔ ∃ holder, IsFirst (Role.HasPermission · p.id) order holder ∧
    Unshadowed holder.permissions p
  /-- What is taken of an id that two roles have is not taken from the later one. -/
  earlier : ∀ near far, [near, far].Sublist order → ∀ p ∈ found, near.HasPermission p.id →
    ∃ holder, holder ≠ far ∧ (holder = near ∨ [holder, near].Sublist order) ∧
      Unshadowed holder.permissions p
  dominated : ∀ near far, r.Contributes root near → r.Contributes root far → near ≠ far →
    r.Dominates root.id near.id far.id → [near, far].Sublist order

theorem precedence_contributors (hroot : r.find? root.id = some root)
    (hheight : r.HeightLE root.id limit) :
    r.Precedence root (r.contributors limit root)
      (firstOfEachId (r.heldInOrder limit root) []) where
  nodup := nodup_contributors hheight
  contributes _ := mem_contributors_iff hheight
  taken _ := mem_firstOfEachId_heldInOrder_iff
  earlier near far hsub p hp hhas := by
    obtain ⟨holder, hfirst, hholds⟩ := mem_firstOfEachId_heldInOrder_iff.mp hp
    have hnear : near ∈ r.contributors limit root := hsub.subset List.mem_cons_self
    exact ⟨holder, hfirst.ne_of_sublist (nodup_contributors hheight) hsub hhas,
      hfirst.eq_or_sublist hnear hhas, hholds⟩
  dominated _ _ hnear hfar hne h := h.sublist_contributors hroot hheight hnear hfar hne

/-- Two ways up from a role. The second one is shorter, and at the ends of both there is a
permission of the same id. -/
def twoWays : Roster :=
  .ofList [⟨"a", [], ["b", "c"], true⟩, ⟨"b", [], ["d"], true⟩,
    ⟨"c", [⟨"p", "x", "near", none, none, none⟩], [], true⟩,
    ⟨"d", [⟨"p", "x", "far", none, none, none⟩], [], true⟩]

theorem heightLE_twoWays : twoWays.HeightLE "a" 2 := by decide

end Roster

/-! ### What a resolver answers -/

namespace Resolver

/-- Without a cache, an active role with no chain of parents longer than the limit above it is
answered with, of each id, the first permission of the first role that has it, in the order in
which the roles that contribute are discovered. -/
theorem earlier_role_wins (o : ResolverOptions) {roster : Roster} {root : Role}
    (hroot : roster.find? root.id = some root) (hactive : root.active = true)
    (hheight : roster.HeightLE root.id o.maxDepth) (now : Nat) :
    ∃ found, ((ofRoster o roster).inheritedPermissions now root.id none).1 = .ok found ∧
      roster.Precedence root (roster.contributors o.maxDepth root) found := by
  refine ⟨_, ?_, Roster.precedence_contributors hroot hheight⟩
  rw [(Vacant.absent.inheritedPermissions (ofRoster o roster) now root.id).1]
  exact freshPermissions_of_heightLE (r := ofRoster o roster) rfl hroot hactive hheight

/-- The role at the end of the longer way is met first, and its permission is taken. -/
theorem earlier_role_wins_two_ways :
    ∃ found, ((ofRoster { maxDepth := 2 } Roster.twoWays).inheritedPermissions 0 "a" none).1 =
        .ok found ∧
      ⟨"p", "x", "far", none, none, none⟩ ∈ found ∧
      ⟨"p", "x", "near", none, none, none⟩ ∉ found := by
  have hroot : Roster.twoWays.find? (⟨"a", [], ["b", "c"], true⟩ : Role).id = some _ := rfl
  obtain ⟨found, hfound, hprecedence⟩ :=
    earlier_role_wins { maxDepth := 2 } hroot rfl Roster.heightLE_twoWays 0
  have hfirst (p : Permission) (hp : p.id = "p") : IsFirst (Role.HasPermission · p.id)
      (Roster.twoWays.contributors 2 ⟨"a", [], ["b", "c"], true⟩)
      ⟨"d", [⟨"p", "x", "far", none, none, none⟩], [], true⟩ := by
    refine ⟨[⟨"a", [], ["b", "c"], true⟩, ⟨"b", [], ["d"], true⟩], _, rfl, ?_, ?_⟩
    · simp [Role.HasPermission]
    · simp [Role.HasPermission, hp]
  refine ⟨found, hfound, ?_, fun hnear ↦ ?_⟩
  · refine (hprecedence.taken _).mpr ⟨_, hfirst _ rfl, unshadowed_cons_iff.mpr (Or.inl rfl)⟩
  · obtain ⟨holder, hholder, hheld⟩ := (hprecedence.taken _).mp hnear
    obtain rfl := hholder.unique (hfirst _ rfl)
    simpa using hheld.mem

/-- Of two roles that contribute, and have a permission of one id each, the one that is fewer edges
away does not win. -/
theorem farther_role_taken :
    Roster.twoWays.find? "a" = some ⟨"a", [], ["b", "c"], true⟩ ∧ Roster.twoWays.HeightLE "a" 2 ∧
      Roster.twoWays.Contributes ⟨"a", [], ["b", "c"], true⟩
        ⟨"c", [⟨"p", "x", "near", none, none, none⟩], [], true⟩ ∧
      Roster.twoWays.Contributes ⟨"a", [], ["b", "c"], true⟩
        ⟨"d", [⟨"p", "x", "far", none, none, none⟩], [], true⟩ ∧
      Roster.twoWays.hops "c" "a" < Roster.twoWays.hops "d" "a" ∧
      ((ofRoster { maxDepth := 2 } Roster.twoWays).inheritedPermissions 0 "a" none).1 =
        .ok [⟨"p", "x", "far", none, none, none⟩] := by
  have hroot : Roster.twoWays.find? (⟨"a", [], ["b", "c"], true⟩ : Role).id = some _ := rfl
  have hedge (child parent : String) (hmem : parent ∈ Roster.twoWays.parentsIn child) :
      Roster.twoWays.Parent child parent := Roster.mem_parentsIn_iff.mp hmem
  have hshort : Roster.twoWays.Parent "a" "c" :=
    hedge "a" "c" (List.mem_cons_of_mem _ List.mem_cons_self)
  have hlong : Relation.TransGen Roster.twoWays.Parent "a" "d" :=
    .head (hedge "a" "b" List.mem_cons_self) (.single (hedge "b" "d" List.mem_cons_self))
  refine ⟨hroot, Roster.heightLE_twoWays, Or.inr ⟨rfl, rfl, .single hshort⟩,
    Or.inr ⟨rfl, rfl, hlong⟩, ?_, ?_⟩
  · have hnear : Roster.twoWays.hops "c" "a" ≤ 1 := Roster.hops_le_one hshort.1
    have hway : Roster.twoWays.Names "a" "d" := Roster.Reaches.names hlong.to_reflTransGen
    have hunlisted : ¬Roster.twoWays.Lists "a" "d" := by
      rintro ⟨role, hrole, hmem⟩
      obtain rfl : (⟨"a", [], ["b", "c"], true⟩ : Role) = role := Option.some.inj hrole
      exact absurd hmem (by decide)
    exact Nat.lt_of_le_of_lt hnear (Roster.two_le_hops hway (by decide) hunlisted)
  · rw [(Vacant.absent.inheritedPermissions (ofRoster { maxDepth := 2 } Roster.twoWays) 0 "a").1]
    exact freshPermissions_of_heightLE (r := ofRoster { maxDepth := 2 } Roster.twoWays)
      rfl hroot rfl Roster.heightLE_twoWays

end Resolver

end RoleAccess
