import Mathlib.Order.Lattice.Nat
import RoleAccess.Proofs.Role.Lineage

/-!
How many steps it takes from a role up to another along listed parents. `Climbs` holds of the
lengths of all ways between them, and `hops` is the least. A role that is not the top itself has a
listed parent that is one step nearer to it (`exists_nearer`), and none that is nearer by more
(`hops_le_of_lists`).
-/

set_option autoImplicit false
set_option relaxedAutoImplicit false

namespace RoleAccess.Roster

/-- There is a way of so many steps from the first id to the second along listed parents. -/
inductive Climbs (r : Roster) (top : String) : Nat → String → Prop
  | done : Climbs r top 0 top
  | step {id parent : String} {n : Nat} (lists : r.Lists id parent) (rest : Climbs r top n parent) :
    Climbs r top (n + 1) id

/-- The length of the shortest way to the top, where there is one. -/
noncomputable def hops (r : Roster) (top id : String) : Nat := sInf {n | r.Climbs top n id}

variable {r : Roster} {top id parent : String} {n : Nat}

theorem Climbs.names (h : r.Climbs top n id) : r.Names id top := by
  induction h with
  | done => exact .refl
  | step hlists _ ih => exact .head hlists ih

theorem exists_climbs (h : r.Names id top) : ∃ n, r.Climbs top n id := by
  induction h using Relation.ReflTransGen.head_induction_on with
  | refl => exact ⟨0, .done⟩
  | head hlists _ ih =>
    obtain ⟨n, hn⟩ := ih
    exact ⟨n + 1, .step hlists hn⟩

theorem climbs_hops (h : r.Names id top) : r.Climbs top (r.hops top id) id :=
  Nat.sInf_mem (exists_climbs h)

theorem Climbs.hops_le (h : r.Climbs top n id) : r.hops top id ≤ n :=
  Nat.sInf_le h

theorem hops_self (r : Roster) (top : String) : r.hops top top = 0 :=
  Nat.le_zero.mp Climbs.done.hops_le

theorem hops_le_of_lists (hlists : r.Lists id parent) (hway : r.Names parent top) :
    r.hops top id ≤ r.hops top parent + 1 :=
  (Climbs.step hlists (climbs_hops hway)).hops_le

/-- The first step of a shortest way. -/
theorem exists_nearer (hway : r.Names id top) (hne : id ≠ top) :
    ∃ parent, r.Lists id parent ∧ r.Names parent top ∧ r.hops top id = r.hops top parent + 1 := by
  have hclimbs := climbs_hops hway
  generalize hn : r.hops top id = n at hclimbs
  cases hclimbs with
  | done => exact absurd rfl hne
  | @step _ parent n hlists hrest =>
    refine ⟨parent, hlists, hrest.names, le_antisymm ?_ (Nat.succ_le_succ hrest.hops_le)⟩
    exact hn ▸ hops_le_of_lists hlists hrest.names

theorem hops_le_one (hlists : r.Lists id top) : r.hops top id ≤ 1 :=
  (Climbs.step hlists .done).hops_le

/-- What is not listed itself is at least two steps up. -/
theorem two_le_hops (hway : r.Names id top) (hne : id ≠ top) (hfar : ¬r.Lists id top) :
    2 ≤ r.hops top id := by
  obtain ⟨parent, hlists, hrest, heq⟩ := exists_nearer hway hne
  have hparent : parent ≠ top := fun htop ↦ hfar (htop ▸ hlists)
  obtain ⟨next, -, -, hnext⟩ := exists_nearer hrest hparent
  omega

end RoleAccess.Roster
