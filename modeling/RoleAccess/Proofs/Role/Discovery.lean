import RoleAccess.Proofs.Role.Loading
import RoleAccess.Proofs.Role.StrictAncestry
import RoleAccess.Role.Inheritance

/-!
What a role inherits. Of its own permissions and those of its ancestors the first of each id count
(`mem_firstOfEachId_iff`). The ancestors are discovered in the order of a walk upwards. Where no
chain of parents is too long, the search over a snapshot finds just these
(`RoleSource.ancestors_eq_discovered`), whether or not it is strict.
-/

set_option autoImplicit false
set_option relaxedAutoImplicit false

namespace RoleAccess

/-! ### The first permission of each id -/

/-- A permission in a list that comes before all others with its id. -/
def Unshadowed (held : List Permission) (p : Permission) : Prop :=
  ∃ before after, held = before ++ p :: after ∧ ∀ other ∈ before, other.id ≠ p.id

theorem unshadowed_iff_isFirst {held : List Permission} {p : Permission} :
    Unshadowed held p ↔ IsFirst (fun q ↦ q.id = p.id) held p := by
  simp only [Unshadowed, IsFirst, and_true]

theorem unshadowed_cons_iff {first p : Permission} {rest : List Permission} :
    Unshadowed (first :: rest) p ↔ p = first ∨ (first.id ≠ p.id ∧ Unshadowed rest p) := by
  rw [unshadowed_iff_isFirst, isFirst_cons_iff, unshadowed_iff_isFirst]
  refine or_congr_left (and_iff_right_of_imp ?_)
  rintro rfl
  rfl

theorem mem_firstOfEachId_iff {held : List Permission} {seen : List String} {p : Permission} :
    p ∈ firstOfEachId held seen ↔ p.id ∉ seen ∧ Unshadowed held p := by
  induction held generalizing seen with
  | nil =>
    rw [firstOfEachId, iff_false_left List.not_mem_nil]
    rintro ⟨-, before, after, hheld, -⟩
    simp at hheld
  | cons first rest ih =>
    rw [firstOfEachId, unshadowed_cons_iff]
    split
    next hseen =>
      rw [List.contains_iff_mem] at hseen
      rw [ih]
      constructor
      · rintro ⟨hnew, hp⟩
        exact ⟨hnew, Or.inr ⟨fun heq ↦ hnew (heq ▸ hseen), hp⟩⟩
      · rintro ⟨hnew, rfl | ⟨-, hp⟩⟩
        · exact absurd hseen hnew
        · exact ⟨hnew, hp⟩
    next hseen =>
      rw [List.contains_iff_mem] at hseen
      rw [List.mem_cons, ih, List.mem_cons, not_or]
      constructor
      · rintro (rfl | ⟨⟨hne, hnew⟩, hp⟩)
        · exact ⟨hseen, Or.inl rfl⟩
        · exact ⟨hnew, Or.inr ⟨Ne.symm hne, hp⟩⟩
      · rintro ⟨hnew, rfl | ⟨hne, hp⟩⟩
        · exact Or.inl rfl
        · exact Or.inr ⟨⟨Ne.symm hne, hnew⟩, hp⟩

/-- What is collected for a role is held by it or by one of the active ancestors. -/
theorem mem_collectPermissions {root : Role} {ancestors : List Role} {p : Permission}
    (h : p ∈ collectPermissions root ancestors) :
    p ∈ root.permissions ∨ ∃ role ∈ ancestors, role.active = true ∧ p ∈ role.permissions := by
  obtain ⟨-, before, after, hheld, -⟩ := mem_firstOfEachId_iff.mp h
  have hmem : p ∈ (root :: ancestors.filter Role.active).flatMap Role.permissions :=
    hheld ▸ List.mem_append_right before List.mem_cons_self
  rw [List.flatMap_cons, List.mem_append] at hmem
  refine hmem.imp_right fun habove ↦ ?_
  obtain ⟨role, hrole, hp⟩ := List.mem_flatMap.mp habove
  obtain ⟨hin, hactive⟩ := List.mem_filter.mp hrole
  exact ⟨role, hin, hactive, hp⟩

/-! ### The roles above a role -/

/-- The ancestors of a role, depth first in the order of the parent lists, each where it is first
met. -/
def Roster.discovered (r : Roster) (limit : Nat) (id : String) : List Role :=
  (r.upwards limit id).eraseDups.filterMap r.find?

namespace RoleSource

variable {s : RoleSource} {root : Role} {g : RoleGraph}

theorem find?_snapshot_of_reaches (hroot : s.roster.find? root.id = some root)
    (hg : s.snapshot root = .ok g) {id : String} (hway : s.roster.Reaches root.id id) :
    g.roles.find? id = s.roster.find? id := by
  obtain ⟨-, hfind⟩ := find?_snapshot_iff hroot hg
  ext role
  exact (hfind id role).trans (and_iff_left hway)

theorem parentsIn_snapshot (hroot : s.roster.find? root.id = some root)
    (hg : s.snapshot root = .ok g) {id : String} (hway : s.roster.Reaches root.id id) :
    g.roles.parentsIn id = s.roster.parentsIn id := by
  unfold Roster.parentsIn
  rw [find?_snapshot_of_reaches hroot hg hway]
  cases hrole : s.roster.find? id with
  | none => rfl
  | some role =>
    refine List.filter_congr fun parent hmem ↦ ?_
    rw [Bool.eq_iff_iff]
    have hedge : g.roles.Parent id parent ↔
        s.roster.Reaches root.id id ∧ s.roster.Parent id parent :=
      parent_snapshot_iff hroot hg
    constructor
    · intro hheld
      have hlists : g.roles.Lists id parent :=
        ⟨role, (find?_snapshot_of_reaches hroot hg hway).trans hrole, hmem⟩
      exact (hedge.mp ⟨hlists, hheld⟩).2.2
    · intro hheld
      exact (hedge.mpr ⟨hway, ⟨role, hrole, hmem⟩, hheld⟩).2

/-- A walk upwards meets the same in a snapshot as in the roster. -/
theorem upwards_snapshot (hroot : s.roster.find? root.id = some root)
    (hg : s.snapshot root = .ok g) {id : String} (hway : s.roster.Reaches root.id id)
    (steps : Nat) : g.roles.upwards steps id = s.roster.upwards steps id := by
  induction steps generalizing id with
  | zero => rfl
  | succ steps ih =>
    rw [Roster.upwards, Roster.upwards, parentsIn_snapshot hroot hg hway]
    refine List.flatMap_congr fun parent hmem ↦ ?_
    rw [ih (hway.tail (Roster.mem_parentsIn_iff.mp hmem))]

theorem heightLE_snapshot_iff (hroot : s.roster.find? root.id = some root)
    (hg : s.snapshot root = .ok g) {limit : Nat} :
    g.roles.HeightLE root.id limit ↔ s.roster.HeightLE root.id limit := by
  unfold Roster.HeightLE
  simp only [isChainAbove_snapshot_iff hroot hg]

/-- The list of ancestors comes from a snapshot. -/
theorem exists_of_ancestors {mode : WalkMode} {found : List Role}
    (h : s.ancestors mode root = .ok found) :
    ∃ g a, s.snapshot root = .ok g ∧ g.ancestors mode = .ok a ∧
      found = a.ids.filterMap g.find? := by
  unfold ancestors at h
  cases hg : s.snapshot root with
  | error e => simp [hg, bind, Except.bind] at h
  | ok g =>
    cases ha : g.ancestors mode with
    | error e => simp [hg, ha, bind, Except.bind] at h
    | ok a =>
      simp only [hg, ha, bind, Except.bind, pure, Except.pure, Except.ok.injEq] at h
      exact ⟨g, a, rfl, ha, h.symm⟩

/-- Whatever the mode, the ancestors of a role are roles of the roster above it. -/
theorem mem_ancestors (hroot : s.roster.find? root.id = some root) {mode : WalkMode}
    {found : List Role} (h : s.ancestors mode root = .ok found) {role : Role}
    (hmem : role ∈ found) : s.roster.find? role.id = some role ∧
      Relation.TransGen s.roster.Parent root.id role.id := by
  obtain ⟨g, a, hg, ha, rfl⟩ := exists_of_ancestors h
  obtain ⟨hid, hfind⟩ := find?_snapshot_iff hroot hg
  obtain ⟨id, hin, hrole⟩ := List.mem_filterMap.mp hmem
  obtain rfl : role.id = id := Roster.id_of_find? hrole
  have hway := RoleGraph.transGen_of_mem_ancestors ha hin
  rw [hid] at hway
  exact ⟨((hfind role.id role).mp hrole).1, (transGen_snapshot_iff hroot hg .refl).mp hway⟩

theorem ancestors_eq_discovered (hanswers : s.failedFinds = [])
    (hroot : s.roster.find? root.id = some root) (mode : WalkMode)
    (hheight : s.roster.HeightLE root.id mode.limit) :
    s.ancestors mode root = .ok (s.roster.discovered mode.limit root.id) := by
  obtain ⟨g, hg⟩ := exists_snapshot_of_no_failure hanswers root
  have hid := (find?_snapshot_iff hroot hg).1
  have hbound : g.roles.HeightLE g.rootId mode.limit :=
    hid.symm ▸ (heightLE_snapshot_iff hroot hg).mpr hheight
  obtain ⟨a, ha⟩ := RoleGraph.exists_ancestors_of_heightLE mode hbound
  have hids : a.ids = (s.roster.upwards mode.limit root.id).eraseDups := by
    rw [RoleGraph.ancestors_ids_eq hbound ha, hid, upwards_snapshot hroot hg .refl]
  have hfound : a.ids.filterMap g.find? = s.roster.discovered mode.limit root.id := by
    rw [hids, Roster.discovered]
    refine List.filterMap_congr fun id hmem ↦ ?_
    have hway := hheight.mem_upwards_iff.mp (List.mem_eraseDups.mp hmem)
    exact find?_snapshot_of_reaches hroot hg hway.to_reflTransGen
  simp only [ancestors, hg, ha, bind, Except.bind, pure, Except.pure, hfound]

example : ((Roster.ofList [⟨"a", [], ["b", "c"], true⟩, ⟨"b", [], ["d"], true⟩,
    ⟨"c", [], ["d"], true⟩, ⟨"d", [], [], true⟩]).discovered 2 "a").map Role.id =
      ["b", "d", "c"] := rfl

end RoleSource

end RoleAccess
