import RoleAccess.Proofs.Role.Discovery
import RoleAccess.Proofs.Role.EmptyCaches

/-!
The roles whose permissions count for a role: the role itself and the active ones above it, whether
or not all roles in between are active. They are looked through in the order of their discovery
(`Roster.contributors`), and of each id the first permission is taken. What comes out is the exact
union (`Resolver.inherited_union`).
-/

set_option autoImplicit false
set_option relaxedAutoImplicit false

namespace RoleAccess

/-- Some permission of the role has the id. -/
def Role.HasPermission (role : Role) (id : String) : Prop :=
  id ∈ role.permissions.map Permission.id

/-! ### The first permission of each id -/

section FirstOfEachId

variable {first rest held : List Permission} {roles : List Role} {seen : List String}
  {p : Permission} {id : String}

theorem Unshadowed.mem (h : Unshadowed held p) : p ∈ held := by
  obtain ⟨before, after, rfl, -⟩ := h
  exact List.mem_append_right before List.mem_cons_self

theorem exists_unshadowed (h : id ∈ held.map Permission.id) :
    ∃ p, Unshadowed held p ∧ p.id = id := by
  obtain ⟨p, hp⟩ := exists_isFirst (List.mem_map.mp h)
  obtain rfl := hp.holds
  exact ⟨p, unshadowed_iff_isFirst.mpr hp, rfl⟩

theorem unshadowed_append_iff : Unshadowed (first ++ rest) p ↔
    Unshadowed first p ∨ (p.id ∉ first.map Permission.id ∧ Unshadowed rest p) := by
  induction first with
  | nil =>
    refine ⟨fun h ↦ Or.inr ⟨List.not_mem_nil, h⟩, ?_⟩
    rintro (h | ⟨-, h⟩)
    · exact absurd h.mem List.not_mem_nil
    · exact h
  | cons q first ih =>
    rw [List.cons_append, unshadowed_cons_iff, unshadowed_cons_iff, ih, List.map_cons,
      List.mem_cons, not_or, ne_comm]
    tauto

/-- What counts of many roles is what counts of the first one with a permission of the id. -/
theorem unshadowed_flatMap_iff : Unshadowed (roles.flatMap Role.permissions) p ↔
    ∃ holder, IsFirst (Role.HasPermission · p.id) roles holder ∧
      Unshadowed holder.permissions p := by
  induction roles with
  | nil =>
    refine ⟨fun h ↦ absurd h.mem List.not_mem_nil, ?_⟩
    rintro ⟨holder, ⟨before, after, hsplit, -⟩, -⟩
    simp at hsplit
  | cons role rest ih =>
    rw [List.flatMap_cons, unshadowed_append_iff, ih]
    simp only [isFirst_cons_iff]
    constructor
    · rintro (hfirst | ⟨hnone, holder, hholder, hp⟩)
      · exact ⟨role, Or.inl ⟨List.mem_map_of_mem hfirst.mem, rfl⟩, hfirst⟩
      · exact ⟨holder, Or.inr ⟨hnone, hholder⟩, hp⟩
    · rintro ⟨holder, ⟨-, rfl⟩ | ⟨hnone, hholder⟩, hp⟩
      · exact Or.inl hp
      · exact Or.inr ⟨hnone, holder, hholder, hp⟩

theorem nodup_firstOfEachId (held : List Permission) (seen : List String) :
    ((firstOfEachId held seen).map Permission.id).Nodup := by
  induction held generalizing seen with
  | nil => exact List.nodup_nil
  | cons q rest ih =>
    rw [firstOfEachId]
    split
    next => exact ih seen
    next =>
      rw [List.map_cons, List.nodup_cons]
      refine ⟨fun hmem ↦ ?_, ih (q.id :: seen)⟩
      obtain ⟨p, hp, heq⟩ := List.mem_map.mp hmem
      exact (mem_firstOfEachId_iff.mp hp).1 (heq ▸ List.mem_cons_self)

theorem mem_firstOfEachId_nil_iff : p ∈ firstOfEachId held [] ↔ Unshadowed held p := by
  rw [mem_firstOfEachId_iff, and_iff_right List.not_mem_nil]

end FirstOfEachId

/-! ### Who contributes -/

namespace Roster

/-- The permissions of the role count for the root: it is the root, or an active role above it. -/
def Contributes (r : Roster) (root role : Role) : Prop :=
  role = root ∨ (r.find? role.id = some role ∧ role.active = true ∧
    Relation.TransGen r.Parent root.id role.id)

/-- The root and the active roles above it, in the order of their discovery. -/
def contributors (r : Roster) (limit : Nat) (root : Role) : List Role :=
  root :: (r.discovered limit root.id).filter Role.active

/-- The permissions of a role and of its active ancestors, in the order of their discovery. -/
def heldInOrder (r : Roster) (limit : Nat) (root : Role) : List Permission :=
  (root :: (r.discovered limit root.id).filter Role.active).flatMap Role.permissions

variable {r : Roster} {root role : Role} {limit : Nat}

theorem heldInOrder_eq (r : Roster) (limit : Nat) (root : Role) :
    r.heldInOrder limit root = (r.contributors limit root).flatMap Role.permissions := rfl

theorem mem_discovered_iff (hheight : r.HeightLE root.id limit) :
    role ∈ r.discovered limit root.id ↔
      r.find? role.id = some role ∧ Relation.TransGen r.Parent root.id role.id := by
  rw [discovered, List.mem_filterMap]
  simp only [List.mem_eraseDups, hheight.mem_upwards_iff]
  constructor
  · rintro ⟨id, hway, hrole⟩
    obtain rfl := id_of_find? hrole
    exact ⟨hrole, hway⟩
  · rintro ⟨hrole, hway⟩
    exact ⟨role.id, hway, hrole⟩

theorem mem_contributors_iff (hheight : r.HeightLE root.id limit) :
    role ∈ r.contributors limit root ↔ r.Contributes root role := by
  rw [contributors, List.mem_cons, List.mem_filter, mem_discovered_iff hheight, Contributes]
  tauto

/-- The exact union of what contributes to the root: each id of a permission that the root or an
active role above it has, once, as one of these roles has it. An id of the root's own stands for its
first copy there, and roles between the root and an active one need not be active. -/
structure IsUnion (r : Roster) (root : Role) (found : List Permission) : Prop where
  nodup : (found.map Permission.id).Nodup
  ids : ∀ id, id ∈ found.map Permission.id ↔
    ∃ role, r.Contributes root role ∧ role.HasPermission id
  held : ∀ p ∈ found, ∃ role, r.Contributes root role ∧ p ∈ role.permissions
  own : ∀ p, Unshadowed root.permissions p → p ∈ found
  beyond : ∀ middle role : Role, Relation.TransGen r.Parent root.id middle.id →
    middle.active = false → r.find? role.id = some role →
    Relation.TransGen r.Parent middle.id role.id → role.active = true →
    ∀ p ∈ role.permissions, p.id ∈ found.map Permission.id

theorem mem_firstOfEachId_heldInOrder_iff {p : Permission} :
    p ∈ firstOfEachId (r.heldInOrder limit root) [] ↔
      ∃ holder, IsFirst (Role.HasPermission · p.id) (r.contributors limit root) holder ∧
        Unshadowed holder.permissions p := by
  rw [mem_firstOfEachId_nil_iff, heldInOrder_eq, unshadowed_flatMap_iff]

theorem isUnion_heldInOrder (hheight : r.HeightLE root.id limit) :
    r.IsUnion root (firstOfEachId (r.heldInOrder limit root) []) := by
  have hids (id : String) : id ∈ (firstOfEachId (r.heldInOrder limit root) []).map Permission.id ↔
      ∃ role, r.Contributes root role ∧ role.HasPermission id := by
    constructor
    · intro hmem
      obtain ⟨p, hp, rfl⟩ := List.mem_map.mp hmem
      obtain ⟨holder, hholder, -⟩ := mem_firstOfEachId_heldInOrder_iff.mp hp
      exact ⟨holder, (mem_contributors_iff hheight).mp hholder.mem, hholder.holds⟩
    · rintro ⟨role, hrole, hhas⟩
      obtain ⟨holder, hholder⟩ := exists_isFirst (P := (Role.HasPermission · id))
        ⟨role, (mem_contributors_iff hheight).mpr hrole, hhas⟩
      obtain ⟨p, hp, rfl⟩ := exists_unshadowed hholder.holds
      exact List.mem_map_of_mem (mem_firstOfEachId_heldInOrder_iff.mpr ⟨holder, hholder, hp⟩)
  refine ⟨nodup_firstOfEachId _ _, hids, fun p hp ↦ ?_, fun p hp ↦ ?_, ?_⟩
  · obtain ⟨holder, hholder, hfirst⟩ := mem_firstOfEachId_heldInOrder_iff.mp hp
    exact ⟨holder, (mem_contributors_iff hheight).mp hholder.mem, hfirst.mem⟩
  · refine mem_firstOfEachId_heldInOrder_iff.mpr ⟨root, ?_, hp⟩
    exact isFirst_cons_iff.mpr (Or.inl ⟨List.mem_map_of_mem hp.mem, rfl⟩)
  · intro middle role hmiddle _ hrole hway hactive p hp
    refine (hids p.id).mpr ⟨role, Or.inr ⟨hrole, hactive, hmiddle.trans hway⟩, ?_⟩
    exact List.mem_map_of_mem hp

/-- An inactive role between two active ones. All three have a permission of one id, the first of
them twice. -/
def inactiveBetween : Roster :=
  .ofList [⟨"a", [⟨"p", "x", "y", none, none, none⟩, ⟨"p", "x", "z", none, none, none⟩], ["b"],
      true⟩, ⟨"b", [⟨"p", "u", "v", none, none, none⟩], ["c"], false⟩,
    ⟨"c", [⟨"p", "*", "*", none, none, none⟩, ⟨"q", "x", "z", none, none, none⟩], [], true⟩]

theorem heightLE_inactiveBetween : inactiveBetween.HeightLE "a" 2 := by decide

end Roster

/-! ### What a resolver answers -/

namespace Resolver

theorem freshPermissions_of_heightLE {r : Resolver} {root : Role}
    (hanswers : r.source.failedFinds = []) (hroot : r.source.roster.find? root.id = some root)
    (hactive : root.active = true)
    (hheight : r.source.roster.HeightLE root.id r.options.maxDepth) :
    r.freshPermissions root.id =
      .ok (firstOfEachId (r.source.roster.heldInOrder r.options.maxDepth root) []) := by
  have hancestors := RoleSource.ancestors_eq_discovered hanswers hroot
    (r.mode r.options.maxDepth) hheight
  rw [freshPermissions, RoleSource.require_of_no_failure hanswers hroot]
  simp only [Except.bind, hactive, if_true, hancestors]
  rfl

theorem freshPermissions_of_inactive {r : Resolver} {root : Role}
    (hanswers : r.source.failedFinds = []) (hroot : r.source.roster.find? root.id = some root)
    (hactive : root.active = false) : r.freshPermissions root.id = .ok [] := by
  rw [freshPermissions, RoleSource.require_of_no_failure hanswers hroot]
  simp only [Except.bind, hactive, Bool.false_eq_true, if_false]

/-- Over any roster, with nothing kept beforehand, an inactive role is answered with no permission,
and an active one with no chain of parents longer than the limit above it with the exact union of
what contributes to it. -/
theorem inherited_union (o : ResolverOptions) {roster : Roster} {root : Role} {cache : Attached}
    (hroot : roster.find? root.id = some root) (hcache : Vacant cache) (now : Nat) :
    (root.active = false →
        ((ofRoster o roster).inheritedPermissions now root.id cache).1 = .ok []) ∧
      (root.active = true → roster.HeightLE root.id o.maxDepth →
        ∃ found, ((ofRoster o roster).inheritedPermissions now root.id cache).1 = .ok found ∧
          roster.IsUnion root found) := by
  obtain ⟨hfresh, -⟩ := hcache.inheritedPermissions (ofRoster o roster) now root.id
  rw [hfresh]
  constructor
  · intro hactive
    exact freshPermissions_of_inactive (r := ofRoster o roster) rfl hroot hactive
  · intro hactive hheight
    exact ⟨_, freshPermissions_of_heightLE (r := ofRoster o roster) rfl hroot hactive hheight,
      Roster.isUnion_heldInOrder hheight⟩

/-- The permission that the root has twice is taken as it comes first there, and what the role above
the inactive one has is inherited. -/
theorem inherited_union_inactive_between :
    ∃ cache, MemoryCache.ofOptions {} = .ok cache ∧ Roster.inactiveBetween.HeightLE "a" 2 ∧
      ∃ found, ((ofRoster { maxDepth := 2 } Roster.inactiveBetween).inheritedPermissions 0 "a"
          (some (.memory cache))).1 = .ok found ∧
        ⟨"p", "x", "y", none, none, none⟩ ∈ found ∧ "q" ∈ found.map Permission.id := by
  obtain ⟨cache, hcache⟩ := MemoryCache.exists_ofOptions (o := {}) (by decide)
  have hroot : Roster.inactiveBetween.find? (⟨"a", [⟨"p", "x", "y", none, none, none⟩,
    ⟨"p", "x", "z", none, none, none⟩], ["b"], true⟩ : Role).id = some _ := rfl
  obtain ⟨found, hfound, hunion⟩ := (inherited_union { maxDepth := 2 } hroot
    (vacant_ofOptions hcache) 0).2 rfl Roster.heightLE_inactiveBetween
  refine ⟨cache, hcache, Roster.heightLE_inactiveBetween, found, hfound, ?_, ?_⟩
  · exact hunion.own _ (unshadowed_cons_iff.mpr (Or.inl rfl))
  · have hedge (child parent : String) (hmem : parent ∈ Roster.inactiveBetween.parentsIn child) :
        Roster.inactiveBetween.Parent child parent := Roster.mem_parentsIn_iff.mp hmem
    exact hunion.beyond ⟨"b", [⟨"p", "u", "v", none, none, none⟩], ["c"], false⟩
      ⟨"c", [⟨"p", "*", "*", none, none, none⟩, ⟨"q", "x", "z", none, none, none⟩], [], true⟩
      (.single (hedge "a" "b" List.mem_cons_self)) rfl rfl
      (.single (hedge "b" "c" List.mem_cons_self)) rfl _ (List.mem_cons_of_mem _ List.mem_cons_self)

end Resolver

end RoleAccess
