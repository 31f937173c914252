import RoleAccess.Proofs.Role.Coherence
import RoleAccess.Proofs.Role.Discovery
import RoleAccess.Proofs.Role.FirstLoop
import RoleAccess.Proofs.Role.LenientWalk
import RoleAccess.Proofs.Role.PathSearch

/-!
Whether one role is above another, asked in two ways. The search for a path looks for an id, which
need not be that of a role; the list of ancestors holds roles only. As soon as the limit is no less
than the number of roles, both find the same roles (`RoleGraph.pathTo_agrees`), strict or not,
because a shortest way repeats no role. They differ on an id without a role that the role or one of
its ancestors lists: a path leads to it (`Resolver.isAncestor_missing`).
-/

set_option autoImplicit false
set_option relaxedAutoImplicit false

namespace RoleAccess

namespace Roster

/-- An id without a role that one of the ids below lists as a parent. -/
def MissingParent (r : Roster) (below : List String) (id : String) : Prop :=
  r.contains id = false ∧ ∃ child ∈ below, r.Lists child id

/-- What can be reached can be reached by a chain that repeats no role. -/
theorem exists_chain_of_reaches {r : Roster} {id top : String} (h : r.Reaches id top) :
    ∃ above, r.IsChainAbove id above ∧ (id :: above).Nodup ∧
      (id :: above).getLast? = some top := by
  induction h using Relation.ReflTransGen.head_induction_on with
  | refl => exact ⟨[], r.isChainAbove_nil top, List.nodup_singleton top, rfl⟩
  | @head id parent hedge _ ih =>
    obtain ⟨above, hchain, hnodup, hlast⟩ := ih
    -- Where the chain comes back to the role, it is taken from there on.
    by_cases hmem : id ∈ parent :: above
    · obtain ⟨before, after, hsplit⟩ := List.append_of_mem hmem
      rw [IsChainAbove, hsplit] at hchain
      rw [hsplit] at hnodup hlast
      rw [List.getLast?_append_of_ne_nil _ (List.cons_ne_nil id after)] at hlast
      exact ⟨after, hchain.right_of_append, hnodup.of_append_right, hlast⟩
    · refine ⟨parent :: above, isChainAbove_cons_iff.mpr ⟨hedge, hchain⟩,
        List.nodup_cons.mpr ⟨hmem, hnodup⟩, ?_⟩
      rw [List.getLast?_cons_cons]
      exact hlast

end Roster

namespace RoleGraph

variable {g : RoleGraph} {mode : WalkMode} {a : Ancestry} {id target : String}

/-- Within a limit no less than the number of roles, every role above the root is found. -/
theorem mem_ids_iff_of_size_le (hsize : g.size ≤ mode.limit) (h : g.ancestors mode = .ok a) :
    id ∈ a.ids ↔ id ≠ g.rootId ∧ g.roles.Reaches g.rootId id := by
  obtain ⟨limit, strict⟩ := mode
  cases strict with
  | true => exact (isExact_of_ancestors rfl h).mem_ids_iff id
  | false =>
    obtain ⟨found, w, hfound, hvisit, hids⟩ := g.exists_lenient_ancestors limit
    cases hfound.symm.trans h
    have hplace := g.stands_root limit
    rw [hids]
    constructor
    · intro hid
      obtain ⟨-, hwithin⟩ := Walk.visit_gathered rfl hplace
        ⟨List.nodup_nil, fun x hx ↦ absurd hx List.not_mem_nil⟩ hvisit
      obtain ⟨hne, above, hchain, hlast, -⟩ := hwithin id hid
      exact ⟨hne, Roster.reaches_of_isChain hchain id (List.mem_of_getLast? hlast)⟩
    · rintro ⟨hne, hway⟩
      obtain ⟨above, hchain, hnodup, hlast⟩ := Roster.exists_chain_of_reaches hway
      have hlength : (g.rootId :: above).length ≤ g.size :=
        Roster.length_le_size hnodup fun other hother ↦ Roster.contains_of_reaches g.rooted
          (Roster.reaches_of_isChain hchain other hother)
      obtain ⟨hthorough, hentered⟩ := Walk.visit_thorough rfl hplace ⟨by simp, by simp⟩
        (Or.inl rfl) hvisit
      have hle : 0 + above.length ≤ limit := by
        rw [Nat.zero_add]
        exact (Nat.le_succ _).trans (hlength.trans hsize)
      obtain ⟨height, reached, hnoted, -⟩ := hthorough.entered_of_chain hentered hchain hlast hle
      exact (hthorough.listed id height reached hnoted).resolve_left hne

theorem contains_root (g : RoleGraph) : g.contains g.rootId = true := g.rooted

theorem mem_root_cons_iff (hsize : g.size ≤ mode.limit) (h : g.ancestors mode = .ok a) :
    id ∈ g.rootId :: a.ids ↔ g.roles.Reaches g.rootId id := by
  rw [List.mem_cons, mem_ids_iff_of_size_le hsize h]
  by_cases heq : id = g.rootId
  · exact iff_of_true (Or.inl heq) (heq ▸ .refl)
  · simp [heq]

/-- A path leads to the ancestors of the root, and to the missing parents of these and the root. -/
theorem pathTo_agrees (hsize : g.size ≤ mode.limit) (h : g.ancestors mode = .ok a) :
    (g.pathTo target).isSome ↔
      target ∈ a.ids ∨ g.roles.MissingParent (g.rootId :: a.ids) target := by
  rw [pathTo_isSome_iff, mem_ids_iff_of_size_le hsize h]
  constructor
  · rintro ⟨hne, hnames⟩
    cases hheld : g.roles.contains target with
    | true => exact Or.inl ⟨hne, Roster.reaches_of_names hnames hheld⟩
    | false =>
      obtain heq | ⟨child, hway, hlists⟩ := hnames.cases_tail
      · exact absurd heq hne
      · obtain ⟨role, hrole, -⟩ := id hlists
        have hreach := Roster.reaches_of_names hway (Roster.contains_of_find? hrole)
        exact Or.inr ⟨hheld, child, (mem_root_cons_iff hsize h).mpr hreach, hlists⟩
  · rintro (⟨hne, hway⟩ | ⟨hmissing, child, hchild, hlists⟩)
    · exact ⟨hne, hway.names⟩
    · have hway := (mem_root_cons_iff hsize h).mp hchild
      refine ⟨?_, hway.names.tail hlists⟩
      rintro rfl
      rw [← contains, contains_root] at hmissing
      cases hmissing

theorem map_id_filterMap_find? {ids : List String} (h : ∀ id ∈ ids, g.contains id = true) :
    (ids.filterMap g.find?).map Role.id = ids := by
  have hsame : ∀ id ∈ ids, (g.find? id).map Role.id = some id := by
    intro id hid
    obtain ⟨role, hrole⟩ := Roster.exists_of_contains (h id hid)
    rw [find?, hrole, Option.map_some, Roster.id_of_find? hrole]
  rw [List.map_filterMap, List.filterMap_congr hsame, List.filterMap_some]

end RoleGraph

namespace RoleSource

variable {s : RoleSource} {root : Role} {g : RoleGraph}

theorem size_snapshot_le (hroot : s.roster.find? root.id = some root)
    (hg : s.snapshot root = .ok g) : g.size ≤ s.roster.size := by
  have hlength : g.roles.ids.length = g.size := Std.TreeMap.length_keys
  rw [← hlength]
  refine Roster.length_le_size Std.TreeMap.nodup_keys fun id hid ↦ ?_
  obtain ⟨role, hrole⟩ := Roster.exists_of_contains (Roster.mem_ids_iff.mp hid)
  exact Roster.contains_of_find? (((find?_snapshot_iff hroot hg).2 id role).mp hrole).1

/-- Of what can be reached from the root, the same parents are missing in a snapshot as in the
roster. -/
theorem missingParent_snapshot_iff (hroot : s.roster.find? root.id = some root)
    (hg : s.snapshot root = .ok g) {below : List String}
    (hbelow : ∀ child ∈ below, s.roster.Reaches root.id child) {id : String} :
    g.roles.MissingParent below id ↔ s.roster.MissingParent below id := by
  have hlists (child : String) (hchild : child ∈ below) :
      g.roles.Lists child id ↔ s.roster.Lists child id := by
    have hsame := find?_snapshot_of_reaches hroot hg (hbelow child hchild)
    exact ⟨fun h ↦ h.congr hsame.symm, fun h ↦ h.congr hsame⟩
  constructor
  · rintro ⟨hmissing, child, hchild, hlisted⟩
    have hlisted' := (hlists child hchild).mp hlisted
    refine ⟨?_, child, hchild, hlisted'⟩
    -- If there were a role, it would have been loaded.
    by_contra hheld
    rw [Bool.not_eq_false] at hheld
    have hway := (hbelow child hchild).tail ⟨hlisted', hheld⟩
    rw [Roster.contains, find?_snapshot_of_reaches hroot hg hway] at hmissing
    rw [Roster.contains, hmissing] at hheld
    cases hheld
  · rintro ⟨hmissing, child, hchild, hlisted⟩
    refine ⟨?_, child, hchild, (hlists child hchild).mpr hlisted⟩
    by_contra hheld
    rw [Bool.not_eq_false] at hheld
    obtain ⟨role, hrole⟩ := Roster.exists_of_contains hheld
    have hfound := (((find?_snapshot_iff hroot hg).2 id role).mp hrole).1
    rw [Roster.contains_of_find? hfound] at hmissing
    cases hmissing

end RoleSource

namespace Resolver

theorem exists_require_of_freshParents {r : Resolver} {id : String} {limit : Nat}
    {above : List Role} (h : r.freshParents id limit = .ok above) :
    ∃ root, r.source.require id = .ok root ∧
      r.source.ancestors (r.mode limit) root = .ok above := by
  unfold freshParents at h
  cases hroot : r.source.require id with
  | error e => simp [hroot, Except.bind] at h
  | ok root => exact ⟨root, rfl, by simpa only [hroot, Except.bind] using h⟩

/-- Where the list of ancestors can be had within a limit no less than the number of roles, the
search for a path comes to an answer. It says yes of the ancestors and of the missing parents, and
of nothing else. -/
theorem isAncestor_agrees (r : Resolver) {limit : Nat} (hlimit : r.source.roster.size ≤ limit)
    (now : Nat) {id : String} {above : List Role}
    (hparents : (r.parentRoles now id (some limit) none).1 = .ok above) (target : String) :
    ∃ answer, r.source.isAncestor target id = .ok answer ∧
      (answer = true ↔ target ∈ above.map Role.id ∨
        r.source.roster.MissingParent (id :: above.map Role.id) target) := by
  rw [parentRoles_none] at hparents
  obtain ⟨root, hroot, hancestors⟩ := exists_require_of_freshParents hparents
  obtain rfl := RoleSource.id_of_require hroot
  have hfound := RoleSource.roster_find?_of_require hroot
  obtain ⟨g, a, hg, ha, rfl⟩ := RoleSource.exists_of_ancestors hancestors
  have hrooted := (RoleSource.find?_snapshot_iff hfound hg).1
  have hsize : g.size ≤ limit := (RoleSource.size_snapshot_le hfound hg).trans hlimit
  have hway (child : String) (hchild : child ∈ root.id :: a.ids) :
      g.roles.Reaches root.id child := by
    rw [← hrooted] at hchild ⊢
    exact (RoleGraph.mem_root_cons_iff hsize ha).mp hchild
  have hids : (a.ids.filterMap g.find?).map Role.id = a.ids :=
    RoleGraph.map_id_filterMap_find? fun child hchild ↦
      Roster.contains_of_reaches (hrooted ▸ g.rooted) (hway child (List.mem_cons_of_mem _ hchild))
  have hbelow (child : String) (hchild : child ∈ root.id :: a.ids) :
      r.source.roster.Reaches root.id child :=
    Relation.ReflTransGen.mono
      (fun _ _ hedge ↦ ((RoleSource.parent_snapshot_iff hfound hg).mp hedge).2) _ _
      (hway child hchild)
  refine ⟨(g.pathTo target).isSome, ?_, ?_⟩
  · simp only [RoleSource.isAncestor, hroot, hg, bind, Except.bind, pure, Except.pure]
  · rw [RoleGraph.pathTo_agrees hsize ha, hids, hrooted,
      RoleSource.missingParent_snapshot_iff hfound hg hbelow]

/-- Roles in a loop that is passed over, one of them with a missing parent. -/
theorem isAncestor_agrees_looped :
    Roster.orphanedLoop.size ≤ 2 ∧
      ((ofRoster { detectCycles := false } .orphanedLoop).parentRoles 0 "a" (some 2) none).1 =
        .ok [⟨"b", [], ["a", "x"], true⟩] ∧
      (∃ answer, (ofRoster { detectCycles := false } .orphanedLoop).source.isAncestor "b" "a" =
        .ok answer ∧ answer = true) ∧
      ∃ answer, (ofRoster { detectCycles := false } .orphanedLoop).source.isAncestor "a" "a" =
        .ok answer ∧ answer = false := by
  have hparents : ((ofRoster { detectCycles := false } .orphanedLoop).parentRoles 0 "a" (some 2)
      none).1 = .ok [⟨"b", [], ["a", "x"], true⟩] := by
    cbv
  obtain ⟨above, habove, hyes⟩ := isAncestor_agrees _ (by decide) 0 hparents "b"
  obtain ⟨itself, hitself, hno⟩ := isAncestor_agrees _ (by decide) 0 hparents "a"
  refine ⟨by decide, hparents, ⟨above, habove, hyes.mpr (Or.inl List.mem_cons_self)⟩, itself,
    hitself, Bool.eq_false_iff.mpr (mt hno.mp ?_)⟩
  rintro (hlisted | ⟨hmissing, -⟩)
  · exact absurd hlisted (by decide)
  · exact absurd hmissing (by decide)

/-- A role whose only parent is missing. -/
def orphan : Roster := .ofList [⟨"a", [], ["x"], true⟩]

/-- The missing parent of a role without ancestors counts as above it. -/
theorem isAncestor_missing :
    orphan.size ≤ 1 ∧ ((ofRoster {} orphan).parentRoles 0 "a" (some 1) none).1 = .ok [] ∧
      (ofRoster {} orphan).source.isAncestor "x" "a" = .ok true :=
  ⟨by decide, by cbv, by cbv⟩

end Resolver

end RoleAccess
