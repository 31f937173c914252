import RoleAccess.Proofs.Role.BreadthFirst
import RoleAccess.Proofs.Role.EmptyCaches

/-!
What becomes of a question about a role when ids cannot be looked up. If all ids that are named
above the role can be, its snapshot is complete. If not, every question that needs the snapshot ends
with the failure of the first such id, level by level (`Resolver.complete_or_failed`). The loading
comes before any search for loops or long chains, so that these are not reported instead, and what
has been loaded until then is not kept.
-/

set_option autoImplicit false
set_option relaxedAutoImplicit false

namespace RoleAccess

namespace RoleSource

variable {s : RoleSource} {root : Role} {start failed failed' : String} {e : RoleError}

/-- The first id that cannot be looked up, of a role and of what is named above it, level by
level. -/
def FirstFailure (s : RoleSource) (start failed : String) : Prop :=
  ∃ n, IsFirst (· ∈ s.failedFinds) (s.roster.layers n [start]) failed

theorem FirstFailure.unique (h : s.FirstFailure start failed) (h' : s.FirstFailure start failed') :
    failed = failed' := by
  obtain ⟨n, hfirst⟩ := h
  obtain ⟨m, hfirst'⟩ := h'
  have hn := s.roster.layers_isPrefix_of_le [start] (Nat.le_max_left n m)
  have hm := s.roster.layers_isPrefix_of_le [start] (Nat.le_max_right n m)
  exact (hfirst.extend hn).unique (hfirst'.extend hm)

theorem FirstFailure.names (h : s.FirstFailure start failed) :
    s.roster.Names start failed ∧ failed ∈ s.failedFinds := by
  obtain ⟨n, hfirst⟩ := h
  obtain ⟨other, hother, hnames⟩ := Roster.names_of_mem_layers hfirst.mem
  exact ⟨List.mem_singleton.mp hother ▸ hnames, hfirst.holds⟩

theorem firstFailure_self (h : start ∈ s.failedFinds) : s.FirstFailure start start :=
  ⟨1, [], [], rfl, fun _ hmem ↦ absurd hmem List.not_mem_nil, h⟩

/-- A loading that is not complete has stopped at the first failure. -/
theorem snapshot_complete_or_failed (hroot : s.roster.find? root.id = some root)
    (hanswers : root.id ∉ s.failedFinds) :
    (∃ g, s.snapshot root = .ok g ∧ ∀ id, s.roster.Names root.id id → id ∉ s.failedFinds) ∨
      ∃ failed, s.snapshot root = .error (.source ("find " ++ failed)) ∧
        s.FirstFailure root.id failed := by
  have htraces := traces_load hroot
  unfold snapshot
  cases hload : s.load root with
  | mk graph asked =>
    rw [hload] at htraces
    cases htraces with
    | @complete past _ g n _ hmet hclosed hanswered =>
      have hpast : ∀ id, s.roster.Names root.id id → id ∈ past := by
        intro id hnames
        induction hnames with
        | refl =>
          rw [← List.mem_eraseDups, ← hmet]
          exact List.mem_cons_self
        | tail _ hlists ih => exact hclosed _ ih _ (Roster.mem_listed_iff.mpr hlists)
      refine Or.inl ⟨g, rfl, fun id hnames ↦ ?_⟩
      have hmem := List.mem_eraseDups.mpr (hpast id hnames)
      rw [← hmet, List.mem_cons] at hmem
      rcases hmem with rfl | hmem
      · exact hanswers
      · exact hanswered id hmem
    | @stopped past _ failed n hreached _ hanswered hfailing =>
      obtain ⟨after, hafter⟩ := hreached
      refine Or.inr ⟨failed, rfl, n, past, after, ?_, fun x hx ↦ ?_, hfailing⟩
      · rw [← hafter, List.append_assoc, List.singleton_append]
      · rcases hanswered x hx with rfl | hanswers'
        · exact hanswers
        · exact hanswers'

/-- Where the snapshot of a role fails, so do all searches in it. -/
theorem errors_of_snapshot (hfound : s.find? root.id = .ok (some root))
    (h : s.snapshot root = .error e) :
    s.findCycle root.id = .error e ∧ (∀ other, s.isAncestor other root.id = .error e) ∧
      (∀ mode, s.depth mode root.id = .error e) ∧ ∀ mode, s.ancestors mode root = .error e := by
  have hrequire := require_eq_ok_iff.mpr hfound
  refine ⟨?_, fun other ↦ ?_, fun mode ↦ ?_, fun mode ↦ ?_⟩
  · simp only [findCycle, hfound, h, bind, Except.bind]
  · simp only [isAncestor, hrequire, h, bind, Except.bind]
  · simp only [depth, hrequire, h, bind, Except.bind]
  · simp only [ancestors, h, bind, Except.bind]

end RoleSource

namespace Resolver

variable {r : Resolver} {root : Role} {cache : Attached} {now : Nat} {e : RoleError}

/-- Every question that needs the roles above a role ends with the same error, and leaves a cache
without entries behind. -/
structure FailsAbove (r : Resolver) (now : Nat) (root : Role) (cache : Attached) (e : RoleError) :
    Prop where
  parents : ∀ limit, Reads (.error e) (r.parentRoles now root.id limit cache)
  permissions : root.active = true → Reads (.error e) (r.inheritedPermissions now root.id cache)
  findCycle : r.source.findCycle root.id = .error e
  isAncestor : ∀ other, r.source.isAncestor other root.id = .error e
  depth : r.depth root.id = .error e

theorem failsAbove_of_find? (hcache : Vacant cache) (h : r.source.find? root.id = .error e) :
    r.FailsAbove now root cache e := by
  have hrequire : r.source.require root.id = .error e := by
    simp only [RoleSource.require, h, bind, Except.bind]
  refine ⟨fun limit ↦ ?_, fun _ ↦ ?_, ?_, fun other ↦ ?_, ?_⟩
  · have hreads := hcache.parentRoles r now root.id limit
    rwa [freshParents, hrequire] at hreads
  · have hreads := hcache.inheritedPermissions r now root.id
    rwa [freshPermissions, hrequire] at hreads
  · simp only [RoleSource.findCycle, h, bind, Except.bind]
  · simp only [RoleSource.isAncestor, hrequire, bind, Except.bind]
  · simp only [depth, RoleSource.depth, hrequire, bind, Except.bind]

theorem failsAbove_of_snapshot (hcache : Vacant cache)
    (hfound : r.source.find? root.id = .ok (some root)) (h : r.source.snapshot root = .error e) :
    r.FailsAbove now root cache e := by
  obtain ⟨hcycle, hancestor, hdepth, hancestors⟩ := RoleSource.errors_of_snapshot hfound h
  have hrequire := RoleSource.require_eq_ok_iff.mpr hfound
  refine ⟨fun limit ↦ ?_, fun hactive ↦ ?_, hcycle, hancestor, hdepth _⟩
  · have hreads := hcache.parentRoles r now root.id limit
    simp only [freshParents, hrequire, Except.bind, hancestors] at hreads
    exact hreads
  · have hreads := hcache.inheritedPermissions r now root.id
    simp only [freshPermissions, hrequire, Except.bind, hactive, if_true, hancestors] at hreads
    exact hreads

/-- Over any source, no id is looked up twice to answer a question about a role. If all that is
named above the role can be looked up, its snapshot holds just the roles that can be reached from
it, as they are. Otherwise every question that needs the snapshot ends with the first failure, and
nothing is kept. -/
theorem complete_or_failed (r : Resolver) {root : Role} {cache : Attached}
    (hroot : r.source.roster.find? root.id = some root) (hcache : Vacant cache) (now : Nat) :
    (root.id :: (r.source.load root).asked).Nodup ∧
      ((∀ id, r.source.roster.Names root.id id → id ∉ r.source.failedFinds) →
        ∃ g, r.source.snapshot root = .ok g ∧ g.rootId = root.id ∧
          ∀ id role, g.find? id = some role ↔
            r.source.roster.find? id = some role ∧ r.source.roster.Reaches root.id id) ∧
      ∀ id, r.source.roster.Names root.id id → id ∈ r.source.failedFinds →
        ∃ failed, r.source.FirstFailure root.id failed ∧
          r.FailsAbove now root cache (.source ("find " ++ failed)) := by
  refine ⟨RoleSource.nodup_asked hroot, fun hall ↦ ?_, fun id hnames hfailing ↦ ?_⟩
  · rcases RoleSource.snapshot_complete_or_failed hroot (hall root.id .refl) with
      ⟨g, hg, -⟩ | ⟨failed, hfailed, hfirst⟩
    · exact ⟨g, hg, RoleSource.find?_snapshot_iff hroot hg⟩
    · exact absurd hfirst.names.2 (hall failed hfirst.names.1)
  · by_cases hself : root.id ∈ r.source.failedFinds
    · exact ⟨root.id, RoleSource.firstFailure_self hself,
        failsAbove_of_find? hcache (RoleSource.find?_of_failed hself)⟩
    · have hfound : r.source.find? root.id = .ok (some root) :=
        (RoleSource.find?_of_not_failed hself).trans (congrArg Except.ok hroot)
      rcases RoleSource.snapshot_complete_or_failed hroot hself with
        ⟨g, hg, hall⟩ | ⟨failed, hfailed, hfirst⟩
      · exact absurd hfailing (hall id hnames)
      · exact ⟨failed, hfirst, failsAbove_of_snapshot hcache hfound hfailed⟩

/-- Two ids above a role that cannot be looked up. A search in depth would meet the other one first,
and would find a loop before either. -/
def twoFailures : Resolver :=
  ⟨{}, .ofList [⟨"a", [], ["b", "c"], true⟩, ⟨"b", [], ["a", "x"], true⟩,
    ⟨"c", [], [], true⟩], ["x", "c"], []⟩

theorem complete_or_failed_two_failures :
    ∃ cache, MemoryCache.ofOptions {} = .ok cache ∧
      twoFailures.FailsAbove 0 ⟨"a", [], ["b", "c"], true⟩ (some (.memory cache))
        (.source "find c") := by
  obtain ⟨cache, hcache⟩ := MemoryCache.exists_ofOptions (o := {}) (by decide)
  have hroot : twoFailures.source.roster.find? (⟨"a", [], ["b", "c"], true⟩ : Role).id = some _ :=
    rfl
  have hfirst : twoFailures.source.FirstFailure "a" "c" :=
    ⟨2, ["a", "b"], [], rfl, by decide, by decide⟩
  obtain ⟨hnames, hfailing⟩ := hfirst.names
  obtain ⟨failed, hfailed, hfails⟩ := (complete_or_failed twoFailures hroot
    (vacant_ofOptions hcache) 0).2.2 "c" hnames hfailing
  obtain rfl := hfirst.unique hfailed
  exact ⟨cache, hcache, hfails⟩

end Resolver

end RoleAccess
