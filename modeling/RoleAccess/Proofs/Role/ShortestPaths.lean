import Mathlib.Data.List.Nodup
import RoleAccess.Proofs.Role.PathSearch

/-!
The path that a search finds is a shortest one. Each entry of the queue comes with a trail, a way
from the root to its id that repeats nothing and goes through ids that have been met (`Leads`). The
queue holds the trails in ascending order, with at most one step between any two of them
(`Ordered`). Whatever has not been met has a shorter trail in the queue on every way to it
(`Searching.met_or_nearer`), so an id that is met for the first time is met by a shortest way, and
that carries over to the whole search (`Searching.run_path`). Any path can be read backwards as a
trail (`isPathTo_iff`), so no path is shorter, whether or not it repeats an id.
-/

set_option autoImplicit false
set_option relaxedAutoImplicit false

namespace RoleAccess.RoleGraph

/-- A path from the root to an id along listed parents, both ends included. -/
structure IsPathTo (g : RoleGraph) (target : String) (path : List String) : Prop where
  starts : path.head? = some g.rootId
  ends : path.getLast? = some target
  lists : path.IsChain g.roles.Lists

/-- The ids that lead from the root to an id along listed parents, the latest first. -/
inductive Trail (g : RoleGraph) : String → List String → Prop
  | root : Trail g g.rootId []
  | up {child id : String} {trail : List String} (rest : Trail g child trail)
      (lists : g.roles.Lists child id) : Trail g id (child :: trail)

variable {g : RoleGraph} {target id : String} {trail : List String}

/-! ### Paths read backwards -/

theorem trail_iff :
    g.Trail id trail ↔
      (id :: trail).IsChain (fun parent child ↦ g.roles.Lists child parent) ∧
        (id :: trail).getLast? = some g.rootId := by
  constructor
  · intro h
    induction h with
    | root => exact ⟨List.isChain_singleton _, rfl⟩
    | up _ hlists ih =>
      rw [List.isChain_cons_cons, List.getLast?_cons_cons]
      exact ⟨⟨hlists, ih.1⟩, ih.2⟩
  · induction trail generalizing id with
    | nil =>
      rintro ⟨-, hlast⟩
      obtain rfl : id = g.rootId := Option.some.inj hlast
      exact .root
    | cons child trail ih =>
      rw [List.isChain_cons_cons, List.getLast?_cons_cons]
      rintro ⟨⟨hlists, hchain⟩, hlast⟩
      exact .up (ih ⟨hchain, hlast⟩) hlists

/-- A path is a trail read backwards. -/
theorem isPathTo_iff {path : List String} :
    g.IsPathTo id path ↔ ∃ trail, path = (id :: trail).reverse ∧ g.Trail id trail := by
  constructor
  · rintro ⟨hstarts, hends, hlists⟩
    obtain ⟨way, rfl⟩ : ∃ way, path = way.reverse := ⟨path.reverse, path.reverse_reverse.symm⟩
    rw [List.head?_reverse] at hstarts
    rw [List.getLast?_reverse, List.head?_eq_some_iff] at hends
    obtain ⟨trail, rfl⟩ := hends
    exact ⟨trail, rfl, trail_iff.mpr ⟨List.isChain_reverse.mp hlists, hstarts⟩⟩
  · rintro ⟨trail, rfl, htrail⟩
    obtain ⟨hchain, hlast⟩ := trail_iff.mp htrail
    refine ⟨?_, ?_, List.isChain_reverse.mpr hchain⟩
    · rw [List.head?_reverse, hlast]
    · rw [List.getLast?_reverse, List.head?_cons]

/-! ### One role -/

/-- A role that is queued has been met by a way that repeats nothing, through ids that have been
met. -/
structure Leads (g : RoleGraph) (met : List String) (id : String) (trail : List String) : Prop where
  way : g.Trail id trail
  nodup : (id :: trail).Nodup
  met : id :: trail ⊆ met

/-- The trails in a queue come in ascending order, one step apart at most. -/
def Ordered (queue : List (String × List String)) : Prop :=
  queue.Pairwise fun a b ↦ a.2.length ≤ b.2.length ∧ b.2.length ≤ a.2.length + 1

theorem Leads.up {met met' : List String} {parent : String} (h : g.Leads met id trail)
    (hlists : g.roles.Lists id parent) (hnew : parent ∉ met) (hsubset : met ⊆ met')
    (hmem : parent ∈ met') : g.Leads met' parent (id :: trail) where
  way := .up h.way hlists
  nodup := List.nodup_cons.mpr ⟨fun hmem ↦ hnew (h.met hmem), h.nodup⟩
  met := List.cons_subset.mpr ⟨hmem, fun _ hx ↦ hsubset (h.met hx)⟩

/-! ### The whole search -/

/-- Every entry of the queue has been met by a shortest way, and the queue is in order. -/
structure Shortest (g : RoleGraph) (s : Search) : Prop where
  leads : ∀ entry ∈ s.queue, g.Leads s.met entry.1 entry.2
  least : ∀ entry ∈ s.queue, ∀ trail, g.Trail entry.1 trail → entry.2.length ≤ trail.length
  ordered : Ordered s.queue

theorem shortest_start (g : RoleGraph) : g.Shortest ⟨[(g.rootId, [])], [g.rootId]⟩ where
  leads := List.forall_mem_singleton.mpr
    ⟨.root, List.nodup_singleton _, List.Subset.refl _⟩
  least := List.forall_mem_singleton.mpr fun _ _ ↦ Nat.zero_le _
  ordered := List.pairwise_singleton _ _

/-- What is on a trail has been met, or something is queued that is nearer to the root. -/
theorem Searching.met_or_nearer {s : Search} (h : Searching g target s) (hshort : g.Shortest s)
    (htrail : g.Trail id trail) :
    id ∈ s.met ∨ ∃ entry ∈ s.queue, entry.2.length < trail.length := by
  induction htrail with
  | root => exact Or.inl h.root
  | @up child id trail hrest hlists ih =>
    rcases ih with hchild | ⟨entry, hentry, hlt⟩
    · rcases h.closed child hchild with ⟨way, hway⟩ | hdone
      · exact Or.inr ⟨(child, way), hway, Nat.lt_succ_of_le (hshort.least _ hway trail hrest)⟩
      · exact Or.inl (hdone id hlists)
    · exact Or.inr ⟨entry, hentry, Nat.lt_succ_of_lt hlt⟩

section Step

variable {s later : Search} {rest : List (String × List String)}

theorem Ordered.le_of_mem {entry : String × List String}
    (h : Ordered ((id, trail) :: rest)) (hentry : entry ∈ (id, trail) :: rest) :
    trail.length ≤ entry.2.length ∧ entry.2.length ≤ trail.length + 1 := by
  rcases List.mem_cons.mp hentry with rfl | hrest
  · exact ⟨Nat.le_refl _, Nat.le_succ _⟩
  · exact List.rel_of_pairwise_cons h hrest

/-- The parents of the first role in the queue that have not been met are one step further than the
role, and there is no shorter way to them. -/
theorem Searching.le_of_not_mem {parent : String} {way : List String} (h : Searching g target s)
    (hshort : g.Shortest s) (hq : s.queue = (id, trail) :: rest) (hnew : parent ∉ s.met)
    (hway : g.Trail parent way) : (id :: trail).length ≤ way.length := by
  obtain ⟨entry, hentry, hlt⟩ := (h.met_or_nearer hshort hway).resolve_left hnew
  have hordered := hshort.ordered
  rw [hq] at hentry hordered
  exact Nat.lt_of_le_of_lt (hordered.le_of_mem hentry).1 hlt

theorem Shortest.next (hshort : g.Shortest s) (h : Searching g target s)
    (hq : s.queue = (id, trail) :: rest)
    (hmeet : Search.meet target (id :: trail) ⟨rest, s.met⟩ (g.listedParents id) = .ok later) :
    g.Shortest later := by
  obtain ⟨added, hqueue, hmet, hadded, -⟩ := Search.exists_met hmeet
  have hsubset : s.met ⊆ later.met := fun x hx ↦ (hmet x).mpr (Or.inl hx)
  have hleads := hshort.leads
  have hleast := hshort.least
  have hordered := hshort.ordered
  rw [hq] at hleads hleast hordered
  have hhead := hleads _ List.mem_cons_self
  constructor
  case leads =>
    rw [hqueue]
    refine List.forall_mem_append.mpr ⟨fun entry hentry ↦ ?_, List.forall_mem_map.mpr ?_⟩
    · have hentry := hleads entry (List.mem_cons_of_mem _ hentry)
      exact ⟨hentry.way, hentry.nodup, fun _ hx ↦ hsubset (hentry.met hx)⟩
    · intro parent hparent
      obtain ⟨hmem, hnew, -⟩ := hadded parent hparent
      exact hhead.up (mem_listedParents_iff.mp hmem) hnew hsubset
        ((hmet parent).mpr (Or.inr hparent))
  case least =>
    rw [hqueue]
    refine List.forall_mem_append.mpr ⟨fun entry hentry ↦ ?_, List.forall_mem_map.mpr ?_⟩
    · exact hleast entry (List.mem_cons_of_mem _ hentry)
    · exact fun parent hparent way hway ↦ h.le_of_not_mem hshort hq (hadded parent hparent).2.1 hway
  case ordered =>
    -- every trail that is left is as long as the one taken out, or as long as the new ones
    have hbound {entry : String × List String} (hentry : entry ∈ rest) :=
      hordered.le_of_mem (List.mem_cons_of_mem _ hentry)
    rw [hqueue]
    refine List.pairwise_append.mpr ⟨hordered.of_cons, ?_, fun entry hentry ↦ ?_⟩
    · exact List.pairwise_map.mpr (List.pairwise_of_forall fun _ _ ↦ ⟨Nat.le_refl _, Nat.le_succ _⟩)
    · exact List.forall_mem_map.mpr fun _ _ ↦
        ⟨(hbound hentry).2, Nat.succ_le_succ (hbound hentry).1⟩

end Step

/-- What a search finds, read backwards, is a shortest trail to the target. -/
theorem Searching.run_path {s : Search} {path : List String} (h : Searching g target s)
    (hshort : g.Shortest s) (hrun : s.run g target = some path) :
    ∃ trail, path = (target :: trail).reverse ∧ g.Trail target trail ∧ (target :: trail).Nodup ∧
      ∀ way, g.Trail target way → trail.length ≤ way.length := by
  fun_induction Search.run g target s with
  | case1 s hq => cases hrun
  | case2 s id trail rest hq found hmeet =>
    obtain ⟨hfound, hmem, hnew⟩ := Search.meet_error hmeet
    have hhead := hshort.leads (id, trail) (hq ▸ List.mem_cons_self)
    have hpath := hhead.up (mem_listedParents_iff.mp hmem) hnew (List.subset_cons_self target s.met)
      List.mem_cons_self
    rw [hfound] at hrun
    refine ⟨id :: trail, (Option.some.inj hrun).symm, hpath.way, hpath.nodup, ?_⟩
    exact fun way hway ↦ h.le_of_not_mem hshort hq hnew hway
  | case3 s id trail rest hq later hmeet _ ih =>
    exact ih (h.next hq hmeet) (hshort.next h hq hmeet) hrun

theorem pathTo_path {path : List String} (h : g.pathTo target = some path) :
    g.IsPathTo target path ∧ path.Nodup ∧
      ∀ other, g.IsPathTo target other → path.length ≤ other.length := by
  obtain ⟨trail, rfl, htrail, hnodup, hleast⟩ :=
    (searching_start g target).run_path (shortest_start g) h
  refine ⟨isPathTo_iff.mpr ⟨trail, rfl, htrail⟩, List.nodup_reverse.mpr hnodup, ?_⟩
  intro other hother
  obtain ⟨way, rfl, hway⟩ := isPathTo_iff.mp hother
  rw [List.length_reverse, List.length_reverse]
  exact Nat.succ_le_succ (hleast way hway)

/-- There is no path just if the target is not listed by a role above the root, or by the root. -/
theorem pathTo_eq_none_iff (hne : target ≠ g.rootId) :
    g.pathTo target = none ↔
      ¬∃ child, g.roles.Reaches g.rootId child ∧ g.roles.Lists child target := by
  have hsome := g.pathTo_isSome_iff target
  rw [← Option.not_isSome_iff_eq_none, hsome, and_iff_right hne]
  refine not_congr ⟨fun hway ↦ ?_, fun ⟨child, hreach, hlists⟩ ↦ hreach.names.tail hlists⟩
  obtain heq | ⟨child, hway, hlists⟩ := hway.cases_tail
  · exact absurd heq hne
  · obtain ⟨role, hrole, -⟩ := id hlists
    exact ⟨child, Roster.reaches_of_names hway (Roster.contains_of_find? hrole), hlists⟩

end RoleAccess.RoleGraph
