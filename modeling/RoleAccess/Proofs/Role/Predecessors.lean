import RoleAccess.Proofs.Role.ShortestPaths

/-!
A search that keeps one predecessor for each id that it meets, and follows the predecessors back
from the target (`Links`, `LeadsBack`). Following them comes to an end because each new id has been
entered after its predecessor, and the root never gets one. The search takes the same steps as the
one that keeps whole trails, and the trail of each queued id is what its predecessors spell
(`Mirrors`), so both find the same path (`finds_iff`).
-/

set_option autoImplicit false
set_option relaxedAutoImplicit false

namespace RoleAccess.RoleGraph

/-- The state of a search with predecessors: the ids to look at, and for each id met, except for the
root, the role that it was met from. -/
structure Links where
  queue : List String
  previous : List (String × String)

/-- Queues the parents of a role that have not been met. The search stops with the predecessors as
soon as the target is among them. -/
def Links.meet (g : RoleGraph) (target id : String) :
    Links → List String → Except (List (String × String)) Links
  | l, [] => .ok l
  | l, parent :: rest =>
    if parent = g.rootId ∨ (l.previous.lookup parent).isSome then l.meet g target id rest
    else if parent = target then .error ((parent, id) :: l.previous)
    else Links.meet g target id ⟨l.queue ++ [parent], (parent, id) :: l.previous⟩ rest

/-- Following the predecessors from an id comes to an end, and these are the ids on the way. -/
inductive LeadsBack (previous : List (String × String)) : String → List String → Prop
  | stop {id : String} (first : previous.lookup id = none) : LeadsBack previous id [id]
  | back {id child : String} {chain : List String} (links : previous.lookup id = some child)
    (rest : LeadsBack previous child chain) : LeadsBack previous id (id :: chain)

/-- The search for the target comes to an end, with this result. -/
inductive Finds (g : RoleGraph) (target : String) : Links → Option (List String) → Prop
  | exhausted {previous : List (String × String)} : Finds g target ⟨[], previous⟩ none
  | found {id : String} {rest chain : List String} {previous table : List (String × String)}
    (met : Links.meet g target id ⟨rest, previous⟩ (g.listedParents id) = .error table)
    (back : LeadsBack table target chain) :
    Finds g target ⟨id :: rest, previous⟩ (some chain.reverse)
  | next {id : String} {rest : List String} {previous : List (String × String)} {later : Links}
    {result : Option (List String)}
    (met : Links.meet g target id ⟨rest, previous⟩ (g.listedParents id) = .ok later)
    (onward : Finds g target later result) : Finds g target ⟨id :: rest, previous⟩ result

variable {g : RoleGraph} {target id : String}

theorem LeadsBack.unique {previous : List (String × String)} {chain chain' : List String}
    (h : LeadsBack previous id chain) (h' : LeadsBack previous id chain') : chain = chain' := by
  induction h generalizing chain' with
  | stop hnone =>
    cases h' with
    | stop => rfl
    | back hsome => rw [hnone] at hsome; cases hsome
  | back hsome _ ih =>
    cases h' with
    | stop hnone => rw [hnone] at hsome; cases hsome
    | back hsome' hrest' =>
      rw [hsome] at hsome'
      cases hsome'
      rw [ih hrest']

theorem Finds.unique {l : Links} {result result' : Option (List String)}
    (h : g.Finds target l result) (h' : g.Finds target l result') : result = result' := by
  induction h generalizing result' with
  | exhausted =>
    cases h'
    rfl
  | found hmet hback =>
    cases h' with
    | found hmet' hback' =>
      rw [hmet] at hmet'
      cases hmet'
      rw [hback.unique hback']
    | next hmet' => rw [hmet] at hmet'; cases hmet'
  | next hmet _ ih =>
    cases h' with
    | found hmet' => rw [hmet] at hmet'; cases hmet'
    | next hmet' hrest' =>
      rw [hmet] at hmet'
      cases hmet'
      exact ih hrest'

theorem lookup_cons_of_ne {previous : List (String × String)} {parent child : String}
    (hne : parent ≠ id) : ((parent, child) :: previous).lookup id = previous.lookup id := by
  rw [List.lookup_cons, beq_false_of_ne hne.symm]

/-- A new predecessor does not change a way back on which its id does not lie. -/
theorem LeadsBack.insert {previous : List (String × String)} {chain : List String}
    {parent child : String} (h : LeadsBack previous id chain) (hnew : parent ∉ chain) :
    LeadsBack ((parent, child) :: previous) id chain := by
  induction h with
  | stop hnone =>
    exact .stop ((lookup_cons_of_ne (List.ne_of_not_mem_cons hnew)).trans hnone)
  | back hsome _ ih =>
    exact .back ((lookup_cons_of_ne (List.ne_of_not_mem_cons hnew)).trans hsome)
      (ih (List.not_mem_of_not_mem_cons hnew))

/-! ### Both searches -/

/-- The two searches have the same ids queued and have met the same ones, and the predecessors
spell the trails, which go through ids that have been met. -/
structure Mirrors (g : RoleGraph) (s : Search) (l : Links) : Prop where
  queue : l.queue = s.queue.map Prod.fst
  met : ∀ id, id ∈ s.met ↔ id = g.rootId ∨ (l.previous.lookup id).isSome
  back : ∀ entry ∈ s.queue, LeadsBack l.previous entry.1 (entry.1 :: entry.2)
  held : ∀ entry ∈ s.queue, entry.1 :: entry.2 ⊆ s.met

theorem mirrors_start (g : RoleGraph) :
    g.Mirrors ⟨[(g.rootId, [])], [g.rootId]⟩ ⟨[g.rootId], []⟩ where
  queue := rfl
  met id := by simp
  back := List.forall_mem_singleton.mpr (.stop rfl)
  held := List.forall_mem_singleton.mpr (List.Subset.refl _)

section Step

variable {s : Search} {l : Links} {path parents : List String} {parent : String}

theorem Mirrors.push (h : g.Mirrors s l) (hback : LeadsBack l.previous id path)
    (hheld : path ⊆ s.met) (hnew : parent ∉ s.met) :
    g.Mirrors ⟨s.queue ++ [(parent, path)], parent :: s.met⟩
      ⟨l.queue ++ [parent], (parent, id) :: l.previous⟩ where
  queue := by rw [h.queue, List.map_append, List.map_singleton]
  met other := by
    by_cases heq : other = parent
    · rw [heq, List.lookup_cons_self]
      exact iff_of_true List.mem_cons_self (Or.inr rfl)
    · rw [lookup_cons_of_ne (Ne.symm heq), ← h.met, List.mem_cons, or_iff_right heq]
  back := by
    refine List.forall_mem_append.mpr ⟨fun entry hentry ↦ ?_, List.forall_mem_singleton.mpr ?_⟩
    · exact (h.back entry hentry).insert fun hmem ↦ hnew (h.held entry hentry hmem)
    · exact .back List.lookup_cons_self (hback.insert fun hmem ↦ hnew (hheld hmem))
  held := by
    refine List.forall_mem_append.mpr ⟨fun entry hentry ↦ ?_, List.forall_mem_singleton.mpr ?_⟩
    · exact List.subset_cons_of_subset parent (h.held entry hentry)
    · exact List.cons_subset_cons parent hheld

/-- The first role of the queue is taken out of both. -/
theorem Mirrors.pop {previous : List (String × String)} {queue : List String}
    {trail : List String} {rest : List (String × List String)}
    (h : g.Mirrors s ⟨queue, previous⟩) (hq : s.queue = (id, trail) :: rest) :
    g.Mirrors ⟨rest, s.met⟩ ⟨rest.map Prod.fst, previous⟩ ∧ LeadsBack previous id (id :: trail) ∧
      id :: trail ⊆ s.met := by
  obtain ⟨-, hmet, hback, hheld⟩ := h
  rw [hq] at hback hheld
  obtain ⟨hback, hbacks⟩ := List.forall_mem_cons.mp hback
  obtain ⟨hheld, hhelds⟩ := List.forall_mem_cons.mp hheld
  exact ⟨⟨rfl, hmet, hbacks, hhelds⟩, hback, hheld⟩

/-- With the parents of one role both searches go on alike or both meet the target. -/
theorem Mirrors.meet (h : g.Mirrors s l) (hback : LeadsBack l.previous id path)
    (hheld : path ⊆ s.met) :
    (∀ later, s.meet target path parents = .ok later →
      ∃ l', l.meet g target id parents = .ok l' ∧ g.Mirrors later l') ∧
    ∀ found, s.meet target path parents = .error found →
      ∃ table, l.meet g target id parents = .error table ∧ LeadsBack table target found := by
  induction parents generalizing s l with
  | nil =>
    refine ⟨fun later hlater ↦ ⟨l, rfl, Except.ok.inj hlater ▸ h⟩, fun found hfound ↦ ?_⟩
    cases hfound
  | cons parent rest ih =>
    rw [Search.meet, Links.meet]
    by_cases hmet : parent ∈ s.met
    · rw [if_pos (List.contains_iff_mem.mpr hmet), if_pos ((h.met parent).mp hmet)]
      exact ih h hback hheld
    · rw [if_neg (mt List.contains_iff_mem.mp hmet), if_neg (mt (h.met parent).mpr hmet)]
      have hback' : LeadsBack ((parent, id) :: l.previous) id path :=
        hback.insert fun hmem ↦ hmet (hheld hmem)
      by_cases htarget : parent = target
      · rw [if_pos htarget, if_pos htarget, ← htarget]
        refine ⟨fun later hlater ↦ ?_, fun found hfound ↦ ⟨_, rfl, ?_⟩⟩
        · cases hlater
        · exact Except.error.inj hfound ▸ .back List.lookup_cons_self hback'
      · rw [if_neg htarget, if_neg htarget]
        exact ih (h.push hback hheld hmet) hback' (List.subset_cons_of_subset parent hheld)

end Step

/-- The way back from any queued id spells its trail, so both searches find the same. -/
theorem Mirrors.finds {s : Search} {l : Links} (h : g.Mirrors s l) :
    g.Finds target l (s.run g target) := by
  obtain ⟨queue, previous⟩ := l
  fun_induction Search.run g target s generalizing queue previous with
  | case1 s hq =>
    obtain rfl : queue = [] := h.queue.trans (congrArg (List.map Prod.fst) hq)
    exact .exhausted
  | case2 s id trail rest hq path hmeet =>
    obtain rfl : queue = id :: rest.map Prod.fst :=
      h.queue.trans (congrArg (List.map Prod.fst) hq)
    obtain ⟨hrest, hback, hheld⟩ := h.pop hq
    obtain ⟨table, hmet, hchain⟩ := (hrest.meet hback hheld).2 path hmeet
    exact .found hmet hchain
  | case3 s id trail rest hq later hmeet _ ih =>
    obtain rfl : queue = id :: rest.map Prod.fst :=
      h.queue.trans (congrArg (List.map Prod.fst) hq)
    obtain ⟨hrest, hback, hheld⟩ := h.pop hq
    obtain ⟨l', hmet, hlater⟩ := (hrest.meet hback hheld).1 later hmeet
    exact .next hmet (ih l'.queue l'.previous hlater)

/-- The search with predecessors comes to an end on every graph, with the path of the search with
trails. -/
theorem finds_iff (g : RoleGraph) (target : String) (result : Option (List String)) :
    g.Finds target ⟨[g.rootId], []⟩ result ↔ result = g.pathTo target :=
  have hfinds : g.Finds target ⟨[g.rootId], []⟩ (g.pathTo target) := (mirrors_start g).finds
  ⟨fun h ↦ h.unique hfinds, fun h ↦ h ▸ hfinds⟩

/-- The search finds a shortest path. It finds none just if the target is listed by no role that can
be reached from the root through roles of the graph. A path that it finds goes from the root to the
target along listed parents, repeats no id, and is no longer than any other path. The search that
keeps predecessors and follows them back comes to an end, with the same result and no other. -/
theorem pathTo_shortest (g : RoleGraph) (target : String) (hne : target ≠ g.rootId) :
    (g.pathTo target = none ↔
        ¬∃ child, g.roles.Reaches g.rootId child ∧ g.roles.Lists child target) ∧
      (∀ path, g.pathTo target = some path →
        g.IsPathTo target path ∧ path.Nodup ∧
          ∀ other, g.IsPathTo target other → path.length ≤ other.length) ∧
      ∀ result, g.Finds target ⟨[g.rootId], []⟩ result ↔ result = g.pathTo target :=
  ⟨pathTo_eq_none_iff hne, fun _ hpath ↦ pathTo_path hpath, g.finds_iff target⟩

/-- A missing parent that two ways lead to, the longer of them first in every parent list, and a
loop. -/
theorem pathTo_shortest_two_ways :
    let g := ofRoles ⟨"a", [], ["b", "c"], true⟩
      [⟨"b", [], ["a", "d"], true⟩, ⟨"c", [], ["b", "x"], true⟩, ⟨"d", [], ["x"], true⟩]
    "x" ≠ g.rootId ∧ g.contains "x" = false ∧ g.IsPathTo "x" ["a", "b", "d", "x"] ∧
      g.pathTo "x" = some ["a", "c", "x"] ∧
      (∀ other, g.IsPathTo "x" other → 3 ≤ other.length) ∧
      g.Finds "x" ⟨[g.rootId], []⟩ (some ["a", "c", "x"]) := by
  intro g
  have hne : "x" ≠ g.rootId := by decide
  have hpath : g.pathTo "x" = some ["a", "c", "x"] := by
    simp only [g]
    decide +kernel
  have hlonger : g.IsPathTo "x" ["a", "b", "d", "x"] := by
    refine ⟨rfl, rfl, ?_⟩
    simp only [List.isChain_cons_cons, ← mem_listedParents_iff, ← List.contains_iff_mem]
    exact ⟨by cbv, by cbv, by cbv, List.isChain_singleton "x"⟩
  obtain ⟨-, hshortest, hfinds⟩ := pathTo_shortest g "x" hne
  exact ⟨hne, by cbv, hlonger, hpath, (hshortest _ hpath).2.2, (hfinds _).mpr hpath.symm⟩

end RoleAccess.RoleGraph
