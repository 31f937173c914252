import RoleAccess.Role.Graph
import RoleAccess.Role.Source

/-!
A snapshot of the roles above a role. They are looked up breadth first, each id at most once; ids
without a role are left out, and the first lookup that fails ends the loading.
-/

set_option autoImplicit false
set_option relaxedAutoImplicit false

namespace RoleAccess

/-- The state of a loading: the ids still to look at, the graph so far, and the ids that have been
looked up, the latest first. -/
structure Loading where
  queue : List String
  graph : RoleGraph
  asked : List String

/-- What a loading comes to: the graph or the first failure, and the ids in the order of their
lookups. -/
structure Loaded where
  graph : Except RoleError RoleGraph
  asked : List String

namespace RoleSource

/-- Every role's id, as many times as the role lists parents. -/
def idsByParents (s : RoleSource) : List String :=
  s.roster.roles.flatMap fun role ↦ List.replicate role.parents.length role.id

theorem parents_length_le_count {roles : List Role} {role : Role} (h : role ∈ roles) :
    role.parents.length ≤
      (roles.flatMap fun r ↦ List.replicate r.parents.length r.id).count role.id := by
  induction roles with
  | nil => cases h
  | cons first rest ih =>
    rw [List.flatMap_cons, List.count_append]
    rcases List.mem_cons.mp h with rfl | hrest
    · rw [List.count_replicate_self]
      omega
    · have := ih hrest
      omega

/-- Whether an id needs no lookup: it is that of the root, or has been looked up. -/
def isKnown (l : Loading) (id : String) : Bool := id == l.graph.rootId || l.asked.contains id

/-- A bound on the rest of a loading: what is queued, and what may still be. -/
def toLoad (s : RoleSource) (l : Loading) : Nat := l.queue.length + unmet s.idsByParents l.asked

theorem toLoad_found {s : RoleSource} {l : Loading} {id : String} {rest : List String} {role : Role}
    (hq : l.queue = id :: rest) (hnew : ¬isKnown l id = true)
    (hfind : s.find? id = .ok (some role)) (graph : RoleGraph) :
    s.toLoad ⟨rest ++ role.parents, graph, id :: l.asked⟩ < s.toLoad l := by
  have hask : l.asked.contains id = false := by
    simp only [isKnown, Bool.or_eq_true, not_or] at hnew
    exact Bool.eq_false_iff.mpr hnew.2
  have hsum := unmet_cons_add_count hask s.idsByParents
  have hle := parents_length_le_count (mem_roles_of_find? hfind)
  rw [id_of_find? hfind] at hle
  simp only [idsByParents] at hsum
  simp only [toLoad, idsByParents, hq, List.length_append, List.length_cons]
  omega

theorem toLoad_missing {s : RoleSource} {l : Loading} {id : String} {rest : List String}
    (hq : l.queue = id :: rest) (hnew : ¬isKnown l id = true) (graph : RoleGraph) :
    s.toLoad ⟨rest, graph, id :: l.asked⟩ < s.toLoad l := by
  have hask : l.asked.contains id = false := by
    simp only [isKnown, Bool.or_eq_true, not_or] at hnew
    exact Bool.eq_false_iff.mpr hnew.2
  have := unmet_cons_add_count hask s.idsByParents
  simp only [toLoad, hq, List.length_cons]
  omega

theorem toLoad_known {s : RoleSource} {l : Loading} {id : String} {rest : List String}
    (hq : l.queue = id :: rest) : s.toLoad { l with queue := rest } < s.toLoad l := by
  simp only [toLoad, hq, List.length_cons]
  omega

/-- Looks up what is queued, and queues the parents of what is found. -/
def finish (s : RoleSource) (l : Loading) : Loaded :=
  match hq : l.queue with
  | [] => ⟨.ok l.graph, l.asked.reverse⟩
  | id :: rest =>
    if hknown : isKnown l id then
      have := toLoad_known (s := s) hq
      s.finish { l with queue := rest }
    else
      match hfind : s.find? id with
      | .error e => ⟨.error e, (id :: l.asked).reverse⟩
      | .ok none =>
        have := toLoad_missing (s := s) hq hknown l.graph
        s.finish ⟨rest, l.graph, id :: l.asked⟩
      | .ok (some role) =>
        have := toLoad_found hq hknown hfind (l.graph.insert role)
        s.finish ⟨rest ++ role.parents, l.graph.insert role, id :: l.asked⟩
termination_by s.toLoad l

/-- Loads the roles above a role. -/
def load (s : RoleSource) (root : Role) : Loaded :=
  s.finish ⟨root.parents, RoleGraph.ofRoot root, []⟩

/-- The graph of a role and of the roles above it. -/
def snapshot (s : RoleSource) (root : Role) : Except RoleError RoleGraph := (s.load root).graph

end RoleSource

end RoleAccess
