import RoleAccess.Fault
import RoleAccess.Role.Roster
import RoleAccess.Role.Unmet

/-!
A role graph is a snapshot of a root role and of the roles above it. Walks go from a role to its
parents in the order of the parent list, and pass over parents that are not in the graph.
-/

set_option autoImplicit false
set_option relaxedAutoImplicit false

namespace RoleAccess

structure RoleGraph where
  roles : Roster
  rootId : String
  rooted : (roles.find? rootId).isSome

namespace RoleGraph

def ofRoot (root : Role) : RoleGraph where
  roles := Roster.empty.insert root
  rootId := root.id
  rooted := by simp [Roster.find?_insert]

def root (g : RoleGraph) : Role := (g.roles.find? g.rootId).get g.rooted

def insert (g : RoleGraph) (role : Role) : RoleGraph where
  roles := g.roles.insert role
  rootId := g.rootId
  rooted := by
    rw [Roster.find?_insert]
    split
    · rfl
    · exact g.rooted

def ofRoles (root : Role) (others : List Role) : RoleGraph := others.foldl insert (ofRoot root)

def find? (g : RoleGraph) (id : String) : Option Role := g.roles.find? id

def contains (g : RoleGraph) (id : String) : Bool := g.roles.contains id

def size (g : RoleGraph) : Nat := g.roles.size

/-- The parents that a role lists, whether or not they are in the graph. -/
def listedParents (g : RoleGraph) (id : String) : List String :=
  (g.find? id).elim [] Role.parents

/-- The parents of a role that are in the graph. -/
def parents (g : RoleGraph) (id : String) : List String :=
  (g.listedParents id).filter g.contains

/-- Every id that some role lists as a parent. -/
def parentNames (g : RoleGraph) : List String := g.roles.roles.flatMap Role.parents

theorem mem_parentNames {g : RoleGraph} {id parent : String} (h : parent ∈ g.listedParents id) :
    parent ∈ g.parentNames := by
  unfold listedParents at h
  cases hrole : g.find? id with
  | none => simp [hrole] at h
  | some role =>
    rw [hrole] at h
    have hmem : role ∈ g.roles.roles := by
      rw [Roster.mem_roles_iff, Roster.id_of_find? hrole]
      exact hrole
    exact List.mem_flatMap.mpr ⟨role, hmem, h⟩

/-! ### The first loop -/

/-- Looks for a loop above a role. `trail` holds the ids from the root down to the role's child,
the latest first, and `clean` the roles known to have no loop above them. The walk stops with the
closed chain of the first loop. As the trail repeats no id, `size` steps up are enough. -/
def loopAbove (g : RoleGraph) :
    Nat → List String → String → List String → Except (List String) (List String)
  | 0, _, _, clean => .ok clean
  | steps + 1, trail, id, clean => do
    let clean ← (g.parents id).foldlM
      (fun clean parent ↦
        if clean.contains parent then .ok clean
        else if (id :: trail).contains parent then .error (parent :: id :: trail).reverse
        else g.loopAbove steps (id :: trail) parent clean)
      clean
    return id :: clean

/-- The first loop that can be reached from the root, as a chain that ends where it closes. -/
def findCycle (g : RoleGraph) : Option (List String) :=
  match g.loopAbove g.size [] g.rootId [] with
  | .ok _ => none
  | .error chain => some chain

/-! ### Shortest paths -/

/-- The state of a breadth-first search: roles to look at, each with the ids that led to it, the
latest first, and every id met so far. -/
structure Search where
  queue : List (String × List String)
  met : List String

/-- Queues the parents of a role that have not been met. The search stops with the path to the
target as soon as it is among them. -/
def Search.meet (target : String) (path : List String) :
    Search → List String → Except (List String) Search
  | s, [] => .ok s
  | s, parent :: rest =>
    if s.met.contains parent then s.meet target path rest
    else if parent = target then .error (parent :: path)
    else Search.meet target path ⟨s.queue ++ [(parent, path)], parent :: s.met⟩ rest

theorem Search.meet_le {target : String} {path parents : List String} (names : List String)
    {s next : Search} (hparents : ∀ parent ∈ parents, parent ∈ names)
    (h : s.meet target path parents = .ok next) :
    next.queue.length + unmet names next.met ≤ s.queue.length + unmet names s.met := by
  induction parents generalizing s with
  | nil =>
    simp only [meet, Except.ok.injEq] at h
    exact h ▸ Nat.le_refl _
  | cons parent rest ih =>
    have hrest : ∀ p ∈ rest, p ∈ names := fun p hp ↦ hparents p (List.mem_cons_of_mem _ hp)
    unfold meet at h
    split at h
    next => exact ih hrest h
    next hnew =>
      split at h
      next => cases h
      next =>
        have hlt := unmet_cons_lt (Bool.eq_false_iff.mpr hnew)
          (hparents parent List.mem_cons_self)
        have := ih hrest h
        simp only [List.length_append, List.length_singleton] at this
        omega

/-- A bound on the rest of a search: what is queued, and what may still be. -/
def Search.left (g : RoleGraph) (s : Search) : Nat := s.queue.length + unmet g.parentNames s.met

theorem Search.left_lt {g : RoleGraph} {target id : String} {trail : List String}
    {rest : List (String × List String)} {s next : Search} (hq : s.queue = (id, trail) :: rest)
    (h : Search.meet target (id :: trail) ⟨rest, s.met⟩ (g.listedParents id) = .ok next) :
    next.left g < s.left g := by
  have := Search.meet_le g.parentNames (fun _ hp ↦ mem_parentNames hp) h
  simp only [left, hq, List.length_cons] at this ⊢
  omega

def Search.run (g : RoleGraph) (target : String) (s : Search) : Option (List String) :=
  match hq : s.queue with
  | [] => none
  | (id, trail) :: rest =>
    match h : Search.meet target (id :: trail) ⟨rest, s.met⟩ (g.listedParents id) with
    | .error path => some path.reverse
    | .ok next =>
      have := Search.left_lt hq h
      next.run g target
termination_by s.left g

/-- The shortest chain of parents from the root to another id, both included. The target need not
be in the graph itself. -/
def pathTo (g : RoleGraph) (target : String) : Option (List String) :=
  Search.run g target ⟨[(g.rootId, [])], [g.rootId]⟩

end RoleGraph

end RoleAccess
