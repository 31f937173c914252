import RoleAccess.Role.Source
import RoleAccess.Role.Unmet

/-!
The roles that inherit from a role: breadth first, each once, or as a tree of all the ways down that
repeat no role.
-/

set_option autoImplicit false
set_option relaxedAutoImplicit false

namespace RoleAccess

/-- The state of a walk downwards: the ids whose children are still to be listed, the ids met so
far, the roles found in order, and the ids whose children have been listed, the latest first. -/
structure Descent where
  queue : List String
  met : List String
  found : List Role
  asked : List String

/-- What a walk downwards comes to: the roles found or the first failure, and the ids whose children
were asked for, in order. -/
structure Descended where
  roles : Except RoleError (List Role)
  asked : List String

namespace Descent

def start (id : String) : Descent := ⟨[id], [id], [], []⟩

/-- Notes a child and queues it, once. -/
def meet (d : Descent) (child : Role) : Descent :=
  if d.met.contains child.id then d
  else
    { d with
      queue := d.queue ++ [child.id]
      met := child.id :: d.met
      found := d.found ++ [child] }

/-- A bound on the rest of a walk: what is queued, and what may still be. -/
def left (s : RoleSource) (d : Descent) : Nat :=
  d.queue.length + unmet (s.roster.roles.map Role.id) d.met

theorem left_meet_le {s : RoleSource} {d : Descent} {child : Role}
    (h : child ∈ s.roster.roles) : (d.meet child).left s ≤ d.left s := by
  unfold meet
  split
  next => exact Nat.le_refl _
  next hnew =>
    have := unmet_cons_lt (Bool.eq_false_iff.mpr hnew) (List.mem_map_of_mem h)
    simp only [left, List.length_append, List.length_singleton]
    omega

theorem left_foldl_meet_le {s : RoleSource} {children : List Role} {d : Descent}
    (h : ∀ child ∈ children, child ∈ s.roster.roles) :
    (children.foldl meet d).left s ≤ d.left s := by
  induction children generalizing d with
  | nil => exact Nat.le_refl _
  | cons child rest ih =>
    exact Nat.le_trans (ih fun c hc ↦ h c (List.mem_cons_of_mem _ hc))
      (left_meet_le (h child List.mem_cons_self))

theorem left_foldl_meet_lt {s : RoleSource} {id : String} {rest : List String}
    {children : List Role} {d : Descent} (hq : d.queue = id :: rest)
    (h : s.children id = .ok children) :
    (children.foldl meet { d with queue := rest, asked := id :: d.asked }).left s < d.left s := by
  have := left_foldl_meet_le (d := { d with queue := rest, asked := id :: d.asked })
    (RoleSource.mem_roles_of_children h)
  simp only [left, hq, List.length_cons] at this ⊢
  omega

/-- Lists the children of what is queued, until nothing new is met. -/
def finish (s : RoleSource) (d : Descent) : Descended :=
  match hq : d.queue with
  | [] => ⟨.ok d.found, d.asked.reverse⟩
  | id :: rest =>
    match h : s.children id with
    | .error e => ⟨.error e, (id :: d.asked).reverse⟩
    | .ok children =>
      have := left_foldl_meet_lt hq h
      finish s (children.foldl meet { d with queue := rest, asked := id :: d.asked })
termination_by d.left s

end Descent

namespace RoleSource

def descend (s : RoleSource) (id : String) : Descended := (Descent.start id).finish s

/-- Every role that inherits from a role, directly or not, the nearest first. -/
def descendants (s : RoleSource) (id : String) : Except RoleError (List Role) :=
  (s.descend id).roles

/-- The tree below a role that ends a path, at most so many steps deep. A child that is on the path
is left out. -/
def grow (s : RoleSource) : Nat → Nat → List String → Role → Except RoleError RoleTree
  | 0, depth, _, role => .ok (.node role depth [])
  | steps + 1, depth, path, role => do
    let path := role.id :: path
    let children ← s.children role.id
    let trees ← (children.filter (!path.contains ·.id)).mapM (s.grow steps (depth + 1) path)
    return .node role depth trees

/-- The tree of a role and of the roles below it, at most `limit` steps deep. -/
def tree (s : RoleSource) (limit : Nat) (id : String) : Except RoleError RoleTree := do
  s.grow limit 0 [] (← s.require id)

end RoleSource

end RoleAccess
