import RoleAccess.Role.Graph

/-!
The ancestors of the root of a graph, depth first in the order of the parent lists, and the length
of the longest chain of parents. A loop, or a chain longer than a limit, either stops the walk or is
passed over.
-/

set_option autoImplicit false
set_option relaxedAutoImplicit false

namespace RoleAccess

/-- How a walk upwards treats loops and long chains: with `strict` they are errors, without it the
edge that closes the loop or goes past the limit is passed over. -/
structure WalkMode where
  limit : Nat
  strict : Bool
deriving DecidableEq, Repr

structure Ancestry where
  ids : List String
  height : Nat
deriving DecidableEq, Repr

/-- What a walk has found: the ancestors in the order of their discovery, and for each role that
was left again the height above it and the least depth it was entered at. -/
structure Walk where
  collected : List String := []
  finished : Std.TreeMap String (Nat × Nat) := ∅

namespace Walk

/-- Notes an ancestor, once. -/
def meet (w : Walk) (id : String) : Walk :=
  if w.collected.contains id then w else { w with collected := w.collected ++ [id] }

/-- Notes the height above a role that has been walked. -/
def finish (w : Walk) (id : String) (height depth : Nat) : Walk :=
  let least :=
    match w.finished[id]? with
    | some (_, reached) => min reached depth
    | none => depth
  { w with finished := w.finished.insert id (height, least) }

/-- The height above a role, if it need not be walked again from this depth: no chain through it
can be too long, or it has been entered at this depth or above. -/
def known? (w : Walk) (mode : WalkMode) (id : String) (depth : Nat) : Option Nat :=
  match w.finished[id]? with
  | none => none
  | some (height, reached) =>
    if mode.strict then if depth + height ≤ mode.limit then some height else none
    else if reached ≤ depth then some height else none

/-- One parent of a role at the end of `trail`, which holds the ids from the role to the root. The
walk goes on with `ascend` unless the limit is reached. -/
def step (mode : WalkMode) (trail : List String)
    (ascend : Option (String → Walk → Except RoleError (Nat × Walk)))
    (found : Nat × Walk) (parent : String) : Except RoleError (Nat × Walk) :=
  let (height, w) := found
  if trail.contains parent then
    if mode.strict then .error (RoleError.cycle (parent :: trail).reverse) else .ok found
  else
    match ascend with
    | none =>
      if mode.strict then
        .error (RoleError.tooDeep (parent :: trail).reverse trail.length mode.limit)
      else .ok found
    | some ascend =>
      let w := w.meet parent
      match w.known? mode parent trail.length with
      | some above => .ok (max height (above + 1), w)
      | none => do
        let (above, w) ← ascend parent w
        return (max height (above + 1), w)

/-- All parents of a role, and then the height above it. -/
def explore (g : RoleGraph) (mode : WalkMode) (trail : List String)
    (ascend : Option (String → Walk → Except RoleError (Nat × Walk)))
    (id : String) (w : Walk) : Except RoleError (Nat × Walk) := do
  let (height, w) ← (g.parents id).foldlM (step mode (id :: trail) ascend) (0, w)
  return (height, w.finish id height trail.length)

/-- Walks upwards from a role at most so many steps. -/
def visit (g : RoleGraph) (mode : WalkMode) :
    Nat → List String → String → Walk → Except RoleError (Nat × Walk)
  | 0, trail, id, w => explore g mode trail none id w
  | steps + 1, trail, id, w => explore g mode trail (some (visit g mode steps (id :: trail))) id w

end Walk

/-- The ancestors of the root and the length of its longest chain of parents. -/
def RoleGraph.ancestors (g : RoleGraph) (mode : WalkMode) : Except RoleError Ancestry := do
  let (height, w) ← Walk.visit g mode mode.limit [] g.rootId {}
  return ⟨w.collected, height⟩

end RoleAccess
