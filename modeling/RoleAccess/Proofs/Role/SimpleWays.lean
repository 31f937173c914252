import RoleAccess.Proofs.Role.Ancestorship
import RoleAccess.Proofs.Role.Descendants

/-!
The tree below a role is the tree of the ways down that repeat no role. Each node stands for one
such way, the way through the nodes above it, and each such way within the limit leads to one node
(`Resolver.tree_simple_ways`). As a way without repetition is no longer than there are roles, a
limit of that many steps leaves none out, and the tree has the ids that the walk downwards finds.
-/

set_option autoImplicit false
set_option relaxedAutoImplicit false

namespace RoleAccess

/-! ### Nodes and the ways to them -/

namespace RoleTree

mutual

/-- All nodes, each with the ids on the way down to it, both ends included. -/
def nodes : RoleTree → List (List String × RoleTree)
  | .node role depth children =>
    ([role.id], .node role depth children) ::
      (nodesOfAll children).map fun entry ↦ (role.id :: entry.1, entry.2)

def nodesOfAll : List RoleTree → List (List String × RoleTree)
  | [] => []
  | t :: rest => nodes t ++ nodesOfAll rest

end

/-- The ways down to all nodes. -/
def ways (t : RoleTree) : List (List String) := t.nodes.map Prod.fst

theorem nodesOfAll_eq (children : List RoleTree) :
    nodesOfAll children = children.flatMap nodes := by
  induction children with
  | nil => rfl
  | cons t rest ih => rw [nodesOfAll, ih, List.flatMap_cons]

theorem mem_nodes_node_iff {role : Role} {depth : Nat} {children : List RoleTree}
    {way : List String} {t : RoleTree} : (way, t) ∈ (node role depth children).nodes ↔
      (way = [role.id] ∧ t = .node role depth children) ∨
        ∃ below, way = role.id :: below ∧ ∃ child ∈ children, (below, t) ∈ child.nodes := by
  rw [nodes, nodesOfAll_eq, List.mem_cons, Prod.mk.injEq, List.mem_map]
  refine or_congr_right ⟨?_, ?_⟩
  · rintro ⟨⟨below, t⟩, hmem, heq⟩
    obtain ⟨rfl, rfl⟩ := Prod.mk.inj heq
    exact ⟨below, rfl, List.mem_flatMap.mp hmem⟩
  · rintro ⟨below, rfl, hmem⟩
    exact ⟨(below, t), List.mem_flatMap.mpr hmem, rfl⟩

theorem ways_node (role : Role) (depth : Nat) (children : List RoleTree) :
    (node role depth children).ways =
      [role.id] :: (children.flatMap ways).map (role.id :: ·) := by
  rw [ways, nodes, nodesOfAll_eq, List.map_cons, List.map_map, List.cons.injEq]
  refine ⟨rfl, ?_⟩
  induction children with
  | nil => rfl
  | cons t rest ih =>
    rw [List.flatMap_cons, List.flatMap_cons, List.map_append, List.map_append, ih, ways,
      List.map_map]
    rfl

theorem head?_of_mem_ways {t : RoleTree} {way : List String} (h : way ∈ t.ways) :
    way.head? = some t.role.id := by
  obtain ⟨role, depth, children⟩ := t
  rw [ways_node, List.mem_cons, List.mem_map] at h
  rcases h with rfl | ⟨below, -, rfl⟩ <;> rfl

mutual

/-- The ids of the tree are those of its nodes. -/
theorem map_id_nodes : (t : RoleTree) → (t.nodes.map fun entry ↦ entry.2.role.id) = t.ids
  | .node role depth children => by
    rw [nodes, ids, List.map_cons, List.map_map, ← map_id_nodesOfAll children]
    rfl

theorem map_id_nodesOfAll : (children : List RoleTree) →
    ((nodesOfAll children).map fun entry ↦ entry.2.role.id) = idsOfAll children
  | [] => rfl
  | t :: rest => by
    rw [nodesOfAll, idsOfAll, List.map_append, map_id_nodes t, map_id_nodesOfAll rest]

end

end RoleTree

/-! ### Ways down -/

namespace Roster

variable {r : Roster} {top id : String} {way below path : List String} {role child : Role}
  {steps depth : Nat}

/-- A way down from a role to roles that list the one before, on which no role is repeated. -/
structure IsWayDown (r : Roster) (top : String) (way : List String) : Prop where
  starts : way.head? = some top
  edges : way.IsChain fun parent child ↦ r.Lists child parent
  nodup : way.Nodup

theorem isWayDown_singleton (r : Roster) (top : String) : r.IsWayDown top [top] :=
  ⟨rfl, List.IsChain.singleton top, List.nodup_singleton top⟩

theorem IsWayDown.eq_cons (h : r.IsWayDown top way) : ∃ below, way = top :: below := by
  cases way with
  | nil => cases h.starts
  | cons first below => exact ⟨below, by rw [Option.some.inj h.starts]⟩

theorem IsWayDown.extend (h : r.IsWayDown id below) (hlists : r.Lists id top)
    (hnew : top ∉ below) : r.IsWayDown top (top :: below) := by
  obtain ⟨rest, rfl⟩ := h.eq_cons
  exact ⟨rfl, List.isChain_cons_cons.mpr ⟨hlists, h.edges⟩, List.nodup_cons.mpr ⟨hnew, h.nodup⟩⟩

theorem IsWayDown.of_cons (h : r.IsWayDown top (top :: id :: below)) :
    r.Lists id top ∧ r.IsWayDown id (id :: below) ∧ top ∉ id :: below := by
  obtain ⟨hlists, hedges⟩ := List.isChain_cons_cons.mp h.edges
  obtain ⟨hnew, hnodup⟩ := List.nodup_cons.mp h.nodup
  exact ⟨hlists, ⟨rfl, hedges, hnodup⟩, hnew⟩

theorem IsWayDown.names (h : r.IsWayDown top way) : ∀ id ∈ way, r.Names id top := by
  obtain ⟨below, rfl⟩ := h.eq_cons
  induction below generalizing top with
  | nil =>
    intro id hid
    rw [List.mem_singleton.mp hid]
  | cons next rest ih =>
    obtain ⟨hlists, hrest, -⟩ := h.of_cons
    intro id hid
    rcases List.mem_cons.mp hid with rfl | hid
    · exact .refl
    · exact (ih hrest id hid).tail hlists

theorem contains_of_names (htop : r.contains top = true) (h : r.Names id top) :
    r.contains id = true := by
  rcases Relation.ReflTransGen.cases_head h with rfl | ⟨parent, ⟨role, hrole, -⟩, -⟩
  · exact htop
  · exact contains_of_find? hrole

/-- Down to each role from which a role can be reached there is a way that repeats no role. -/
theorem exists_isWayDown (htop : r.contains top = true) (h : r.Names id top) :
    ∃ way, r.IsWayDown top way ∧ way.getLast? = some id ∧ way.length ≤ r.size := by
  have hreaches : r.Reaches id top := reaches_of_names h htop
  obtain ⟨above, hchain, hnodup, hlast⟩ := exists_chain_of_reaches hreaches
  refine ⟨(id :: above).reverse, ⟨?_, ?_, List.nodup_reverse.mpr hnodup⟩, ?_, ?_⟩
  · rw [List.head?_reverse, hlast]
  · rw [List.isChain_reverse]
    exact List.IsChain.imp (fun _ _ hedge ↦ hedge.1) hchain
  · rw [List.getLast?_reverse, List.head?_cons]
  · rw [List.length_reverse]
    refine length_le_size hnodup fun other hother ↦ ?_
    exact contains_of_reaches (contains_of_names htop h) (reaches_of_isChain hchain other hother)

/-! ### The tree -/

/-- The roles below a role at the end of a path, but for those that the path goes through. -/
def onward (r : Roster) (path : List String) (role : Role) : List Role :=
  (r.children role.id).filter (!(role.id :: path).contains ·.id)

/-- The tree that grows where no list of children fails. -/
def grown (r : Roster) : Nat → Nat → List String → Role → RoleTree
  | 0, depth, _, role => .node role depth []
  | steps + 1, depth, path, role =>
    .node role depth ((r.onward path role).map (r.grown steps (depth + 1) (role.id :: path)))

theorem mem_onward_iff : child ∈ r.onward path role ↔
    r.find? child.id = some child ∧ role.id ∈ child.parents ∧ child.id ∉ role.id :: path := by
  rw [onward, List.mem_filter, mem_children_iff, and_assoc]
  simp

theorem pairwise_onward (r : Roster) (path : List String) (role : Role) :
    (r.onward path role).Pairwise fun a b ↦ a.id < b.id :=
  (r.pairwise_roles.filter _).filter _

theorem role_grown (r : Roster) (steps depth : Nat) (path : List String) (role : Role) :
    (r.grown steps depth path role).role = role := by
  cases steps <;> rfl

theorem ways_grown_zero (r : Roster) (depth : Nat) (path : List String) (role : Role) :
    (r.grown 0 depth path role).ways = [[role.id]] := by
  rw [grown, RoleTree.ways_node, List.flatMap_nil, List.map_nil]

theorem ways_grown_succ (r : Roster) (steps depth : Nat) (path : List String) (role : Role) :
    (r.grown (steps + 1) depth path role).ways = [role.id] ::
      ((r.onward path role).flatMap fun child ↦
        (r.grown steps (depth + 1) (role.id :: path) child).ways).map (role.id :: ·) := by
  rw [grown, RoleTree.ways_node, List.flatMap_map]

/-- The ways to the nodes are those that are short enough and keep off the path. -/
theorem mem_ways_grown_iff (hnew : role.id ∉ path) :
    way ∈ (r.grown steps depth path role).ways ↔
      r.IsWayDown role.id way ∧ way.length ≤ steps + 1 ∧ ∀ x ∈ way, x ∉ path := by
  induction steps generalizing depth path role way with
  | zero =>
    rw [ways_grown_zero, List.mem_singleton]
    constructor
    · rintro rfl
      exact ⟨r.isWayDown_singleton role.id, le_rfl, List.forall_mem_singleton.mpr hnew⟩
    · rintro ⟨hway, hlength, -⟩
      obtain ⟨below, rfl⟩ := hway.eq_cons
      rw [List.length_cons] at hlength
      rw [List.length_eq_zero_iff.mp (by omega : below.length = 0)]
  | succ steps ih =>
    rw [ways_grown_succ, List.mem_cons, List.mem_map]
    simp only [List.mem_flatMap]
    constructor
    · rintro (rfl | ⟨below, ⟨child, hchild, hbelow⟩, rfl⟩)
      · exact ⟨r.isWayDown_singleton role.id, Nat.le_add_left _ _,
          List.forall_mem_singleton.mpr hnew⟩
      · obtain ⟨hfound, hparent, hoff⟩ := mem_onward_iff.mp hchild
        obtain ⟨hway, hlength, havoids⟩ := (ih hoff).mp hbelow
        have hrole : role.id ∉ below := fun hmem ↦ havoids role.id hmem List.mem_cons_self
        refine ⟨hway.extend ⟨child, hfound, hparent⟩ hrole, Nat.succ_le_succ hlength, ?_⟩
        refine List.forall_mem_cons.mpr ⟨hnew, fun x hx hpath ↦ ?_⟩
        exact havoids x hx (List.mem_cons_of_mem _ hpath)
    · rintro ⟨hway, hlength, havoids⟩
      obtain ⟨below, rfl⟩ := hway.eq_cons
      cases below with
      | nil => exact Or.inl rfl
      | cons next below =>
        obtain ⟨hlists, hrest, hoff⟩ := hway.of_cons
        obtain ⟨child, hfound, hparent⟩ := hlists
        obtain rfl := id_of_find? hfound
        have hkeeps : ∀ x ∈ child.id :: below, x ∉ role.id :: path := by
          intro x hx hmem
          rcases List.mem_cons.mp hmem with rfl | hmem
          · exact hoff hx
          · exact havoids x (List.mem_cons_of_mem _ hx) hmem
        have hchild : child.id ∉ role.id :: path := hkeeps child.id List.mem_cons_self
        refine Or.inr ⟨child.id :: below, ⟨child, mem_onward_iff.mpr ⟨hfound, hparent, hchild⟩, ?_⟩,
          rfl⟩
        exact (ih hchild).mpr ⟨hrest, Nat.le_of_succ_le_succ hlength, hkeeps⟩

/-- Different nodes are reached on different ways. -/
theorem nodup_ways_grown (r : Roster) (steps depth : Nat) (path : List String) (role : Role) :
    (r.grown steps depth path role).ways.Nodup := by
  induction steps generalizing depth path role with
  | zero =>
    rw [ways_grown_zero]
    exact List.nodup_singleton _
  | succ steps ih =>
    have hhead {child : Role} {below : List String}
        (h : below ∈ (r.grown steps (depth + 1) (role.id :: path) child).ways) :
        below.head? = some child.id := by
      rw [RoleTree.head?_of_mem_ways h, role_grown]
    rw [ways_grown_succ, List.nodup_cons, List.mem_map]
    refine ⟨?_, (List.nodup_flatMap.mpr ⟨fun child _ ↦ ih .., ?_⟩).map List.cons_injective⟩
    · rintro ⟨below, hbelow, heq⟩
      obtain ⟨child, -, hmem⟩ := List.mem_flatMap.mp hbelow
      rw [(List.cons.inj heq).2] at hmem
      cases hhead hmem
    · refine (r.pairwise_onward path role).imp fun {a b} hlt ↦ ?_
      intro below ha hb
      have hsame : some a.id = some b.id := (hhead ha).symm.trans (hhead hb)
      exact hlt.ne (Option.some.inj hsame)

/-- What holds of a node and the way to it, in a tree whose root has this depth. -/
structure IsNodeAt (r : Roster) (depth : Nat) (way : List String) (t : RoleTree) : Prop where
  depth : t.depth + 1 = depth + way.length
  ends : way.getLast? = some t.role.id
  held : r.find? t.role.id = some t.role
  ordered : (t.children.map (·.role.id)).Pairwise (· < ·)

theorem isNodeAt_grown (hrole : r.find? role.id = some role) {t : RoleTree}
    (h : (way, t) ∈ (r.grown steps depth path role).nodes) : r.IsNodeAt depth way t := by
  induction steps generalizing depth path role way with
  | zero =>
    rw [grown, RoleTree.mem_nodes_node_iff] at h
    obtain ⟨rfl, rfl⟩ | ⟨below, -, child, hchild, -⟩ := h
    · exact ⟨rfl, rfl, hrole, List.Pairwise.nil⟩
    · exact absurd hchild List.not_mem_nil
  | succ steps ih =>
    rw [grown, RoleTree.mem_nodes_node_iff] at h
    obtain ⟨rfl, rfl⟩ | ⟨below, rfl, tree, htree, hbelow⟩ := h
    · refine ⟨rfl, rfl, hrole, ?_⟩
      rw [RoleTree.children, List.map_map, List.pairwise_map]
      simp only [Function.comp_apply, role_grown]
      exact r.pairwise_onward path role
    · obtain ⟨child, hchild, rfl⟩ := List.mem_map.mp htree
      obtain ⟨hfound, -, -⟩ := mem_onward_iff.mp hchild
      have hnode := ih hfound hbelow
      refine ⟨?_, ?_, hnode.held, hnode.ordered⟩
      · rw [hnode.depth, List.length_cons]
        omega
      · rw [List.getLast?_cons, hnode.ends, Option.getD_some]

/-- The tree of the ways down from a role that repeat no role and have at most so many steps: one
node for each. -/
structure IsTreeOfWays (r : Roster) (limit : Nat) (root : Role) (t : RoleTree) : Prop where
  once : t.ways.Nodup
  ways : ∀ way, way ∈ t.ways ↔ r.IsWayDown root.id way ∧ way.length ≤ limit + 1
  node : ∀ way node, (way, node) ∈ t.nodes → r.IsNodeAt 0 way node

theorem isTreeOfWays_grown (hrole : r.find? role.id = some role) :
    r.IsTreeOfWays steps role (r.grown steps 0 [] role) where
  once := r.nodup_ways_grown steps 0 [] role
  ways way := by
    rw [mem_ways_grown_iff List.not_mem_nil]
    simp only [List.not_mem_nil, not_false_eq_true, implies_true, and_true]
  node _ _ hmem := isNodeAt_grown hrole hmem

/-- Where the limit is no bound, the tree has all roles below its root. -/
theorem IsTreeOfWays.mem_ids_iff {limit : Nat} {t : RoleTree} (h : r.IsTreeOfWays limit role t)
    (hrole : r.find? role.id = some role) (hsize : r.size ≤ limit) :
    id ∈ t.ids ↔ r.Names id role.id := by
  rw [← RoleTree.map_id_nodes, List.mem_map]
  constructor
  · rintro ⟨⟨way, node⟩, hmem, rfl⟩
    have hway := ((h.ways way).mp (List.mem_map_of_mem hmem)).1
    exact hway.names node.role.id (List.mem_of_getLast? (h.node way node hmem).ends)
  · intro hnames
    obtain ⟨way, hway, hlast, hlength⟩ := exists_isWayDown (contains_of_find? hrole) hnames
    have hin : way ∈ t.ways := (h.ways way).mpr ⟨hway, by omega⟩
    obtain ⟨⟨way, node⟩, hmem, rfl⟩ := List.mem_map.mp hin
    exact ⟨(way, node), hmem, Option.some.inj ((h.node way node hmem).ends.symm.trans hlast)⟩

/-- Two roles that inherit from each other, and one that inherits from both. -/
def looped : Roster :=
  .ofList [⟨"a", [], ["b"], true⟩, ⟨"b", [], ["a"], true⟩, ⟨"c", [], ["a", "b"], true⟩]

end Roster

/-! ### What a resolver answers -/

theorem RoleSource.grow_of_no_failure {s : RoleSource} (h : s.failedChildren = [])
    (steps depth : Nat) (path : List String) (role : Role) :
    s.grow steps depth path role = .ok (s.roster.grown steps depth path role) := by
  induction steps generalizing depth path role with
  | zero => rfl
  | succ steps ih =>
    have hchildren : s.children role.id = .ok (s.roster.children role.id) := by
      simp [RoleSource.children, h]
    have hgrow : s.grow steps (depth + 1) (role.id :: path) =
        fun child ↦ pure (s.roster.grown steps (depth + 1) (role.id :: path) child) :=
      funext (ih (depth + 1) (role.id :: path))
    rw [grow, hchildren, hgrow, Roster.grown, Roster.onward]
    simp only [bind, Except.bind, List.mapM_pure]
    rfl

namespace Resolver

/-- Over any roster, with loops in it or without, the tree below a role has one node for each way
down that repeats no role and has no more steps than the limit. With a limit of at least as many
steps as there are roles, the ids below the root are those that the walk downwards finds. -/
theorem tree_simple_ways (o : ResolverOptions) {roster : Roster} {root : Role}
    (hroot : roster.find? root.id = some root) :
    ∃ t, (ofRoster o roster).tree root.id = .ok t ∧ roster.IsTreeOfWays o.maxDepth root t ∧
      (roster.size ≤ o.maxDepth →
        ∃ below, (ofRoster o roster).source.descendants root.id = .ok below ∧
          ∀ id, (id ∈ t.ids ∧ id ≠ root.id) ↔ id ∈ below.map Role.id) := by
  have htree : roster.IsTreeOfWays o.maxDepth root (roster.grown o.maxDepth 0 [] root) :=
    Roster.isTreeOfWays_grown hroot
  refine ⟨roster.grown o.maxDepth 0 [] root, ?_, htree, fun hsize ↦ ?_⟩
  · have hrequire := RoleSource.require_of_no_failure (s := (ofRoster o roster).source) rfl hroot
    rw [tree, RoleSource.tree, hrequire]
    exact RoleSource.grow_of_no_failure rfl o.maxDepth 0 [] root
  · obtain ⟨below, hbelow, -, hnodup, hids, -⟩ :=
      RoleSource.exists_descendants (s := (ofRoster o roster).source) rfl root.id
    refine ⟨below, hbelow, fun id ↦ ?_⟩
    rw [htree.mem_ids_iff hroot hsize]
    have hmem : id ∈ root.id :: below.map Role.id ↔ roster.Names id root.id := hids id
    rw [← hmem, List.mem_cons]
    constructor
    · rintro ⟨heq | hid, hne⟩
      · exact absurd heq hne
      · exact hid
    · intro hid
      exact ⟨Or.inr hid, fun heq ↦ (List.nodup_cons.mp hnodup).1 (heq ▸ hid)⟩

/-- The role that inherits from both others stands at the end of two ways, and the loop between them
is not walked again. -/
theorem tree_simple_ways_looped :
    ∃ t, (ofRoster { maxDepth := 3 } Roster.looped).tree "a" = .ok t ∧
      ["a", "b", "c"] ∈ t.ways ∧ ["a", "c"] ∈ t.ways ∧ ["a", "b", "a"] ∉ t.ways ∧
      ∃ below, (ofRoster { maxDepth := 3 } Roster.looped).source.descendants "a" = .ok below ∧
        "c" ∈ below.map Role.id := by
  have hroot : Roster.looped.find? (⟨"a", [], ["b"], true⟩ : Role).id = some _ := rfl
  have hlists (child parent : String) (hmem : parent ∈ Roster.looped.listed child) :
      Roster.looped.Lists child parent := Roster.mem_listed_iff.mp hmem
  have hlong : Roster.looped.IsWayDown "a" ["a", "b", "c"] :=
    ⟨rfl, .cons_cons (hlists "b" "a" (by decide)) (.cons_cons (hlists "c" "b" (by decide))
      (.singleton "c")), by decide⟩
  have hshort : Roster.looped.IsWayDown "a" ["a", "c"] :=
    ⟨rfl, .cons_cons (hlists "c" "a" (by decide)) (.singleton "c"), by decide⟩
  obtain ⟨t, ht, htree, hbelow⟩ := tree_simple_ways { maxDepth := 3 } hroot
  obtain ⟨below, hdescendants, hids⟩ := hbelow (by decide)
  have hin : ["a", "b", "c"] ∈ t.ways := (htree.ways _).mpr ⟨hlong, by decide⟩
  refine ⟨t, ht, hin, (htree.ways _).mpr ⟨hshort, by decide⟩, fun hback ↦ ?_, below, hdescendants,
    (hids "c").mp ⟨?_, by decide⟩⟩
  · exact absurd ((htree.ways _).mp hback).1.nodup (by decide)
  · exact (htree.mem_ids_iff hroot (by decide)).mpr (hlong.names "c" (by decide))

end Resolver

end RoleAccess
