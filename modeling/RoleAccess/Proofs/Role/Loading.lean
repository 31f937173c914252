import RoleAccess.Proofs.Role.Lineage
import RoleAccess.Role.Snapshot

/-!
What the loading of a snapshot comes to. A snapshot holds exactly the roles of the roster that can
be reached from its root by parent edges (`find?_snapshot_iff`), and two sources that answer alike
for every id named above the root have the same snapshot (`load_congr`).
-/

set_option autoImplicit false
set_option relaxedAutoImplicit false

namespace RoleAccess.RoleSource

open Relation

theorem roster_find?_of_find? {s : RoleSource} {id : String} {found : Option Role}
    (h : s.find? id = .ok found) : s.roster.find? id = found := by
  unfold find? at h
  split at h
  · cases h
  · exact Except.ok.inj h

theorem not_failed_of_find? {s : RoleSource} {id : String} {found : Option Role}
    (h : s.find? id = .ok found) : id ∉ s.failedFinds := by
  unfold find? at h
  split at h
  · cases h
  next hanswers => exact fun hmem ↦ hanswers (List.contains_iff_mem.mpr hmem)

theorem failed_of_find? {s : RoleSource} {id : String} {e : RoleError}
    (h : s.find? id = .error e) : id ∈ s.failedFinds ∧ e = .source ("find " ++ id) := by
  unfold find? at h
  split at h
  next hfails => exact ⟨List.contains_iff_mem.mp hfails, (Except.error.inj h).symm⟩
  · cases h

theorem find?_of_failed {s : RoleSource} {id : String} (h : id ∈ s.failedFinds) :
    s.find? id = .error (.source ("find " ++ id)) :=
  if_pos (List.contains_iff_mem.mpr h)

theorem find?_of_not_failed {s : RoleSource} {id : String} (h : id ∉ s.failedFinds) :
    s.find? id = .ok (s.roster.find? id) :=
  if_neg (mt List.contains_iff_mem.mp h)

theorem require_eq_ok_iff {s : RoleSource} {id : String} {root : Role} :
    s.require id = .ok root ↔ s.find? id = .ok (some root) := by
  unfold require
  rcases s.find? id with e | _ | role
  · simp [bind, Except.bind]
  · simp [bind, Except.bind, throw, throwThe, MonadExceptOf.throw]
  · simp [bind, Except.bind, pure, Except.pure]

theorem id_of_require {s : RoleSource} {id : String} {root : Role} (h : s.require id = .ok root) :
    root.id = id :=
  id_of_find? (require_eq_ok_iff.mp h)

theorem roster_find?_of_require {s : RoleSource} {id : String} {root : Role}
    (h : s.require id = .ok root) : s.roster.find? id = some root :=
  roster_find?_of_find? (require_eq_ok_iff.mp h)

/-! ### What a loading keeps -/

/-- Every role in the graph is one of the roster above the root, every id that has been looked up is
in the graph if it is in the roster, and whatever a loaded role lists is looked up or queued. -/
structure LoadsFrom (s : RoleSource) (root : String) (l : Loading) : Prop where
  rooted : l.graph.rootId = root
  faithful : ∀ id role, l.graph.find? id = some role →
    s.roster.find? id = some role ∧ s.roster.Reaches root id
  settled : ∀ id, isKnown l id = true → l.graph.find? id = s.roster.find? id
  closed : ∀ child parent, l.graph.roles.Lists child parent →
    parent ∈ l.queue ∨ isKnown l parent = true
  queued : ∀ id ∈ l.queue, ∃ child, s.roster.Reaches root child ∧ s.roster.Lists child id

theorem isKnown_asked {l : Loading} {id other : String} (queue : List String) (graph : RoleGraph)
    (hroot : graph.rootId = l.graph.rootId) :
    isKnown ⟨queue, graph, id :: l.asked⟩ other = true ↔ other = id ∨ isKnown l other = true := by
  simp only [isKnown, hroot, List.contains_cons, Bool.or_eq_true, beq_iff_eq]
  tauto

namespace LoadsFrom

variable {s : RoleSource} {root : String} {l : Loading} {id : String} {rest : List String}

theorem known (h : s.LoadsFrom root l) (hq : l.queue = id :: rest) (hknown : isKnown l id = true) :
    s.LoadsFrom root { l with queue := rest } where
  rooted := h.rooted
  faithful := h.faithful
  settled := h.settled
  closed child parent hlists := by
    rcases h.closed child parent hlists with hmem | hdone
    · rw [hq, List.mem_cons] at hmem
      rcases hmem with rfl | hmem
      · exact Or.inr hknown
      · exact Or.inl hmem
    · exact Or.inr hdone
  queued other hmem := h.queued other (hq ▸ List.mem_cons_of_mem _ hmem)

theorem missing (h : s.LoadsFrom root l) (hq : l.queue = id :: rest)
    (hfind : s.find? id = .ok none) : s.LoadsFrom root ⟨rest, l.graph, id :: l.asked⟩ where
  rooted := h.rooted
  faithful := h.faithful
  settled other hother := by
    rcases (isKnown_asked rest l.graph rfl).mp hother with rfl | hknown
    · have hnone := roster_find?_of_find? hfind
      cases hg : l.graph.find? other with
      | none => exact hnone.symm
      | some role => rw [(h.faithful other role hg).1] at hnone; cases hnone
    · exact h.settled other hknown
  closed child parent hlists := by
    rw [isKnown_asked rest l.graph rfl]
    rcases h.closed child parent hlists with hmem | hdone
    · rw [hq, List.mem_cons] at hmem
      tauto
    · exact Or.inr (Or.inr hdone)
  queued other hmem := h.queued other (hq ▸ List.mem_cons_of_mem _ hmem)

theorem found (h : s.LoadsFrom root l) (hq : l.queue = id :: rest) {role : Role}
    (hfind : s.find? id = .ok (some role)) :
    s.LoadsFrom root ⟨rest ++ role.parents, l.graph.insert role, id :: l.asked⟩ := by
  have hroster := roster_find?_of_find? hfind
  obtain rfl := Roster.id_of_find? hroster
  have hreach : s.roster.Reaches root role.id := by
    obtain ⟨child, hchild, hlists⟩ := h.queued role.id (hq ▸ List.mem_cons_self)
    exact hchild.tail ⟨hlists, Roster.contains_of_find? hroster⟩
  have hget : ∀ other, (l.graph.insert role).find? other =
      if role.id = other then some role else l.graph.find? other :=
    Roster.find?_insert l.graph.roles role
  refine ⟨h.rooted, fun other held hheld ↦ ?_, fun other hother ↦ ?_, fun child parent hlists ↦ ?_,
    fun other hmem ↦ ?_⟩
  · rw [hget] at hheld
    split at hheld
    next heq =>
      cases hheld
      exact heq ▸ ⟨hroster, hreach⟩
    next => exact h.faithful other held hheld
  · rw [hget]
    rcases (isKnown_asked _ (l.graph.insert role) rfl).mp hother with rfl | hknown
    · rw [if_pos rfl, hroster]
    · split
      next heq => rw [← heq, hroster]
      next => exact h.settled other hknown
  · rw [isKnown_asked _ (l.graph.insert role) rfl, List.mem_append]
    obtain ⟨held, hheld, hparent⟩ := hlists
    change (l.graph.insert role).find? child = some held at hheld
    rw [hget] at hheld
    split at hheld
    next =>
      cases hheld
      exact Or.inl (Or.inr hparent)
    next =>
      rcases h.closed child parent ⟨held, hheld, hparent⟩ with hmem | hdone
      · rw [hq, List.mem_cons] at hmem
        tauto
      · exact Or.inr (Or.inr hdone)
  · rcases List.mem_append.mp hmem with hmem | hmem
    · exact h.queued other (hq ▸ List.mem_cons_of_mem _ hmem)
    · exact ⟨role.id, hreach, role, hroster, hmem⟩

/-- A loading that comes to its end has the root and all roles above it. -/
theorem finish {g : RoleGraph} (h : s.LoadsFrom root l) (hg : (s.finish l).graph = .ok g) :
    ∃ asked, s.LoadsFrom root ⟨[], g, asked⟩ := by
  fun_induction RoleSource.finish s l with
  | case1 l hq =>
    cases hg
    exact ⟨l.asked, hq ▸ h⟩
  | case2 l id rest hq hknown _ ih => exact ih (h.known hq hknown) hg
  | case3 l id rest hq hknown e hfind => cases hg
  | case4 l id rest hq hknown hfind _ ih => exact ih (h.missing hq hfind) hg
  | case5 l id rest hq hknown role hfind _ ih => exact ih (h.found hq hfind) hg

end LoadsFrom

theorem loadsFrom_root {s : RoleSource} {root : Role} (h : s.roster.find? root.id = some root) :
    s.LoadsFrom root.id ⟨root.parents, RoleGraph.ofRoot root, []⟩ := by
  have hget : ∀ other, (RoleGraph.ofRoot root).find? other =
      if root.id = other then some root else none := by
    intro other
    rw [RoleGraph.ofRoot, RoleGraph.find?, Roster.find?_insert]
    simp [Roster.find?, Roster.empty]
  refine ⟨rfl, fun id role hheld ↦ ?_, fun id hid ↦ ?_, fun child parent hlists ↦ ?_,
    fun id hmem ↦ ⟨root.id, .refl, root, h, hmem⟩⟩
  · rw [hget] at hheld
    split at hheld
    next heq =>
      cases hheld
      exact heq ▸ ⟨h, .refl⟩
    next => cases hheld
  · have hroot : id = root.id := by simpa [isKnown, RoleGraph.ofRoot] using hid
    rw [hget, hroot, if_pos rfl, h]
  · obtain ⟨held, hheld, hparent⟩ := hlists
    change (RoleGraph.ofRoot root).find? child = some held at hheld
    rw [hget] at hheld
    split at hheld
    next =>
      cases hheld
      exact Or.inl hparent
    next => cases hheld

/-! ### The snapshot -/

/-- A snapshot holds the roles of the roster that can be reached from its root, and no others. -/
theorem find?_snapshot_iff {s : RoleSource} {root : Role} {g : RoleGraph}
    (hroot : s.roster.find? root.id = some root) (hg : s.snapshot root = .ok g) :
    g.rootId = root.id ∧ ∀ id role, g.find? id = some role ↔
      s.roster.find? id = some role ∧ s.roster.Reaches root.id id := by
  obtain ⟨asked, hloaded⟩ := (loadsFrom_root hroot).finish hg
  refine ⟨hloaded.rooted, fun id role ↦ ⟨hloaded.faithful id role, ?_⟩⟩
  rintro ⟨hrole, hreach⟩
  suffices hsame : g.find? id = s.roster.find? id from hsame.trans hrole
  clear hrole
  induction hreach with
  | refl =>
    refine hloaded.settled _ ?_
    rw [isKnown, hloaded.rooted]
    simp
  | @tail child parent _ hedge ih =>
    obtain ⟨hlists, -⟩ := hedge
    rcases hloaded.closed child parent (hlists.congr ih) with hmem | hknown
    · cases hmem
    · exact hloaded.settled parent hknown

/-- The parent edges of a snapshot are those of the roster above its root. -/
theorem parent_snapshot_iff {s : RoleSource} {root : Role} {g : RoleGraph}
    (hroot : s.roster.find? root.id = some root) (hg : s.snapshot root = .ok g)
    {child parent : String} :
    g.roles.Parent child parent ↔
      s.roster.Reaches root.id child ∧ s.roster.Parent child parent := by
  obtain ⟨-, hfind⟩ := find?_snapshot_iff hroot hg
  constructor
  · rintro ⟨⟨role, hrole, hmem⟩, hparent⟩
    obtain ⟨held, hheld⟩ := Roster.exists_of_contains hparent
    obtain ⟨hchild, hreach⟩ := (hfind child role).mp hrole
    exact ⟨hreach, ⟨role, hchild, hmem⟩, Roster.contains_of_find? ((hfind parent held).mp hheld).1⟩
  · rintro ⟨hreach, hedge⟩
    obtain ⟨⟨role, hrole, hmem⟩, hparent⟩ := id hedge
    obtain ⟨held, hheld⟩ := Roster.exists_of_contains hparent
    exact ⟨⟨role, (hfind child role).mpr ⟨hrole, hreach⟩, hmem⟩,
      Roster.contains_of_find? ((hfind parent held).mpr ⟨hheld, hreach.tail hedge⟩)⟩

/-- The chains of parents above the root are the same in a snapshot as in the roster. -/
theorem isChainAbove_snapshot_iff {s : RoleSource} {root : Role} {g : RoleGraph}
    (hroot : s.roster.find? root.id = some root) (hg : s.snapshot root = .ok g)
    {above : List String} :
    g.roles.IsChainAbove root.id above ↔ s.roster.IsChainAbove root.id above := by
  constructor
  · intro h
    exact h.imp fun child parent hedge ↦ ((parent_snapshot_iff hroot hg).mp hedge).2
  -- A chain that starts at the root only has edges above the root.
  · suffices hfrom : ∀ id, s.roster.Reaches root.id id → s.roster.IsChainAbove id above →
        g.roles.IsChainAbove id above from hfrom root.id .refl
    induction above with
    | nil => exact fun id _ _ ↦ List.IsChain.singleton id
    | cons next rest ih =>
      intro id hway h
      obtain ⟨hedge, hrest⟩ := List.isChain_cons_cons.mp h
      have hnext := ih next (hway.tail hedge) hrest
      exact List.isChain_cons_cons.mpr ⟨(parent_snapshot_iff hroot hg).mpr ⟨hway, hedge⟩, hnext⟩

/-- The ways upwards above the root are the same in a snapshot as in the roster. -/
theorem transGen_snapshot_iff {s : RoleSource} {root : Role} {g : RoleGraph}
    (hroot : s.roster.find? root.id = some root) (hg : s.snapshot root = .ok g) {id other : String}
    (hid : s.roster.Reaches root.id id) :
    Relation.TransGen g.roles.Parent id other ↔ Relation.TransGen s.roster.Parent id other := by
  constructor
  · exact Relation.TransGen.mono (fun _ _ hedge ↦ ((parent_snapshot_iff hroot hg).mp hedge).2) _ _
  · intro h
    induction h with
    | single hedge => exact .single ((parent_snapshot_iff hroot hg).mpr ⟨hid, hedge⟩)
    | tail hway hedge ih =>
      have hreach := hid.trans hway.to_reflTransGen
      exact ih.tail ((parent_snapshot_iff hroot hg).mpr ⟨hreach, hedge⟩)

/-- The ids named above the root are the same in a snapshot as in the roster. -/
theorem names_snapshot_iff {s : RoleSource} {root : Role} {g : RoleGraph}
    (hroot : s.roster.find? root.id = some root) (hg : s.snapshot root = .ok g) {other : String} :
    g.roles.Names root.id other ↔ s.roster.Names root.id other := by
  obtain ⟨-, hfind⟩ := find?_snapshot_iff hroot hg
  constructor
  · intro h
    refine Relation.ReflTransGen.mono (fun child parent ⟨role, hrole, hmem⟩ ↦ ?_) _ _ h
    exact ⟨role, ((hfind child role).mp hrole).1, hmem⟩
  · intro h
    induction h with
    | refl => exact .refl
    | @tail child parent hway hlists ih =>
      obtain ⟨role, hrole, hmem⟩ := hlists
      have hreach := Roster.reaches_of_names hway (Roster.contains_of_find? hrole)
      exact ih.tail ⟨role, (hfind child role).mpr ⟨hrole, hreach⟩, hmem⟩

/-! ### Sources that always answer -/

theorem find?_of_no_failure {s : RoleSource} (h : s.failedFinds = []) (id : String) :
    s.find? id = .ok (s.roster.find? id) :=
  find?_of_not_failed (h ▸ List.not_mem_nil)

theorem require_of_no_failure {s : RoleSource} {root : Role} (h : s.failedFinds = [])
    (hroot : s.roster.find? root.id = some root) : s.require root.id = .ok root :=
  require_eq_ok_iff.mpr ((find?_of_no_failure h root.id).trans (congrArg Except.ok hroot))

theorem exists_finish_of_no_failure {s : RoleSource} (h : s.failedFinds = []) (l : Loading) :
    ∃ g, (s.finish l).graph = .ok g := by
  fun_induction RoleSource.finish s l with
  | case1 l hq => exact ⟨l.graph, rfl⟩
  | case2 l id rest hq hknown _ ih => exact ih
  | case3 l id rest hq hknown e hfind =>
    rw [find?_of_no_failure h] at hfind
    cases hfind
  | case4 l id rest hq hknown hfind _ ih => exact ih
  | case5 l id rest hq hknown role hfind _ ih => exact ih

theorem exists_snapshot_of_no_failure {s : RoleSource} (h : s.failedFinds = []) (root : Role) :
    ∃ g, s.snapshot root = .ok g :=
  exists_finish_of_no_failure h _

/-! ### What a snapshot depends on -/

section Steps

variable {s : RoleSource} {l : Loading} {id : String} {rest : List String}

theorem finish_of_nil (hq : l.queue = []) : s.finish l = ⟨.ok l.graph, l.asked.reverse⟩ := by
  rw [finish]
  split
  · rfl
  · simp_all

theorem finish_of_known (hq : l.queue = id :: rest) (hknown : isKnown l id = true) :
    s.finish l = s.finish { l with queue := rest } := by
  rw [finish]
  split
  · simp_all
  next hq' =>
    obtain ⟨rfl, rfl⟩ := List.cons.inj (hq.symm.trans hq')
    rw [dif_pos hknown]

theorem finish_of_failed (hq : l.queue = id :: rest) (hnew : ¬isKnown l id = true) {e : RoleError}
    (hfind : s.find? id = .error e) : s.finish l = ⟨.error e, (id :: l.asked).reverse⟩ := by
  rw [finish]
  split
  · simp_all
  next hq' =>
    obtain ⟨rfl, rfl⟩ := List.cons.inj (hq.symm.trans hq')
    rw [dif_neg hnew]
    split <;> simp_all

theorem finish_of_missing (hq : l.queue = id :: rest) (hnew : ¬isKnown l id = true)
    (hfind : s.find? id = .ok none) : s.finish l = s.finish ⟨rest, l.graph, id :: l.asked⟩ := by
  rw [finish]
  split
  · simp_all
  next hq' =>
    obtain ⟨rfl, rfl⟩ := List.cons.inj (hq.symm.trans hq')
    rw [dif_neg hnew]
    split <;> simp_all

theorem finish_of_found (hq : l.queue = id :: rest) (hnew : ¬isKnown l id = true) {role : Role}
    (hfind : s.find? id = .ok (some role)) :
    s.finish l = s.finish ⟨rest ++ role.parents, l.graph.insert role, id :: l.asked⟩ := by
  rw [finish]
  split
  · simp_all
  next hq' =>
    obtain ⟨rfl, rfl⟩ := List.cons.inj (hq.symm.trans hq')
    rw [dif_neg hnew]
    split <;> simp_all

end Steps

theorem finish_congr {s s' : RoleSource} {l : Loading}
    (h : ∀ id ∈ l.queue, ∀ other, s.roster.Names id other → s'.find? other = s.find? other) :
    s'.finish l = s.finish l := by
  fun_induction RoleSource.finish s l with
  | case1 l hq => exact finish_of_nil hq
  | case2 l id rest hq hknown _ ih =>
    rw [finish_of_known hq hknown]
    exact ih fun other hmem ↦ h other (hq ▸ List.mem_cons_of_mem _ hmem)
  | case3 l id rest hq hknown e hfind =>
    exact finish_of_failed hq hknown ((h id (hq ▸ List.mem_cons_self) id .refl).trans hfind)
  | case4 l id rest hq hknown hfind _ ih =>
    rw [finish_of_missing hq hknown ((h id (hq ▸ List.mem_cons_self) id .refl).trans hfind)]
    exact ih fun other hmem ↦ h other (hq ▸ List.mem_cons_of_mem _ hmem)
  | case5 l id rest hq hknown role hfind _ ih =>
    rw [finish_of_found hq hknown ((h id (hq ▸ List.mem_cons_self) id .refl).trans hfind)]
    refine ih fun other hmem above hnames ↦ ?_
    rcases List.mem_append.mp hmem with hmem | hmem
    · exact h other (hq ▸ List.mem_cons_of_mem _ hmem) above hnames
    · have hlists : s.roster.Lists id other := ⟨role, roster_find?_of_find? hfind, hmem⟩
      exact h id (hq ▸ List.mem_cons_self) above (.head hlists hnames)

/-- A snapshot only depends on the ids that are named above its root. -/
theorem snapshot_congr {s s' : RoleSource} {root : Role}
    (hroot : s.roster.find? root.id = some root)
    (h : ∀ other, s.roster.Names root.id other → s'.find? other = s.find? other) :
    s'.snapshot root = s.snapshot root := by
  unfold snapshot load
  rw [finish_congr]
  intro id hmem other hnames
  exact h other (.head ⟨root, hroot, hmem⟩ hnames)

end RoleAccess.RoleSource
