import RoleAccess.Proofs.Role.Hops
import RoleAccess.Proofs.Role.LenientWalk
import RoleAccess.Role.Resolver

/-!
The height that the lenient search gives. It is the length of some chain of parents from the root,
at least as long as the way to each role that is found, and the height of the root where no chain is
longer than the limit (`lenient_height`). A height that was noted is used again for a role that is
met further up, or along another trail. So where a chain goes beyond the limit the height may do so
as well, and a loop may hide a part of a chain (`lenient_height_overruns`). What is noted does count
every chain whose roles are not in each other's way (`Unblocked`).
-/

set_option autoImplicit false
set_option relaxedAutoImplicit false

namespace RoleAccess

/-! ### Chains that no trail gets in the way of -/

namespace RoleGraph

/-- A chain above a role in which no role can stand on a trail of at most `depth` edges to the role
before it, where each next role is one edge further up. -/
def Unblocked (g : RoleGraph) : Nat → String → List String → Prop
  | _, _, [] => True
  | depth, id, parent :: above =>
    (∀ trail, g.IsTrail (id :: trail) → trail.length ≤ depth → parent ∉ id :: trail) ∧
      g.Unblocked (depth + 1) parent above

variable {g : RoleGraph} {id parent top : String} {trail above : List String} {depth depth' : Nat}

theorem Unblocked.mono (h : g.Unblocked depth id above) (hle : depth' ≤ depth) :
    g.Unblocked depth' id above := by
  induction above generalizing id depth depth' with
  | nil => trivial
  | cons parent rest ih =>
    exact ⟨fun trail htrail hshort ↦ h.1 trail htrail (hshort.trans hle),
      ih h.2 (Nat.succ_le_succ hle)⟩

/-- Without a loop every chain is unblocked. -/
theorem unblocked_of_no_loop (hfree : ¬g.HasLoop) (hway : g.roles.Reaches g.rootId id)
    (hchain : g.roles.IsChainAbove id above) (depth : Nat) : g.Unblocked depth id above := by
  induction above generalizing id depth with
  | nil => trivial
  | cons parent rest ih =>
    obtain ⟨hparent, hrest⟩ := Roster.isChainAbove_cons_iff.mp hchain
    refine ⟨fun trail htrail _ hmem ↦ hfree ⟨id, hway, ?_⟩,
      ih (hway.tail hparent) hrest (depth + 1)⟩
    exact Relation.TransGen.head' hparent (htrail.reaches parent hmem)

theorem IsTrail.climbs {n : Nat} (h : g.IsTrail (id :: trail)) (hrest : g.roles.Climbs top n id) :
    g.roles.Climbs top (trail.length + n) g.rootId := by
  induction trail generalizing id n with
  | nil =>
    obtain rfl := Option.some.inj h.way.starts
    rwa [List.length_nil, Nat.zero_add]
  | cons next rest ih =>
    obtain ⟨hbelow, hparent⟩ := h.of_cons
    have := ih hbelow (.step hparent.1 hrest)
    rwa [List.length_cons, Nat.succ_add_eq_add_succ]

theorem IsTrail.suffix {below : List String} (h : g.IsTrail (above ++ id :: below)) :
    g.IsTrail (id :: below) := by
  induction above with
  | nil => exact h
  | cons first rest ih =>
    obtain ⟨next, others, hsplit⟩ : ∃ next others, rest ++ id :: below = next :: others := by
      cases rest with
      | nil => exact ⟨id, below, rfl⟩
      | cons next rest => exact ⟨next, rest ++ id :: below, rfl⟩
    apply ih
    rw [List.cons_append, hsplit] at h
    exact hsplit ▸ h.of_cons.1

theorem contains_of_climbs {n : Nat} (h : g.roles.Climbs top n id)
    (htop : g.roles.contains top = true) : g.roles.contains id = true := by
  cases h with
  | done => exact htop
  | step hlists _ =>
    obtain ⟨role, hrole, -⟩ := hlists
    exact Roster.contains_of_find? hrole

theorem climbs_of_isChainAbove (hchain : g.roles.IsChainAbove id above)
    (hlast : (id :: above).getLast? = some top) : g.roles.Climbs top above.length id := by
  induction above generalizing id with
  | nil =>
    obtain rfl := Option.some.inj hlast
    exact .done
  | cons parent rest ih =>
    obtain ⟨hparent, hrest⟩ := Roster.isChainAbove_cons_iff.mp hchain
    exact .step hparent.1 (ih hrest hlast)

/-- The shortest way to a role is unblocked. -/
theorem exists_unblocked_of_climbs {n : Nat} (hclimbs : g.roles.Climbs top n id)
    (htop : g.roles.contains top = true) (hle : depth + n ≤ g.roles.hops top g.rootId) :
    ∃ above, g.roles.IsChainAbove id above ∧ above.length = n ∧ g.Unblocked depth id above := by
  induction hclimbs generalizing depth with
  | done => exact ⟨[], Roster.isChainAbove_nil _ _, rfl, trivial⟩
  | @step id parent n hlists hrest ih =>
    obtain ⟨above, hchain, hlength, hopen⟩ := ih (by omega : depth + 1 + n ≤ _)
    have hparent : g.roles.Parent id parent := ⟨hlists, contains_of_climbs hrest htop⟩
    refine ⟨parent :: above, Roster.isChainAbove_cons_iff.mpr ⟨hparent, hchain⟩,
      congrArg Nat.succ hlength, fun trail htrail hshort hmem ↦ ?_, hopen⟩
    -- A trail through the parent would be a shorter way to it.
    obtain ⟨later, below, hsplit⟩ := List.append_of_mem hmem
    have hshorter := ((hsplit ▸ htrail).suffix.climbs hrest).hops_le
    have hedges := congrArg List.length hsplit
    rw [List.length_cons, List.length_append, List.length_cons] at hedges
    omega

end RoleGraph

/-! ### Heights that a lenient walk notes -/

namespace Walk

variable {g : RoleGraph} {mode : WalkMode} {steps : Nat} {trail : List String}
variable {id : String} {w w' : Walk} {height : Nat}

/-- A number of parents in a chain above a role. -/
def Attains (g : RoleGraph) (id : String) (height : Nat) : Prop :=
  ∃ above, g.roles.IsChainAbove id above ∧ above.length = height

/-- Every noted height is the length of a chain. -/
def Attained (g : RoleGraph) (w : Walk) : Prop :=
  ∀ id height reached, w.finished[id]? = some (height, reached) → Attains g id height

theorem Attained.meet (h : w.Attained g) (id : String) : (w.meet id).Attained g := by
  unfold Attained
  rwa [finished_meet]

theorem attains_max {above : Nat} {parent : String} (h : Attains g id height)
    (hparent : g.roles.Parent id parent) (habove : Attains g parent above) :
    Attains g id (max height (above + 1)) := by
  rcases Nat.le_total height (above + 1) with hmore | hless
  · obtain ⟨chain, hchain, rfl⟩ := habove
    rw [Nat.max_eq_right hmore]
    exact ⟨parent :: chain, Roster.isChainAbove_cons_iff.mpr ⟨hparent, hchain⟩, rfl⟩
  · rwa [Nat.max_eq_left hless]

theorem visit_attained (hlenient : mode.strict = false)
    (hplace : g.Stands mode.limit steps trail id) (hw : w.Attained g)
    (h : visit g mode steps trail id w = .ok (height, w')) :
    w'.Attained g ∧ Attains g id height := by
  refine lenient_induction
    (P := fun _ _ id w height w' ↦ w.Attained g → w'.Attained g ∧ Attains g id height)
    (Q := fun _ _ id w _ height w' ↦ w.Attained g → w'.Attained g ∧ Attains g id height)
    hlenient ?start ?passed ?known ?climbed ?finish hplace h hw
  case start => exact fun _ hw ↦ ⟨hw, [], Roster.isChainAbove_nil _ _, rfl⟩
  case passed => exact fun _ hdone _ _ ↦ hdone
  case known =>
    intro steps trail id w done height w' parent above reached _ hdone hparent _ hnoted _ hw
    obtain ⟨hattained, hheight⟩ := hdone hw
    exact ⟨hattained.meet parent,
      attains_max hheight hparent (hattained parent above reached hnoted)⟩
  case climbed =>
    intro steps trail id w done height w' parent above last _ hdone hparent _ _ _ hup hw
    obtain ⟨hattained, hheight⟩ := hdone hw
    obtain ⟨hlast, habove⟩ := hup (hattained.meet parent)
    exact ⟨hlast, attains_max hheight hparent habove⟩
  case finish =>
    intro steps trail id w height last _ hall hw
    obtain ⟨hattained, hheight⟩ := hall hw
    refine ⟨fun other noted reached hnoted ↦ ?_, hheight⟩
    by_cases heq : other = id
    · subst heq
      obtain ⟨rfl, -⟩ := of_finished_finish_self hnoted
      exact hheight
    · exact hattained other noted reached ((finished_finish_of_ne heq).symm.trans hnoted)

/-- A walk leaves alone what is noted of the roles on its trail. -/
theorem visit_finished_of_mem (hlenient : mode.strict = false)
    (hplace : g.Stands mode.limit steps trail id)
    (h : visit g mode steps trail id w = .ok (height, w')) :
    ∀ x ∈ trail, w'.finished[x]? = w.finished[x]? := by
  refine lenient_induction
    (P := fun _ trail _ w _ w' ↦ ∀ x ∈ trail, w'.finished[x]? = w.finished[x]?)
    (Q := fun _ trail id w _ _ w' ↦ ∀ x ∈ id :: trail, w'.finished[x]? = w.finished[x]?)
    hlenient ?start ?passed ?known ?climbed ?finish hplace h
  case start => exact fun _ _ _ ↦ rfl
  case passed => exact fun _ hdone _ _ ↦ hdone
  case known =>
    intro steps trail id w done height w' parent above reached _ hdone _ _ _ _ x hx
    rw [finished_meet]
    exact hdone x hx
  case climbed =>
    intro steps trail id w done height w' parent above last _ hdone _ _ _ _ hup x hx
    rw [hup x hx, finished_meet]
    exact hdone x hx
  case finish =>
    intro steps trail id w height last hplace hall x hx
    have hne : x ≠ id := fun heq ↦ hplace.not_mem (heq ▸ hx)
    rw [finished_finish_of_ne hne]
    exact hall x (List.mem_cons_of_mem id hx)

/-- Every unblocked chain within the limit above a role entered at this depth is at most so long. -/
def Counts (g : RoleGraph) (limit depth : Nat) (id : String) (height : Nat) : Prop :=
  ∀ above, g.roles.IsChainAbove id above → g.Unblocked depth id above →
    depth + above.length ≤ limit → above.length ≤ height

/-- The noted heights count the unblocked chains. -/
def Counted (g : RoleGraph) (limit : Nat) (w : Walk) : Prop :=
  ∀ id height reached, w.finished[id]? = some (height, reached) → Counts g limit reached id height

theorem Counts.mono {limit depth depth' : Nat} (h : Counts g limit depth' id height)
    (hle : depth' ≤ depth) : Counts g limit depth id height :=
  fun above hchain hopen hlimit ↦
    h above hchain (hopen.mono hle) ((Nat.add_le_add_right hle _).trans hlimit)

theorem Counted.meet {limit : Nat} (h : w.Counted g limit) (id : String) :
    (w.meet id).Counted g limit := by
  unfold Counted
  rwa [finished_meet]

/-- The height so far above a role, as far as some of its parents are done: it counts the unblocked
chains through them. -/
structure Counting (g : RoleGraph) (limit : Nat) (trail : List String) (id : String)
    (done : List String) (height : Nat) (w : Walk) : Prop where
  counted : w.Counted g limit
  through : ∀ parent ∈ done, ∀ above, g.roles.IsChainAbove parent above →
    g.Unblocked trail.length id (parent :: above) → trail.length + (above.length + 1) ≤ limit →
      above.length + 1 ≤ height

theorem Counting.add {limit above : Nat} {done : List String} {parent : String}
    (h : Counting g limit trail id done height w) (hw : w'.Counted g limit)
    (habove : Counts g limit (trail.length + 1) parent above) :
    Counting g limit trail id (done ++ [parent]) (max height (above + 1)) w' := by
  refine ⟨hw, fun other hother chain hchain hopen hle ↦ ?_⟩
  rcases List.mem_append.mp hother with hold | hlast
  · exact (h.through other hold chain hchain hopen hle).trans (Nat.le_max_left _ _)
  · obtain rfl := List.mem_singleton.mp hlast
    have := habove chain hchain hopen.2 (by omega)
    omega

/-- A parent that is passed over has no unblocked chain within the limit through it. -/
theorem Counting.pass {done : List String} {parent : String}
    (h : Counting g mode.limit trail id done height w) (hplace : g.Stands mode.limit steps trail id)
    (hpassed : parent ∈ id :: trail ∨ steps = 0) :
    Counting g mode.limit trail id (done ++ [parent]) height w := by
  refine ⟨h.counted, fun other hother chain hchain hopen hle ↦ ?_⟩
  rcases List.mem_append.mp hother with hold | hlast
  · exact h.through other hold chain hchain hopen hle
  · obtain rfl := List.mem_singleton.mp hlast
    rcases hpassed with hmem | rfl
    · exact absurd hmem (hopen.1 trail hplace.isTrail (Nat.le_refl _))
    · have := hplace.left
      omega

/-- A walk that enters a role nearer to the root than before counts the unblocked chains above
it. -/
theorem visit_counts (hlenient : mode.strict = false)
    (hplace : g.Stands mode.limit steps trail id) (hw : w.Counted g mode.limit)
    (hnearer : ∀ noted reached, w.finished[id]? = some (noted, reached) → trail.length < reached)
    (h : visit g mode steps trail id w = .ok (height, w')) :
    w'.Counted g mode.limit ∧ Counts g mode.limit trail.length id height := by
  refine lenient_induction
    (P := fun _ trail id w height w' ↦ w.Counted g mode.limit →
      (∀ noted reached, w.finished[id]? = some (noted, reached) → trail.length < reached) →
        w'.Counted g mode.limit ∧ Counts g mode.limit trail.length id height)
    (Q := fun _ trail id w done height w' ↦ w.Counted g mode.limit →
      Counting g mode.limit trail id done height w' ∧ w'.finished[id]? = w.finished[id]?)
    hlenient ?start ?passed ?known ?climbed ?finish hplace h hw hnearer
  case start => exact fun _ hw ↦ ⟨⟨hw, fun _ hmem ↦ absurd hmem List.not_mem_nil⟩, rfl⟩
  case passed =>
    intro steps trail id w done height w' parent hplace hdone _ hpassed hw
    exact ⟨(hdone hw).1.pass hplace hpassed, (hdone hw).2⟩
  case known =>
    intro steps trail id w done height w' parent above reached _ hdone _ _ hnoted hle hw
    obtain ⟨hcounting, hframe⟩ := hdone hw
    refine ⟨hcounting.add (hcounting.counted.meet parent) ?_, ?_⟩
    · exact (hcounting.counted parent above reached hnoted).mono hle
    · rw [finished_meet, hframe]
  case climbed =>
    intro steps trail id w done height w' parent above last hplace hdone hparent hnew hfar hvisit
      hup hw
    obtain ⟨hcounting, hframe⟩ := hdone hw
    obtain ⟨hlast, habove⟩ := hup (hcounting.counted.meet parent) (by rwa [finished_meet])
    refine ⟨hcounting.add hlast habove, ?_⟩
    rw [visit_finished_of_mem hlenient (hplace.next hparent hnew) hvisit id List.mem_cons_self,
      finished_meet, hframe]
  case finish =>
    intro steps trail id w height last _ hall hw hnearer
    obtain ⟨⟨hcounted, hthrough⟩, hframe⟩ := hall hw
    have hcounts : Counts g mode.limit trail.length id height := by
      intro above hchain hopen hle
      cases above with
      | nil => exact Nat.zero_le height
      | cons parent rest =>
        obtain ⟨hparent, hrest⟩ := Roster.isChainAbove_cons_iff.mp hchain
        exact hthrough parent (RoleGraph.mem_parents_iff.mpr hparent) rest hrest hopen hle
    refine ⟨fun other noted reached hnoted ↦ ?_, hcounts⟩
    by_cases heq : other = id
    · subst heq
      obtain ⟨rfl, rfl | ⟨before, hbefore, hle⟩⟩ := of_finished_finish_self hnoted
      · exact hcounts
      · -- The role has not been entered as near to the root before.
        exact absurd (hnearer before reached (hframe ▸ hbefore)) (Nat.not_lt.mpr hle)
    · exact hcounted other noted reached ((finished_finish_of_ne heq).symm.trans hnoted)

end Walk

namespace RoleGraph

/-- The walk of a lenient search counts the unblocked chains above the root. -/
theorem counts_of_visit {limit height : Nat} {g : RoleGraph} {w : Walk}
    (h : Walk.visit g ⟨limit, false⟩ limit [] g.rootId {} = .ok (height, w)) :
    Walk.Counts g limit 0 g.rootId height :=
  (Walk.visit_counts rfl (g.stands_root limit) (fun _ _ _ hnoted ↦ by simp at hnoted)
    (fun _ _ hnoted ↦ by simp at hnoted) h).2

/-- The root is at most so far below a role within the limit as the search counts. -/
theorem hops_le_of_counts {limit height : Nat} {g : RoleGraph} {id : String}
    (h : Walk.Counts g limit 0 g.rootId height)
    (hwithin : Walk.Within g limit g.rootId id) : g.roles.hops id g.rootId ≤ height := by
  obtain ⟨above, hchain, hlast, hle⟩ := hwithin
  have hclimbs := climbs_of_isChainAbove hchain hlast
  have hpresent := IsWay.contains ⟨rfl, hchain⟩ id (List.mem_of_getLast? hlast)
  obtain ⟨shortest, hshort, hlength, hopen⟩ := exists_unblocked_of_climbs
    (Roster.climbs_hops hclimbs.names) hpresent (Nat.zero_add _).le
  have := h shortest hshort hopen (by have := hclimbs.hops_le; omega)
  omega

theorem depth_of_ancestors {s : RoleSource} {mode : WalkMode} {g : RoleGraph} {id : String}
    {root : Role} {a : Ancestry} (hroot : s.require id = .ok root)
    (hgraph : s.snapshot root = .ok g) (ha : g.ancestors mode = .ok a) :
    s.depth mode id = .ok a.height := by
  simp only [RoleSource.depth, bind, Except.bind, pure, Except.pure, hroot, hgraph, ha]

/-- The height that the lenient search gives, which is also the depth of a role for a resolver that
does not look for loops, is the length of a chain of parents from the root. Every role found is at
most so far from the root. Without a loop every chain within the limit is at most so long, and where
no chain goes beyond the limit, so that there is no loop either, it is the height of the root. -/
theorem lenient_height (g : RoleGraph) (limit : Nat) :
    ∃ a, g.ancestors ⟨limit, false⟩ = .ok a ∧
      (∃ above, g.roles.IsChainAbove g.rootId above ∧ above.length = a.height) ∧
      (∀ id ∈ a.ids, g.roles.hops id g.rootId ≤ a.height) ∧
      (¬g.HasLoop → ∀ above, g.roles.IsChainAbove g.rootId above → above.length ≤ limit →
        above.length ≤ a.height) ∧
      (g.roles.HeightLE g.rootId limit → g.roles.Height g.rootId a.height) ∧
      ∀ (r : Resolver) (id : String) (root : Role), r.options.maxDepth = limit →
        r.options.detectCycles = false → r.source.require id = .ok root →
          r.source.snapshot root = .ok g → r.depth id = .ok a.height := by
  obtain ⟨a, w, ha, hvisit, hids⟩ := g.exists_lenient_ancestors limit
  have hplace := g.stands_root limit
  obtain ⟨-, hattained⟩ := Walk.visit_attained rfl hplace
    (fun _ _ _ hnoted ↦ by simp at hnoted) hvisit
  obtain ⟨-, hwithin⟩ := Walk.visit_gathered rfl hplace
    ⟨List.nodup_nil, fun x hx ↦ absurd hx List.not_mem_nil⟩ hvisit
  have hcounts := counts_of_visit hvisit
  have hfree : ¬g.HasLoop → ∀ above, g.roles.IsChainAbove g.rootId above → above.length ≤ limit →
      above.length ≤ a.height := fun hfree above hchain hle ↦
    hcounts above hchain (unblocked_of_no_loop hfree .refl hchain 0) (by omega)
  refine ⟨a, ha, hattained, fun id hid ↦ ?_, hfree,
    fun hheight ↦ ⟨hattained, fun above hchain ↦ ?_⟩,
    fun r id root hlimit hlenient hroot hgraph ↦ ?_⟩
  · exact hops_le_of_counts hcounts (hwithin id (hids ▸ hid)).2
  · exact hfree (fun hloop ↦ hloop.not_heightLE hheight) above hchain (hheight above hchain)
  · rw [Resolver.depth, Resolver.mode, hlimit, hlenient]
    exact depth_of_ancestors hroot hgraph ha

theorem lenient_height_shared :
    sharedParent.roles.Height "a" 2 ∧
      Resolver.depth ⟨⟨2, false, 0, 0, false⟩, ⟨sharedParent.roles, [], []⟩⟩ "a" = .ok 2 := by
  obtain ⟨a, ha, -, -, -, hheight, hdepth⟩ := lenient_height sharedParent 2
  obtain rfl : (⟨["b", "d", "c"], 2⟩ : Ancestry) = a := Except.ok.inj ha
  have hstrict : sharedParent.ancestors ⟨2, true⟩ = .ok ⟨["b", "d", "c"], 2⟩ := rfl
  exact ⟨hheight (height_of_ancestors rfl hstrict).1.le, hdepth _ "a" _ rfl rfl rfl (by cbv)⟩

/-- A short chain and a longer one up to one role, with the parents listed as given. -/
def twoChains (parents : List String) : RoleGraph :=
  ofRoles ⟨"a", [], parents, true⟩ [⟨"b", [], ["x"], true⟩, ⟨"c", [], ["d"], true⟩,
    ⟨"d", [], ["x"], true⟩, ⟨"x", [], ["y"], true⟩, ⟨"y", [], [], true⟩]

/-- Two parents that lead into one loop, one of them part of it. -/
def sharedLoop : RoleGraph :=
  ofRoles ⟨"a", [], ["b", "c"], true⟩ [⟨"b", [], ["x"], true⟩, ⟨"c", [], ["x"], true⟩,
    ⟨"x", [], ["b"], true⟩]

/-- A height of four where the limit is three, and of three when the same parents are listed the
other way round. Where two parents share a loop, a chain of three roles counts as two. -/
theorem lenient_height_overruns :
    (twoChains ["b", "c"]).ancestors ⟨3, false⟩ = .ok ⟨["b", "x", "y", "c", "d"], 4⟩ ∧
      (twoChains ["c", "b"]).ancestors ⟨3, false⟩ = .ok ⟨["c", "d", "x", "b", "y"], 3⟩ ∧
      sharedLoop.ancestors ⟨10, false⟩ = .ok ⟨["b", "x", "c"], 2⟩ ∧
      sharedLoop.roles.IsChainAbove "a" ["c", "x", "b"] := by
  refine ⟨rfl, rfl, rfl, ?_⟩
  simp only [Roster.IsChainAbove, List.isChain_cons_cons, List.IsChain.singleton, and_true]
  exact ⟨⟨⟨_, rfl, by decide⟩, rfl⟩, ⟨⟨_, rfl, by decide⟩, rfl⟩, ⟨_, rfl, by decide⟩, rfl⟩

end RoleGraph

end RoleAccess
