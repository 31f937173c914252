import Mathlib.Data.List.Perm.Subperm
import RoleAccess.Proofs.Role.FirstOccurrences
import RoleAccess.Proofs.Role.StrictAncestry

/-!
The two searches upwards that look for a loop report the same one. The first loop is reached by
going on at each role to the first parent with a loop at or above it, until that is a role on the
way (`FirstLoop`). The search for a loop alone finds it (`loopAbove_spec`), whatever roles it knows
to be clean, and so does the strict search for ancestors (`visit_firstLoop`), whatever heights it
has noted, as long as the limit lets it go past every role of the graph.
-/

set_option autoImplicit false
set_option relaxedAutoImplicit false

namespace RoleAccess

/-! ### Loops above a role -/

namespace Roster

variable {r : Roster} {id parent : String}

/-- Some loop can be reached from the role. -/
def LoopAbove (r : Roster) (id : String) : Prop :=
  ∃ other, r.Reaches id other ∧ Relation.TransGen r.Parent other other

theorem LoopAbove.of_parent (hparent : r.Parent id parent) (h : r.LoopAbove parent) :
    r.LoopAbove id := by
  obtain ⟨other, hway, hloop⟩ := h
  exact ⟨other, .head hparent hway, hloop⟩

theorem LoopAbove.exists_parent (h : r.LoopAbove id) :
    ∃ parent, r.Parent id parent ∧ r.LoopAbove parent := by
  obtain ⟨other, hway, hloop⟩ := h
  rcases Relation.ReflTransGen.cases_head hway with rfl | ⟨parent, hparent, hrest⟩
  · obtain ⟨parent, hparent, hback⟩ := Relation.TransGen.head'_iff.mp hloop
    exact ⟨parent, hparent, id, hback, hloop⟩
  · exact ⟨parent, hparent, other, hrest, hloop⟩

/-- A parent from which there is a way back to the role is on a loop. -/
theorem loopAbove_of_reaches (hparent : r.Parent id parent) (hback : r.Reaches parent id) :
    r.LoopAbove parent :=
  ⟨parent, .refl, Relation.TransGen.tail' hback hparent⟩

theorem HeightLE.not_loopAbove {limit : Nat} (h : r.HeightLE id limit) : ¬r.LoopAbove id := by
  rintro ⟨other, hway, hloop⟩
  exact (h.reaches hway).no_loop hloop

theorem length_le_size {ids : List String} (hnodup : ids.Nodup)
    (hids : ∀ id ∈ ids, r.contains id = true) : ids.length ≤ r.size := by
  have hsubset : ids ⊆ r.ids := fun id hid ↦ mem_ids_iff.mpr (hids id hid)
  have hle := (List.subperm_of_subset hnodup hsubset).length_le
  rwa [Roster.ids, Std.TreeMap.length_keys] at hle

end Roster

namespace RoleGraph

variable {g : RoleGraph} {id parent : String} {trail chain : List String}

theorem IsWay.contains (h : g.IsWay chain) : ∀ id ∈ chain, g.roles.contains id = true := by
  obtain ⟨above, rfl, hedges⟩ := h.eq_cons
  intro id hid
  exact Roster.contains_of_reaches g.rooted (Roster.reaches_of_isChain hedges id hid)

theorem IsTrail.length_le_size (h : g.IsTrail trail) : trail.length ≤ g.size := by
  apply Roster.length_le_size h.nodup
  intro id hid
  exact h.way.contains id (List.mem_reverse.mpr hid)

theorem IsTrail.of_cons {next : String} (h : g.IsTrail (id :: next :: trail)) :
    g.IsTrail (next :: trail) ∧ g.roles.Parent next id := by
  have hway := h.way
  rw [List.reverse_cons] at hway
  obtain ⟨hedges, -, hlast⟩ := List.isChain_append.mp hway.edges
  have hstarts := hway.starts
  rw [List.head?_append_of_ne_nil _ (by simp)] at hstarts
  refine ⟨⟨⟨hstarts, hedges⟩, (List.nodup_cons.mp h.nodup).2⟩, hlast next ?_ id rfl⟩
  rw [List.getLast?_reverse]
  rfl

/-- There is a way up from every role of a trail to its last one. -/
theorem IsTrail.reaches (h : g.IsTrail (id :: trail)) :
    ∀ other ∈ id :: trail, g.roles.Reaches other id := by
  induction trail generalizing id with
  | nil =>
    intro other hother
    rw [List.mem_singleton.mp hother]
  | cons next rest ih =>
    obtain ⟨hrest, hedge⟩ := h.of_cons
    intro other hother
    rcases List.mem_cons.mp hother with rfl | hother
    · exact .refl
    · exact (ih hrest other hother).tail hedge

/-! ### The first loop -/

/-- The closed chain that is reached by going on, from the role at the end of a trail, to the first
parent with a loop at or above it, until that parent is on the way already. -/
inductive FirstLoop (g : RoleGraph) : List String → String → List String → Prop
  | closes {trail : List String} {id parent : String}
      (first : IsFirst g.roles.LoopAbove (g.parents id) parent) (met : parent ∈ id :: trail) :
      FirstLoop g trail id (parent :: id :: trail).reverse
  | above {trail chain : List String} {id parent : String}
      (first : IsFirst g.roles.LoopAbove (g.parents id) parent) (new : parent ∉ id :: trail)
      (rest : FirstLoop g (id :: trail) parent chain) : FirstLoop g trail id chain

theorem FirstLoop.unique {chain' : List String} (h : g.FirstLoop trail id chain)
    (h' : g.FirstLoop trail id chain') : chain = chain' := by
  induction h with
  | closes hfirst hmet =>
    cases h' with
    | closes hfirst' _ => rw [hfirst.unique hfirst']
    | above hfirst' hnew' _ => exact absurd (hfirst.unique hfirst' ▸ hmet) hnew'
  | above hfirst hnew _ ih =>
    cases h' with
    | closes hfirst' hmet' => exact absurd (hfirst'.unique hfirst ▸ hmet') hnew
    | above hfirst' _ hrest' => exact ih (hfirst'.unique hfirst ▸ hrest')

theorem FirstLoop.loopAbove (h : g.FirstLoop trail id chain) : g.roles.LoopAbove id := by
  cases h with
  | closes hfirst _ | above hfirst _ _ =>
    obtain ⟨before, after, hparents, -, hloop⟩ := hfirst
    exact hloop.of_parent (parent_of_split hparents)

/-- A parent on the trail has a loop above it, so that it is the first such parent if there is none
before it. -/
theorem firstLoop_of_mem {before after : List String} (htrail : g.IsTrail (id :: trail))
    (hparents : g.parents id = before ++ parent :: after)
    (hbefore : ∀ other ∈ before, ¬g.roles.LoopAbove other) (hmem : parent ∈ id :: trail) :
    g.FirstLoop trail id (parent :: id :: trail).reverse := by
  have hloop := Roster.loopAbove_of_reaches (parent_of_split hparents) (htrail.reaches parent hmem)
  exact .closes ⟨before, after, hparents, hbefore, hloop⟩ hmem

theorem firstLoop_of_parent {before after : List String}
    (hparents : g.parents id = before ++ parent :: after)
    (hbefore : ∀ other ∈ before, ¬g.roles.LoopAbove other) (hnew : parent ∉ id :: trail)
    (hrest : g.FirstLoop (id :: trail) parent chain) : g.FirstLoop trail id chain :=
  .above ⟨before, after, hparents, hbefore, hrest.loopAbove⟩ hnew hrest

/-! ### The search for a loop -/

/-- What the search for a loop does at one parent. -/
def loopStep (g : RoleGraph) (steps : Nat) (trail clean : List String) (parent : String) :
    Except (List String) (List String) :=
  if clean.contains parent then .ok clean
  else if trail.contains parent then .error (parent :: trail).reverse
  else g.loopAbove steps trail parent clean

theorem loopAbove_succ (g : RoleGraph) (steps : Nat) (trail : List String) (id : String)
    (clean : List String) : g.loopAbove (steps + 1) trail id clean =
      ((g.parents id).foldlM (g.loopStep steps (id :: trail)) clean).map (id :: ·) := by
  change ((g.parents id).foldlM (g.loopStep steps (id :: trail)) clean >>=
    fun clean ↦ .ok (id :: clean)) = _
  cases (g.parents id).foldlM (g.loopStep steps (id :: trail)) clean <;> rfl

/-- The roles that the search knows to be clean have no loop above them. -/
def Clean (g : RoleGraph) (clean : List String) : Prop := ∀ id ∈ clean, ¬g.roles.LoopAbove id

/-- What the search for a loop has to answer about a role. -/
def Answers (g : RoleGraph) (trail : List String) (id : String) :
    Except (List String) (List String) → Prop
  | .ok clean => ¬g.roles.LoopAbove id ∧ g.Clean clean
  | .error chain => g.FirstLoop trail id chain

theorem loopStep_eq_ok {steps : Nat} {clean clean' : List String} (hclean : g.Clean clean)
    (habove : parent ∉ trail → g.Answers trail parent (g.loopAbove steps trail parent clean))
    (h : g.loopStep steps trail clean parent = .ok clean') :
    ¬g.roles.LoopAbove parent ∧ g.Clean clean' := by
  unfold loopStep at h
  split at h
  next hknown =>
    cases h
    exact ⟨hclean parent (List.contains_iff_mem.mp hknown), hclean⟩
  next =>
    split at h
    next => cases h
    next hnew =>
      have hanswer := habove fun hmem ↦ hnew (List.contains_iff_mem.mpr hmem)
      rw [h] at hanswer
      exact hanswer

theorem loopStep_eq_error {steps : Nat} {clean : List String}
    (h : g.loopStep steps trail clean parent = .error chain) :
    (parent ∈ trail ∧ chain = (parent :: trail).reverse) ∨
      (parent ∉ trail ∧ g.loopAbove steps trail parent clean = .error chain) := by
  unfold loopStep at h
  split at h
  next => cases h
  next =>
    split at h
    next hmet =>
      cases h
      exact Or.inl ⟨List.contains_iff_mem.mp hmet, rfl⟩
    next hnew => exact Or.inr ⟨fun hmem ↦ hnew (List.contains_iff_mem.mpr hmem), h⟩

/-- With a step for every role that is not on the trail, the search finds the first loop above a
role if there is any. -/
theorem loopAbove_spec {steps : Nat} {clean : List String} (htrail : g.IsTrail (id :: trail))
    (hsteps : g.size ≤ steps + trail.length) (hclean : g.Clean clean) :
    g.Answers trail id (g.loopAbove steps trail id clean) := by
  induction steps generalizing trail id clean with
  | zero =>
    have hlength := htrail.length_le_size
    rw [List.length_cons] at hlength
    omega
  | succ steps ih =>
    have habove : ∀ parent ∈ g.parents id, ∀ clean, g.Clean clean → parent ∉ id :: trail →
        g.Answers (id :: trail) parent (g.loopAbove steps (id :: trail) parent clean) := by
      intro parent hmem clean hclean hnew
      apply ih (htrail.extend (mem_parents_iff.mp hmem) hnew) _ hclean
      rw [List.length_cons]
      omega
    -- The parents that the search has gone past have no loop above them.
    have hpast : ∀ (done c : List String), (∀ parent ∈ done, parent ∈ g.parents id) →
        done.foldlM (g.loopStep steps (id :: trail)) clean = .ok c →
          (∀ parent ∈ done, ¬g.roles.LoopAbove parent) ∧ g.Clean c := by
      intro done c hparents hfold
      refine foldlM_induction (motive := fun done c ↦
        (∀ parent ∈ done, ¬g.roles.LoopAbove parent) ∧ g.Clean c) hfold ⟨by simp, hclean⟩ ?_
      rintro done parent c c' hmem ⟨hdone, hc⟩ hstep
      obtain ⟨hfree, hc'⟩ := loopStep_eq_ok hc (habove parent (hparents parent hmem) c hc) hstep
      refine ⟨fun other hother ↦ ?_, hc'⟩
      rcases List.mem_append.mp hother with hother | hother
      · exact hdone other hother
      · exact List.mem_singleton.mp hother ▸ hfree
    rw [loopAbove_succ]
    cases hfold : (g.parents id).foldlM (g.loopStep steps (id :: trail)) clean with
    | ok c =>
      obtain ⟨hall, hc⟩ := hpast _ c (fun _ hmem ↦ hmem) hfold
      have hfree : ¬g.roles.LoopAbove id := by
        intro hloop
        obtain ⟨parent, hparent, hloop⟩ := hloop.exists_parent
        exact hall parent (mem_parents_iff.mpr hparent) hloop
      exact ⟨hfree, List.forall_mem_cons.mpr ⟨hfree, hc⟩⟩
    | error chain =>
      obtain ⟨before, parent, after, c, hparents, hbefore, hstep⟩ := foldlM_error_split hfold
      have hmem : ∀ other ∈ before, other ∈ g.parents id :=
        fun other hother ↦ hparents ▸ List.mem_append_left _ hother
      obtain ⟨hfree, hc⟩ := hpast before c hmem hbefore
      rcases loopStep_eq_error hstep with ⟨hmet, rfl⟩ | ⟨hnew, hup⟩
      · exact firstLoop_of_mem htrail hparents hfree hmet
      · have hanswer := habove parent (mem_parents_iff.mpr (parent_of_split hparents)) c hc hnew
        rw [hup] at hanswer
        exact firstLoop_of_parent hparents hfree hnew hanswer

theorem findCycle_spec (g : RoleGraph) :
    (g.findCycle = none → ¬g.HasLoop) ∧
      ∀ chain, g.findCycle = some chain → g.FirstLoop [] g.rootId chain := by
  have hanswer : g.Answers [] g.rootId (g.loopAbove g.size [] g.rootId []) :=
    loopAbove_spec g.isTrail_root (Nat.le_refl g.size) fun id hid ↦ absurd hid List.not_mem_nil
  unfold findCycle
  cases hloop : g.loopAbove g.size [] g.rootId [] with
  | ok clean =>
    rw [hloop] at hanswer
    exact ⟨fun _ ↦ hanswer.1, fun chain h ↦ (by cases h)⟩
  | error chain =>
    rw [hloop] at hanswer
    refine ⟨fun h ↦ (by cases h), fun chain' h ↦ ?_⟩
    obtain rfl := Option.some.inj h
    exact hanswer

theorem findCycle_eq_none_iff : g.findCycle = none ↔ ¬g.HasLoop := by
  refine ⟨g.findCycle_spec.1, fun hfree ↦ ?_⟩
  cases hfound : g.findCycle with
  | none => rfl
  | some chain => exact absurd (g.findCycle_spec.2 chain hfound).loopAbove hfree

end RoleGraph

/-! ### The search for ancestors -/

namespace Walk

variable {g : RoleGraph} {mode : WalkMode} {steps : Nat} {trail : List String} {id : String}

/-- A strict walk that may go past every role of the graph fails with the first loop. -/
theorem visit_firstLoop {w : Walk} {e : RoleError} (hstrict : mode.strict = true)
    (hsize : g.size ≤ mode.limit) (hlimit : trail.length + steps = mode.limit)
    (htrail : g.IsTrail (id :: trail)) (hw : w.Measured g)
    (h : visit g mode steps trail id w = .error e) :
    ∃ chain, e = .cycle chain ∧ g.FirstLoop trail id chain := by
  induction steps generalizing trail id w with
  | zero =>
    have hlength := htrail.length_le_size
    rw [List.length_cons] at hlength
    omega
  | succ n ih =>
    obtain ⟨before, parent, after, found, hparents, hbefore, hstep⟩ := exists_step_of_visit_error h
    have hlimit' : (id :: trail).length + n = mode.limit := by
      rw [List.length_cons]
      omega
    have hmeasuring := foldlM_induction (motive := Measuring g mode.limit trail id) hbefore
      (measuring_start hlimit hw) fun done other found found' hmem hdone hstep ↦ by
        have hother : g.roles.Parent id other :=
          RoleGraph.mem_parents_iff.mp (hparents ▸ List.mem_append_left _ hmem)
        refine hdone.step hstrict hother (fun m w above w' hm hw hup ↦ ?_) hstep
        obtain rfl := Nat.succ.inj hm
        exact visit_strict hstrict hlimit' hw hup
    have hfree : ∀ other ∈ before, ¬g.roles.LoopAbove other := by
      intro other hother
      obtain ⟨k, hheight, -⟩ := hmeasuring.overtops.below other hother
      exact hheight.le.not_loopAbove
    rcases step_error hstep with ⟨-, hmet, rfl⟩ | ⟨-, -, hn, -⟩ | ⟨hnew, m, hm, hup⟩
    · exact ⟨_, rfl, RoleGraph.firstLoop_of_mem htrail hparents hfree hmet⟩
    · cases hn
    · obtain rfl := Nat.succ.inj hm
      have hmeet : (found.2.meet parent).Measured g := by
        unfold Measured
        rw [finished_meet]
        exact hmeasuring.measured
      obtain ⟨chain, rfl, hrest⟩ :=
        ih hlimit' (htrail.extend (RoleGraph.parent_of_split hparents) hnew) hmeet hup
      exact ⟨chain, rfl, RoleGraph.firstLoop_of_parent hparents hfree hnew hrest⟩

end Walk

namespace RoleGraph

variable {g : RoleGraph} {chain : List String} {limit : Nat}

/-- A way from the root whose last edge leads back to a role on it, and that meets no role twice
before. -/
structure IsClosedWay (g : RoleGraph) (chain : List String) : Prop where
  way : g.IsWay chain
  closed : ∃ before mid x, chain = before ++ x :: mid ++ [x] ∧ (before ++ x :: mid).Nodup

theorem ancestors_firstLoop {e : RoleError} (hsize : g.size ≤ limit)
    (h : g.ancestors ⟨limit, true⟩ = .error e) :
    ∃ chain, e = .cycle chain ∧ g.FirstLoop [] g.rootId chain := by
  unfold ancestors at h
  cases hvisit : Walk.visit g ⟨limit, true⟩ limit [] g.rootId {} with
  | ok found => simp [hvisit, bind, Except.bind, pure, Except.pure] at h
  | error e' =>
    rw [hvisit] at h
    cases h
    exact Walk.visit_firstLoop rfl hsize (Nat.zero_add limit) g.isTrail_root
      (fun id height least hnoted ↦ by simp at hnoted) hvisit

theorem exists_ancestors_of_findCycle (hsize : g.size ≤ limit) (h : g.findCycle = none) :
    ∃ a, g.ancestors ⟨limit, true⟩ = .ok a := by
  cases hancestors : g.ancestors ⟨limit, true⟩ with
  | ok a => exact ⟨a, rfl⟩
  | error e =>
    obtain ⟨chain, -, hfirst⟩ := ancestors_firstLoop hsize hancestors
    exact absurd hfirst.loopAbove (findCycle_eq_none_iff.mp h)

theorem ancestors_eq_cycle (hsize : g.size ≤ limit) (h : g.findCycle = some chain) :
    g.ancestors ⟨limit, true⟩ = .error (.cycle chain) := by
  have hfirst := g.findCycle_spec.2 chain h
  cases hancestors : g.ancestors ⟨limit, true⟩ with
  | ok a =>
    have hheight := (height_of_ancestors rfl hancestors).1
    exact absurd hfirst.loopAbove hheight.le.not_loopAbove
  | error e =>
    obtain ⟨chain', rfl, hfirst'⟩ := ancestors_firstLoop hsize hancestors
    rw [hfirst.unique hfirst']

theorem isClosedWay_of_findCycle (h : g.findCycle = some chain) : g.IsClosedWay chain := by
  have hfault := (ancestors_eq_error (ancestors_eq_cycle (Nat.le_refl g.size) h)).2
  generalize heq : RoleError.cycle chain = e at hfault
  cases hfault with
  | @loop before mid x hway hnodup =>
    obtain ⟨-, rfl, -, -⟩ := RoleError.circular.inj heq
    exact ⟨hway, before, mid, x, rfl, hnodup⟩
  | tooDeep hway hnodup hlength =>
    obtain ⟨-, -, hdepth, -⟩ := RoleError.circular.inj heq
    cases hdepth

/-- The search for a loop finds none just where none can be reached from the root, and otherwise a
closed way from the root. With a limit of at least the number of roles, the strict search for
ancestors succeeds where no loop is found, and otherwise fails with the same chain. -/
theorem findCycle_agrees (g : RoleGraph) :
    (g.findCycle = none ↔ ¬g.HasLoop) ∧
      (∀ chain, g.findCycle = some chain → g.IsClosedWay chain) ∧
      ∀ limit, g.size ≤ limit →
        (g.findCycle = none → ∃ a, g.ancestors ⟨limit, true⟩ = .ok a) ∧
        ∀ chain, g.findCycle = some chain →
          g.ancestors ⟨limit, true⟩ = .error (.cycle chain) :=
  ⟨findCycle_eq_none_iff, fun _ ↦ isClosedWay_of_findCycle, fun _ hsize ↦
    ⟨exists_ancestors_of_findCycle hsize, fun _ ↦ ancestors_eq_cycle hsize⟩⟩

/-- Two loops above a role, one behind each of its parents. -/
def twoLoops : RoleGraph :=
  ofRoles ⟨"a", [], ["gone", "b", "c"], true⟩
    [⟨"b", [], ["d"], true⟩, ⟨"c", [], ["a"], true⟩, ⟨"d", [], ["b"], true⟩]

/-- Two ways up to one role, and no loop. -/
def sharedParent : RoleGraph :=
  ofRoles ⟨"a", [], ["b", "c"], true⟩
    [⟨"b", [], ["d"], true⟩, ⟨"c", [], ["d"], true⟩, ⟨"d", [], [], true⟩]

/-- Of two loops the one behind the first parent is reported. -/
theorem findCycle_agrees_two_loops :
    twoLoops.IsClosedWay ["a", "b", "d", "b"] ∧
      twoLoops.ancestors ⟨4, true⟩ = .error (.circular .direct ["a", "b", "d", "b"] none none) ∧
      ∃ a, sharedParent.ancestors ⟨4, true⟩ = .ok a := by
  obtain ⟨-, hclosed, hlimit⟩ := findCycle_agrees twoLoops
  obtain ⟨-, -, hlimit'⟩ := findCycle_agrees sharedParent
  refine ⟨hclosed _ rfl, (hlimit 4 (Nat.le_refl 4)).2 _ rfl, ?_⟩
  exact (hlimit' 4 (Nat.le_refl 4)).1 rfl

end RoleGraph

end RoleAccess
