import RoleAccess.Proofs.Role.StrictAncestry

/-!
The strict search for ancestors finds what the plain depth-first walk finds, which notes no heights
and walks above every parent each time it meets it (`ancestors_eq_plain`). The search passes over a
role only if its height has been noted and fits under the limit. Then no chain above it is too long,
none comes back to the trail, and all that lies above it has been met, so that the plain walk
succeeds there and meets nothing new (`exists_plainWalk_of_heightLE`).
-/

set_option autoImplicit false
set_option relaxedAutoImplicit false

namespace RoleAccess

/-! ### Folds that may fail -/

section Folds

variable {α β γ ε : Type} {f : β → α → Except ε β} {l : List α} {b : β}

/-- A fold succeeds if each step from what the steps before it lead to does. -/
theorem exists_foldlM_ok {motive : List α → β → Prop} (hstart : motive [] b)
    (hstep : ∀ done x c, x ∈ l → motive done c → ∃ c', f c x = .ok c' ∧ motive (done ++ [x]) c') :
    ∃ b', l.foldlM f b = .ok b' ∧ motive l b' := by
  cases hfold : l.foldlM f b with
  | ok b' =>
    refine ⟨b', rfl, foldlM_induction hfold hstart fun done x c c' hx hdone hc ↦ ?_⟩
    obtain ⟨next, hnext, hmotive⟩ := hstep done x c hx hdone
    cases hnext.symm.trans hc
    exact hmotive
  | error e =>
    obtain ⟨before, x, after, c, rfl, hbefore, hfail⟩ := foldlM_error_split hfold
    have hdone : motive before c := foldlM_induction hbefore hstart fun done y c c' hy hdone hc ↦ by
      obtain ⟨next, hnext, hmotive⟩ := hstep done y c (List.mem_append_left _ hy) hdone
      cases hnext.symm.trans hc
      exact hmotive
    obtain ⟨next, hnext, -⟩ := hstep before x c (by simp) hdone
    cases hnext.symm.trans hfail

/-- Two folds that look the same after each step do so at the end. -/
theorem map_foldlM_of_step {f' : γ → α → Except ε γ} {view : β → γ} {motive : β → Prop}
    (hstart : motive b)
    (hstep : ∀ c, ∀ x ∈ l, motive c →
      (f c x).map view = f' (view c) x ∧ ∀ c', f c x = .ok c' → motive c') :
    (l.foldlM f b).map view = l.foldlM f' (view b) := by
  induction l generalizing b with
  | nil => rfl
  | cons x rest ih =>
    obtain ⟨hsame, hkept⟩ := hstep b x List.mem_cons_self hstart
    rw [List.foldlM_cons, List.foldlM_cons, ← hsame]
    cases hx : f b x with
    | error e => rfl
    | ok c => exact ih (hkept c hx) fun d y hy ↦ hstep d y (List.mem_cons_of_mem x hy)

end Folds

/-! ### The plain walk -/

namespace RoleGraph

/-- The height above a role at the end of a trail, and the ids met so far with those above it, each
where it is first met. A parent on the trail, or one for which no step is left, ends the walk. -/
def plainWalk (g : RoleGraph) (limit steps : Nat) (trail : List String) (id : String)
    (met : List String) : Except RoleError (Nat × List String) :=
  (g.parents id).foldlM
    (fun (height, met) parent ↦
      if (id :: trail).contains parent then .error (.cycle (parent :: id :: trail).reverse)
      else
        match steps with
        | 0 => .error (.tooDeep (parent :: id :: trail).reverse (id :: trail).length limit)
        | steps + 1 => do
          let met := if met.contains parent then met else met ++ [parent]
          let (above, met) ← g.plainWalk limit steps (id :: trail) parent met
          return (max height (above + 1), met))
    (0, met)

/-- The ancestors of the root and the length of its longest chain of parents, by the plain walk. -/
def plainAncestors (g : RoleGraph) (limit : Nat) : Except RoleError Ancestry := do
  let (height, met) ← g.plainWalk limit limit [] g.rootId []
  return ⟨met, height⟩

variable {g : RoleGraph} {limit steps : Nat} {trail met : List String} {id parent : String}

/-- What the plain walk does at one parent. -/
def plainStep (g : RoleGraph) (limit steps : Nat) (trail : List String)
    (found : Nat × List String) (parent : String) : Except RoleError (Nat × List String) :=
  if trail.contains parent then .error (.cycle (parent :: trail).reverse)
  else
    match steps with
    | 0 => .error (.tooDeep (parent :: trail).reverse trail.length limit)
    | steps + 1 => do
      let met := if found.2.contains parent then found.2 else found.2 ++ [parent]
      let (above, met) ← g.plainWalk limit steps trail parent met
      return (max found.1 (above + 1), met)

theorem plainWalk_eq (g : RoleGraph) (limit steps : Nat) (trail : List String) (id : String)
    (met : List String) : g.plainWalk limit steps trail id met =
      (g.parents id).foldlM (g.plainStep limit steps (id :: trail)) (0, met) := by
  cases steps <;> rfl

theorem plainStep_of_mem {found : Nat × List String} (h : parent ∈ trail) :
    g.plainStep limit steps trail found parent = .error (.cycle (parent :: trail).reverse) :=
  if_pos (List.contains_iff_mem.mpr h)

theorem plainStep_zero {found : Nat × List String} (h : parent ∉ trail) :
    g.plainStep limit 0 trail found parent =
      .error (.tooDeep (parent :: trail).reverse trail.length limit) :=
  if_neg (mt List.contains_iff_mem.mp h)

theorem plainStep_succ {height : Nat} (h : parent ∉ trail) :
    g.plainStep limit (steps + 1) trail (height, met) parent =
      (g.plainWalk limit steps trail parent
        (if met.contains parent then met else met ++ [parent])).map
          fun found ↦ (max height (found.1 + 1), found.2) := by
  rw [plainStep, if_neg (mt List.contains_iff_mem.mp h)]
  dsimp only
  cases g.plainWalk limit steps trail parent
    (if met.contains parent then met else met ++ [parent]) <;> rfl

end RoleGraph

namespace Roster

variable {r : Roster} {id : String} {height above : Nat}

theorem Height.unique (h : r.Height id height) (h' : r.Height id above) : height = above := by
  obtain ⟨chain, hchain, rfl⟩ := h.attained
  obtain ⟨chain', hchain', rfl⟩ := h'.attained
  exact Nat.le_antisymm (h'.le chain hchain) (h.le chain' hchain')

end Roster

namespace RoleGraph

variable {g : RoleGraph} {steps : Nat} {trail met : List String} {id : String}

/-- Where no chain above a role is too long and all that lies above it has been met, the plain walk
succeeds and meets nothing new. -/
theorem exists_plainWalk_of_heightLE (limit : Nat) (hheight : g.roles.HeightLE id steps)
    (htrail : ∀ x ∈ trail, Relation.TransGen g.roles.Parent x id)
    (hmet : ∀ other, Relation.TransGen g.roles.Parent id other → other ∈ met) :
    ∃ height, g.plainWalk limit steps trail id met = .ok (height, met) ∧
      g.roles.Height id height := by
  induction steps generalizing trail id with
  | zero =>
    have hnone : g.parents id = [] := List.eq_nil_iff_forall_not_mem.mpr fun parent hmem ↦
      hheight.not_parent (mem_parents_iff.mp hmem)
    refine ⟨0, ?_, ⟨[], Roster.isChainAbove_nil g.roles id, rfl⟩, hheight⟩
    rw [plainWalk_eq, hnone]
    rfl
  | succ steps ih =>
    have hfold := exists_foldlM_ok (l := g.parents id)
      (f := g.plainStep limit (steps + 1) (id :: trail)) (b := (0, met))
      (motive := fun done found ↦ found.2 = met ∧ g.roles.Overtops id done found.1)
      ⟨rfl, Roster.overtops_nil g.roles id⟩ ?_
    · obtain ⟨⟨height, last⟩, hwalk, hlast, hall⟩ := hfold
      obtain rfl : last = met := hlast
      exact ⟨height, (plainWalk_eq g limit (steps + 1) trail id last).trans hwalk, hall.isHeight⟩
    · rintro done parent ⟨height, last⟩ hmem ⟨hlast, hdone⟩
      obtain rfl : last = met := hlast
      have hparent := mem_parents_iff.mp hmem
      have habove := hheight.of_parent hparent
      have hways := Roster.transGen_of_trail htrail hparent
      have hnew : parent ∉ id :: trail := fun hloop ↦ habove.no_loop (hways parent hloop)
      obtain ⟨k, hwalk, hk⟩ := ih habove hways fun other hother ↦ hmet other (.head hparent hother)
      refine ⟨(max height (k + 1), last), ?_, rfl, hdone.add hparent hk⟩
      rw [plainStep_succ hnew, if_pos (List.contains_iff_mem.mpr (hmet parent (.single hparent))),
        hwalk]
      rfl

end RoleGraph

/-! ### The search and the plain walk -/

namespace Walk

variable {g : RoleGraph} {mode : WalkMode} {steps : Nat} {trail : List String} {id parent : String}

/-- What a search shows of itself: a height and the roles in the order of their discovery. -/
def shown (found : Nat × Walk) : Nat × List String := (found.1, found.2.collected)

/-- A search whose notes are right: the heights are true, and what lies above a role that has been
left is collected. -/
def Informed (g : RoleGraph) (w : Walk) : Prop := w.Measured g ∧ ∃ met, w.Noted g met

theorem informed_start (g : RoleGraph) : Informed g {} :=
  ⟨fun id height least hnoted ↦ by simp at hnoted, [], noted_start g⟩

theorem Informed.meet {w : Walk} (h : w.Informed g) (id : String) : (w.meet id).Informed g := by
  obtain ⟨hmeasured, met, hnoted⟩ := h
  refine ⟨?_, met ++ [id], hnoted.meet id⟩
  unfold Measured
  rwa [finished_meet]

theorem Informed.visit {w w' : Walk} {height : Nat} (hw : w.Informed g)
    (hstrict : mode.strict = true) (hlimit : trail.length + steps = mode.limit)
    (htrail : ∀ x ∈ trail, Relation.TransGen g.roles.Parent x id)
    (h : visit g mode steps trail id w = .ok (height, w')) : w'.Informed g := by
  obtain ⟨hmeasured, met, hnoted⟩ := hw
  obtain ⟨hheight, hle, hmeasured'⟩ := visit_strict hstrict hlimit hmeasured h
  have hbound : g.roles.HeightLE id steps := hheight.le.mono (by omega)
  exact ⟨hmeasured', _, visit_noted hbound htrail hnoted h⟩

theorem Informed.step {found found' : Nat × Walk} (hfound : found.2.Informed g)
    (hstrict : mode.strict = true) (hlimit : trail.length + steps = mode.limit + 1)
    (hways : ∀ x ∈ trail, Relation.TransGen g.roles.Parent x parent)
    (h : step mode trail (ascent g mode trail steps) found parent = .ok found') :
    found'.2.Informed g := by
  obtain ⟨height', w'⟩ := found'
  rcases step_ok h with ⟨hlenient, -⟩ | ⟨-, n, above, hn, -, ⟨rfl, -⟩ | hup⟩
  · rw [hstrict] at hlenient
    cases hlenient
  · exact hfound.meet parent
  · exact (hfound.meet parent).visit hstrict (by omega) hways hup

/-- A noted role is passed over where the plain walk would find the same. -/
theorem plainWalk_of_known {w : Walk} {above : Nat} (hw : w.Informed g)
    (hstrict : mode.strict = true) (hlimit : trail.length + steps = mode.limit)
    (hways : ∀ x ∈ trail, Relation.TransGen g.roles.Parent x parent)
    (h : w.known? mode parent trail.length = some above) :
    g.plainWalk mode.limit steps trail parent w.collected = .ok (above, w.collected) := by
  obtain ⟨hmeasured, met, hnoted⟩ := hw
  obtain ⟨hheight, hle⟩ := height_of_known hmeasured hstrict h
  obtain ⟨noted, hfinished⟩ := finished_of_known h
  have hbound : g.roles.HeightLE parent steps := hheight.le.mono (by omega)
  have hmet : ∀ other, Relation.TransGen g.roles.Parent parent other → other ∈ w.collected := by
    intro other hother
    rw [hnoted.collected, List.mem_eraseDups]
    exact hnoted.swept parent noted hfinished other hother
  obtain ⟨height, hwalk, hheight'⟩ :=
    RoleGraph.exists_plainWalk_of_heightLE mode.limit hbound hways hmet
  rw [hwalk, hheight'.unique hheight]

theorem collected_meet (w : Walk) (id : String) : (w.meet id).collected =
    if w.collected.contains id then w.collected else w.collected ++ [id] := by
  unfold meet
  split <;> rfl

/-- At one parent the search does what the plain walk does, if it does so above that parent. -/
theorem shown_step {found : Nat × Walk} (hfound : found.2.Informed g)
    (hstrict : mode.strict = true) (hlimit : trail.length + steps = mode.limit + 1)
    (hways : ∀ x ∈ trail, Relation.TransGen g.roles.Parent x parent)
    (habove : ∀ n w, steps = n + 1 → w.Informed g →
      (visit g mode n trail parent w).map shown =
        g.plainWalk mode.limit n trail parent w.collected) :
    (step mode trail (ascent g mode trail steps) found parent).map shown =
      g.plainStep mode.limit steps trail (shown found) parent := by
  obtain ⟨height, w⟩ := found
  by_cases hmem : parent ∈ trail
  · rw [RoleGraph.plainStep_of_mem hmem, step_of_mem hmem, if_pos hstrict]
    rfl
  · cases steps with
    | zero =>
      rw [RoleGraph.plainStep_zero hmem, step_ascent_zero hmem, if_pos hstrict]
      rfl
    | succ n =>
      have hmeet := Informed.meet hfound parent
      rw [step_ascent_succ hmem, shown, RoleGraph.plainStep_succ hmem, ← collected_meet]
      cases hknown : (w.meet parent).known? mode parent trail.length with
      | some above =>
        rw [plainWalk_of_known hmeet hstrict (by omega) hways hknown]
        rfl
      | none =>
        rw [← habove n (w.meet parent) rfl hmeet]
        cases visit g mode n trail parent (w.meet parent) <;> rfl

/-- A strict search shows what the plain walk finds. -/
theorem shown_visit {w : Walk} (hstrict : mode.strict = true)
    (hlimit : trail.length + steps = mode.limit)
    (htrail : ∀ x ∈ trail, Relation.TransGen g.roles.Parent x id) (hw : w.Informed g) :
    (visit g mode steps trail id w).map shown =
      g.plainWalk mode.limit steps trail id w.collected := by
  induction steps using Nat.strong_induction_on generalizing trail id w with
  | _ steps ih =>
    have hfold : ((g.parents id).foldlM
        (step mode (id :: trail) (ascent g mode (id :: trail) steps)) (0, w)).map shown =
          (g.parents id).foldlM (g.plainStep mode.limit steps (id :: trail)) (shown (0, w)) := by
      refine map_foldlM_of_step (motive := fun found ↦ found.2.Informed g) hw ?_
      intro found parent hmem hfound
      have hways := Roster.transGen_of_trail htrail (RoleGraph.mem_parents_iff.mp hmem)
      have hlimit' : (id :: trail).length + steps = mode.limit + 1 := by
        rw [List.length_cons]
        omega
      refine ⟨shown_step hfound hstrict hlimit' hways fun n w hn hw ↦ ?_, fun found' hstep ↦ ?_⟩
      · exact ih n (by omega) (by omega) hways hw
      · exact hfound.step hstrict hlimit' hways hstep
    rw [RoleGraph.plainWalk_eq, visit_eq, explore]
    change _ = (g.parents id).foldlM _ (shown (0, w))
    rw [← hfold]
    cases (g.parents id).foldlM
      (step mode (id :: trail) (ascent g mode (id :: trail) steps)) (0, w) <;> rfl

end Walk

/-- The strict search gives just what the plain walk gives: the same ancestors in the same order and
the same height, or the same error. -/
theorem RoleGraph.ancestors_eq_plain (g : RoleGraph) (limit : Nat) :
    g.ancestors ⟨limit, true⟩ = g.plainAncestors limit := by
  have hshown : (Walk.visit g ⟨limit, true⟩ limit [] g.rootId {}).map Walk.shown =
      g.plainWalk limit limit [] g.rootId [] :=
    Walk.shown_visit rfl (Nat.zero_add limit) (fun x hx ↦ absurd hx List.not_mem_nil)
      (Walk.informed_start g)
  rw [ancestors, plainAncestors, ← hshown]
  cases Walk.visit g ⟨limit, true⟩ limit [] g.rootId {} <;> rfl

/-- The plain walk meets the shared parent again at the end of the longer chain. -/
example :
    let g := RoleGraph.ofRoles ⟨"a", [], ["b", "c"], true⟩ [⟨"b", [], ["x"], true⟩,
      ⟨"c", [], ["d"], true⟩, ⟨"d", [], ["x"], true⟩, ⟨"x", [], [], true⟩]
    g.plainAncestors 3 = .ok ⟨["b", "x", "c", "d"], 3⟩ ∧
      g.plainAncestors 2 = .error
        (.circular .maxDepthExceeded ["a", "c", "d", "x"] (some 3) (some 2)) :=
  ⟨rfl, rfl⟩

end RoleAccess
