import Mathlib.Data.List.Chain
import Mathlib.Data.List.Nodup
import RoleAccess.Proofs.Role.FirstOccurrences
import RoleAccess.Proofs.Role.Heights
import RoleAccess.Role.Ancestry

/-!
The walk upwards that finds the ancestors of a role. A walk that fails shows a chain from the root
that closes a loop or is too long (`Walk.visit_error`), and only a strict walk fails. A strict walk
that succeeds measures the height above each role it leaves (`Walk.visit_strict`). Any walk only
collects what lies above the role at which it began (`Walk.visit_above`), and where there is a
bound on the height, either walk notes the roles in the order in which they are first met
(`Walk.visit_noted`).
-/

set_option autoImplicit false
set_option relaxedAutoImplicit false

namespace RoleAccess

/-! ### Folds that may fail -/

section Folds

variable {α β ε : Type} {f : β → α → Except ε β}

/-- A fold fails at one entry, up to which it has succeeded. -/
theorem foldlM_error_split {l : List α} {b : β} {e : ε} (h : l.foldlM f b = .error e) :
    ∃ before x after c, l = before ++ x :: after ∧ before.foldlM f b = .ok c ∧
      f c x = .error e := by
  induction l generalizing b with
  | nil => cases h
  | cons x rest ih =>
    rw [List.foldlM_cons] at h
    cases hx : f b x with
    | error e' =>
      rw [hx] at h
      exact ⟨[], x, rest, b, rfl, rfl, hx.trans h⟩
    | ok c =>
      rw [hx] at h
      obtain ⟨before, y, after, d, rfl, hbefore, hfail⟩ := ih h
      refine ⟨x :: before, y, after, d, rfl, ?_, hfail⟩
      rw [List.foldlM_cons, hx]
      exact hbefore

/-- What holds at the start of a fold and is kept by each step holds at its end. -/
theorem foldlM_induction {motive : List α → β → Prop} {l : List α} {b b' : β}
    (h : l.foldlM f b = .ok b') (hstart : motive [] b)
    (hstep : ∀ done x c c', x ∈ l → motive done c → f c x = .ok c' → motive (done ++ [x]) c') :
    motive l b' := by
  suffices hfrom : ∀ done, motive done b → motive (done ++ l) b' from hfrom [] hstart
  clear hstart
  induction l generalizing b with
  | nil =>
    intro done hdone
    cases h
    rwa [List.append_nil]
  | cons x rest ih =>
    intro done hdone
    rw [List.foldlM_cons] at h
    cases hx : f b x with
    | error e => simp [hx, bind, Except.bind] at h
    | ok c =>
      rw [hx] at h
      rw [List.append_cons done x rest]
      refine ih h ?_ (done ++ [x]) (hstep done x b c List.mem_cons_self hdone hx)
      exact fun done y c c' hy ↦ hstep done y c c' (List.mem_cons_of_mem x hy)

end Folds

/-! ### Ways from the root -/

namespace RoleGraph

/-- A way from the root of a graph along parent edges. -/
structure IsWay (g : RoleGraph) (chain : List String) : Prop where
  starts : chain.head? = some g.rootId
  edges : chain.IsChain g.roles.Parent

/-- A way from the root that meets no role twice, the latest first. -/
structure IsTrail (g : RoleGraph) (trail : List String) : Prop where
  way : g.IsWay trail.reverse
  nodup : trail.Nodup

variable {g : RoleGraph} {id parent : String} {trail : List String}

theorem IsWay.extend (h : g.IsWay (id :: trail).reverse) (hparent : g.roles.Parent id parent) :
    g.IsWay (parent :: id :: trail).reverse := by
  rw [List.reverse_cons]
  constructor
  · have := h.starts
    rw [List.head?_append, this]
    rfl
  · refine List.isChain_append.mpr ⟨h.edges, List.IsChain.singleton parent, ?_⟩
    intro last hlast next hnext
    rw [List.getLast?_reverse, List.head?_cons, Option.mem_some_iff] at hlast
    rw [List.head?_cons, Option.mem_some_iff] at hnext
    exact hlast ▸ hnext ▸ hparent

theorem parent_of_split {before after : List String}
    (h : g.parents id = before ++ parent :: after) : g.roles.Parent id parent :=
  mem_parents_iff.mp (h ▸ List.mem_append_right before List.mem_cons_self)

theorem isTrail_root (g : RoleGraph) : g.IsTrail [g.rootId] :=
  ⟨⟨rfl, List.IsChain.singleton _⟩, List.pairwise_singleton _ _⟩

theorem IsTrail.extend (h : g.IsTrail (id :: trail)) (hparent : g.roles.Parent id parent)
    (hnew : parent ∉ id :: trail) : g.IsTrail (parent :: id :: trail) :=
  ⟨h.way.extend hparent, List.nodup_cons.mpr ⟨hnew, h.nodup⟩⟩

end RoleGraph

/-! ### What a walk does at one parent -/

namespace Walk

variable {g : RoleGraph} {mode : WalkMode} {steps : Nat} {trail : List String} {id parent : String}

/-- How a walk goes on above a role. -/
def ascent (g : RoleGraph) (mode : WalkMode) (trail : List String) :
    Nat → Option (String → Walk → Except RoleError (Nat × Walk))
  | 0 => none
  | steps + 1 => some (visit g mode steps trail)

theorem visit_eq (g : RoleGraph) (mode : WalkMode) (steps : Nat) (trail : List String)
    (id : String) (w : Walk) : visit g mode steps trail id w =
      explore g mode trail (ascent g mode (id :: trail) steps) id w := by
  cases steps <;> rfl

theorem step_of_mem {ascend : Option (String → Walk → Except RoleError (Nat × Walk))}
    {found : Nat × Walk} (h : parent ∈ trail) : step mode trail ascend found parent =
      if mode.strict then .error (RoleError.cycle (parent :: trail).reverse) else .ok found :=
  if_pos (List.contains_iff_mem.mpr h)

theorem step_ascent_zero {found : Nat × Walk} (h : parent ∉ trail) :
    step mode trail (ascent g mode trail 0) found parent =
      if mode.strict then
        .error (RoleError.tooDeep (parent :: trail).reverse trail.length mode.limit)
      else .ok found :=
  if_neg (mt List.contains_iff_mem.mp h)

/-- A parent above which the walk may go on is looked up, and walked if that is of no use. -/
theorem step_ascent_succ {height : Nat} {w : Walk} (h : parent ∉ trail) :
    step mode trail (ascent g mode trail (steps + 1)) (height, w) parent =
      match (w.meet parent).known? mode parent trail.length with
      | some above => .ok (max height (above + 1), w.meet parent)
      | none => (visit g mode steps trail parent (w.meet parent)).map
          fun found ↦ (max height (found.1 + 1), found.2) := by
  refine (if_neg (mt List.contains_iff_mem.mp h)).trans ?_
  dsimp only [ascent]
  cases (w.meet parent).known? mode parent trail.length with
  | some above => rfl
  | none => cases visit g mode steps trail parent (w.meet parent) <;> rfl

theorem step_error {found : Nat × Walk} {e : RoleError}
    (h : step mode trail (ascent g mode trail steps) found parent = .error e) :
    (mode.strict = true ∧ parent ∈ trail ∧ e = .cycle (parent :: trail).reverse) ∨
      (mode.strict = true ∧ parent ∉ trail ∧ steps = 0 ∧
        e = .tooDeep (parent :: trail).reverse trail.length mode.limit) ∨
      (parent ∉ trail ∧
        ∃ n, steps = n + 1 ∧ visit g mode n trail parent (found.2.meet parent) = .error e) := by
  obtain ⟨height, w⟩ := found
  by_cases hmem : parent ∈ trail
  · left
    cases hstrict : mode.strict with
    | false => simp [step, hmem, hstrict] at h
    | true =>
      simp only [step, List.contains_iff_mem, hmem, hstrict, if_true, Except.error.injEq] at h
      exact ⟨rfl, hmem, h.symm⟩
  · right
    cases steps with
    | zero =>
      left
      cases hstrict : mode.strict with
      | false => simp [step, ascent, hmem, hstrict] at h
      | true =>
        simp only [step, ascent, List.contains_iff_mem, hmem, hstrict, if_true, if_false,
          Except.error.injEq] at h
        exact ⟨rfl, hmem, rfl, h.symm⟩
    | succ n =>
      right
      refine ⟨hmem, n, rfl, ?_⟩
      simp only [step, ascent, List.contains_iff_mem, hmem, if_false] at h
      split at h
      · cases h
      · cases hup : visit g mode n trail parent (w.meet parent) with
        | error e' =>
          rw [hup] at h
          exact h
        | ok next => simp [hup, bind, Except.bind, pure, Except.pure] at h

/-- A parent that is not passed over has its height looked up or found by a walk. -/
theorem step_ok {height height' : Nat} {w w' : Walk}
    (h : step mode trail (ascent g mode trail steps) (height, w) parent = .ok (height', w')) :
    (mode.strict = false ∧ (parent ∈ trail ∨ steps = 0) ∧ (height', w') = (height, w)) ∨
      (parent ∉ trail ∧ ∃ n above, steps = n + 1 ∧ height' = max height (above + 1) ∧
        ((w' = w.meet parent ∧ w'.known? mode parent trail.length = some above) ∨
          visit g mode n trail parent (w.meet parent) = .ok (above, w'))) := by
  by_cases hmem : parent ∈ trail
  · left
    cases hstrict : mode.strict with
    | true => simp [step, hmem, hstrict] at h
    | false =>
      simp only [step, List.contains_iff_mem, hmem, hstrict, if_true, Bool.false_eq_true, if_false,
        Except.ok.injEq] at h
      exact ⟨rfl, Or.inl hmem, h.symm⟩
  · cases steps with
    | zero =>
      left
      cases hstrict : mode.strict with
      | true => simp [step, ascent, hmem, hstrict] at h
      | false =>
        simp only [step, ascent, List.contains_iff_mem, hmem, hstrict, Bool.false_eq_true, if_false,
          Except.ok.injEq] at h
        exact ⟨rfl, Or.inr rfl, h.symm⟩
    | succ n =>
      right
      simp only [step, ascent, List.contains_iff_mem, hmem, if_false] at h
      split at h
      next above habove =>
        simp only [Except.ok.injEq, Prod.mk.injEq] at h
        obtain ⟨rfl, rfl⟩ := h
        exact ⟨hmem, n, above, rfl, rfl, Or.inl ⟨rfl, habove⟩⟩
      next =>
        cases hup : visit g mode n trail parent (w.meet parent) with
        | error e => simp [hup, bind, Except.bind] at h
        | ok next =>
          obtain ⟨above, last⟩ := next
          simp only [hup, bind, Except.bind, pure, Except.pure, Except.ok.injEq,
            Prod.mk.injEq] at h
          obtain ⟨rfl, rfl⟩ := h
          exact ⟨hmem, n, above, rfl, rfl, Or.inr hup⟩

theorem visit_ok {w w' : Walk} {height : Nat}
    (h : visit g mode steps trail id w = .ok (height, w')) :
    ∃ last, (g.parents id).foldlM (step mode (id :: trail) (ascent g mode (id :: trail) steps))
        (0, w) = .ok (height, last) ∧ w' = last.finish id height trail.length := by
  rw [visit_eq, explore] at h
  cases hfold : (g.parents id).foldlM
      (step mode (id :: trail) (ascent g mode (id :: trail) steps)) (0, w) with
  | error e => simp [hfold, bind, Except.bind] at h
  | ok found =>
    obtain ⟨top, last⟩ := found
    simp only [hfold, bind, Except.bind, pure, Except.pure, Except.ok.injEq, Prod.mk.injEq] at h
    obtain ⟨rfl, rfl⟩ := h
    exact ⟨last, rfl, rfl⟩

/-- A walk fails at one parent of some role, up to which it has succeeded. -/
theorem exists_step_of_visit_error {w : Walk} {e : RoleError}
    (h : visit g mode steps trail id w = .error e) :
    ∃ before parent after found, g.parents id = before ++ parent :: after ∧
      before.foldlM (step mode (id :: trail) (ascent g mode (id :: trail) steps)) (0, w) =
        .ok found ∧
      step mode (id :: trail) (ascent g mode (id :: trail) steps) found parent = .error e := by
  rw [visit_eq, explore] at h
  cases hfold : (g.parents id).foldlM
      (step mode (id :: trail) (ascent g mode (id :: trail) steps)) (0, w) with
  | ok found => simp [hfold, bind, Except.bind, pure, Except.pure] at h
  | error e' =>
    rw [hfold] at h
    cases h
    exact foldlM_error_split hfold

end Walk

/-! ### Where a walk fails -/

/-- The kind of a loop of so many edges. -/
def CycleKind.ofLoop : Nat → CycleKind
  | 1 => .selfReference
  | 2 => .direct
  | _ => .indirect

theorem CycleKind.ofChain_closed {before mid : List String} {x : String} (h : x ∉ before) :
    CycleKind.ofChain (before ++ x :: mid ++ [x]) = CycleKind.ofLoop (mid.length + 1) := by
  have hlast : (before ++ x :: mid ++ [x]).getLast? = some x := List.getLast?_concat
  have hfirst : (before ++ x :: mid ++ [x]).idxOf x = before.length := by
    rw [List.append_assoc, List.idxOf_append_of_notMem h, List.cons_append, List.idxOf_cons_self,
      Nat.add_zero]
  have hloop : (before ++ x :: mid ++ [x]).length - 1 - before.length = mid.length + 1 := by
    simp only [List.length_append, List.length_cons, List.length_nil]
    omega
  simp only [ofChain, hlast, hfirst, hloop]
  rcases mid.length with _ | _ | n <;> rfl

/-- What a strict walk reports: a way from the root that closes a loop with its last edge and meets
no role twice before, or one that meets no role twice and is just one edge too long. -/
inductive AncestryFault (g : RoleGraph) (limit : Nat) : RoleError → Prop where
  | loop {before mid : List String} {x : String} (way : g.IsWay (before ++ x :: mid ++ [x]))
      (nodup : (before ++ x :: mid).Nodup) :
      AncestryFault g limit (.circular (CycleKind.ofLoop (mid.length + 1))
        (before ++ x :: mid ++ [x]) none none)
  | tooDeep {chain : List String} (way : g.IsWay chain) (nodup : chain.Nodup)
      (length : chain.length = limit + 2) :
      AncestryFault g limit (.circular .maxDepthExceeded chain (some (limit + 1)) (some limit))

namespace Walk

variable {g : RoleGraph} {mode : WalkMode} {steps : Nat} {trail : List String} {id parent : String}

theorem fault_of_mem (htrail : g.IsTrail (id :: trail)) (hparent : g.roles.Parent id parent)
    (hmem : parent ∈ id :: trail) :
    AncestryFault g mode.limit (.cycle (parent :: id :: trail).reverse) := by
  have hway := htrail.way.extend hparent
  have hnodup := List.nodup_reverse.mpr htrail.nodup
  obtain ⟨mid, before, hsplit⟩ := List.append_of_mem hmem
  have hreverse : (id :: trail).reverse = before.reverse ++ parent :: mid.reverse := by
    rw [hsplit, List.reverse_append, List.reverse_cons, List.append_assoc]
    rfl
  rw [List.reverse_cons, hreverse] at hway
  rw [hreverse] at hnodup
  have hnew : parent ∉ before.reverse := fun hbefore ↦
    (List.nodup_append.mp hnodup).2.2 parent hbefore parent List.mem_cons_self rfl
  rw [RoleError.cycle, List.reverse_cons, hreverse, CycleKind.ofChain_closed hnew]
  exact .loop hway hnodup

/-- A failing walk is strict, and shows what is wrong. -/
theorem visit_error {w : Walk} {e : RoleError} (htrail : g.IsTrail (id :: trail))
    (hlimit : trail.length + steps = mode.limit) (h : visit g mode steps trail id w = .error e) :
    mode.strict = true ∧ AncestryFault g mode.limit e := by
  -- The steps that are left and the trail together make up the limit, so that a walk without steps
  -- can only fail with a way that is one edge too long.
  induction steps generalizing trail id w with
  | zero =>
    obtain ⟨before, parent, after, found, hparents, -, hstep⟩ := exists_step_of_visit_error h
    have hparent := RoleGraph.parent_of_split hparents
    rcases step_error hstep with ⟨hstrict, hmem, rfl⟩ | ⟨hstrict, hnew, -, rfl⟩ | ⟨-, n, hn, -⟩
    · exact ⟨hstrict, fault_of_mem htrail hparent hmem⟩
    · have hnext := htrail.extend hparent hnew
      refine ⟨hstrict, ?_⟩
      rw [RoleError.tooDeep, ← hlimit, List.length_cons]
      refine .tooDeep hnext.way (List.nodup_reverse.mpr hnext.nodup) ?_
      rw [List.length_reverse, List.length_cons, List.length_cons]
    · cases hn
  | succ n ih =>
    obtain ⟨before, parent, after, found, hparents, -, hstep⟩ := exists_step_of_visit_error h
    have hparent := RoleGraph.parent_of_split hparents
    rcases step_error hstep with ⟨hstrict, hmem, rfl⟩ | ⟨-, -, hn, -⟩ | ⟨hnew, m, hm, hup⟩
    · exact ⟨hstrict, fault_of_mem htrail hparent hmem⟩
    · cases hn
    · obtain rfl := Nat.succ.inj hm
      refine ih (htrail.extend hparent hnew) ?_ hup
      rw [List.length_cons]
      omega

/-! ### Heights -/

/-- The heights that have been noted are the true ones. -/
def Measured (g : RoleGraph) (w : Walk) : Prop :=
  ∀ id height least, w.finished[id]? = some (height, least) → g.roles.Height id height

theorem finished_meet (w : Walk) (id : String) : (w.meet id).finished = w.finished := by
  unfold meet
  split <;> rfl

theorem finished_finish (w : Walk) (id other : String) (height depth : Nat) :
    ∃ least, (w.finish id height depth).finished[other]? =
      if id = other then some (height, least) else w.finished[other]? := by
  simp only [finish, Std.TreeMap.getElem?_insert, Std.LawfulEqCmp.compare_eq_iff_eq]
  exact ⟨_, rfl⟩

theorem Measured.finish {w : Walk} (h : w.Measured g) {height : Nat}
    (hid : g.roles.Height id height) (depth : Nat) : (w.finish id height depth).Measured g := by
  intro other noted least hnoted
  obtain ⟨reached, hfinished⟩ := finished_finish w id other height depth
  rw [hfinished] at hnoted
  split at hnoted
  next heq =>
    cases hnoted
    exact heq ▸ hid
  next => exact h other noted least hnoted

theorem height_of_known {w : Walk} (h : w.Measured g) (hstrict : mode.strict = true)
    {depth above : Nat} (hknown : w.known? mode parent depth = some above) :
    g.roles.Height parent above ∧ depth + above ≤ mode.limit := by
  unfold known? at hknown
  cases hfinished : w.finished[parent]? with
  | none => simp [hfinished] at hknown
  | some noted =>
    obtain ⟨height, least⟩ := noted
    simp only [hfinished, hstrict, if_true] at hknown
    split at hknown
    next hle =>
      cases hknown
      exact ⟨h parent above least hfinished, hle⟩
    next => cases hknown

/-- A strict walk between two parents of a role, the first of which are done: the height so far is
the true one as far as they go, and within the limit. -/
structure Measuring (g : RoleGraph) (limit : Nat) (trail : List String) (id : String)
    (done : List String) (found : Nat × Walk) : Prop where
  measured : found.2.Measured g
  overtops : g.roles.Overtops id done found.1
  le : trail.length + found.1 ≤ limit

/-- One parent of a strict walk, if what it does above that is right. -/
theorem Measuring.step {done : List String} {found found' : Nat × Walk}
    (hstrict : mode.strict = true) (hparent : g.roles.Parent id parent)
    (hdone : Measuring g mode.limit trail id done found)
    (habove : ∀ n w above w', steps = n + 1 → w.Measured g →
      visit g mode n (id :: trail) parent w = .ok (above, w') →
        g.roles.Height parent above ∧ trail.length + 1 + above ≤ mode.limit ∧ w'.Measured g)
    (h : step mode (id :: trail) (ascent g mode (id :: trail) steps) found parent = .ok found') :
    Measuring g mode.limit trail id (done ++ [parent]) found' := by
  rcases step_ok h with ⟨hlenient, -⟩ | ⟨-, n, above, hn, hheight, hway⟩
  · rw [hstrict] at hlenient
    cases hlenient
  · have hmeet : (found.2.meet parent).Measured g := by
      unfold Measured
      rw [finished_meet]
      exact hdone.measured
    obtain ⟨height', next⟩ := found'
    obtain rfl : height' = max found.1 (above + 1) := hheight
    have hwithin (hle : trail.length + 1 + above ≤ mode.limit) :
        trail.length + max found.1 (above + 1) ≤ mode.limit := by
      have := hdone.le
      omega
    rcases hway with ⟨rfl, hknown⟩ | hup
    · obtain ⟨hparentHeight, hle⟩ := height_of_known hmeet hstrict hknown
      exact ⟨hmeet, hdone.overtops.add hparent hparentHeight, hwithin hle⟩
    · obtain ⟨hparentHeight, hle, hnext⟩ := habove n _ above next hn hmeet hup
      exact ⟨hnext, hdone.overtops.add hparent hparentHeight, hwithin hle⟩

/-- A strict walk before it has looked at any parent of a role. -/
theorem measuring_start {w : Walk} (hlimit : trail.length + steps = mode.limit)
    (hw : w.Measured g) : Measuring g mode.limit trail id [] (0, w) :=
  ⟨hw, Roster.overtops_nil g.roles id, hlimit ▸ Nat.le_add_right _ _⟩

/-- One role of a strict walk, if what it does above the parents is right. -/
theorem height_of_visit {w w' : Walk} {height : Nat} (hstrict : mode.strict = true)
    (hlimit : trail.length + steps = mode.limit) (hw : w.Measured g)
    (h : visit g mode steps trail id w = .ok (height, w'))
    (habove : ∀ n parent w above w', steps = n + 1 → w.Measured g →
      visit g mode n (id :: trail) parent w = .ok (above, w') →
        g.roles.Height parent above ∧ trail.length + 1 + above ≤ mode.limit ∧ w'.Measured g) :
    g.roles.Height id height ∧ trail.length + height ≤ mode.limit ∧ w'.Measured g := by
  obtain ⟨last, hfold, rfl⟩ := visit_ok h
  have hall := foldlM_induction (motive := Measuring g mode.limit trail id) hfold
    (measuring_start hlimit hw) fun done parent found found' hmem hdone hstep ↦
      hdone.step hstrict (RoleGraph.mem_parents_iff.mp hmem) (fun n ↦ habove n parent) hstep
  have hheight := hall.overtops.isHeight
  exact ⟨hheight, hall.le, hall.measured.finish hheight _⟩

/-- A strict walk that succeeds measures the height above the role, and it is within the limit. -/
theorem visit_strict {w w' : Walk} {height : Nat} (hstrict : mode.strict = true)
    (hlimit : trail.length + steps = mode.limit) (hw : w.Measured g)
    (h : visit g mode steps trail id w = .ok (height, w')) :
    g.roles.Height id height ∧ trail.length + height ≤ mode.limit ∧ w'.Measured g := by
  induction steps generalizing trail id w w' height with
  | zero => exact height_of_visit hstrict hlimit hw h fun n parent w above w' hn ↦ by cases hn
  | succ n ih =>
    refine height_of_visit hstrict hlimit hw h fun m parent w above w' hm hw hup ↦ ?_
    obtain rfl := Nat.succ.inj hm
    refine ih ?_ hw hup
    rw [List.length_cons]
    omega

end Walk

/-! ### What a walk collects -/

namespace Walk

variable {g : RoleGraph} {mode : WalkMode} {steps : Nat} {trail : List String} {id top : String}

/-- All that has been collected lies above the role at which the walk began. -/
def Above (g : RoleGraph) (top : String) (w : Walk) : Prop :=
  ∀ x ∈ w.collected, Relation.TransGen g.roles.Parent top x

theorem Above.meet {w : Walk} {parent : String} (h : w.Above g top)
    (hparent : Relation.TransGen g.roles.Parent top parent) : (w.meet parent).Above g top := by
  unfold Walk.meet
  split
  · exact h
  · intro x hx
    rcases List.mem_append.mp hx with hold | hnew
    · exact h x hold
    · rwa [List.mem_singleton.mp hnew]

/-- One role of a walk, if what it does above the parents is right. -/
theorem above_of_visit {w w' : Walk} {height : Nat} (hid : g.roles.Reaches top id)
    (hw : w.Above g top) (h : visit g mode steps trail id w = .ok (height, w'))
    (habove : ∀ n parent w above w', steps = n + 1 → g.roles.Parent id parent → w.Above g top →
      visit g mode n (id :: trail) parent w = .ok (above, w') → w'.Above g top) :
    w'.Above g top := by
  obtain ⟨last, hfold, rfl⟩ := visit_ok h
  have hall : last.Above g top := foldlM_induction (motive := fun _ found ↦ found.2.Above g top)
    hfold hw fun done parent found found' hmem hdone hstep ↦ ?_
  · exact hall
  · have hparent := RoleGraph.mem_parents_iff.mp hmem
    have hmeet := hdone.meet (Relation.TransGen.tail' hid hparent)
    obtain ⟨height', next⟩ := found'
    rcases step_ok hstep with ⟨-, -, hsame⟩ | ⟨-, n, above, hn, -, ⟨rfl, -⟩ | hup⟩
    · rwa [hsame]
    · exact hmeet
    · exact habove n parent _ above next hn hparent hmeet hup

/-- A walk, strict or not, only collects what lies above the role at which it began. -/
theorem visit_above {w w' : Walk} {height : Nat} (hid : g.roles.Reaches top id)
    (hw : w.Above g top) (h : visit g mode steps trail id w = .ok (height, w')) :
    w'.Above g top := by
  induction steps generalizing trail id w w' height with
  | zero => exact above_of_visit hid hw h fun n parent w above w' hn ↦ by cases hn
  | succ n ih =>
    refine above_of_visit hid hw h fun m parent w above w' hm hparent hw hup ↦ ?_
    obtain rfl := Nat.succ.inj hm
    exact ih (hid.tail hparent) hw hup

end Walk

/-! ### The order of discovery -/

namespace Walk

variable {g : RoleGraph} {mode : WalkMode} {steps : Nat} {trail met : List String} {id : String}

/-- A walk that has met these ids, in this order, and among them all that lies above a role it has
left. -/
structure Noted (g : RoleGraph) (met : List String) (w : Walk) : Prop where
  collected : w.collected = met.eraseDups
  swept : ∀ id noted, w.finished[id]? = some noted →
    ∀ other, Relation.TransGen g.roles.Parent id other → other ∈ met

theorem noted_start (g : RoleGraph) : Noted g [] {} := by
  refine ⟨rfl, fun id noted hnoted ↦ ?_⟩
  simp at hnoted

theorem Noted.meet {w : Walk} (h : w.Noted g met) (id : String) :
    (w.meet id).Noted g (met ++ [id]) := by
  constructor
  · by_cases hmem : id ∈ met
    · rw [eraseDups_append_of_subset (by simp [hmem]), ← h.collected]
      simp [Walk.meet, h.collected, List.mem_eraseDups, hmem]
    · rw [eraseDups_append_of_not_mem hmem, ← h.collected]
      simp [Walk.meet, h.collected, List.mem_eraseDups, hmem]
  · intro other noted hnoted next hnext
    rw [finished_meet] at hnoted
    exact List.mem_append_left _ (h.swept other noted hnoted next hnext)

theorem Noted.again {more : List String} {w : Walk} (h : w.Noted g met)
    (hmore : ∀ other ∈ more, other ∈ met) : w.Noted g (met ++ more) := by
  constructor
  · rw [eraseDups_append_of_subset hmore, h.collected]
  · intro id noted hnoted other hother
    exact List.mem_append_left _ (h.swept id noted hnoted other hother)

theorem Noted.finish {w : Walk} (h : w.Noted g met)
    (hid : ∀ other, Relation.TransGen g.roles.Parent id other → other ∈ met)
    (height depth : Nat) : (w.finish id height depth).Noted g met := by
  refine ⟨h.collected, fun left noted hnoted ↦ ?_⟩
  obtain ⟨least, hfinished⟩ := finished_finish w id left height depth
  rw [hfinished] at hnoted
  split at hnoted
  next heq => exact heq ▸ hid
  next => exact h.swept left noted hnoted

theorem finished_of_known {w : Walk} {depth above : Nat}
    (h : w.known? mode id depth = some above) : ∃ noted, w.finished[id]? = some noted := by
  unfold known? at h
  cases hfinished : w.finished[id]? with
  | none => simp [hfinished] at h
  | some noted => exact ⟨noted, rfl⟩

/-- What a walk does at one parent, if what it does above that is right. -/
theorem Noted.step {n : Nat} {parent : String} {found found' : Nat × Walk}
    (hdone : found.2.Noted g met) (habove : g.roles.HeightLE parent n)
    (hways : ∀ x ∈ trail, Relation.TransGen g.roles.Parent x parent)
    (hup : ∀ w above w', w.Noted g (met ++ [parent]) →
      visit g mode n trail parent w = .ok (above, w') →
        w'.Noted g (met ++ [parent] ++ g.roles.upwards n parent))
    (h : step mode trail (ascent g mode trail (n + 1)) found parent = .ok found') :
    found'.2.Noted g (met ++ [parent] ++ g.roles.upwards n parent) := by
  have hmeet := hdone.meet parent
  -- Below a bound on the height no parent is passed over: it would close a loop.
  rcases step_ok h with ⟨-, hpassed, -⟩ | ⟨-, m, above, hm, -, hway⟩
  · rcases hpassed with hloop | hnone
    · exact absurd (hways parent hloop) habove.no_loop
    · cases hnone
  · obtain rfl := Nat.succ.inj hm
    rcases hway with ⟨hlast, hknown⟩ | hvisit
    · obtain ⟨noted, hnoted⟩ := finished_of_known hknown
      rw [hlast] at hnoted ⊢
      refine hmeet.again fun other hother ↦ ?_
      exact hmeet.swept parent noted hnoted other (habove.mem_upwards_iff.mp hother)
    · exact hup _ above _ hmeet hvisit

/-- Where no chain is longer than the steps that are left, a walk meets what lies above a role in
the order of `Roster.upwards`. -/
theorem visit_noted {w w' : Walk} {height : Nat} (hheight : g.roles.HeightLE id steps)
    (htrail : ∀ x ∈ trail, Relation.TransGen g.roles.Parent x id) (hw : w.Noted g met)
    (h : visit g mode steps trail id w = .ok (height, w')) :
    w'.Noted g (met ++ g.roles.upwards steps id) := by
  induction steps generalizing trail id met w w' height with
  | zero =>
    obtain ⟨last, hfold, rfl⟩ := visit_ok h
    have hnone : g.parents id = [] := List.eq_nil_iff_forall_not_mem.mpr fun parent hmem ↦
      hheight.not_parent (RoleGraph.mem_parents_iff.mp hmem)
    rw [hnone] at hfold
    cases hfold
    rw [Roster.upwards, List.append_nil]
    refine hw.finish (fun other hother ↦ ?_) _ _
    exact absurd (hheight.mem_upwards_iff.mpr hother) List.not_mem_nil
  | succ n ih =>
    obtain ⟨last, hfold, rfl⟩ := visit_ok h
    have hall := foldlM_induction
      (motive := fun done found ↦ found.2.Noted g
        (met ++ done.flatMap fun parent ↦ parent :: g.roles.upwards n parent))
      hfold (by rwa [List.flatMap_nil, List.append_nil])
      fun done parent found found' hmem hdone hstep ↦ ?_
    · refine hall.finish (fun other hother ↦ ?_) _ _
      exact List.mem_append_right _ (hheight.mem_upwards_iff.mpr hother)
    · have hparent := RoleGraph.mem_parents_iff.mp hmem
      have habove := hheight.of_parent hparent
      have hways := Roster.transGen_of_trail htrail hparent
      have hsplit : met ++ (done ++ [parent]).flatMap (fun p ↦ p :: g.roles.upwards n p) =
          met ++ done.flatMap (fun p ↦ p :: g.roles.upwards n p) ++ [parent] ++
            g.roles.upwards n parent := by
        simp [List.flatMap_append]
      rw [hsplit]
      exact hdone.step habove hways (fun w above w' hmet ↦ ih habove hways hmet) hstep

end Walk

end RoleAccess
