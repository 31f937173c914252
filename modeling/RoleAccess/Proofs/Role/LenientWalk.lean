import RoleAccess.Proofs.Role.FirstLoop

/-!
The search for ancestors that passes over loops and over edges beyond the limit. It always succeeds,
and it collects every role that can be reached within the limit, once (`lenient_ancestors`). A role
may be left with roles above it unmet, because the limit was near or because they were on the trail.
What holds of a role that has been left is that each of its parents has been entered at most one
step further up than the role itself, or else is on the trail that far down (`Thorough`). So once
the trail is empty, every chain of parents from the root is covered.
-/

set_option autoImplicit false
set_option relaxedAutoImplicit false

namespace RoleAccess

/-! ### Places of a walk -/

namespace RoleGraph

variable {g : RoleGraph} {limit steps : Nat} {trail : List String} {id parent : String}

/-- A walk has come to a role along a trail from the root, which with the steps that are left makes
up the limit. -/
structure Stands (g : RoleGraph) (limit steps : Nat) (trail : List String) (id : String) :
    Prop where
  isTrail : g.IsTrail (id :: trail)
  left : trail.length + steps = limit

theorem stands_root (g : RoleGraph) (limit : Nat) : g.Stands limit limit [] g.rootId :=
  ⟨g.isTrail_root, Nat.zero_add limit⟩

theorem Stands.next (h : g.Stands limit (steps + 1) trail id) (hparent : g.roles.Parent id parent)
    (hnew : parent ∉ id :: trail) : g.Stands limit steps (id :: trail) parent := by
  refine ⟨h.isTrail.extend hparent hnew, ?_⟩
  have := h.left
  rw [List.length_cons]
  omega

theorem Stands.not_mem (h : g.Stands limit steps trail id) : id ∉ trail :=
  (List.nodup_cons.mp h.isTrail.nodup).1

theorem IsTrail.root_mem (h : g.IsTrail trail) : g.rootId ∈ trail := by
  have hstarts := h.way.starts
  exact List.mem_reverse.mp (List.mem_of_mem_head? hstarts)

end RoleGraph

/-! ### A lenient walk step by step -/

namespace Walk

variable {g : RoleGraph} {mode : WalkMode} {steps : Nat} {trail : List String}
variable {id parent other : String} {w w' : Walk} {height : Nat}

theorem known?_eq_some_iff {above depth : Nat} (hlenient : mode.strict = false) :
    w.known? mode id depth = some above ↔
      ∃ reached, w.finished[id]? = some (above, reached) ∧ reached ≤ depth := by
  unfold known?
  cases w.finished[id]? with
  | none => simp
  | some noted =>
    obtain ⟨height, reached⟩ := noted
    simp only [hlenient, Bool.false_eq_true, if_false, Option.some.injEq, Prod.mk.injEq]
    split <;> grind

theorem known?_eq_none_iff {depth : Nat} (hlenient : mode.strict = false) :
    w.known? mode id depth = none ↔
      ∀ above reached, w.finished[id]? = some (above, reached) → depth < reached := by
  rw [Option.eq_none_iff_forall_ne_some]
  constructor
  · intro hnone above reached hnoted
    by_contra hle
    exact hnone above ((known?_eq_some_iff hlenient).mpr ⟨reached, hnoted, Nat.not_lt.mp hle⟩)
  · intro hfar above hknown
    obtain ⟨reached, hnoted, hle⟩ := (known?_eq_some_iff hlenient).mp hknown
    exact absurd hle (Nat.not_le.mpr (hfar above reached hnoted))

/-- What a lenient walk does at one parent: it passes over it, looks its height up or walks on. -/
theorem step_lenient_ok {found found' : Nat × Walk} (hlenient : mode.strict = false)
    (h : step mode trail (ascent g mode trail steps) found parent = .ok found') :
    ((parent ∈ trail ∨ steps = 0) ∧ found' = found) ∨
      (parent ∉ trail ∧ ∃ n above, steps = n + 1 ∧ found'.1 = max found.1 (above + 1) ∧
        ((found'.2 = found.2.meet parent ∧ ∃ reached,
            found.2.finished[parent]? = some (above, reached) ∧ reached ≤ trail.length) ∨
          ((∀ above reached, found.2.finished[parent]? = some (above, reached) →
              trail.length < reached) ∧
            visit g mode n trail parent (found.2.meet parent) = .ok (above, found'.2)))) := by
  obtain ⟨height, w⟩ := found
  by_cases hmem : parent ∈ trail
  · rw [step_of_mem hmem, hlenient] at h
    exact Or.inl ⟨Or.inl hmem, (Except.ok.inj h).symm⟩
  cases steps with
  | zero =>
    rw [step_ascent_zero hmem, hlenient] at h
    exact Or.inl ⟨Or.inr rfl, (Except.ok.inj h).symm⟩
  | succ n =>
    right
    rw [step_ascent_succ hmem] at h
    cases hknown : (w.meet parent).known? mode parent trail.length with
    | some above =>
      rw [hknown] at h
      obtain rfl := Except.ok.inj h
      rw [known?_eq_some_iff hlenient, finished_meet] at hknown
      exact ⟨hmem, n, above, rfl, rfl, Or.inl ⟨rfl, hknown⟩⟩
    | none =>
      rw [hknown] at h
      cases hup : visit g mode n trail parent (w.meet parent) with
      | error e => simp [hup, Except.map] at h
      | ok found =>
        obtain ⟨above, last⟩ := found
        rw [hup] at h
        obtain rfl := Except.ok.inj h
        rw [known?_eq_none_iff hlenient, finished_meet] at hknown
        exact ⟨hmem, n, above, rfl, rfl, Or.inr ⟨hknown, hup⟩⟩

/-- Induction over a lenient walk. `P` is about the walk above one role, `Q` about the part of it
that is done after some of the parents of the role. -/
theorem lenient_induction {P : Nat → List String → String → Walk → Nat → Walk → Prop}
    {Q : Nat → List String → String → Walk → List String → Nat → Walk → Prop}
    (hlenient : mode.strict = false)
    (start : ∀ {steps trail id w}, g.Stands mode.limit steps trail id →
      Q steps trail id w [] 0 w)
    (passed : ∀ {steps trail id w done height w' parent}, g.Stands mode.limit steps trail id →
      Q steps trail id w done height w' → g.roles.Parent id parent →
      parent ∈ id :: trail ∨ steps = 0 → Q steps trail id w (done ++ [parent]) height w')
    (known : ∀ {steps trail id w done height w' parent above reached},
      g.Stands mode.limit (steps + 1) trail id → Q (steps + 1) trail id w done height w' →
      g.roles.Parent id parent → parent ∉ id :: trail →
      w'.finished[parent]? = some (above, reached) → reached ≤ trail.length + 1 →
      Q (steps + 1) trail id w (done ++ [parent]) (max height (above + 1)) (w'.meet parent))
    (climbed : ∀ {steps trail id w done height w' parent above last},
      g.Stands mode.limit (steps + 1) trail id → Q (steps + 1) trail id w done height w' →
      g.roles.Parent id parent → parent ∉ id :: trail →
      (∀ above reached, w'.finished[parent]? = some (above, reached) →
        trail.length + 1 < reached) →
      visit g mode steps (id :: trail) parent (w'.meet parent) = .ok (above, last) →
      P steps (id :: trail) parent (w'.meet parent) above last →
      Q (steps + 1) trail id w (done ++ [parent]) (max height (above + 1)) last)
    (finish : ∀ {steps trail id w height last}, g.Stands mode.limit steps trail id →
      Q steps trail id w (g.parents id) height last →
      P steps trail id w height (last.finish id height trail.length))
    (hplace : g.Stands mode.limit steps trail id)
    (h : visit g mode steps trail id w = .ok (height, w')) : P steps trail id w height w' := by
  induction steps using Nat.strong_induction_on generalizing trail id w height w' with
  | _ steps ih =>
    obtain ⟨last, hfold, rfl⟩ := visit_ok h
    refine finish hplace (foldlM_induction
      (motive := fun done found ↦ Q steps trail id w done found.1 found.2) hfold (start hplace) ?_)
    intro done parent found found' hmem hdone hstep
    have hparent := RoleGraph.mem_parents_iff.mp hmem
    rcases step_lenient_ok hlenient hstep with ⟨hpassed, rfl⟩ |
      ⟨hnew, n, above, rfl, hheight, ⟨hmeet, reached, hnoted, hle⟩ | ⟨hfar, hup⟩⟩
    · exact passed hplace hdone hparent hpassed
    · rw [hheight, hmeet]
      exact known hplace hdone hparent hnew hnoted hle
    · rw [hheight]
      exact climbed hplace hdone hparent hnew hfar hup
        (ih n (Nat.lt_succ_self n) (hplace.next hparent hnew) hup)

/-! ### What a walk notes of the roles it leaves -/

/-- A role has been left again, and was entered at most so many steps above the root. -/
def Entered (w : Walk) (id : String) (depth : Nat) : Prop :=
  ∃ height reached, w.finished[id]? = some (height, reached) ∧ reached ≤ depth

theorem Entered.mono {depth depth' : Nat} (h : w.Entered id depth) (hle : depth ≤ depth') :
    w.Entered id depth' := by
  obtain ⟨height, reached, hnoted, hreached⟩ := h
  exact ⟨height, reached, hnoted, hreached.trans hle⟩

theorem finished_finish_self (w : Walk) (id : String) (height depth : Nat) :
    (w.finish id height depth).finished[id]? = some (height,
      match w.finished[id]? with
      | some (_, reached) => min reached depth
      | none => depth) :=
  Std.TreeMap.getElem?_insert_self

theorem finished_finish_of_ne {depth : Nat} (hne : other ≠ id) :
    (w.finish id height depth).finished[other]? = w.finished[other]? := by
  simp [finish, Std.TreeMap.getElem?_insert, hne.symm]

/-- What is noted of a role that is left counts from this visit, or was noted before from an entry
that was no later. -/
theorem of_finished_finish_self {noted reached depth : Nat}
    (h : (w.finish id height depth).finished[id]? = some (noted, reached)) :
    noted = height ∧
      (reached = depth ∨ ∃ before, w.finished[id]? = some (before, reached) ∧ reached ≤ depth) := by
  rw [finished_finish_self, Option.some.injEq, Prod.mk.injEq] at h
  obtain ⟨hheight, hreached⟩ := h
  refine ⟨hheight.symm, ?_⟩
  cases hbefore : w.finished[id]? with
  | none =>
    simp only [hbefore] at hreached
    exact Or.inl hreached.symm
  | some entry =>
    obtain ⟨before, earlier⟩ := entry
    simp only [hbefore] at hreached
    rcases Nat.le_total earlier depth with hle | hle
    · rw [Nat.min_eq_left hle] at hreached
      exact Or.inr ⟨before, congrArg (fun n ↦ some (before, n)) hreached, hreached ▸ hle⟩
    · rw [Nat.min_eq_right hle] at hreached
      exact Or.inl hreached.symm

theorem entered_finish (w : Walk) (id : String) (height depth : Nat) :
    (w.finish id height depth).Entered id depth := by
  refine ⟨height, _, finished_finish_self w id height depth, ?_⟩
  split
  · exact Nat.min_le_right _ _
  · exact Nat.le_refl depth

/-- A walk that has gone on: nothing is lost of what was collected, and no role has been entered
later than before. -/
structure Grows (w w' : Walk) : Prop where
  collected : w.collected ⊆ w'.collected
  entered : ∀ {id depth}, w.Entered id depth → w'.Entered id depth

theorem Grows.refl (w : Walk) : w.Grows w := ⟨List.Subset.refl _, id⟩

theorem Grows.trans {w'' : Walk} (h : w.Grows w') (h' : w'.Grows w'') : w.Grows w'' :=
  ⟨List.Subset.trans h.collected h'.collected, fun hentered ↦ h'.entered (h.entered hentered)⟩

theorem grows_meet (w : Walk) (id : String) : w.Grows (w.meet id) := by
  constructor
  · unfold meet
    split
    · exact List.Subset.refl _
    · exact List.subset_append_left _ _
  · rintro other depth ⟨height, reached, hnoted, hle⟩
    exact ⟨height, reached, (finished_meet w id).symm ▸ hnoted, hle⟩

theorem grows_finish (w : Walk) (id : String) (height depth : Nat) :
    w.Grows (w.finish id height depth) := by
  refine ⟨List.Subset.refl _, ?_⟩
  rintro other bound ⟨noted, reached, hnoted, hle⟩
  by_cases heq : other = id
  · subst heq
    refine ⟨height, _, finished_finish_self w other height depth, ?_⟩
    rw [hnoted]
    exact (Nat.min_le_left reached depth).trans hle
  · exact ⟨noted, reached, (finished_finish_of_ne heq).trans hnoted, hle⟩

theorem mem_collected_meet (w : Walk) (id : String) : id ∈ (w.meet id).collected := by
  unfold meet
  split
  next h => exact List.contains_iff_mem.mp h
  next => exact List.mem_append_right _ (List.mem_singleton_self id)

theorem visit_grows (hlenient : mode.strict = false) (hplace : g.Stands mode.limit steps trail id)
    (h : visit g mode steps trail id w = .ok (height, w')) : w.Grows w' := by
  refine lenient_induction (P := fun _ _ _ w _ w' ↦ w.Grows w')
    (Q := fun _ _ _ w _ _ w' ↦ w.Grows w') hlenient ?start ?passed ?known ?climbed ?finish hplace h
  case start => exact fun _ ↦ Grows.refl _
  case passed => exact fun _ hdone _ _ ↦ hdone
  case known => exact fun _ hdone _ _ _ _ ↦ hdone.trans (grows_meet _ _)
  case climbed => exact fun _ hdone _ _ _ _ hup ↦ (hdone.trans (grows_meet _ _)).trans hup
  case finish => exact fun _ hall ↦ hall.trans (grows_finish _ _ _ _)

/-! ### What a walk collects within the limit -/

/-- There is a chain of at most `limit` parents from the first role up to the second. -/
def Within (g : RoleGraph) (limit : Nat) (id other : String) : Prop :=
  ∃ above, g.roles.IsChainAbove id above ∧ (id :: above).getLast? = some other ∧
    above.length ≤ limit

/-- All that has been collected is within the limit above the root, and nothing is listed twice. -/
structure Gathered (g : RoleGraph) (limit : Nat) (w : Walk) : Prop where
  nodup : w.collected.Nodup
  within : ∀ x ∈ w.collected, x ≠ g.rootId ∧ Within g limit g.rootId x

theorem within_of_trail {limit : Nat} (htrail : g.IsTrail (id :: trail))
    (hle : trail.length ≤ limit) : Within g limit g.rootId id := by
  obtain ⟨above, hway, hchain⟩ := htrail.way.eq_cons
  refine ⟨above, hchain, ?_, ?_⟩
  · rw [← hway, List.getLast?_reverse]
    rfl
  · have hlength := congrArg List.length hway
    rw [List.length_reverse, List.length_cons, List.length_cons] at hlength
    omega

theorem Gathered.meet {limit : Nat} (h : w.Gathered g limit)
    (hplace : g.Stands limit (steps + 1) trail id) (hparent : g.roles.Parent id parent)
    (hnew : parent ∉ id :: trail) : (w.meet parent).Gathered g limit := by
  have hnext := hplace.next hparent hnew
  unfold Walk.meet
  split
  next => exact h
  next hfresh =>
    rw [List.contains_iff_mem] at hfresh
    refine ⟨List.Nodup.append h.nodup (List.nodup_singleton parent) ?_, fun x hx ↦ ?_⟩
    · exact List.disjoint_singleton.mpr hfresh
    · rcases List.mem_append.mp hx with hold | hlast
      · exact h.within x hold
      · obtain rfl := List.mem_singleton.mp hlast
        refine ⟨fun heq ↦ hnew (heq ▸ hplace.isTrail.root_mem), ?_⟩
        exact within_of_trail hnext.isTrail (hnext.left ▸ Nat.le_add_right _ _)

theorem visit_gathered (hlenient : mode.strict = false)
    (hplace : g.Stands mode.limit steps trail id) (hw : w.Gathered g mode.limit)
    (h : visit g mode steps trail id w = .ok (height, w')) : w'.Gathered g mode.limit := by
  refine lenient_induction
    (P := fun _ _ _ w _ w' ↦ w.Gathered g mode.limit → w'.Gathered g mode.limit)
    (Q := fun _ _ _ w _ _ w' ↦ w.Gathered g mode.limit → w'.Gathered g mode.limit)
    hlenient ?start ?passed ?known ?climbed ?finish hplace h hw
  case start => exact fun _ hw ↦ hw
  case passed => exact fun _ hdone _ _ ↦ hdone
  case known => exact fun hplace hdone hparent hnew _ _ hw ↦ (hdone hw).meet hplace hparent hnew
  case climbed =>
    exact fun hplace hdone hparent hnew _ _ hup hw ↦ hup ((hdone hw).meet hplace hparent hnew)
  case finish => exact fun _ hall hw ↦ ⟨(hall hw).nodup, (hall hw).within⟩

/-! ### A walk passes nobody over within the limit -/

/-- A role has been entered at most so many steps above the root, or stands there on the trail. -/
def Onward (w : Walk) (trail : List String) (id : String) (depth : Nat) : Prop :=
  w.Entered id depth ∨ ∃ above below, trail = above ++ id :: below ∧ below.length ≤ depth

theorem Onward.grows {depth : Nat} (h : w.Onward trail id depth) (hgrows : w.Grows w') :
    w'.Onward trail id depth :=
  h.imp_left hgrows.entered

theorem Onward.cons {depth : Nat} (h : w.Onward trail id depth) :
    w.Onward (other :: trail) id depth := by
  refine h.imp_right ?_
  rintro ⟨above, below, rfl, hle⟩
  exact ⟨other :: above, below, rfl, hle⟩

/-- A role that leaves the trail has been entered. -/
theorem Onward.finish {depth : Nat} (h : w.Onward (id :: trail) other depth) :
    (w.finish id height trail.length).Onward trail other depth := by
  rcases h with hentered | ⟨above, below, hsplit, hle⟩
  · exact Or.inl ((grows_finish _ _ _ _).entered hentered)
  · cases above with
    | nil =>
      obtain ⟨rfl, rfl⟩ := List.cons.inj hsplit
      exact Or.inl ((entered_finish _ _ _ _).mono hle)
    | cons first above => exact Or.inr ⟨above, below, (List.cons.inj hsplit).2, hle⟩

/-- Every role that has been left is collected, unless it is the root, and if it was entered below
the limit, its parents have been or are being entered at most one step further up. -/
structure Thorough (g : RoleGraph) (limit : Nat) (trail : List String) (w : Walk) : Prop where
  listed : ∀ id height reached, w.finished[id]? = some (height, reached) →
    id = g.rootId ∨ id ∈ w.collected
  onward : ∀ id height reached parent, w.finished[id]? = some (height, reached) →
    reached < limit → g.roles.Parent id parent → w.Onward trail parent (reached + 1)

theorem Thorough.meet {limit : Nat} (h : w.Thorough g limit trail) (id : String) :
    (w.meet id).Thorough g limit trail := by
  have hgrows := grows_meet w id
  constructor
  · intro other height reached hnoted
    rw [finished_meet] at hnoted
    exact (h.listed other height reached hnoted).imp_right fun hmem ↦ hgrows.collected hmem
  · intro other height reached parent hnoted hlt hparent
    rw [finished_meet] at hnoted
    exact (h.onward other height reached parent hnoted hlt hparent).grows hgrows

theorem Thorough.cons {limit : Nat} (h : w.Thorough g limit trail) (id : String) :
    w.Thorough g limit (id :: trail) :=
  ⟨h.listed, fun other height reached parent hnoted hlt hparent ↦
    (h.onward other height reached parent hnoted hlt hparent).cons⟩

/-- A role may be left when its parents have been entered. -/
theorem Thorough.finish {limit : Nat} (h : w.Thorough g limit (id :: trail))
    (hid : id = g.rootId ∨ id ∈ w.collected)
    (hparents : trail.length < limit → ∀ parent, g.roles.Parent id parent →
      w.Onward (id :: trail) parent (trail.length + 1)) :
    (w.finish id height trail.length).Thorough g limit trail := by
  constructor
  · intro other noted reached hnoted
    by_cases heq : other = id
    · exact heq ▸ hid
    · exact h.listed other noted reached ((finished_finish_of_ne heq).symm.trans hnoted)
  · intro other noted reached parent hnoted hlt hparent
    by_cases heq : other = id
    · subst heq
      obtain ⟨-, rfl | ⟨before, hbefore, -⟩⟩ := of_finished_finish_self hnoted
      · exact (hparents hlt parent hparent).finish
      · exact (h.onward other before reached parent hbefore hlt hparent).finish
    · rw [finished_finish_of_ne heq] at hnoted
      exact (h.onward other noted reached parent hnoted hlt hparent).finish

/-- What a walk has done above a role after some of its parents. -/
structure Sweeping (g : RoleGraph) (limit steps : Nat) (trail : List String) (id : String)
    (done : List String) (w : Walk) : Prop where
  thorough : w.Thorough g limit (id :: trail)
  listed : id = g.rootId ∨ id ∈ w.collected
  onward : 0 < steps → ∀ parent ∈ done, w.Onward (id :: trail) parent (trail.length + 1)

theorem Sweeping.add {limit : Nat} {done : List String}
    (h : Sweeping g limit steps trail id done w) (hgrows : w.Grows w')
    (hthorough : w'.Thorough g limit (id :: trail))
    (hparent : 0 < steps → w'.Onward (id :: trail) parent (trail.length + 1)) :
    Sweeping g limit steps trail id (done ++ [parent]) w' := by
  refine ⟨hthorough, h.listed.imp_right fun hmem ↦ hgrows.collected hmem, ?_⟩
  intro hpos other hother
  rcases List.mem_append.mp hother with hold | hlast
  · exact (h.onward hpos other hold).grows hgrows
  · exact List.mem_singleton.mp hlast ▸ hparent hpos

/-- A lenient walk leaves the roles above a role with all their parents entered. -/
theorem visit_thorough (hlenient : mode.strict = false)
    (hplace : g.Stands mode.limit steps trail id) (hw : w.Thorough g mode.limit trail)
    (hid : id = g.rootId ∨ id ∈ w.collected)
    (h : visit g mode steps trail id w = .ok (height, w')) :
    w'.Thorough g mode.limit trail ∧ w'.Entered id trail.length := by
  refine lenient_induction
    (P := fun _ trail id w _ w' ↦ w.Thorough g mode.limit trail →
      id = g.rootId ∨ id ∈ w.collected →
        w'.Thorough g mode.limit trail ∧ w'.Entered id trail.length)
    (Q := fun steps trail id w done _ w' ↦ w.Thorough g mode.limit trail →
      id = g.rootId ∨ id ∈ w.collected → Sweeping g mode.limit steps trail id done w')
    hlenient ?start ?passed ?known ?climbed ?finish hplace h hw hid
  case start =>
    intro steps trail id w _ hw hid
    exact ⟨hw.cons id, hid, fun _ parent hmem ↦ absurd hmem List.not_mem_nil⟩
  case passed =>
    intro steps trail id w done height w' parent _ hdone _ hpassed hw hid
    refine (hdone hw hid).add (Grows.refl w') (hdone hw hid).thorough fun hpos ↦ Or.inr ?_
    obtain ⟨above, below, hsplit⟩ := List.append_of_mem (hpassed.resolve_right (by omega))
    refine ⟨above, below, hsplit, ?_⟩
    have hlength := congrArg List.length hsplit
    rw [List.length_cons, List.length_append, List.length_cons] at hlength
    omega
  case known =>
    intro steps trail id w done height w' parent above reached _ hdone _ _ hnoted hle hw hid
    refine (hdone hw hid).add (grows_meet w' parent) ((hdone hw hid).thorough.meet parent) ?_
    exact fun _ ↦ Or.inl ((grows_meet w' parent).entered ⟨above, reached, hnoted, hle⟩)
  case climbed =>
    intro steps trail id w done height w' parent above last hplace hdone hparent hnew _ hvisit hup
      hw hid
    obtain ⟨hthorough, hentered⟩ := hup ((hdone hw hid).thorough.meet parent)
      (Or.inr (mem_collected_meet w' parent))
    have hgrows := (grows_meet w' parent).trans
      (visit_grows hlenient (hplace.next hparent hnew) hvisit)
    exact (hdone hw hid).add hgrows hthorough fun _ ↦ Or.inl hentered
  case finish =>
    intro steps trail id w height last hplace hall hw hid
    obtain ⟨hthorough, hlisted, honward⟩ := hall hw hid
    refine ⟨hthorough.finish hlisted fun hlt parent hparent ↦ ?_, entered_finish _ _ _ _⟩
    have := hplace.left
    exact honward (by omega) parent (RoleGraph.mem_parents_iff.mpr hparent)

/-- With the trail empty again, all roles along a chain have been entered in time. -/
theorem Thorough.entered_of_chain {limit depth : Nat} {above : List String}
    (h : w.Thorough g limit []) (hid : w.Entered id depth) (hchain : g.roles.IsChainAbove id above)
    (hlast : (id :: above).getLast? = some other) (hle : depth + above.length ≤ limit) :
    w.Entered other limit := by
  induction above generalizing id depth with
  | nil =>
    obtain rfl := Option.some.inj hlast
    exact hid.mono hle
  | cons parent rest ih =>
    obtain ⟨hparent, hrest⟩ := Roster.isChainAbove_cons_iff.mp hchain
    obtain ⟨height, reached, hnoted, hreached⟩ := hid
    rw [List.length_cons] at hle
    rcases h.onward id height reached parent hnoted (by omega) hparent with hnext | ⟨l, r, hnil, -⟩
    · exact ih (hnext.mono (Nat.succ_le_succ hreached)) hrest hlast (by omega)
    · simp at hnil

end Walk

namespace RoleGraph

theorem exists_lenient_ancestors (g : RoleGraph) (limit : Nat) :
    ∃ a w, g.ancestors ⟨limit, false⟩ = .ok a ∧
      Walk.visit g ⟨limit, false⟩ limit [] g.rootId {} = .ok (a.height, w) ∧
        a.ids = w.collected := by
  cases ha : g.ancestors ⟨limit, false⟩ with
  | error e => exact absurd (ancestors_eq_error ha).1 Bool.false_ne_true
  | ok a =>
    obtain ⟨w, hvisit, hids⟩ := ancestors_eq_ok ha
    exact ⟨a, w, rfl, hvisit, hids⟩

/-- Without strictness the search always succeeds. It finds, once each, the roles other than the
root that some chain of parents within the limit leads to, whatever loops there are. -/
theorem lenient_ancestors (g : RoleGraph) (limit : Nat) :
    ∃ a, g.ancestors ⟨limit, false⟩ = .ok a ∧ a.ids.Nodup ∧
      ∀ id, id ∈ a.ids ↔ id ≠ g.rootId ∧
        ∃ above, g.roles.IsChainAbove g.rootId above ∧
          (g.rootId :: above).getLast? = some id ∧ above.length ≤ limit := by
  obtain ⟨a, w, ha, hvisit, hids⟩ := g.exists_lenient_ancestors limit
  have hplace := g.stands_root limit
  obtain ⟨hnodup, hwithin⟩ := Walk.visit_gathered rfl hplace
    ⟨List.nodup_nil, fun x hx ↦ absurd hx List.not_mem_nil⟩ hvisit
  obtain ⟨hthorough, hentered⟩ := Walk.visit_thorough rfl hplace
    ⟨by simp, by simp⟩ (Or.inl rfl) hvisit
  rw [← hids] at hnodup hwithin
  refine ⟨a, ha, hnodup, fun id ↦ ⟨hwithin id, ?_⟩⟩
  rintro ⟨hne, above, hchain, hlast, hle⟩
  obtain ⟨height, reached, hnoted, -⟩ :=
    hthorough.entered_of_chain hentered hchain hlast ((Nat.zero_add _).trans_le hle)
  exact hids ▸ (hthorough.listed id height reached hnoted).resolve_left hne

end RoleGraph

end RoleAccess
