import RoleAccess.Proofs.Role.Lineage
import RoleAccess.Role.Descent

/-!
The walk downwards asks exactly for the children of the ids from which its start can be reached by
listed parents, the start included (`mem_asked_descend_iff`). That is how invalidation finds every
role that a change can be seen from.
-/

set_option autoImplicit false
set_option relaxedAutoImplicit false

namespace RoleAccess

theorem RoleSource.roster_children_of_children {s : RoleSource} {id : String} {children : List Role}
    (h : s.children id = .ok children) : s.roster.children id = children := by
  unfold RoleSource.children at h
  split at h
  · cases h
  · exact Except.ok.inj h

theorem Roster.lists_iff_mem_children {r : Roster} {child parent : String} :
    r.Lists child parent ↔ child ∈ (r.children parent).map Role.id := by
  simp only [Lists, List.mem_map, mem_children_iff]
  constructor
  · rintro ⟨role, hrole, hmem⟩
    obtain rfl := id_of_find? hrole
    exact ⟨role, ⟨hrole, hmem⟩, rfl⟩
  · rintro ⟨role, ⟨hrole, hmem⟩, rfl⟩
    exact ⟨role, hrole, hmem⟩

namespace Descent

/-- Every id met is queued or has been asked for, what is queued or asked for lies below the start,
and all children of what has been asked for have been met. -/
structure Below (r : Roster) (start : String) (d : Descent) : Prop where
  started : start ∈ d.met
  pending : ∀ id ∈ d.met, id ∈ d.queue ∨ id ∈ d.asked
  sound : ∀ id, id ∈ d.queue ∨ id ∈ d.asked → r.Names id start
  closed : ∀ parent ∈ d.asked, ∀ child, r.Lists child parent → child ∈ d.met

@[simp] theorem asked_meet (d : Descent) (child : Role) : (d.meet child).asked = d.asked := by
  unfold meet
  split <;> rfl

theorem mem_met_meet {d : Descent} {child : Role} {id : String} :
    id ∈ (d.meet child).met ↔ id ∈ d.met ∨ id = child.id := by
  unfold meet
  split
  next h =>
    rw [List.contains_iff_mem] at h
    exact ⟨Or.inl, fun hid ↦ hid.elim (fun hm ↦ hm) fun heq ↦ heq ▸ h⟩
  next => rw [List.mem_cons, or_comm]

theorem mem_queue_meet {d : Descent} {child : Role} {id : String} :
    id ∈ (d.meet child).queue ↔ id ∈ d.queue ∨ (id = child.id ∧ child.id ∉ d.met) := by
  unfold meet
  split
  next h => simp_all
  next h => simp_all [List.mem_append]

/-- Meeting children of the id that has just been asked for. -/
theorem met_foldl_meet {d : Descent} (children : List Role) :
    (children.foldl meet d).asked = d.asked ∧
      (∀ id, id ∈ (children.foldl meet d).met ↔ id ∈ d.met ∨ id ∈ children.map Role.id) ∧
      (∀ id ∈ (children.foldl meet d).met, id ∉ d.met → id ∈ (children.foldl meet d).queue) ∧
      (∀ id ∈ d.queue, id ∈ (children.foldl meet d).queue) ∧
      ∀ id ∈ (children.foldl meet d).queue, id ∈ d.queue ∨ id ∈ children.map Role.id := by
  induction children generalizing d with
  | nil => exact ⟨rfl, by simp, fun id hid hnew ↦ absurd hid hnew, fun _ hid ↦ hid, by simp⟩
  | cons child rest ih =>
    obtain ⟨hasked, hmet, hnew, hkept, hqueue⟩ := ih (d := d.meet child)
    simp only [List.foldl_cons, List.map_cons, List.mem_cons]
    refine ⟨hasked.trans (asked_meet d child), fun id ↦ ?_, fun id hid hfresh ↦ ?_,
      fun id hid ↦ hkept id (mem_queue_meet.mpr (Or.inl hid)), fun id hid ↦ ?_⟩
    · rw [hmet, mem_met_meet, or_assoc]
    · by_cases heq : id = child.id
      · exact hkept id (mem_queue_meet.mpr (Or.inr ⟨heq, heq ▸ hfresh⟩))
      · refine hnew id hid fun hm ↦ ?_
        exact (mem_met_meet.mp hm).elim hfresh heq
    · rcases hqueue id hid with hid | hid
      · exact (mem_queue_meet.mp hid).imp_right fun h ↦ Or.inl h.1
      · exact Or.inr (Or.inr hid)

theorem Below.ask {r : Roster} {start id : String} {rest : List String} {d : Descent}
    (h : d.Below r start) (hq : d.queue = id :: rest) :
    ((r.children id).foldl meet { d with queue := rest, asked := id :: d.asked }).Below r
      start := by
  obtain ⟨hasked, hmet, hnew, hkept, hqueue⟩ :=
    met_foldl_meet (d := { d with queue := rest, asked := id :: d.asked }) (r.children id)
  have hid : r.Names id start := h.sound id (Or.inl (hq ▸ List.mem_cons_self))
  refine ⟨(hmet start).mpr (Or.inl h.started), fun other hother ↦ ?_, fun other hother ↦ ?_,
    fun parent hparent child hlists ↦ ?_⟩
  · rw [hasked]
    by_cases hold : other ∈ d.met
    · rcases h.pending other hold with hmem | hmem
      · rw [hq, List.mem_cons] at hmem
        rcases hmem with rfl | hmem
        · exact Or.inr List.mem_cons_self
        · exact Or.inl (hkept other hmem)
      · exact Or.inr (List.mem_cons_of_mem _ hmem)
    · exact Or.inl (hnew other hother hold)
  · rw [hasked] at hother
    rcases hother with hmem | hmem
    · rcases hqueue other hmem with hmem | hmem
      · exact h.sound other (Or.inl (hq ▸ List.mem_cons_of_mem _ hmem))
      · exact .head (Roster.lists_iff_mem_children.mpr hmem) hid
    · rcases List.mem_cons.mp hmem with rfl | hmem
      · exact hid
      · exact h.sound other (Or.inr hmem)
  · rw [hasked] at hparent
    rw [hmet]
    rcases List.mem_cons.mp hparent with rfl | hparent
    · exact Or.inr (Roster.lists_iff_mem_children.mp hlists)
    · exact Or.inl (h.closed parent hparent child hlists)

/-- A walk that comes to its end keeps whatever every step keeps, to a last state where nothing is
queued. -/
theorem exists_last {s : RoleSource} {motive : Descent → Prop} {d : Descent} (start : motive d)
    (ask : ∀ (d : Descent) (id : String) (rest : List String), motive d → d.queue = id :: rest →
      motive ((s.roster.children id).foldl meet
        { d with queue := rest, asked := id :: d.asked }))
    {roles : List Role} (hroles : (d.finish s).roles = .ok roles) :
    ∃ last : Descent, motive last ∧ last.queue = [] ∧ roles = last.found ∧
      (d.finish s).asked = last.asked.reverse := by
  fun_induction Descent.finish s d with
  | case1 d hq => exact ⟨d, start, hq, (Except.ok.inj hroles).symm, rfl⟩
  | case2 d id rest hq e hchildren => cases hroles
  | case3 d id rest hq children hchildren _ ih =>
    rw [← RoleSource.roster_children_of_children hchildren] at ih hroles ⊢
    exact ih (ask d id rest start hq) hroles

theorem below_start (r : Roster) (id : String) : (Descent.start id).Below r id := by
  refine ⟨List.mem_singleton_self _, fun other hother ↦ Or.inl hother, fun other hother ↦ ?_,
    fun parent hparent ↦ (by cases hparent)⟩
  rcases hother with hother | hother
  · rw [List.mem_singleton.mp hother]
  · cases hother

/-- Where nothing is queued, all that lies below the start has been met and asked for. -/
theorem Below.mem_asked_iff {r : Roster} {start id : String} {d : Descent} (h : d.Below r start)
    (hq : d.queue = []) : id ∈ d.asked ↔ r.Names id start := by
  have hdone : ∀ other ∈ d.met, other ∈ d.asked := fun other hother ↦ by
    rcases h.pending other hother with hmem | hmem
    · rw [hq] at hmem
      cases hmem
    · exact hmem
  refine ⟨fun hid ↦ h.sound id (Or.inr hid), fun hnames ↦ ?_⟩
  induction hnames using Relation.ReflTransGen.head_induction_on with
  | refl => exact hdone start h.started
  | head hlists _ ih => exact hdone _ (h.closed _ ih _ hlists)

end Descent

namespace RoleSource

theorem mem_asked_descend_iff {s : RoleSource} {start id : String} {roles : List Role}
    (hroles : (s.descend start).roles = .ok roles) :
    id ∈ (s.descend start).asked ↔ s.roster.Names id start := by
  obtain ⟨last, hbelow, hqueue, -, hasked⟩ := Descent.exists_last
    (motive := (Descent.Below s.roster start ·)) (Descent.below_start s.roster start)
    (fun d id rest hbelow hq ↦ hbelow.ask hq) hroles
  rw [descend, hasked, List.mem_reverse]
  exact hbelow.mem_asked_iff hqueue

theorem exists_finish_descent {s : RoleSource} (h : s.failedChildren = []) (d : Descent) :
    ∃ roles, (d.finish s).roles = .ok roles := by
  fun_induction Descent.finish s d with
  | case1 d hq => exact ⟨d.found, rfl⟩
  | case2 d id rest hq e hchildren => simp [RoleSource.children, h] at hchildren
  | case3 d id rest hq children hchildren _ ih => exact ih

/-- A source that always answers lets every walk downwards come to its end. -/
theorem exists_descend_of_no_failure {s : RoleSource} (h : s.failedChildren = []) (id : String) :
    ∃ roles, (s.descend id).roles = .ok roles :=
  exists_finish_descent h _

end RoleSource

end RoleAccess
