import RoleAccess.Proofs.Role.Lineage

/-!
How far the parents of a role go up. `HeightLE` bounds every chain of parents above a role, and
`Height` is the length of the longest. Only a role without a loop above it has a bound, since a loop
can be walked any number of times (`HeightLE.no_loop`). Below a bound, `upwards` lists what a walk
upwards meets.
-/

set_option autoImplicit false
set_option relaxedAutoImplicit false

namespace RoleAccess

namespace Roster

/-- No chain of parents above the role is longer than `limit`. -/
def HeightLE (r : Roster) (id : String) (limit : Nat) : Prop :=
  ∀ above, r.IsChainAbove id above → above.length ≤ limit

/-- The length of the longest chain of parents above the role. -/
structure Height (r : Roster) (id : String) (height : Nat) : Prop where
  attained : ∃ above, r.IsChainAbove id above ∧ above.length = height
  le : r.HeightLE id height

/-- The parents of a role that are in the roster, in the order in which it lists them. -/
def parentsIn (r : Roster) (id : String) : List String :=
  ((r.find? id).elim [] Role.parents).filter r.contains

/-- What a walk of at most so many steps up from a role meets, depth first, as often as it is
met. -/
def upwards (r : Roster) : Nat → String → List String
  | 0, _ => []
  | steps + 1, id => (r.parentsIn id).flatMap fun parent ↦ parent :: r.upwards steps parent

variable {r : Roster} {id parent other : String} {limit height : Nat}

theorem mem_parentsIn_iff : parent ∈ r.parentsIn id ↔ r.Parent id parent := by
  unfold parentsIn Parent Lists
  cases hrole : r.find? id <;> simp

/-! ### Chains -/

theorem isChainAbove_nil (r : Roster) (id : String) : r.IsChainAbove id [] :=
  List.IsChain.singleton id

theorem isChainAbove_cons_iff {above : List String} :
    r.IsChainAbove id (parent :: above) ↔ r.Parent id parent ∧ r.IsChainAbove parent above :=
  List.isChain_cons_cons

/-- Whatever lies below a role lies below its parents. -/
theorem transGen_of_trail {trail : List String}
    (htrail : ∀ x ∈ trail, Relation.TransGen r.Parent x id) (hparent : r.Parent id parent) :
    ∀ x ∈ id :: trail, Relation.TransGen r.Parent x parent := by
  intro x hx
  rcases List.mem_cons.mp hx with rfl | hx
  · exact .single hparent
  · exact (htrail x hx).tail hparent

theorem HeightLE.mono {limit' : Nat} (h : r.HeightLE id limit) (hle : limit ≤ limit') :
    r.HeightLE id limit' :=
  fun above habove ↦ Nat.le_trans (h above habove) hle

theorem HeightLE.of_parent (h : r.HeightLE id (limit + 1)) (hparent : r.Parent id parent) :
    r.HeightLE parent limit := by
  intro above habove
  have := h (parent :: above) (isChainAbove_cons_iff.mpr ⟨hparent, habove⟩)
  exact Nat.le_of_succ_le_succ this

theorem HeightLE.not_parent (h : r.HeightLE id 0) : ¬r.Parent id parent := by
  intro hparent
  have := h [parent] (isChainAbove_cons_iff.mpr ⟨hparent, isChainAbove_nil r parent⟩)
  exact Nat.not_succ_le_zero 0 this

theorem HeightLE.reaches (h : r.HeightLE id limit) (hway : r.Reaches id other) :
    r.HeightLE other limit := by
  induction hway with
  | refl => exact h
  | tail _ hedge ih => exact (ih.mono (Nat.le_succ limit)).of_parent hedge

/-- A loop gives longer and longer chains. -/
theorem HeightLE.no_loop (h : r.HeightLE id limit) : ¬Relation.TransGen r.Parent id id := by
  induction limit generalizing id with
  | zero =>
    intro hloop
    obtain ⟨next, hedge, -⟩ := Relation.TransGen.head'_iff.mp hloop
    exact h.not_parent hedge
  | succ limit ih =>
    intro hloop
    obtain ⟨next, hedge, hback⟩ := Relation.TransGen.head'_iff.mp hloop
    exact ih (h.of_parent hedge) (Relation.TransGen.tail' hback hedge)

/-! ### Heights from those of some parents -/

/-- A number that is next to the height of one parent of a role and above those of all parents that
are done, or 0 if there is none. -/
structure Overtops (r : Roster) (id : String) (done : List String) (height : Nat) : Prop where
  below : ∀ parent ∈ done, ∃ k, r.Height parent k ∧ k < height
  reached : height = 0 ∨ ∃ parent k, r.Parent id parent ∧ r.Height parent k ∧ height = k + 1

theorem overtops_nil (r : Roster) (id : String) : r.Overtops id [] 0 :=
  ⟨fun _ hmem ↦ absurd hmem List.not_mem_nil, Or.inl rfl⟩

theorem Overtops.add {done : List String} {above : Nat} (h : r.Overtops id done height)
    (hparent : r.Parent id parent) (habove : r.Height parent above) :
    r.Overtops id (done ++ [parent]) (max height (above + 1)) := by
  constructor
  · intro other hother
    rcases List.mem_append.mp hother with hold | hnew
    · obtain ⟨k, hk, hlt⟩ := h.below other hold
      exact ⟨k, hk, Nat.lt_of_lt_of_le hlt (Nat.le_max_left _ _)⟩
    · rw [List.mem_singleton.mp hnew]
      exact ⟨above, habove, Nat.le_max_right _ _⟩
  · rcases Nat.le_total height (above + 1) with hmore | hless
    · exact Or.inr ⟨parent, above, hparent, habove, Nat.max_eq_right hmore⟩
    · rw [Nat.max_eq_left hless]
      exact h.reached

/-- Once all parents are done, such a number is the height above the role. -/
theorem Overtops.isHeight (h : r.Overtops id (r.parentsIn id) height) : r.Height id height := by
  constructor
  · rcases h.reached with rfl | ⟨parent, k, hedge, ⟨⟨above, habove, rfl⟩, -⟩, rfl⟩
    · exact ⟨[], isChainAbove_nil r id, rfl⟩
    · exact ⟨parent :: above, isChainAbove_cons_iff.mpr ⟨hedge, habove⟩, rfl⟩
  · intro above habove
    cases above with
    | nil => exact Nat.zero_le height
    | cons parent rest =>
      obtain ⟨hedge, hrest⟩ := isChainAbove_cons_iff.mp habove
      obtain ⟨k, hk, hlt⟩ := h.below parent (mem_parentsIn_iff.mpr hedge)
      exact Nat.lt_of_le_of_lt (hk.le rest hrest) hlt

/-! ### Deciding a bound -/

/-- Whether no chain of parents above the role has more than so many edges. -/
def bounded (r : Roster) : Nat → String → Bool
  | 0, id => (r.parentsIn id).isEmpty
  | limit + 1, id => (r.parentsIn id).all (r.bounded limit)

theorem heightLE_iff_bounded : r.HeightLE id limit ↔ r.bounded limit id = true := by
  induction limit generalizing id with
  | zero =>
    rw [bounded, List.isEmpty_iff, List.eq_nil_iff_forall_not_mem]
    refine ⟨fun h parent hmem ↦ h.not_parent (mem_parentsIn_iff.mp hmem), fun h above habove ↦ ?_⟩
    cases above with
    | nil => exact Nat.le_refl 0
    | cons parent rest =>
      exact absurd (mem_parentsIn_iff.mpr (isChainAbove_cons_iff.mp habove).1) (h parent)
  | succ limit ih =>
    rw [bounded, List.all_eq_true]
    refine ⟨fun h parent hmem ↦ ih.mp (h.of_parent (mem_parentsIn_iff.mp hmem)),
      fun h above habove ↦ ?_⟩
    cases above with
    | nil => exact Nat.zero_le _
    | cons parent rest =>
      obtain ⟨hedge, hrest⟩ := isChainAbove_cons_iff.mp habove
      exact Nat.succ_le_succ (ih.mpr (h parent (mem_parentsIn_iff.mpr hedge)) rest hrest)

instance (r : Roster) (id : String) (limit : Nat) : Decidable (r.HeightLE id limit) :=
  decidable_of_iff _ heightLE_iff_bounded.symm

/-! ### What lies above -/

/-- With enough steps a walk upwards meets just what can be reached by one edge or more. -/
theorem HeightLE.mem_upwards_iff (h : r.HeightLE id limit) :
    other ∈ r.upwards limit id ↔ Relation.TransGen r.Parent id other := by
  induction limit generalizing id with
  | zero =>
    rw [upwards, iff_false_left List.not_mem_nil]
    intro hway
    obtain ⟨next, hedge, -⟩ := Relation.TransGen.head'_iff.mp hway
    exact h.not_parent hedge
  | succ limit ih =>
    simp only [upwards, List.mem_flatMap, List.mem_cons, mem_parentsIn_iff]
    constructor
    · rintro ⟨next, hedge, rfl | hmem⟩
      · exact .single hedge
      · exact .head hedge ((ih (h.of_parent hedge)).mp hmem)
    · intro hway
      obtain ⟨next, hedge, hrest⟩ := Relation.TransGen.head'_iff.mp hway
      refine ⟨next, hedge, ?_⟩
      rcases Relation.reflTransGen_iff_eq_or_transGen.mp hrest with heq | hmore
      · exact Or.inl heq
      · exact Or.inr ((ih (h.of_parent hedge)).mpr hmore)

end Roster

end RoleAccess
