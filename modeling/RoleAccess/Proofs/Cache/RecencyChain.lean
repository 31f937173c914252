import Mathlib.Data.List.Nodup
import RoleAccess.Cache.Recency

/-!
The chain of slots behind a recency map. A cell is an entry with the slot it sits in; `Linked` says
that cells sit in their slots and are linked in the order of a list, and `Chained` that this list is
all of the chain. Unlinking a cell takes it out of the list (`Chained.unlink`), and linking it again
puts it in front (`Chained.linkNewest`). Both only relink slots (`Relinked`): which slots are in use
and what leads to them stays.
-/

set_option autoImplicit false
set_option relaxedAutoImplicit false

namespace RoleAccess

/-- A slot in use and its entry. -/
structure Cell (α : Type) where
  place : Nat
  key : String
  value : α

namespace Cell

variable {α : Type}

def entry (c : Cell α) : String × α := (c.key, c.value)

def slot (c : Cell α) (newer older : Option Nat) : Slot α := ⟨c.key, c.value, newer, older⟩

/-- The slot of the newest cell of a run. -/
def first? (cells : List (Cell α)) : Option Nat := cells.head?.map place

/-- The slot of the oldest cell of a run. -/
def last? (cells : List (Cell α)) : Option Nat := cells.getLast?.map place

@[simp] theorem first?_nil : first? ([] : List (Cell α)) = none := rfl

@[simp] theorem first?_cons (c : Cell α) (rest : List (Cell α)) :
    first? (c :: rest) = some c.place := rfl

theorem first?_append (a b : List (Cell α)) : first? (a ++ b) = (first? a).or (first? b) := by
  cases a <;> simp [first?]

@[simp] theorem last?_nil : last? ([] : List (Cell α)) = none := rfl

@[simp] theorem last?_concat (a : List (Cell α)) (c : Cell α) :
    last? (a ++ [c]) = some c.place := by
  simp [last?]

theorem last?_append (a b : List (Cell α)) : last? (a ++ b) = (last? b).or (last? a) := by
  simp [last?, List.getLast?_append, Option.map_or]

theorem last?_cons (c : Cell α) (rest : List (Cell α)) :
    last? (c :: rest) = (last? rest).or (some c.place) :=
  last?_append [c] rest

theorem mem_of_first? {cells : List (Cell α)} {i : Nat} (h : first? cells = some i) :
    i ∈ cells.map place := by
  obtain ⟨c, hc, rfl⟩ := Option.map_eq_some_iff.mp h
  exact List.mem_map_of_mem (List.mem_of_head? hc)

theorem mem_of_last? {cells : List (Cell α)} {i : Nat} (h : last? cells = some i) :
    i ∈ cells.map place := by
  obtain ⟨c, hc, rfl⟩ := Option.map_eq_some_iff.mp h
  exact List.mem_map_of_mem (List.mem_of_getLast? hc)

end Cell

namespace Recency

variable {α : Type}

/-! ### What the primitive steps do to the slots -/

theorem slot?_update (r : Recency α) (i j : Nat) (change : Slot α → Slot α) :
    (r.update i change).slot? j = if i = j then (r.slot? j).map change else r.slot? j := by
  unfold slot? update
  rw [Array.getElem?_modify]
  split
  · cases r.slots[j]? <;> rfl
  · rfl

theorem slot?_setOlder (r : Recency α) (link older : Option Nat) (j : Nat) :
    (r.setOlder link older).slot? j =
      if link = some j then (r.slot? j).map ({ · with older }) else r.slot? j := by
  cases link with
  | none => rfl
  | some i => simp only [setOlder, slot?_update, Option.some.injEq]

theorem slot?_setNewer (r : Recency α) (link newer : Option Nat) (j : Nat) :
    (r.setNewer link newer).slot? j =
      if link = some j then (r.slot? j).map ({ · with newer }) else r.slot? j := by
  cases link with
  | none => rfl
  | some i => simp only [setNewer, slot?_update, Option.some.injEq]

@[simp] theorem newest_setOlder (r : Recency α) (link older : Option Nat) :
    (r.setOlder link older).newest = if link = none then older else r.newest := by
  cases link <;> rfl

@[simp] theorem oldest_setOlder (r : Recency α) (link older : Option Nat) :
    (r.setOlder link older).oldest = r.oldest := by
  cases link <;> rfl

@[simp] theorem newest_setNewer (r : Recency α) (link newer : Option Nat) :
    (r.setNewer link newer).newest = r.newest := by
  cases link <;> rfl

@[simp] theorem oldest_setNewer (r : Recency α) (link newer : Option Nat) :
    (r.setNewer link newer).oldest = if link = none then newer else r.oldest := by
  cases link <;> rfl

/-! ### Runs of linked cells -/

/-- The cells sit in their slots and are linked in this order, after one slot and before another. -/
def Linked (r : Recency α) : Option Nat → List (Cell α) → Option Nat → Prop
  | _, [], _ => True
  | newer, c :: rest, older =>
    r.slot? c.place = some (c.slot newer ((Cell.first? rest).or older)) ∧
      r.Linked (some c.place) rest older

theorem linked_append {r : Recency α} {newer older : Option Nat} {a b : List (Cell α)} :
    r.Linked newer (a ++ b) older ↔
      r.Linked newer a ((Cell.first? b).or older) ∧ r.Linked ((Cell.last? a).or newer) b older := by
  induction a generalizing newer with
  | nil => simp [Linked]
  | cons c rest ih =>
    simp only [List.cons_append, Linked, ih, Cell.first?_append, Cell.last?_cons, Option.or_assoc,
      Option.some_or, and_assoc]

/-- A run only depends on the slots of its cells. -/
theorem Linked.congr {r r' : Recency α} {newer older : Option Nat} {cells : List (Cell α)}
    (h : r.Linked newer cells older)
    (hslot : ∀ i ∈ cells.map Cell.place, r'.slot? i = r.slot? i) :
    r'.Linked newer cells older := by
  induction cells generalizing newer with
  | nil => trivial
  | cons c rest ih =>
    simp only [List.map_cons, List.mem_cons, forall_eq_or_imp] at hslot
    exact ⟨hslot.1.trans h.1, ih h.2 hslot.2⟩

theorem Linked.slot? {r : Recency α} {newer older : Option Nat} {a b : List (Cell α)} {c : Cell α}
    (h : r.Linked newer (a ++ c :: b) older) :
    r.slot? c.place =
      some (c.slot ((Cell.last? a).or newer) ((Cell.first? b).or older)) :=
  (linked_append.mp h).2.1

/-- Relinking the last cell of a run to another older slot. -/
theorem Linked.setOlder {r : Recency α} {newer older : Option Nat} {cells : List (Cell α)}
    (h : r.Linked newer cells older) (hdistinct : (cells.map Cell.place).Nodup)
    (next : Option Nat) : (r.setOlder (Cell.last? cells) next).Linked newer cells next := by
  rcases cells.eq_nil_or_concat' with rfl | ⟨init, c, rfl⟩
  · trivial
  obtain ⟨hinit, hlast⟩ := linked_append.mp h
  have hnew : c.place ∉ init.map Cell.place := by
    rw [List.map_append, List.nodup_append] at hdistinct
    exact fun hc ↦ hdistinct.2.2 _ hc _ (by simp) rfl
  rw [Cell.last?_concat]
  refine linked_append.mpr ⟨?_, ?_, trivial⟩
  · refine hinit.congr fun i hi ↦ ?_
    rw [slot?_setOlder, if_neg]
    rintro ⟨rfl⟩
    exact hnew hi
  · rw [slot?_setOlder, if_pos rfl, hlast.1]
    rfl

/-- Relinking the first cell of a run to another newer slot. -/
theorem Linked.setNewer {r : Recency α} {newer older : Option Nat} {cells : List (Cell α)}
    (h : r.Linked newer cells older) (hdistinct : (cells.map Cell.place).Nodup)
    (next : Option Nat) : (r.setNewer (Cell.first? cells) next).Linked next cells older := by
  cases cells with
  | nil => trivial
  | cons c rest =>
    have hnew : c.place ∉ rest.map Cell.place := (List.nodup_cons.mp hdistinct).1
    refine ⟨?_, h.2.congr fun i hi ↦ ?_⟩
    · rw [Cell.first?_cons, slot?_setNewer, if_pos rfl, h.1]
      rfl
    · rw [Cell.first?_cons, slot?_setNewer, if_neg]
      rintro ⟨rfl⟩
      exact hnew hi

/-! ### The whole chain -/

/-- The chain of a recency map is this list of cells, the newest first. -/
structure Chained (r : Recency α) (cells : List (Cell α)) : Prop where
  distinct : (cells.map Cell.place).Nodup
  linked : r.Linked none cells none
  newest : r.newest = Cell.first? cells
  oldest : r.oldest = Cell.last? cells

theorem Chained.congr {r r' : Recency α} {cells : List (Cell α)} (h : r.Chained cells)
    (hslot : ∀ i ∈ cells.map Cell.place, r'.slot? i = r.slot? i) (hnewest : r'.newest = r.newest)
    (holdest : r'.oldest = r.oldest) : r'.Chained cells :=
  ⟨h.distinct, h.linked.congr hslot, hnewest.trans h.newest, holdest.trans h.oldest⟩

/-- Two states that differ in links only. -/
structure Relinked (r r' : Recency α) : Prop where
  index : r'.index = r.index
  free : r'.free = r.free
  size : r'.slots.size = r.slots.size
  capacity : r'.capacity = r.capacity
  isSome_slot? : ∀ i, (r'.slot? i).isSome = (r.slot? i).isSome

namespace Relinked

theorem refl (r : Recency α) : Relinked r r := ⟨rfl, rfl, rfl, rfl, fun _ ↦ rfl⟩

theorem trans {first middle last : Recency α} (hfirst : Relinked first middle)
    (hlast : Relinked middle last) : Relinked first last :=
  ⟨hlast.index.trans hfirst.index, hlast.free.trans hfirst.free, hlast.size.trans hfirst.size,
    hlast.capacity.trans hfirst.capacity,
    fun i ↦ (hlast.isSome_slot? i).trans (hfirst.isSome_slot? i)⟩

theorem update (r : Recency α) (i : Nat) (change : Slot α → Slot α) :
    Relinked r (r.update i change) := by
  refine ⟨rfl, rfl, Array.size_modify, rfl, fun j ↦ ?_⟩
  rw [slot?_update]
  split <;> simp

theorem setOlder (r : Recency α) (link older : Option Nat) :
    Relinked r (r.setOlder link older) := by
  cases link with
  | none => exact ⟨rfl, rfl, rfl, rfl, fun _ ↦ rfl⟩
  | some i => exact update r i _

theorem setNewer (r : Recency α) (link newer : Option Nat) :
    Relinked r (r.setNewer link newer) := by
  cases link with
  | none => exact ⟨rfl, rfl, rfl, rfl, fun _ ↦ rfl⟩
  | some i => exact update r i _

theorem unlink (r : Recency α) (i : Nat) : Relinked r (r.unlink i) := by
  unfold Recency.unlink
  split
  · exact refl r
  · exact ((setOlder r _ _).trans (setNewer _ _ _)).trans (update _ _ _)

theorem linkNewest (r : Recency α) (i : Nat) : Relinked r (r.linkNewest i) := by
  have h := (update r i ({ · with newer := none, older := r.newest })).trans
    (setNewer _ r.newest (some i))
  exact ⟨h.index, h.free, h.size, h.capacity, h.isSome_slot?⟩

theorem promote (r : Recency α) (i : Nat) : Relinked r (r.promote i) := by
  unfold Recency.promote
  split
  · exact refl r
  · exact (unlink r i).trans (linkNewest _ i)

end Relinked

/-- Unlinking a cell takes it out of the chain and leaves its slot without neighbours. -/
theorem Chained.unlink {r : Recency α} {a b : List (Cell α)} {c : Cell α}
    (h : r.Chained (a ++ c :: b)) :
    (r.unlink c.place).Chained (a ++ b) ∧
      (r.unlink c.place).slot? c.place = some (c.slot none none) := by
  obtain ⟨hdistinct, hlinked, hnewest, holdest⟩ := h
  obtain ⟨hslot, hnewer, holder⟩ := linked_append.mp hlinked
  rw [List.map_append, List.map_cons, List.nodup_append, List.nodup_cons] at hdistinct
  obtain ⟨hda, ⟨hcb, hdb⟩, hab⟩ := hdistinct
  have hca : c.place ∉ a.map Cell.place := fun hc ↦ hab _ hc _ List.mem_cons_self rfl
  simp only [Option.or_none] at hnewer
  have hunlink : r.unlink c.place =
      (((r.setOlder (Cell.last? a) (Cell.first? b)).setNewer (Cell.first? b) (Cell.last? a)).update
        c.place ({ · with newer := none, older := none })) := by
    simp only [Recency.unlink, hnewer, Cell.slot]
  rw [hunlink]
  have hfirst : ∀ i, Cell.first? b = some i → i ∉ a.map Cell.place := fun i hi ha ↦
    hab _ ha _ (List.mem_cons_of_mem _ (Cell.mem_of_first? hi)) rfl
  have hlast : ∀ i, Cell.last? a = some i → i ∉ b.map Cell.place := fun i hi hb ↦
    hab _ (Cell.mem_of_last? hi) _ (List.mem_cons_of_mem _ hb) rfl
  refine ⟨⟨?_, linked_append.mpr ⟨?_, ?_⟩, ?_, ?_⟩, ?_⟩
  · rw [List.map_append, List.nodup_append]
    exact ⟨hda, hdb, fun x hx y hy ↦ hab x hx y (List.mem_cons_of_mem _ hy)⟩
  · rw [Option.or_none]
    refine (hslot.setOlder hda (Cell.first? b)).congr fun i hi ↦ ?_
    rw [slot?_update, if_neg (fun he : c.place = i ↦ hca (he ▸ hi)), slot?_setNewer, if_neg]
    exact fun he ↦ hfirst i he hi
  · rw [Option.or_none]
    have hb : (r.setOlder (Cell.last? a) (Cell.first? b)).Linked (some c.place) b none :=
      holder.congr fun i hi ↦ by
        rw [slot?_setOlder, if_neg]
        exact fun he ↦ hlast i he hi
    refine (hb.setNewer hdb (Cell.last? a)).congr fun i hi ↦ ?_
    rw [slot?_update, if_neg (fun he : c.place = i ↦ hcb (he ▸ hi))]
  · simp only [Recency.update, newest_setNewer, newest_setOlder, hnewest, Cell.first?_append]
    cases a <;> simp [Cell.last?, List.getLast?_cons]
  · simp only [Recency.update, oldest_setNewer, oldest_setOlder, holdest, Cell.last?_append,
      Cell.last?_cons]
    cases b <;> simp [Cell.last?_cons]
  · rw [slot?_update, if_pos rfl, slot?_setNewer, if_neg, slot?_setOlder, if_neg, hnewer]
    · rfl
    · exact fun he ↦ hca (Cell.mem_of_last? he)
    · exact fun he ↦ hcb (Cell.mem_of_first? he)

/-- Linking a slot in use that is not in the chain puts its cell in front. -/
theorem Chained.linkNewest {r : Recency α} {cells : List (Cell α)} {c : Cell α}
    {newer older : Option Nat} (h : r.Chained cells) (hnew : c.place ∉ cells.map Cell.place)
    (hslot : r.slot? c.place = some (c.slot newer older)) :
    (r.linkNewest c.place).Chained (c :: cells) := by
  obtain ⟨hdistinct, hlinked, hnewest, holdest⟩ := h
  have hother : Cell.first? cells ≠ some c.place := fun he ↦ hnew (Cell.mem_of_first? he)
  have hkept : (r.update c.place ({ · with newer := none, older := r.newest })).Linked
      none cells none := hlinked.congr fun i hi ↦ by
    rw [slot?_update, if_neg (fun he : c.place = i ↦ hnew (he ▸ hi))]
  have hrest := hkept.setNewer hdistinct (some c.place)
  refine ⟨List.nodup_cons.mpr ⟨hnew, hdistinct⟩, ⟨?_, ?_⟩, rfl, ?_⟩
  · change ((r.update c.place ({ · with newer := none, older := r.newest })).setNewer r.newest
      (some c.place)).slot? c.place = _
    rw [slot?_setNewer, hnewest, if_neg hother, slot?_update, if_pos rfl, hslot, Option.or_none]
    rfl
  · rw [← hnewest] at hrest
    exact hrest.congr fun _ _ ↦ rfl
  · change ((r.update c.place ({ · with newer := none, older := r.newest })).setNewer r.newest
      (some c.place)).oldest = _
    rw [oldest_setNewer, hnewest, Cell.last?_cons]
    change (if Cell.first? cells = none then some c.place else r.oldest) = _
    rw [holdest]
    cases cells <;> simp [Cell.last?_cons]

/-- Promoting a cell brings it to the front of the chain. -/
theorem Chained.promote {r : Recency α} {a b : List (Cell α)} {c : Cell α}
    (h : r.Chained (a ++ c :: b)) : (r.promote c.place).Chained (c :: (a ++ b)) := by
  have hperm : ((c :: (a ++ b)).map Cell.place).Nodup :=
    (List.perm_middle.map Cell.place).nodup_iff.mp h.distinct
  unfold Recency.promote
  split
  next hfront =>
    -- The newest slot is that of `c` only if nothing stands before it.
    cases a with
    | nil => exact h
    | cons d rest =>
      rw [h.newest, List.cons_append, Cell.first?_cons, Option.some.injEq] at hfront
      simp [hfront] at hperm
  next =>
    obtain ⟨hchain, hslot⟩ := h.unlink
    exact hchain.linkNewest (List.nodup_cons.mp hperm).1 hslot

/-! ### The entries in order -/

theorem Linked.entriesFrom {r : Recency α} {newer : Option Nat} {cells : List (Cell α)}
    (h : r.Linked newer cells none) (n : Nat) :
    r.entriesFrom n (Cell.first? cells) = (cells.take n).map Cell.entry := by
  induction n generalizing newer cells with
  | zero => rfl
  | succ n ih =>
    cases cells with
    | nil => rfl
    | cons c rest =>
      simp only [Recency.entriesFrom, Cell.first?_cons, Option.bind_some, h.1, Option.or_none,
        Cell.slot, ih h.2, List.take_succ_cons, List.map_cons, Cell.entry]

end Recency

end RoleAccess
