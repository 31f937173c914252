import RoleAccess.Proofs.Cache.RecencyEntries

/-!
No operation of a recency map looks into a free slot. The guarded operations below do the same as
those of the map, in the same order, but fail where they come to a slot that is not in use, or
would store an entry in one that is; the guarded walk along the chain also fails if it does not come
to the end in as many steps as there are slots. On a map with a layout none of them fails, and each
gives what the operation itself gives.
-/

set_option autoImplicit false
set_option relaxedAutoImplicit false

namespace RoleAccess.Recency

open UseOrder

variable {α : Type}

/-! ### Operations that insist on slots in use -/

namespace Guarded

def update (r : Recency α) (i : Nat) (change : Slot α → Slot α) : Option (Recency α) := do
  let _ ← r.slot? i
  return r.update i change

def setOlder (r : Recency α) (link older : Option Nat) : Option (Recency α) :=
  match link with
  | none => some { r with newest := older }
  | some i => update r i ({ · with older })

def setNewer (r : Recency α) (link newer : Option Nat) : Option (Recency α) :=
  match link with
  | none => some { r with oldest := newer }
  | some i => update r i ({ · with newer })

def unlink (r : Recency α) (i : Nat) : Option (Recency α) := do
  let s ← r.slot? i
  let r ← setOlder r s.newer s.older
  let r ← setNewer r s.older s.newer
  update r i ({ · with newer := none, older := none })

def linkNewest (r : Recency α) (i : Nat) : Option (Recency α) := do
  let old := r.newest
  let r ← update r i ({ · with newer := none, older := old })
  let r ← setNewer r old (some i)
  return { r with newest := some i }

/-- Stores an entry in a slot that must not be in use. -/
def occupy (r : Recency α) (s : Slot α) : Option (Recency α × Nat) :=
  match r.free with
  | [] => some (r.occupy s)
  | i :: _ => if i < r.slots.size ∧ r.slot? i = none then some (r.occupy s) else none

def promote (r : Recency α) (i : Nat) : Option (Recency α) :=
  if r.newest = some i then some r
  else do
    let r ← unlink r i
    linkNewest r i

def keyAt (r : Recency α) (link : Option Nat) : Option (Option String) :=
  match link with
  | none => some none
  | some i => (r.slot? i).map fun s ↦ some s.key

/-- The entries from a slot on, along the whole chain. -/
def entriesFrom (r : Recency α) : Nat → Option Nat → Option (List (String × α))
  | _, none => some []
  | 0, some _ => none
  | n + 1, some i => do
    let s ← r.slot? i
    let rest ← entriesFrom r n s.older
    return (s.key, s.value) :: rest

def peek (r : Recency α) (key : String) : Option (Option α) :=
  match r.index[key]? with
  | none => some none
  | some i => (r.slot? i).map fun s ↦ some s.value

def get (r : Recency α) (key : String) : Option (Option α × Recency α) :=
  match r.index[key]? with
  | none => some (none, { r with misses := r.misses + 1 })
  | some i => do
    let r ← promote { r with hits := r.hits + 1 } i
    let s ← r.slot? i
    return (some s.value, r)

def touch (r : Recency α) (key : String) : Option (Bool × Recency α) :=
  match r.index[key]? with
  | none => some (false, r)
  | some i => do
    let r ← promote r i
    return (true, r)

def evict (r : Recency α) : Option (Option (String × α) × Recency α) :=
  match r.oldest with
  | none => some (none, r)
  | some i => do
    let s ← r.slot? i
    let r ← unlink r i
    let r := r.release i
    return (some (s.key, s.value),
      { r with
        index := r.index.erase s.key
        evictions := r.evictions + 1
        notices := if r.watched then r.notices ++ [⟨s.key, s.value, .capacity⟩] else r.notices })

def set (r : Recency α) (key : String) (value : α) : Option (Option (String × α) × Recency α) :=
  match r.index[key]? with
  | some i => do
    let r ← update r i ({ · with value })
    let r ← promote r i
    return (none, r)
  | none => do
    let (r, i) ← occupy r { key, value }
    let r ← linkNewest { r with index := r.index.insert key i } i
    if r.capacity < r.size then evict r else return (none, r)

def delete (r : Recency α) (key : String) : Option (Option α × Recency α) :=
  match r.index[key]? with
  | none => some (none, r)
  | some i => do
    let r ← unlink { r with index := r.index.erase key } i
    return ((r.slot? i).map Slot.value, r.release i)

def shed : Nat → Recency α → Option (List (String × α) × Recency α)
  | 0, r => some ([], r)
  | n + 1, r => do
    match ← evict r with
    | (none, r) => return ([], r)
    | (some entry, r) =>
      let (more, r) ← shed n r
      return (entry :: more, r)

end Guarded

/-! ### The steps along links -/

/-- A link that does not lead to a free slot. -/
def Leads (r : Recency α) (link : Option Nat) : Prop := ∀ i, link = some i → (r.slot? i).isSome

theorem leads_some {r : Recency α} {i : Nat} : r.Leads (some i) ↔ (r.slot? i).isSome := by
  simp [Leads]

theorem Relinked.leads {r r' : Recency α} (h : Relinked r r') {link : Option Nat}
    (hlink : r.Leads link) : r'.Leads link := by
  intro i hi
  rw [h.isSome_slot?]
  exact hlink i hi

theorem guarded_update {r : Recency α} {i : Nat} (h : r.Leads (some i))
    (change : Slot α → Slot α) : Guarded.update r i change = some (r.update i change) := by
  obtain ⟨s, hs⟩ := Option.isSome_iff_exists.mp (leads_some.mp h)
  simp [Guarded.update, hs]

theorem guarded_setOlder {r : Recency α} {link : Option Nat} (h : r.Leads link)
    (older : Option Nat) : Guarded.setOlder r link older = some (r.setOlder link older) := by
  cases link with
  | none => rfl
  | some i => exact guarded_update h _

theorem guarded_setNewer {r : Recency α} {link : Option Nat} (h : r.Leads link)
    (newer : Option Nat) : Guarded.setNewer r link newer = some (r.setNewer link newer) := by
  cases link with
  | none => rfl
  | some i => exact guarded_update h _

theorem guarded_unlink {r : Recency α} {i : Nat} {s : Slot α} (hs : r.slot? i = some s)
    (hnewer : r.Leads s.newer) (holder : r.Leads s.older) :
    Guarded.unlink r i = some (r.unlink i) := by
  have hi : r.Leads (some i) := leads_some.mpr (by rw [hs]; rfl)
  have hfirst := Relinked.setOlder r s.newer s.older
  have hboth := hfirst.trans (Relinked.setNewer _ s.older s.newer)
  simp only [Guarded.unlink, Recency.unlink, hs, Option.bind_eq_bind, Option.bind_some,
    guarded_setOlder hnewer, guarded_setNewer (hfirst.leads holder),
    guarded_update (hboth.leads hi)]

theorem guarded_linkNewest {r : Recency α} {i : Nat} (hi : r.Leads (some i))
    (hnewest : r.Leads r.newest) : Guarded.linkNewest r i = some (r.linkNewest i) := by
  have hfirst := Relinked.update r i ({ · with newer := none, older := r.newest })
  simp only [Guarded.linkNewest, Recency.linkNewest, guarded_update hi, Option.bind_eq_bind,
    Option.bind_some, guarded_setNewer (hfirst.leads hnewest), Option.pure_def]

/-! ### Maps with a layout -/

theorem Chained.leads_place {r : Recency α} {cells : List (Cell α)} (h : r.Chained cells) {i : Nat}
    (hi : i ∈ cells.map Cell.place) : r.Leads (some i) := by
  obtain ⟨c, hc, rfl⟩ := List.mem_map.mp hi
  obtain ⟨a, b, rfl⟩ := List.append_of_mem hc
  rw [leads_some, h.linked.slot?]
  rfl

/-- A link to a cell of the chain, or to nothing. -/
theorem Chained.leads {r : Recency α} {cells : List (Cell α)} (h : r.Chained cells)
    {link : Option Nat} (hlink : ∀ i, link = some i → i ∈ cells.map Cell.place) :
    r.Leads link := by
  intro i hi
  exact leads_some.mp (h.leads_place (hlink i hi))

theorem Chained.leads_newest {r : Recency α} {cells : List (Cell α)} (h : r.Chained cells) :
    r.Leads r.newest := by
  rw [h.newest]
  exact h.leads fun i hi ↦ Cell.mem_of_first? hi

theorem Chained.guarded_unlink {r : Recency α} {a b : List (Cell α)} {c : Cell α}
    (h : r.Chained (a ++ c :: b)) : Guarded.unlink r c.place = some (r.unlink c.place) := by
  refine Recency.guarded_unlink h.linked.slot? ?_ ?_
  · refine h.leads fun i hi ↦ ?_
    simp only [Cell.slot, Option.or_none] at hi
    rw [List.map_append, List.mem_append]
    exact Or.inl (Cell.mem_of_last? hi)
  · refine h.leads fun i hi ↦ ?_
    simp only [Cell.slot, Option.or_none] at hi
    rw [List.map_append, List.map_cons, List.mem_append, List.mem_cons]
    exact Or.inr (Or.inr (Cell.mem_of_first? hi))

theorem Chained.guarded_promote {r : Recency α} {a b : List (Cell α)} {c : Cell α}
    (h : r.Chained (a ++ c :: b)) : Guarded.promote r c.place = some (r.promote c.place) := by
  obtain ⟨hchain, hslot⟩ := h.unlink
  have hplace : (r.unlink c.place).Leads (some c.place) :=
    leads_some.mpr (by rw [hslot]; rfl)
  unfold Guarded.promote Recency.promote
  split
  · rfl
  · rw [h.guarded_unlink]
    exact guarded_linkNewest hplace hchain.leads_newest

theorem Chained.guarded_keyAt {r : Recency α} {cells : List (Cell α)} (h : r.Chained cells)
    {link : Option Nat} (hlink : ∀ i, link = some i → i ∈ cells.map Cell.place) :
    Guarded.keyAt r link = some ((link.bind r.slot?).map Slot.key) := by
  cases link with
  | none => rfl
  | some i =>
    obtain ⟨s, hs⟩ := Option.isSome_iff_exists.mp (h.leads hlink i rfl)
    simp [Guarded.keyAt, hs]

theorem Linked.guarded_entriesFrom {r : Recency α} {newer : Option Nat} {cells : List (Cell α)}
    (h : r.Linked newer cells none) {n : Nat} (hn : cells.length ≤ n) :
    Guarded.entriesFrom r n (Cell.first? cells) = some (cells.map Cell.entry) := by
  induction cells generalizing n newer with
  | nil => cases n <;> rfl
  | cons c rest ih =>
    cases n with
    | zero => simp at hn
    | succ n =>
      simp only [Guarded.entriesFrom, Cell.first?_cons, h.1, Cell.slot, Option.or_none,
        Option.bind_eq_bind, Option.bind_some, ih h.2 (Nat.le_of_succ_le_succ hn), Option.pure_def,
        List.map_cons, Cell.entry]

namespace Layout

variable {r : Recency α} {cells : List (Cell α)}

theorem guarded_entries (h : r.Layout cells) :
    Guarded.entriesFrom r r.slots.size r.newest = some r.entries := by
  rw [h.entries, h.chained.newest]
  exact h.chained.linked.guarded_entriesFrom h.length_le_size

theorem guarded_newestKey? (h : r.Layout cells) :
    Guarded.keyAt r r.newest = some r.newestKey? := by
  refine h.chained.guarded_keyAt fun i hi ↦ ?_
  rw [h.chained.newest] at hi
  exact Cell.mem_of_first? hi

theorem guarded_oldestKey? (h : r.Layout cells) :
    Guarded.keyAt r r.oldest = some r.oldestKey? := by
  refine h.chained.guarded_keyAt fun i hi ↦ ?_
  rw [h.chained.oldest] at hi
  exact Cell.mem_of_last? hi

theorem guarded_peek (h : r.Layout cells) (key : String) :
    Guarded.peek r key = some (r.peek? key) := by
  unfold Guarded.peek peek?
  cases hi : r.index[key]? with
  | none => rfl
  | some i =>
    obtain ⟨a, b, c, rfl, rfl, rfl, -⟩ := h.split hi
    simp [h.chained.linked.slot?]

theorem guarded_get (h : r.Layout cells) (key : String) :
    Guarded.get r key = some (r.get key) := by
  unfold Guarded.get get
  cases hi : r.index[key]? with
  | none => rfl
  | some i =>
    obtain ⟨a, b, c, rfl, rfl, rfl, -⟩ := h.split hi
    have hhit : ({ r with hits := r.hits + 1 } : Recency α).Layout (a ++ c :: b) :=
      h.congr rfl rfl rfl rfl rfl
    -- The value is read after the promotion, which leaves it as it was.
    have hfront := hhit.promote.chained.linked.1
    simp only [hhit.chained.guarded_promote, Option.bind_eq_bind, Option.bind_some, hfront,
      Option.pure_def, h.chained.linked.slot?, Option.map_some, Cell.slot]

theorem guarded_touch (h : r.Layout cells) (key : String) :
    Guarded.touch r key = some (r.touch key) := by
  unfold Guarded.touch touch
  cases hi : r.index[key]? with
  | none => rfl
  | some i =>
    obtain ⟨a, b, c, rfl, rfl, rfl, -⟩ := h.split hi
    simp only [h.chained.guarded_promote, Option.bind_eq_bind, Option.bind_some, Option.pure_def]

theorem guarded_evict (h : r.Layout cells) : Guarded.evict r = some r.evict := by
  unfold Guarded.evict Recency.evict
  cases ho : r.oldest with
  | none => rfl
  | some i =>
    obtain ⟨c, hc, rfl⟩ :=
      List.mem_map.mp (Cell.mem_of_last? (h.chained.oldest.symm.trans ho))
    obtain ⟨a, b, rfl⟩ := List.append_of_mem hc
    simp only [h.chained.linked.slot?, Option.bind_eq_bind, Option.bind_some,
      h.chained.guarded_unlink, Option.pure_def]

theorem guarded_occupy (h : r.Layout cells) (s : Slot α) :
    Guarded.occupy r s = some (r.occupy s) := by
  unfold Guarded.occupy
  split
  · rfl
  next i rest hfree =>
    exact if_pos ((h.housed.mem_free i).mp (hfree ▸ List.mem_cons_self))

theorem guarded_set (h : r.Layout cells) (key : String) (value : α) :
    Guarded.set r key value = some (r.set key value) := by
  unfold Guarded.set Recency.set
  cases hi : r.index[key]? with
  | some i =>
    obtain ⟨a, b, c, rfl, rfl, rfl, -⟩ := h.split hi
    have hplace : r.Leads (some c.place) := h.chained.leads_place (by simp)
    simp only [guarded_update hplace, Option.bind_eq_bind, Option.bind_some,
      (h.update value).chained.guarded_promote (c := { c with value }), Option.pure_def]
  | none =>
    have htaken : (r.occupy { key, value }).1.Leads (some (r.occupy { key, value }).2) :=
      leads_some.mpr (by rw [h.housed.slot?_occupy, if_pos rfl]; rfl)
    have hlinked := guarded_linkNewest (r := { (r.occupy { key, value }).1 with
      index := (r.occupy { key, value }).1.index.insert key (r.occupy { key, value }).2 })
      htaken (h.chained_occupy { key, value }).leads_newest
    simp only [h.guarded_occupy, hlinked, Option.bind_eq_bind, Option.bind_some]
    split
    · exact (h.insert hi value).guarded_evict
    · rfl

theorem guarded_delete (h : r.Layout cells) (key : String) :
    Guarded.delete r key = some (r.delete key) := by
  unfold Guarded.delete Recency.delete
  cases hi : r.index[key]? with
  | none => rfl
  | some i =>
    obtain ⟨a, b, c, rfl, rfl, rfl, -⟩ := h.split hi
    have hchain : ({ r with index := r.index.erase c.key } : Recency α).Chained (a ++ c :: b) :=
      h.chained.congr (fun _ _ ↦ rfl) rfl rfl
    simp only [hchain.guarded_unlink, Option.bind_eq_bind, Option.bind_some, Option.pure_def]

theorem guarded_shed (h : r.Layout cells) (n : Nat) : Guarded.shed n r = some (shed n r) := by
  induction n generalizing r cells with
  | zero => rfl
  | succ n ih =>
    rcases cells.eq_nil_or_concat' with rfl | ⟨init, c, rfl⟩
    · simp only [Guarded.shed, shed, h.guarded_evict, h.evict_nil, Option.bind_eq_bind,
        Option.bind_some, Option.pure_def]
    · obtain ⟨hgone, hleft, -⟩ := h.evict
      unfold Guarded.shed shed
      rw [h.guarded_evict]
      generalize r.evict = after at hgone hleft ⊢
      obtain ⟨gone, left⟩ := after
      obtain rfl : gone = some c.entry := hgone
      simp only [Option.bind_eq_bind, Option.bind_some, ih hleft, Option.pure_def]

end Layout

end RoleAccess.Recency
