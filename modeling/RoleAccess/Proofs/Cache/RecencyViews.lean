import RoleAccess.Proofs.Cache.RecencyEntries

/-!
What a recency map shows beside its entries. Its views follow from the entries: how many there are,
which is the newest and which the oldest, what a key holds. What is kept apart from the entries does
not notice how they are rearranged or taken out (`Blind`). Such is the tally, the capacity with the
counter and the announcements of entries given up: it changes only where entries are given up, and
then by exactly these (`Tally.giveUp`). And such are the counts of reads (`Uses`), which only reads
change.
-/

set_option autoImplicit false
set_option relaxedAutoImplicit false

namespace RoleAccess.Recency

open UseOrder

variable {α : Type}

/-! ### Views of a map in order -/

namespace Sound

variable {r : Recency α}

theorem length_entries_le (h : r.Sound) : r.entries.length ≤ r.capacity := by
  obtain ⟨cells, hlayout, hlength⟩ := h
  rwa [hlayout.entries, List.length_map]

theorem distinct (h : r.Sound) : (r.entries.map Prod.fst).Nodup := by
  obtain ⟨cells, hlayout, -⟩ := h
  have hplaces := List.pairwise_map.mp hlayout.chained.distinct
  rw [hlayout.entries, List.map_map]
  refine List.pairwise_map.mpr (hplaces.imp_of_mem fun {c d} hc hd hne hkey ↦ hne ?_)
  -- Two cells with one key would be the two ends of one entry of the index.
  have hfirst := (hlayout.housed.indexed c.key c.place).mpr (List.mem_map_of_mem hc)
  have hsecond := (hlayout.housed.indexed d.key d.place).mpr (List.mem_map_of_mem hd)
  have hsame : c.key = d.key := hkey
  rw [hsame, hsecond] at hfirst
  exact (Option.some.inj hfirst).symm

theorem size_eq (h : r.Sound) : r.size = r.entries.length := by
  obtain ⟨cells, hlayout, -⟩ := h
  rw [hlayout.entries, List.length_map]
  exact hlayout.housed.counted

theorem contains_eq (h : r.Sound) (key : String) :
    r.contains key = (r.entries.lookup key).isSome := by
  rw [contains, Std.TreeMap.contains_eq_isSome_getElem?]
  cases hi : r.index[key]? with
  | none =>
    rw [h.lookup_of_index_none hi]
    rfl
  | some i =>
    obtain ⟨⟨v, -, hlookup⟩, -⟩ := sound_promote h hi
    rw [hlookup]
    rfl

theorem peek?_eq (h : r.Sound) (key : String) : r.peek? key = r.entries.lookup key := by
  unfold peek?
  cases hi : r.index[key]? with
  | none =>
    rw [h.lookup_of_index_none hi]
    rfl
  | some i =>
    obtain ⟨⟨v, hvalue, hlookup⟩, -⟩ := sound_promote h hi
    exact hvalue.trans hlookup.symm

theorem newestKey?_eq (h : r.Sound) : r.newestKey? = r.entries.head?.map Prod.fst := by
  obtain ⟨cells, hlayout, -⟩ := h
  rw [newestKey?, hlayout.entries, hlayout.chained.newest]
  cases cells with
  | nil => rfl
  | cons c rest =>
    rw [Cell.first?_cons, Option.bind_some, hlayout.chained.linked.1]
    rfl

theorem oldestKey?_eq (h : r.Sound) : r.oldestKey? = r.entries.getLast?.map Prod.fst := by
  obtain ⟨cells, hlayout, -⟩ := h
  rw [oldestKey?, hlayout.entries, hlayout.chained.oldest]
  rcases cells.eq_nil_or_concat' with rfl | ⟨init, c, rfl⟩
  · rfl
  · rw [Cell.last?_concat, Option.bind_some, hlayout.chained.linked.slot?, List.map_append]
    simp [Cell.slot, Cell.entry]

end Sound

/-- Touching tells whether the key is there, and moves its entry to the front. -/
theorem sound_touch {r : Recency α} (h : r.Sound) (key : String) :
    (r.touch key).1 = (r.entries.lookup key).isSome ∧ (r.touch key).2.Sound ∧
      (r.touch key).2.entries = toFront key r.entries := by
  cases hi : r.index[key]? with
  | none =>
    simp only [touch, hi, toFront, h.lookup_of_index_none hi, and_true]
    exact ⟨rfl, h⟩
  | some i =>
    obtain ⟨⟨v, -, hlookup⟩, hmoved⟩ := sound_promote h hi
    simp only [touch, hi, hlookup]
    exact ⟨rfl, hmoved⟩

/-- Shedding takes entries from the end. -/
theorem Layout.shed {r : Recency α} {cells : List (Cell α)} (h : r.Layout cells) (n : Nat) :
    (Recency.shed n r).1 = ((cells.drop (cells.length - n)).map Cell.entry).reverse ∧
      (Recency.shed n r).2.Layout (cells.take (cells.length - n)) := by
  induction n generalizing r cells with
  | zero => simpa [Recency.shed] using h
  | succ n ih =>
    rcases cells.eq_nil_or_concat' with rfl | ⟨init, c, rfl⟩
    · simpa [Recency.shed, h.evict_nil] using h
    · obtain ⟨hgone, hleft, -⟩ := h.evict
      unfold Recency.shed
      generalize r.evict = after at hgone hleft ⊢
      obtain ⟨gone, left⟩ := after
      obtain rfl : gone = some c.entry := hgone
      obtain ⟨hmore, hrest⟩ := ih hleft
      have hlength : (init ++ [c]).length - (n + 1) = init.length - n := by
        rw [List.length_append, List.length_singleton]
        omega
      rw [hlength, List.take_append_of_le_length (Nat.sub_le _ _),
        List.drop_append_of_le_length (Nat.sub_le _ _)]
      refine ⟨?_, hrest⟩
      simp only [hmore, List.map_append, List.map_cons, List.map_nil, List.reverse_append,
        List.reverse_singleton, List.singleton_append]

/-! ### What is kept apart from the entries -/

/-- A view that shows neither the slots nor what leads to them. -/
def Blind {β : Type} (view : Recency α → β) : Prop :=
  ∀ (r : Recency α) slots free index newest oldest,
    view { r with slots, free, index, newest, oldest } = view r

namespace Blind

variable {β : Type} {view : Recency α → β} (h : Blind view)

include h

theorem update (r : Recency α) (i : Nat) (change : Slot α → Slot α) :
    view (r.update i change) = view r := h ..

theorem setOlder (r : Recency α) (link older : Option Nat) :
    view (r.setOlder link older) = view r := by
  cases link <;> exact h ..

theorem setNewer (r : Recency α) (link newer : Option Nat) :
    view (r.setNewer link newer) = view r := by
  cases link <;> exact h ..

theorem unlink (r : Recency α) (i : Nat) : view (r.unlink i) = view r := by
  unfold Recency.unlink
  split
  · rfl
  · rw [h.update, h.setNewer, h.setOlder]

theorem linkNewest (r : Recency α) (i : Nat) : view (r.linkNewest i) = view r := by
  refine (h ..).trans ?_
  rw [h.setNewer, h.update]

theorem promote (r : Recency α) (i : Nat) : view (r.promote i) = view r := by
  unfold Recency.promote
  split
  · rfl
  · rw [h.linkNewest, h.unlink]

theorem occupy (r : Recency α) (s : Slot α) : view (r.occupy s).1 = view r := by
  unfold Recency.occupy
  split <;> exact h ..

theorem touch (r : Recency α) (key : String) : view (r.touch key).2 = view r := by
  unfold Recency.touch
  split
  · rfl
  · exact h.promote r _

theorem delete (r : Recency α) (key : String) : view (r.delete key).2 = view r := by
  unfold Recency.delete
  split
  · rfl
  next i _ =>
    let unlinked := { r with index := r.index.erase key }.unlink i
    calc view (unlinked.release i)
        = view unlinked := h ..
      _ = view { r with index := r.index.erase key } := h.unlink _ i
      _ = view r := h ..

theorem clear (r : Recency α) : view r.clear = view r := h ..

/-- A new entry goes to the front, before another may have to make room. -/
theorem enter (r : Recency α) (s : Slot α) (index : Std.TreeMap String Nat) :
    view ({ (r.occupy s).1 with index }.linkNewest (r.occupy s).2) = view r := by
  rw [h.linkNewest]
  exact (h ..).trans (h.occupy r s)

end Blind

/-! ### Capacity, counter and announcements -/

/-- What a map keeps beside its entries and the count of readings. -/
structure Tally (α : Type) where
  capacity : Nat
  evictions : Nat
  watched : Bool
  notices : List (Eviction α)

/-- The tally after giving up entries: each is counted, and announced if anyone listens. -/
def Tally.giveUp (t : Tally α) (gone : List (String × α)) : Tally α :=
  { t with
    evictions := t.evictions + gone.length
    notices := t.notices ++ if t.watched then gone.map fun e ↦ ⟨e.1, e.2, .capacity⟩ else [] }

@[simp] theorem Tally.giveUp_nil (t : Tally α) : t.giveUp [] = t := by
  simp [giveUp]

theorem Tally.giveUp_append (t : Tally α) (a b : List (String × α)) :
    t.giveUp (a ++ b) = (t.giveUp a).giveUp b := by
  cases ht : t.watched <;> simp [giveUp, ht, Nat.add_assoc]

def tally (r : Recency α) : Tally α := ⟨r.capacity, r.evictions, r.watched, r.notices⟩

theorem blind_tally : Blind (α := α) tally := fun _ _ _ _ _ _ ↦ rfl

theorem tally_get (r : Recency α) (key : String) : (r.get key).2.tally = r.tally := by
  unfold get
  split
  · rfl
  · rw [blind_tally.promote]
    rfl

theorem tally_touch (r : Recency α) (key : String) : (r.touch key).2.tally = r.tally :=
  blind_tally.touch r key

theorem tally_delete (r : Recency α) (key : String) : (r.delete key).2.tally = r.tally :=
  blind_tally.delete r key

theorem tally_evict (r : Recency α) : r.evict.2.tally = r.tally.giveUp r.evict.1.toList := by
  unfold evict
  split
  · simp
  next i hi =>
    split
    · simp
    next s hs =>
      obtain ⟨hcapacity, hevictions, hwatched, hnotices⟩ := Tally.mk.inj (blind_tally.unlink r i)
      simp only [tally, release, Tally.giveUp, hcapacity, hevictions, hwatched, hnotices]
      by_cases hlistens : r.watched = true <;> simp [hlistens]

theorem tally_set (r : Recency α) (key : String) (value : α) :
    (r.set key value).2.tally = r.tally.giveUp (r.set key value).1.toList := by
  unfold set
  split
  · dsimp only
    rw [blind_tally.promote, blind_tally.update, Option.toList_none, Tally.giveUp_nil]
  · dsimp only
    split
    · rw [tally_evict, blind_tally.enter]
    · rw [blind_tally.enter, Option.toList_none, Tally.giveUp_nil]

theorem tally_shed (n : Nat) (r : Recency α) :
    (shed n r).2.tally = r.tally.giveUp (shed n r).1 := by
  induction n generalizing r with
  | zero => simp [shed]
  | succ n ih =>
    have hevict := tally_evict r
    unfold shed
    generalize r.evict = after at hevict ⊢
    obtain ⟨gone, left⟩ := after
    cases gone with
    | none => exact hevict
    | some entry =>
      simp only [Option.toList_some] at hevict ⊢
      rw [ih, hevict, ← Tally.giveUp_append]
      rfl

/-- A change of the capacity gives up what stands beyond it, from the end. -/
theorem sound_resize {r : Recency α} (h : r.Sound) {capacity : Nat} (hpos : 0 < capacity) :
    ∃ after, r.resize capacity = .ok ((r.entries.drop capacity).reverse, after) ∧ after.Sound ∧
      after.entries = r.entries.take capacity ∧
      after.tally =
        Tally.giveUp { r.tally with capacity } (r.entries.drop capacity).reverse := by
  obtain ⟨cells, hlayout, -⟩ := h
  have hresized : ({ r with capacity, capacity_pos := hpos } : Recency α).Layout cells :=
    hlayout.congr rfl rfl rfl rfl rfl
  have hcounted : r.size = cells.length := hlayout.housed.counted
  have hkept : cells.length - (r.size - capacity) = min capacity cells.length := by omega
  obtain ⟨hgone, hleft⟩ := hresized.shed (r.size - capacity)
  have htally := tally_shed (r.size - capacity) { r with capacity, capacity_pos := hpos }
  rw [hkept, ← List.drop_eq_drop_min, List.map_drop, ← hlayout.entries] at hgone
  rw [hkept, ← List.take_eq_take_min] at hleft
  rw [hgone] at htally
  have hcapacity : (shed (r.size - capacity)
      { r with capacity, capacity_pos := hpos }).2.capacity = capacity :=
    congrArg Tally.capacity htally
  refine ⟨_, ?_, ⟨_, hleft, ?_⟩, ?_, htally⟩
  · rw [resize, dif_pos hpos, ← hgone]
  · rw [hcapacity]
    exact List.length_take_le _ _
  · rw [hleft.entries, List.map_take, ← hlayout.entries]

/-! ### Counts of reads -/

/-- How many reads found their key and how many did not. -/
structure Uses where
  hits : Nat
  misses : Nat

/-- One more read. -/
def Uses.count (u : Uses) (found : Bool) : Uses :=
  if found then { u with hits := u.hits + 1 } else { u with misses := u.misses + 1 }

def uses (r : Recency α) : Uses := ⟨r.hits, r.misses⟩

theorem blind_uses : Blind (α := α) uses := fun _ _ _ _ _ _ ↦ rfl

theorem uses_evict (r : Recency α) : r.evict.2.uses = r.uses := by
  unfold evict
  split
  · rfl
  next i hi =>
    split
    · rfl
    · exact blind_uses.unlink r i

theorem uses_set (r : Recency α) (key : String) (value : α) :
    (r.set key value).2.uses = r.uses := by
  unfold set
  split
  · dsimp only
    rw [blind_uses.promote, blind_uses.update]
  · dsimp only
    split
    · rw [uses_evict, blind_uses.enter]
    · rw [blind_uses.enter]

/-- Every read is counted, by what it gives. -/
theorem uses_get {r : Recency α} (h : r.Sound) (key : String) :
    (r.get key).2.uses = r.uses.count (r.get key).1.isSome := by
  unfold get
  split
  · rfl
  next i hi =>
    obtain ⟨⟨v, hvalue, -⟩, -⟩ := sound_promote h hi
    rw [blind_uses.promote, hvalue]
    rfl

end RoleAccess.Recency
