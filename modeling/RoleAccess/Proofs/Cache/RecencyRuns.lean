import RoleAccess.Proofs.Cache.EntryLookups
import RoleAccess.Proofs.Cache.OccupiedSlots
import RoleAccess.Proofs.Cache.RecencyViews

/-!
Runs of a recency map. Whatever is asked of it, a map answers as a plain list of entries does that
is kept in the order of use and cut at its end to the capacity (`Recency.run_eq_plain`). Each step
keeps the map in line with the list (`Follows`), and counts and announces exactly the entries that
its reply gives as gone. No step looks into a free slot.
-/

set_option autoImplicit false
set_option relaxedAutoImplicit false

namespace RoleAccess

/-- What can be asked of a recency map. -/
inductive UseRequest (α : Type) where
  | set (key : String) (value : α)
  | get (key : String)
  | peek (key : String)
  | contains (key : String)
  | touch (key : String)
  | delete (key : String)
  | resize (capacity : Nat)
  | clear
  | newest
  | oldest
  | size
  | keys
  | entries

inductive UseReply (α : Type) where
  | evicted (entry : Option (String × α))
  | value (held : Option α)
  | told (yes : Bool)
  | shed (gone : Except ConfigError (List (String × α)))
  | done
  | key (key : Option String)
  | count (n : Nat)
  | keys (keys : List String)
  | entries (entries : List (String × α))

/-- The entries that a reply gives as gone for want of room, in order. -/
def UseReply.gone {α : Type} : UseReply α → List (String × α)
  | .evicted entry => entry.toList
  | .shed (.ok gone) => gone
  | _ => []

namespace Recency

variable {α : Type}

def answer (r : Recency α) : UseRequest α → UseReply α × Recency α
  | .set key value =>
    let (gone, r) := r.set key value
    (.evicted gone, r)
  | .get key =>
    let (held, r) := r.get key
    (.value held, r)
  | .peek key => (.value (r.peek? key), r)
  | .contains key => (.told (r.contains key), r)
  | .touch key =>
    let (held, r) := r.touch key
    (.told held, r)
  | .delete key =>
    let (held, r) := r.delete key
    (.value held, r)
  | .resize capacity =>
    match r.resize capacity with
    | .ok (gone, r) => (.shed (.ok gone), r)
    | .error e => (.shed (.error e), r)
  | .clear => (.done, r.clear)
  | .newest => (.key r.newestKey?, r)
  | .oldest => (.key r.oldestKey?, r)
  | .size => (.count r.size, r)
  | .keys => (.keys r.keys, r)
  | .entries => (.entries r.entries, r)

/-- The replies to requests, one after the other, and the map afterwards. -/
def run (r : Recency α) : List (UseRequest α) → List (UseReply α) × Recency α
  | [] => ([], r)
  | q :: rest =>
    let (reply, r) := r.answer q
    let (replies, r) := r.run rest
    (reply :: replies, r)

namespace Guarded

def resize (r : Recency α) (capacity : Nat) :
    Option (Except ConfigError (List (String × α) × Recency α)) :=
  if h : 0 < capacity then
    (shed (r.size - capacity) { r with capacity, capacity_pos := h }).map .ok
  else some (.error (.invalid .zeroCapacity))

def answer (r : Recency α) : UseRequest α → Option (UseReply α × Recency α)
  | .set key value => do
    let (gone, r) ← set r key value
    return (.evicted gone, r)
  | .get key => do
    let (held, r) ← get r key
    return (.value held, r)
  | .peek key => do
    let held ← peek r key
    return (.value held, r)
  | .contains key => some (.told (r.contains key), r)
  | .touch key => do
    let (held, r) ← touch r key
    return (.told held, r)
  | .delete key => do
    let (held, r) ← delete r key
    return (.value held, r)
  | .resize capacity => do
    match ← resize r capacity with
    | .ok (gone, r) => return (.shed (.ok gone), r)
    | .error e => return (.shed (.error e), r)
  | .clear => some (.done, r.clear)
  | .newest => do
    let key ← keyAt r r.newest
    return (.key key, r)
  | .oldest => do
    let key ← keyAt r r.oldest
    return (.key key, r)
  | .size => some (.count r.size, r)
  | .keys => do
    let entries ← entriesFrom r r.slots.size r.newest
    return (.keys (entries.map Prod.fst), r)
  | .entries => do
    let entries ← entriesFrom r r.slots.size r.newest
    return (.entries entries, r)

def run (r : Recency α) : List (UseRequest α) → Option (List (UseReply α) × Recency α)
  | [] => some ([], r)
  | q :: rest => do
    let (reply, r) ← answer r q
    let (replies, r) ← run r rest
    return (reply :: replies, r)

end Guarded

end Recency

/-! ### The plain list -/

/-- Entries, the latest used first, and how many there may be. -/
structure UseList (α : Type) where
  capacity : Nat
  entries : List (String × α) := []

namespace UseList

open UseOrder

variable {α : Type}

/-- Cuts the list at the capacity. Gives the entries cut off, the last one first. -/
def cut (l : UseList α) : List (String × α) × UseList α :=
  ((l.entries.drop l.capacity).reverse, { l with entries := l.entries.take l.capacity })

def answer (l : UseList α) : UseRequest α → UseReply α × UseList α
  | .set key value =>
    let (gone, l) := { l with entries := put key value l.entries }.cut
    (.evicted gone.head?, l)
  | .get key => (.value (l.entries.lookup key), { l with entries := toFront key l.entries })
  | .peek key => (.value (l.entries.lookup key), l)
  | .contains key => (.told (l.entries.lookup key).isSome, l)
  | .touch key => (.told (l.entries.lookup key).isSome, { l with entries := toFront key l.entries })
  | .delete key => (.value (l.entries.lookup key), { l with entries := without key l.entries })
  | .resize 0 => (.shed (.error (.invalid .zeroCapacity)), l)
  | .resize capacity =>
    let (gone, l) := { l with capacity }.cut
    (.shed (.ok gone), l)
  | .clear => (.done, { l with entries := [] })
  | .newest => (.key (l.entries.head?.map Prod.fst), l)
  | .oldest => (.key (l.entries.getLast?.map Prod.fst), l)
  | .size => (.count l.entries.length, l)
  | .keys => (.keys (l.entries.map Prod.fst), l)
  | .entries => (.entries l.entries, l)

def run (l : UseList α) : List (UseRequest α) → List (UseReply α) × UseList α
  | [] => ([], l)
  | q :: rest =>
    let (reply, l) := l.answer q
    let (replies, l) := l.run rest
    (reply :: replies, l)

end UseList

/-! ### At most one entry too many -/

theorem reverse_drop_eq_toList {β : Type} {xs : List β} {n : Nat} (h : xs.length ≤ n + 1) :
    (xs.drop n).reverse = xs[n]?.toList := by
  by_cases hn : n < xs.length
  · rw [List.drop_eq_getElem_cons hn, List.drop_eq_nil_of_le h, List.getElem?_eq_getElem hn]
    rfl
  · rw [List.drop_eq_nil_of_le (Nat.le_of_not_lt hn), List.getElem?_eq_none (Nat.le_of_not_lt hn)]
    rfl

namespace Recency

open UseOrder

variable {α : Type}

/-! ### One step -/

/-- A map in order with the entries and the capacity of a list. -/
structure Follows (r : Recency α) (l : UseList α) : Prop where
  sound : r.Sound
  entries : r.entries = l.entries
  capacity : r.capacity = l.capacity

/-- A request to which map and list reply the same and stay in line, and the map counts and
announces what the reply gives as gone. -/
structure Matches (r : Recency α) (l : UseList α) (q : UseRequest α) : Prop where
  reply : (r.answer q).1 = (l.answer q).1
  follows : (r.answer q).2.Follows (l.answer q).2
  tally : (r.answer q).2.tally =
    Tally.giveUp { r.tally with capacity := (l.answer q).2.capacity } (l.answer q).1.gone

namespace Follows

variable {r : Recency α} {l : UseList α}

theorem tally (h : r.Follows l) :
    ({ r.tally with capacity := l.capacity } : Tally α) = r.tally := by
  rw [← h.capacity]
  rfl

/-- Only the capacity limits the list, and writing adds one entry at most. -/
theorem set (h : r.Follows l) (key : String) (value : α) : r.Matches l (.set key value) := by
  obtain ⟨hgone, hsound, hcapacity, hentries⟩ := sound_set h.sound key value
  have hlength : (put key value r.entries).length ≤ r.capacity + 1 :=
    Nat.le_trans (length_put_le key value r.entries) (Nat.succ_le_succ h.sound.length_entries_le)
  have htally := tally_set r key value
  have hcut := reverse_drop_eq_toList hlength
  rw [h.entries, h.capacity] at hgone hentries hcut
  have hreply :
      (r.set key value).1 = ((put key value l.entries).drop l.capacity).reverse.head? := by
    rw [hgone, hcut]
    cases (put key value l.entries)[l.capacity]? <;> rfl
  refine ⟨congrArg UseReply.evicted hreply, ⟨hsound, hentries, hcapacity.trans h.capacity⟩, ?_⟩
  change _ = Tally.giveUp { r.tally with capacity := l.capacity } _
  rw [h.tally]
  exact htally.trans (by rw [hreply]; rfl)

theorem resize (h : r.Follows l) (capacity : Nat) : r.Matches l (.resize capacity) := by
  cases capacity with
  | zero =>
    refine ⟨rfl, h, ?_⟩
    change r.tally = Tally.giveUp { r.tally with capacity := l.capacity } []
    rw [h.tally, Tally.giveUp_nil]
  | succ n =>
    obtain ⟨after, hresize, hsound, hentries, htally⟩ := sound_resize h.sound n.succ_pos
    rw [h.entries] at hresize hentries htally
    have hanswer : r.answer (.resize (n + 1)) =
        (.shed (.ok (l.entries.drop (n + 1)).reverse), after) := by
      simp only [Recency.answer, hresize]
    refine ⟨?_, ?_, ?_⟩
    · rw [hanswer]
      rfl
    · rw [hanswer]
      exact ⟨hsound, hentries, congrArg Tally.capacity htally⟩
    · rw [hanswer]
      exact htally

/-- A request that gives nothing up and changes no capacity. -/
theorem quiet (h : r.Follows l) {q : UseRequest α} (hreply : (r.answer q).1 = (l.answer q).1)
    (hsound : (r.answer q).2.Sound) (hentries : (r.answer q).2.entries = (l.answer q).2.entries)
    (htally : (r.answer q).2.tally = r.tally) (hgone : (l.answer q).1.gone = [])
    (hcapacity : (l.answer q).2.capacity = l.capacity) : r.Matches l q := by
  refine ⟨hreply, ⟨hsound, hentries, ?_⟩, ?_⟩
  · rw [hcapacity, ← h.capacity]
    exact congrArg Tally.capacity htally
  · rw [hgone, hcapacity, h.tally, Tally.giveUp_nil, htally]

theorem view (h : r.Follows l) {q : UseRequest α} (hreply : (r.answer q).1 = (l.answer q).1)
    (hmap : (r.answer q).2 = r) (hlist : (l.answer q).2 = l) (hgone : (l.answer q).1.gone = []) :
    r.Matches l q :=
  h.quiet hreply (by rw [hmap]; exact h.sound) (by rw [hmap, hlist, h.entries]) (by rw [hmap])
    hgone (by rw [hlist])

theorem answer (h : r.Follows l) (q : UseRequest α) : r.Matches l q := by
  cases q with
  | set key value => exact h.set key value
  | resize capacity => exact h.resize capacity
  | get key =>
    obtain ⟨hvalue, hsound, hentries⟩ := sound_get h.sound key
    rw [h.entries] at hvalue hentries
    exact h.quiet (congrArg UseReply.value hvalue) hsound hentries (tally_get r key) rfl rfl
  | touch key =>
    obtain ⟨hheld, hsound, hentries⟩ := sound_touch h.sound key
    rw [h.entries] at hheld hentries
    exact h.quiet (congrArg UseReply.told hheld) hsound hentries (tally_touch r key) rfl rfl
  | delete key =>
    obtain ⟨hvalue, hsound, hentries⟩ := sound_delete h.sound key
    rw [h.entries] at hvalue hentries
    exact h.quiet (congrArg UseReply.value hvalue) hsound hentries (tally_delete r key) rfl rfl
  | clear => exact h.quiet rfl (sound_clear r).1 (sound_clear r).2 rfl rfl rfl
  | peek key =>
    exact h.view (congrArg UseReply.value (h.entries ▸ h.sound.peek?_eq key)) rfl rfl rfl
  | contains key =>
    exact h.view (congrArg UseReply.told (h.entries ▸ h.sound.contains_eq key)) rfl rfl rfl
  | newest => exact h.view (congrArg UseReply.key (h.entries ▸ h.sound.newestKey?_eq)) rfl rfl rfl
  | oldest => exact h.view (congrArg UseReply.key (h.entries ▸ h.sound.oldestKey?_eq)) rfl rfl rfl
  | size => exact h.view (congrArg UseReply.count (h.entries ▸ h.sound.size_eq)) rfl rfl rfl
  | keys =>
    have hkeys : r.keys = l.entries.map Prod.fst := congrArg (List.map Prod.fst) h.entries
    exact h.view (congrArg UseReply.keys hkeys) rfl rfl rfl
  | entries => exact h.view (congrArg UseReply.entries h.entries) rfl rfl rfl

end Follows

/-- A map in order answers without looking into a free slot. -/
theorem Sound.guarded_answer {r : Recency α} (h : r.Sound) (q : UseRequest α) :
    Guarded.answer r q = some (r.answer q) := by
  obtain ⟨cells, hlayout, -⟩ := h
  cases q with
  | set key value =>
    rw [Guarded.answer, hlayout.guarded_set]
    rfl
  | get key =>
    rw [Guarded.answer, hlayout.guarded_get]
    rfl
  | peek key =>
    rw [Guarded.answer, hlayout.guarded_peek]
    rfl
  | touch key =>
    rw [Guarded.answer, hlayout.guarded_touch]
    rfl
  | delete key =>
    rw [Guarded.answer, hlayout.guarded_delete]
    rfl
  | resize capacity =>
    by_cases hpos : 0 < capacity
    · have hresized : ({ r with capacity, capacity_pos := hpos } : Recency α).Layout cells :=
        hlayout.congr rfl rfl rfl rfl rfl
      rw [Guarded.answer, Guarded.resize, dif_pos hpos, hresized.guarded_shed, Recency.answer,
        Recency.resize, dif_pos hpos]
      rfl
    · rw [Guarded.answer, Guarded.resize, dif_neg hpos, Recency.answer, Recency.resize,
        dif_neg hpos]
      rfl
  | newest =>
    rw [Guarded.answer, hlayout.guarded_newestKey?]
    rfl
  | oldest =>
    rw [Guarded.answer, hlayout.guarded_oldestKey?]
    rfl
  | keys =>
    rw [Guarded.answer, hlayout.guarded_entries]
    rfl
  | entries =>
    rw [Guarded.answer, hlayout.guarded_entries]
    rfl
  | contains key => rfl
  | size => rfl
  | clear => rfl

/-! ### A whole run -/

theorem Follows.run {r : Recency α} {l : UseList α} (h : r.Follows l)
    (requests : List (UseRequest α)) :
    (r.run requests).1 = (l.run requests).1 ∧ (r.run requests).2.Follows (l.run requests).2 ∧
      (r.run requests).2.tally = Tally.giveUp
        { r.tally with capacity := (l.run requests).2.capacity }
        ((l.run requests).1.flatMap UseReply.gone) := by
  induction requests generalizing r l with
  | nil =>
    refine ⟨rfl, h, ?_⟩
    change r.tally = Tally.giveUp { r.tally with capacity := l.capacity } []
    rw [h.tally, Tally.giveUp_nil]
  | cons q rest ih =>
    obtain ⟨hreply, hfollows, htally⟩ := h.answer q
    obtain ⟨hreplies, hlast, htallies⟩ := ih hfollows
    refine ⟨congrArg₂ List.cons hreply hreplies, hlast, htallies.trans ?_⟩
    rw [htally]
    exact (Tally.giveUp_append { r.tally with capacity := (l.run (q :: rest)).2.capacity }
      (l.answer q).1.gone _).symm

theorem Follows.guarded_run {r : Recency α} {l : UseList α} (h : r.Follows l)
    (requests : List (UseRequest α)) : Guarded.run r requests = some (r.run requests) := by
  induction requests generalizing r l with
  | nil => rfl
  | cons q rest ih =>
    simp only [Guarded.run, h.sound.guarded_answer q, ih (h.answer q).follows,
      Option.bind_eq_bind, Option.bind_some, Option.pure_def, Recency.run]

theorem exists_ofCapacity {capacity : Nat} (h : 0 < capacity) (watched : Bool) :
    ∃ start : Recency α, ofCapacity capacity = .ok start ∧
      ({ start with watched } : Recency α).Follows { capacity } ∧
      ({ start with watched } : Recency α).tally = ⟨capacity, 0, watched, []⟩ := by
  have hstart : ofCapacity (α := α) capacity = .ok { capacity, capacity_pos := h } := by
    simp only [ofCapacity, h, dif_pos]
  obtain ⟨hsound, hempty⟩ := sound_ofCapacity hstart
  obtain ⟨hwatched, hentries⟩ := sound_congr
    (s := { capacity, capacity_pos := h, watched }) hsound rfl rfl rfl rfl rfl rfl
  exact ⟨_, hstart, ⟨hwatched, hentries.trans hempty, rfl⟩, rfl⟩

/-- A key just written is there with its value, whatever had to make room. -/
theorem Sound.peek?_set {r : Recency α} (h : r.Sound) (key : String) (value : α) :
    (r.set key value).2.peek? key = some value := by
  obtain ⟨-, hsound, -, hentries⟩ := sound_set h key value
  obtain ⟨n, hn⟩ := Nat.exists_eq_succ_of_ne_zero (Nat.ne_of_gt r.capacity_pos)
  rw [hsound.peek?_eq, hentries, hn, put, List.take_succ_cons]
  exact List.lookup_cons_self

/-- What a map shows after it gave these replies, against a plain list after the same. -/
structure ShowsList (watched : Bool) (replies : List (UseReply α)) (r : Recency α)
    (l : UseList α) : Prop where
  entries : r.entries = l.entries
  keys : r.keys = l.entries.map Prod.fst
  newest : r.newestKey? = l.entries.head?.map Prod.fst
  oldest : r.oldestKey? = l.entries.getLast?.map Prod.fst
  capacity : r.capacity = l.capacity
  size : r.size = l.entries.length
  size_le : r.size ≤ r.capacity
  evictions : r.evictions = (replies.flatMap UseReply.gone).length
  /-- The listener is told of the entries that the replies give as gone, in their order. -/
  notices : r.notices =
    if watched then (replies.flatMap UseReply.gone).map fun e ↦ ⟨e.1, e.2, .capacity⟩ else []
  /-- A key written next is there with its value. -/
  set : ∀ key value, (r.set key value).2.contains key = true ∧
    (r.set key value).2.peek? key = some value

theorem Follows.showsList {r : Recency α} {l : UseList α} (h : r.Follows l) {capacity : Nat}
    {watched : Bool} {replies : List (UseReply α)}
    (htally : r.tally =
      Tally.giveUp ⟨capacity, 0, watched, []⟩ (replies.flatMap UseReply.gone)) :
    ShowsList watched replies r l where
  entries := h.entries
  keys := congrArg (List.map Prod.fst) h.entries
  newest := h.entries ▸ h.sound.newestKey?_eq
  oldest := h.entries ▸ h.sound.oldestKey?_eq
  capacity := h.capacity
  size := h.entries ▸ h.sound.size_eq
  size_le := by
    rw [h.sound.size_eq]
    exact h.sound.length_entries_le
  evictions := (congrArg Tally.evictions htally).trans (Nat.zero_add _)
  notices := (congrArg Tally.notices htally).trans (List.nil_append _)
  set key value := by
    have hheld := h.sound.peek?_set key value
    obtain ⟨-, hsound, -⟩ := sound_set h.sound key value
    refine ⟨?_, hheld⟩
    rw [hsound.contains_eq, ← hsound.peek?_eq, hheld]
    rfl

/-- For every capacity that a map may have, and whether anyone listens or not: a new map replies to
any requests as a plain list does that is kept in the order of use and cut to the capacity. It never
looks into a free slot on the way, and shows the same as the list afterwards. -/
theorem run_eq_plain {capacity : Nat} (h : 0 < capacity) (watched : Bool)
    (requests : List (UseRequest α)) :
    ∃ start : Recency α, ofCapacity capacity = .ok start ∧
      Guarded.run { start with watched } requests = some (run { start with watched } requests) ∧
      (run { start with watched } requests).1 = (UseList.run { capacity } requests).1 ∧
      ShowsList watched (run { start with watched } requests).1
        (run { start with watched } requests).2 (UseList.run { capacity } requests).2 := by
  obtain ⟨start, hstart, hfollows, htally⟩ := exists_ofCapacity (α := α) h watched
  obtain ⟨hreplies, hlast, htallies⟩ := hfollows.run requests
  rw [htally, ← hreplies] at htallies
  exact ⟨start, hstart, hfollows.guarded_run requests, hreplies, hlast.showsList htallies⟩

/-- Requests by which entries make room for others, a slot is used again, and the capacity
changes. -/
def recycling : List (UseRequest Nat) :=
  [.set "a" 1, .set "b" 2, .get "a", .set "c" 3, .delete "a", .set "d" 4, .resize 0, .resize 1,
    .oldest, .clear, .set "e" 5, .entries]

theorem run_eq_plain_recycled :
    ∃ start : Recency Nat, ofCapacity 2 = .ok start ∧
      Guarded.run { start with watched := true } recycling =
        some (run { start with watched := true } recycling) ∧
      (run { start with watched := true } recycling).1 =
        [.evicted none, .evicted none, .value (some 1), .evicted (some ("b", 2)), .value (some 1),
          .evicted none, .shed (.error (.invalid .zeroCapacity)), .shed (.ok [("c", 3)]),
          .key (some "d"), .done, .evicted none, .entries [("e", 5)]] := by
  obtain ⟨start, hstart, hguarded, hreplies, -⟩ := run_eq_plain (α := Nat)
    (show 0 < 2 by decide) true recycling
  exact ⟨start, hstart, hguarded, hreplies.trans rfl⟩

end Recency

end RoleAccess
