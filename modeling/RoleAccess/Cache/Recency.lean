import Std.Data.TreeMap
import RoleAccess.Binary64.Basic
import RoleAccess.Fault

/-!
A bounded map that gives up the entry that has not been used for longest. The entries sit in slots,
each of which knows the slots of the next newer and the next older entry, and an index leads from a
key to its slot. A slot that falls free is used again. Seen from outside it is the list `entries`,
the latest used first.
-/

set_option autoImplicit false
set_option relaxedAutoImplicit false

namespace RoleAccess

/-- An entry and the slots of its neighbours. -/
structure Slot (α : Type) where
  key : String
  value : α
  newer : Option Nat := none
  older : Option Nat := none
deriving Repr

/-- Why an entry was given up. -/
inductive EvictionReason where
  | capacity
deriving DecidableEq, Repr

def EvictionReason.message : EvictionReason → String
  | .capacity => "capacity"

/-- What a listener is told about an entry that was given up. -/
structure Eviction (α : Type) where
  key : String
  value : α
  reason : EvictionReason
deriving Repr

/-- Size and counters at one moment. -/
structure CacheStats where
  size : Nat
  capacity : Nat
  hits : Nat
  misses : Nat
  evictions : Nat
deriving DecidableEq, Repr

/-- The share of reads that found their key, zero before the first read. -/
def CacheStats.hitRate (s : CacheStats) : Binary64 :=
  if s.hits + s.misses = 0 then Binary64.zero false
  else (Binary64.ofNat s.hits).quotient (Binary64.ofNat (s.hits + s.misses))

structure Recency (α : Type) where
  capacity : Nat
  capacity_pos : 0 < capacity
  slots : Array (Option (Slot α)) := #[]
  free : List Nat := []
  index : Std.TreeMap String Nat := ∅
  newest : Option Nat := none
  oldest : Option Nat := none
  hits : Nat := 0
  misses : Nat := 0
  evictions : Nat := 0
  /-- Whether anyone listens to evictions. -/
  watched : Bool := false
  /-- What the listener has been told, in order. -/
  notices : List (Eviction α) := []

namespace Recency

variable {α : Type}

/-- An empty map. It has to hold at least one entry. -/
def ofCapacity (capacity : Nat) : Except ConfigError (Recency α) :=
  if h : 0 < capacity then .ok { capacity, capacity_pos := h }
  else .error (.invalid .zeroCapacity)

def watch (r : Recency α) : Recency α := { r with watched := true }

def size (r : Recency α) : Nat := r.index.size

/-! ### The chain of slots -/

/-- The entry in a slot, if the slot is in use. -/
def slot? (r : Recency α) (i : Nat) : Option (Slot α) := r.slots[i]?.join

def update (r : Recency α) (i : Nat) (change : Slot α → Slot α) : Recency α :=
  { r with slots := r.slots.modify i (·.map change) }

def setOlder (r : Recency α) (link older : Option Nat) : Recency α :=
  match link with
  | none => { r with newest := older }
  | some i => r.update i ({ · with older })

def setNewer (r : Recency α) (link newer : Option Nat) : Recency α :=
  match link with
  | none => { r with oldest := newer }
  | some i => r.update i ({ · with newer })

/-- Takes a slot out of the chain: its neighbours become each other's neighbours. -/
def unlink (r : Recency α) (i : Nat) : Recency α :=
  match r.slot? i with
  | none => r
  | some s =>
    ((r.setOlder s.newer s.older).setNewer s.older s.newer).update i
      ({ · with newer := none, older := none })

/-- Puts a slot that is not in the chain at its newest end. -/
def linkNewest (r : Recency α) (i : Nat) : Recency α :=
  let old := r.newest
  { (r.update i ({ · with newer := none, older := old })).setNewer old (some i) with
    newest := some i }

def promote (r : Recency α) (i : Nat) : Recency α :=
  if r.newest = some i then r else (r.unlink i).linkNewest i

/-- Stores an entry in a slot of its own, outside the chain. -/
def occupy (r : Recency α) (s : Slot α) : Recency α × Nat :=
  match r.free with
  | i :: rest => ({ r with slots := r.slots.setIfInBounds i (some s), free := rest }, i)
  | [] => ({ r with slots := r.slots.push (some s) }, r.slots.size)

def release (r : Recency α) (i : Nat) : Recency α :=
  { r with slots := r.slots.setIfInBounds i none, free := i :: r.free }

/-! ### Looking without using -/

/-- The entries from a slot on to the oldest, as many as asked for. -/
def entriesFrom (r : Recency α) : Nat → Option Nat → List (String × α)
  | 0, _ => []
  | n + 1, link =>
    match link.bind r.slot? with
    | none => []
    | some s => (s.key, s.value) :: r.entriesFrom n s.older

/-- The entries, the latest used first. -/
def entries (r : Recency α) : List (String × α) := r.entriesFrom r.slots.size r.newest

def keys (r : Recency α) : List String := r.entries.map Prod.fst

def newestKey? (r : Recency α) : Option String := (r.newest.bind r.slot?).map Slot.key

def oldestKey? (r : Recency α) : Option String := (r.oldest.bind r.slot?).map Slot.key

def contains (r : Recency α) (key : String) : Bool := r.index.contains key

def peek? (r : Recency α) (key : String) : Option α :=
  (r.index[key]?.bind r.slot?).map Slot.value

def stats (r : Recency α) : CacheStats := ⟨r.size, r.capacity, r.hits, r.misses, r.evictions⟩

/-! ### Using -/

/-- Reads a key and makes it the latest used. -/
def get (r : Recency α) (key : String) : Option α × Recency α :=
  match r.index[key]? with
  | none => (none, { r with misses := r.misses + 1 })
  | some i => ((r.slot? i).map Slot.value, { r with hits := r.hits + 1 }.promote i)

/-- Makes a key the latest used, if it is there. -/
def touch (r : Recency α) (key : String) : Bool × Recency α :=
  match r.index[key]? with
  | none => (false, r)
  | some i => (true, r.promote i)

/-- Gives up the entry that has not been used for longest, and tells the listener. -/
def evict (r : Recency α) : Option (String × α) × Recency α :=
  match r.oldest with
  | none => (none, r)
  | some i =>
    match r.slot? i with
    | none => (none, r)
    | some s =>
      let r := (r.unlink i).release i
      (some (s.key, s.value),
        { r with
          index := r.index.erase s.key
          evictions := r.evictions + 1
          notices :=
            if r.watched then r.notices ++ [⟨s.key, s.value, .capacity⟩] else r.notices })

/-- Writes an entry and makes it the latest used. Gives the entry that had to make room. -/
def set (r : Recency α) (key : String) (value : α) : Option (String × α) × Recency α :=
  match r.index[key]? with
  | some i => (none, (r.update i ({ · with value })).promote i)
  | none =>
    let (r, i) := r.occupy { key, value }
    let r := { r with index := r.index.insert key i }.linkNewest i
    if r.capacity < r.size then r.evict else (none, r)

/-- Removes an entry, of which the listener is not told. -/
def delete (r : Recency α) (key : String) : Option α × Recency α :=
  match r.index[key]? with
  | none => (none, r)
  | some i =>
    let r' := { r with index := r.index.erase key }.unlink i
    ((r'.slot? i).map Slot.value, r'.release i)

/-- Removes all entries; the counters stay. -/
def clear (r : Recency α) : Recency α :=
  { r with slots := #[], free := [], index := ∅, newest := none, oldest := none }

/-- Evicts so many entries, the oldest first. -/
def shed : Nat → Recency α → List (String × α) × Recency α
  | 0, r => ([], r)
  | n + 1, r =>
    match r.evict with
    | (none, r) => ([], r)
    | (some entry, r) =>
      let (more, r) := shed n r
      (entry :: more, r)

/-- Changes the capacity. Gives the entries that had to go, the oldest first. -/
def resize (r : Recency α) (capacity : Nat) :
    Except ConfigError (List (String × α) × Recency α) :=
  if h : 0 < capacity then
    .ok (shed (r.size - capacity) { r with capacity, capacity_pos := h })
  else .error (.invalid .zeroCapacity)

/-- Hands over the notices so far. -/
def takeNotices (r : Recency α) : List (Eviction α) × Recency α :=
  (r.notices, { r with notices := [] })

end Recency

end RoleAccess
