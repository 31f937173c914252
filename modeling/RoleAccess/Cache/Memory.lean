import Std.Data.TreeSet
import RoleAccess.Cache.Expiry
import RoleAccess.Cache.Recency
import RoleAccess.Text.Glob
import RoleAccess.Value.Basic

/-!
A cache of values in memory. A recency map bounds it, leases let its entries expire, and tags group
them: from a tag to its keys, and from a key to its tags. An expired entry is removed when it is
read or when the cache is purged.
-/

set_option autoImplicit false
set_option relaxedAutoImplicit false

namespace RoleAccess

/-- How an entry is to be kept. Without a time to live of its own it has the one of the cache. -/
structure WriteOptions where
  ttl : Option Nat := none
  tags : List String := []
  sliding : Bool := false
deriving DecidableEq, Repr

structure MemoryCacheOptions where
  capacity : Nat := 10000
  /-- The time to live of entries that have none of their own; without one they never expire. -/
  defaultTtl : Option Nat := some (3600 * nanosPerSecond)
  /-- The number of entries that one purge removes at most. -/
  batch : Nat := 1000
deriving DecidableEq, Repr

structure MemoryCache where
  recency : Recency Value
  expiry : Expiry
  keysOf : Std.TreeMap String (Std.TreeSet String) := ∅
  tagsOf : Std.TreeMap String (List String) := ∅

namespace MemoryCache

def ofOptions (o : MemoryCacheOptions) : Except ConfigError MemoryCache := do
  let recency ← Recency.ofCapacity o.capacity
  return { recency, expiry := Expiry.withBatch { defaultTtl := o.defaultTtl } o.batch }

/-- The keys, the latest used first, those that have expired and not been removed included. -/
def keys (c : MemoryCache) : List String := c.recency.keys

def size (c : MemoryCache) : Nat := c.recency.size

def stats (c : MemoryCache) : CacheStats := c.recency.stats

/-! ### Tags -/

/-- Takes a key from a tag. A tag without keys is dropped. -/
def untag (key : String) (keysOf : Std.TreeMap String (Std.TreeSet String)) (tag : String) :
    Std.TreeMap String (Std.TreeSet String) :=
  match keysOf[tag]? with
  | none => keysOf
  | some keys =>
    let keys := keys.erase key
    if keys.isEmpty then keysOf.erase tag else keysOf.insert tag keys

def addTag (key : String) (c : MemoryCache) (tag : String) : MemoryCache :=
  { c with
    keysOf := c.keysOf.insert tag ((c.keysOf[tag]?.getD ∅).insert key)
    tagsOf := c.tagsOf.insert key (c.tagsOf[key]?.getD [] ++ [tag]) }

/-- Drops the lease and the tags of a key. -/
def forget (c : MemoryCache) (key : String) : MemoryCache :=
  { c with
    expiry := (c.expiry.remove key).2
    tagsOf := c.tagsOf.erase key
    keysOf := (c.tagsOf[key]?.getD []).foldl (untag key) c.keysOf }

/-! ### Reading and writing -/

/-- Removes a key. Tells whether it was there. -/
def delete (c : MemoryCache) (key : String) : Bool × MemoryCache :=
  let (held, recency) := c.recency.delete key
  (held.isSome, { c with recency }.forget key)

/-- Removes keys. Gives the number of those that were there. -/
def deleteAll (c : MemoryCache) (keys : List String) : Nat × MemoryCache :=
  keys.foldl
    (fun (count, c) key ↦
      let (held, c) := c.delete key
      (count + held.toNat, c))
    (0, c)

/-- Reads a key that has not expired, and uses it. -/
def get (c : MemoryCache) (now : Nat) (key : String) : Option Value × MemoryCache :=
  if c.expiry.isTracked key && c.expiry.isExpired now key then (none, (c.delete key).2)
  else
    let (held, recency) := c.recency.get key
    let c := { c with recency }
    match held with
    | none => (none, c)
    | some v => (some v, { c with expiry := (c.expiry.touch now key).2 })

def set (c : MemoryCache) (now : Nat) (key : String) (value : Value) (o : WriteOptions) :
    MemoryCache :=
  let c := c.forget key
  let (evicted, recency) := c.recency.set key value
  let c := { c with recency }
  let c := evicted.elim c fun (old, _) ↦ c.forget old
  let c := { c with expiry := c.expiry.set now key o.ttl o.sliding }
  o.tags.foldl (addTag key) c

/-- Removes the keys that a glob covers. Gives their number. -/
def deletePattern (c : MemoryCache) (pattern : String) : Nat × MemoryCache :=
  c.deleteAll (c.keys.filter (Text.Glob.covers pattern))

/-- Removes the keys with a tag. Gives their number. -/
def deleteTag (c : MemoryCache) (tag : String) : Nat × MemoryCache :=
  c.deleteAll (c.keysOf[tag]?.elim [] Std.TreeSet.toList)

/-- Removes a batch of entries whose deadlines have come. Gives their number. -/
def purge (c : MemoryCache) (now : Nat) : Nat × MemoryCache :=
  let (expired, expiry) := c.expiry.takeExpired now none
  { c with expiry }.deleteAll (expired.map Expiration.key)

/-- Removes all entries; the counters stay. -/
def clear (c : MemoryCache) : MemoryCache :=
  { recency := c.recency.clear, expiry := c.expiry.clear }

end MemoryCache

end RoleAccess
