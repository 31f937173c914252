import Std.Data.TreeMap

/-!
When keys expire. The leases hold the deadline of every tracked key. Beside them a queue in
ascending order of deadlines shows what is due next. An entry of the queue whose deadline is no
longer that of its key is stale and dropped when its turn comes, or when the queue is rebuilt
because it has grown too long. Instants and durations are counted in nanoseconds from a common
start.
-/

set_option autoImplicit false
set_option relaxedAutoImplicit false

namespace RoleAccess

def nanosPerSecond : Nat := 1000000000

def nanosPerMilli : Nat := 1000000

/-- The first instant that is too late to be told. -/
def endOfTime : Nat := (Nat.pow 2 63 - 1) * nanosPerSecond

/-- The instant after a delay; none if it is too late to be told, which means never. -/
def deadlineAfter (now delay : Nat) : Option Nat :=
  if now + delay < endOfTime then some (now + delay) else none

/-- How long a key lives. A sliding lease starts anew whenever the key is used. -/
structure Lease where
  deadline : Option Nat
  ttl : Option Nat
  sliding : Bool
deriving DecidableEq, Repr

/-- Strictly past the deadline. -/
def Lease.isOver (l : Lease) (now : Nat) : Bool := l.deadline.any (· < now)

/-- The time a key has left. -/
inductive Remaining where
  | expires (left : Nat)
  | never
  | notFound
deriving DecidableEq, Repr

namespace Remaining

def maxSeconds : Nat := Nat.pow 2 63 - 1

/-- The time left as one integer: whole milliseconds rounded up to seconds and held at the largest
number that fits, -1 for never, and -2 for no such key. -/
def secondsCode : Remaining → Int
  | .expires left => min ((left / nanosPerMilli + 999) / 1000) maxSeconds
  | .never => -1
  | .notFound => -2

end Remaining

/-- A key that expired, with its deadline and the time to live it had. -/
structure Expiration where
  key : String
  expiredAt : Nat
  ttl : Nat
deriving DecidableEq, Repr

/-- Deadlines in ascending order. -/
abbrev DueQueue := List (Nat × String)

namespace DueQueue

/-- Queues a deadline after all that are not later. -/
def add (deadline : Nat) (key : String) : DueQueue → DueQueue
  | [] => [(deadline, key)]
  | (other, held) :: rest =>
    if other ≤ deadline then (other, held) :: add deadline key rest
    else (deadline, key) :: (other, held) :: rest

end DueQueue

structure Expiry where
  defaultTtl : Option Nat := none
  batch : Nat := 1000
  listeners : Nat := 0
  leases : Std.TreeMap String Lease := ∅
  queue : DueQueue := []
  /-- What the listeners have been told, each by its number, in order. -/
  notices : List (Nat × Expiration) := []

namespace Expiry

/-- Sets how many keys one pass removes at most, which is at least one. -/
def withBatch (e : Expiry) (batch : Nat) : Expiry := { e with batch := max batch 1 }

def size (e : Expiry) : Nat := e.leases.size

def keys (e : Expiry) : List String := e.leases.keys

def isTracked (e : Expiry) (key : String) : Bool := e.leases.contains key

/-- Not tracked, or past its deadline. -/
def isExpired (e : Expiry) (now : Nat) (key : String) : Bool :=
  match e.leases[key]? with
  | none => true
  | some lease => lease.isOver now

def remaining (e : Expiry) (now : Nat) (key : String) : Remaining :=
  match e.leases[key]? with
  | none => .notFound
  | some lease =>
    if lease.isOver now then .notFound
    else
      match lease.deadline with
      | none => .never
      | some deadline => .expires (deadline - now)

/-! ### The queue -/

/-- The queue is rebuilt above this length, if it is also longer than so many times the leases. -/
def shortQueue : Nat := 64

def slackFactor : Nat := 2

/-- The deadlines of all leases, in ascending order. -/
def deadlines (leases : Std.TreeMap String Lease) : DueQueue :=
  (leases.toList.filterMap fun (key, lease) ↦ lease.deadline.map fun at' ↦ (at', key)).mergeSort
    fun a b ↦ a.1 ≤ b.1

def rebuild (e : Expiry) : Expiry := { e with queue := deadlines e.leases }

def enqueue (e : Expiry) (key : String) : Option Nat → Expiry
  | none => e
  | some deadline =>
    let e := { e with queue := e.queue.add deadline key }
    if shortQueue < e.queue.length && slackFactor * e.leases.size < e.queue.length then e.rebuild
    else e

/-- Gives a key a lease, and queues its deadline. -/
def lease (e : Expiry) (key : String) (lease : Lease) : Expiry :=
  { e with leases := e.leases.insert key lease }.enqueue key lease.deadline

/-! ### Changing leases -/

/-- Tracks a key from now on, for the given time or the default one. -/
def set (e : Expiry) (now : Nat) (key : String) (ttl : Option Nat) (sliding : Bool) : Expiry :=
  let ttl := ttl.or e.defaultTtl
  e.lease key ⟨ttl.bind (deadlineAfter now), ttl, sliding⟩

/-- Renews a sliding lease. Tells whether the key is alive. -/
def touch (e : Expiry) (now : Nat) (key : String) : Bool × Expiry :=
  match e.leases[key]? with
  | none => (false, e)
  | some lease =>
    if lease.isOver now then (false, e)
    else
      match lease.sliding, lease.ttl with
      | true, some ttl => (true, e.lease key { lease with deadline := deadlineAfter now ttl })
      | _, _ => (true, e)

/-- Gives a living key a new time to live. Tells whether the key is alive. -/
def updateTtl (e : Expiry) (now : Nat) (key : String) (ttl : Nat) : Bool × Expiry :=
  match e.leases[key]? with
  | none => (false, e)
  | some lease =>
    if lease.isOver now then (false, e)
    else (true, e.lease key { lease with deadline := deadlineAfter now ttl, ttl := some ttl })

/-- Stops tracking a key. Tells whether it was tracked. -/
def remove (e : Expiry) (key : String) : Bool × Expiry :=
  (e.isTracked key, { e with leases := e.leases.erase key })

def clear (e : Expiry) : Expiry := { e with leases := ∅, queue := [] }

/-! ### What expires -/

/-- Whether an entry of the queue gives the deadline that its key has. -/
def isCurrent (leases : Std.TreeMap String Lease) (deadline : Nat) (key : String) : Bool :=
  leases[key]?.any (·.deadline == some deadline)

/-- The living keys whose deadlines are not later than a window from now, the soonest first. -/
def expiringWithin (e : Expiry) (now window : Nat) : List String :=
  let near := e.queue.takeWhile fun (deadline, _) ↦
    (deadlineAfter now window).all (deadline ≤ ·)
  let live := near.filter fun (deadline, key) ↦
    isCurrent e.leases deadline key && now ≤ deadline
  (live.map Prod.snd).eraseDups

/-- Takes what is due from the front of a queue, at most so many keys; stale entries are passed over
and not counted. -/
def takeDue (now : Nat) : Nat → DueQueue → Std.TreeMap String Lease →
    List Expiration × DueQueue × Std.TreeMap String Lease
  | _, [], leases => ([], [], leases)
  | 0, queue, leases => ([], queue, leases)
  | limit + 1, (deadline, key) :: rest, leases =>
    if now < deadline then ([], (deadline, key) :: rest, leases)
    else if isCurrent leases deadline key then
      let ttl := (leases[key]?.bind Lease.ttl).getD 0
      let (more, left) := takeDue now limit rest (leases.erase key)
      (⟨key, deadline, ttl⟩ :: more, left)
    else takeDue now (limit + 1) rest leases

/-- Removes the keys whose deadlines have come, the earliest first, at most so many or a batch. -/
def takeExpired (e : Expiry) (now : Nat) (limit : Option Nat) : List Expiration × Expiry :=
  let (expired, queue, leases) := takeDue now (limit.getD e.batch) e.queue e.leases
  (expired, { e with queue, leases })

/-- Removes expired keys and tells every listener of each. Gives their number. -/
def cleanup (e : Expiry) (now : Nat) (limit : Option Nat) : Nat × Expiry :=
  let (expired, e) := e.takeExpired now limit
  (expired.length, { e with
    notices := e.notices ++
      expired.flatMap fun gone ↦ (List.range e.listeners).map fun i ↦ (i, gone) })

/-- Hands over the notices so far. -/
def takeNotices (e : Expiry) : List (Nat × Expiration) × Expiry :=
  (e.notices, { e with notices := [] })

end Expiry

end RoleAccess
