import RoleAccess.Cache.Memory

/-!
Where cached values are kept: in memory, or on a server that does not answer.
-/

set_option autoImplicit false
set_option relaxedAutoImplicit false

namespace RoleAccess

inductive CacheBackend where
  | memory (cache : MemoryCache)
  /-- Every call fails. -/
  | unavailable (text : String)

namespace CacheBackend

def get (b : CacheBackend) (now : Nat) (key : String) :
    Except CacheError (Option Value × CacheBackend) :=
  match b with
  | .memory c =>
    let (held, c) := c.get now key
    .ok (held, .memory c)
  | .unavailable text => .error (.backend text)

def set (b : CacheBackend) (now : Nat) (key : String) (value : Value) (o : WriteOptions) :
    Except CacheError CacheBackend :=
  match b with
  | .memory c => .ok (.memory (c.set now key value o))
  | .unavailable text => .error (.backend text)

def deletePattern (b : CacheBackend) (pattern : String) : Except CacheError (Nat × CacheBackend) :=
  match b with
  | .memory c =>
    let (count, c) := c.deletePattern pattern
    .ok (count, .memory c)
  | .unavailable text => .error (.backend text)

def memory? : CacheBackend → Option MemoryCache
  | .memory c => some c
  | .unavailable _ => none

end CacheBackend

end RoleAccess
