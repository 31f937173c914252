import RoleAccess.Cache.Backend
import RoleAccess.Role.Descent
import RoleAccess.Role.Inheritance
import RoleAccess.Role.Record

/-!
Resolving inheritance with a cache. Ancestor lists and permission sets are kept under keys made from
the id of the role, so that they can be dropped by it. The cache only saves work: whatever fails in
it counts as not found, and what it gives back in another form than it was given is computed again.
-/

set_option autoImplicit false
set_option relaxedAutoImplicit false

namespace RoleAccess

structure ResolverOptions where
  maxDepth : Nat := 10
  /-- Whether loops and chains that are too long are errors. -/
  detectCycles : Bool := true
  hierarchyTtl : Nat := 3600 * nanosPerSecond
  permissionsTtl : Nat := 1800 * nanosPerSecond
  cacheEnabled : Bool := true
deriving DecidableEq, Repr

/-- The tag of everything that is kept about a role. -/
def roleTag (id : String) : String := "role:" ++ id

def permissionsKey (id : String) : String := roleTag id ++ ":permissions"

def hierarchyKey (id : String) (limit : Nat) : String :=
  roleTag id ++ ":hierarchy:d" ++ toString limit

/-- The glob over everything that is kept about a role. -/
def roleGlob (id : String) : String := roleTag id ++ ":*"

/-- A cache, if one is attached. -/
abbrev Attached := Option CacheBackend

/-- How one kind of result is kept: its key, its form, its time to live and the role it is about. -/
structure Keeping (α : Type) where
  key : String
  encode : α → Value
  decode : Value → Option α
  ttl : Nat
  about : String

namespace Keeping

variable {α : Type}

/-- What is kept under the key, if it can be had. -/
def fetch (k : Keeping α) (cache : Attached) (now : Nat) : Option α × Attached :=
  match cache with
  | none => (none, none)
  | some backend =>
    match backend.get now k.key with
    | .error _ => (none, some backend)
    | .ok (held, backend) => (held.bind k.decode, some backend)

/-- Keeps a result, if it can be kept. -/
def store (k : Keeping α) (cache : Attached) (now : Nat) (result : α) : Attached :=
  cache.map fun backend ↦
    match backend.set now k.key (k.encode result) { ttl := k.ttl, tags := [roleTag k.about] } with
    | .error _ => backend
    | .ok backend => backend

/-- The kept result, or else the computed one, which is then kept. Errors are not kept. -/
def through (k : Keeping α) (cache : Attached) (now : Nat)
    (compute : Attached → Except RoleError α × Attached) : Except RoleError α × Attached :=
  match k.fetch cache now with
  | (some result, cache) => (.ok result, cache)
  | (none, cache) =>
    match compute cache with
    | (.error e, cache) => (.error e, cache)
    | (.ok result, cache) => (.ok result, k.store cache now result)

end Keeping

structure Resolver where
  options : ResolverOptions
  source : RoleSource

namespace Resolver

def mode (r : Resolver) (limit : Nat) : WalkMode := ⟨limit, r.options.detectCycles⟩

def keptRoles (r : Resolver) (id : String) (limit : Nat) : Keeping (List Role) where
  key := hierarchyKey id limit
  encode roles := .array (roles.map Role.toValue)
  decode := Value.asList? Role.ofValue?
  ttl := r.options.hierarchyTtl
  about := id

def keptPermissions (r : Resolver) (id : String) : Keeping (List Permission) where
  key := permissionsKey id
  encode permissions := .array (permissions.map Permission.toValue)
  decode := Value.asList? Permission.ofValue?
  ttl := r.options.permissionsTtl
  about := id

/-- The cache as far as it may be used. -/
def usable (r : Resolver) (cache : Attached) : Attached :=
  if r.options.cacheEnabled then cache else none

/-- A reading of a cache that leaves it alone when it may not be used. -/
def withCache {α : Type} (r : Resolver) (cache : Attached)
    (read : Attached → Except RoleError α × Attached) : Except RoleError α × Attached :=
  let (result, after) := read (r.usable cache)
  (result, if r.options.cacheEnabled then after else cache)

/-- The ancestors of a role within a limit, kept by its id and the limit. -/
def ancestors (r : Resolver) (now limit : Nat) (root : Role) (cache : Attached) :
    Except RoleError (List Role) × Attached :=
  (r.keptRoles root.id limit).through cache now fun cache ↦
    (r.source.ancestors (r.mode limit) root, cache)

/-- The permissions of a role and of its active ancestors, each id once, the role's own first and
then the others in the order of the walk upwards. An inactive role has none. -/
def inheritedPermissions (r : Resolver) (now : Nat) (id : String) (cache : Attached) :
    Except RoleError (List Permission) × Attached :=
  r.withCache cache fun cache ↦
    (r.keptPermissions id).through cache now fun cache ↦
      match r.source.require id with
      | .error e => (.error e, cache)
      | .ok root =>
        if root.active then
          let (found, cache) := r.ancestors now r.options.maxDepth root cache
          (found.map (collectPermissions root), cache)
        else (.ok [], cache)

/-- The ancestors of a role, within the usual limit or another. -/
def parentRoles (r : Resolver) (now : Nat) (id : String) (limit : Option Nat) (cache : Attached) :
    Except RoleError (List Role) × Attached :=
  r.withCache cache fun cache ↦
    match r.source.require id with
    | .error e => (.error e, cache)
    | .ok root => r.ancestors now (limit.getD r.options.maxDepth) root cache

/-- A role and its ancestors. -/
def rolesInHierarchy (r : Resolver) (now : Nat) (id : String) (cache : Attached) :
    Except RoleError (List Role) × Attached :=
  r.withCache cache fun cache ↦
    match r.source.require id with
    | .error e => (.error e, cache)
    | .ok root =>
      let (found, cache) := r.ancestors now r.options.maxDepth root cache
      (found.map (root :: ·), cache)

def depth (r : Resolver) (id : String) : Except RoleError Nat :=
  r.source.depth (r.mode r.options.maxDepth) id

def tree (r : Resolver) (id : String) : Except RoleError RoleTree :=
  r.source.tree r.options.maxDepth id

/-- Drops what is kept about one role, and adds to a count of dropped entries. -/
def drop (dropped : Nat × CacheBackend) (id : String) : Nat × CacheBackend :=
  match dropped.2.deletePattern (roleGlob id) with
  | .error _ => dropped
  | .ok (count, backend) => (dropped.1 + count, backend)

/-- Drops what is kept about a role and about every role below it, and counts the entries. Where
the children of a role cannot be listed, what was met before and that role have been dropped. -/
def invalidate (r : Resolver) (id : String) (cache : Attached) : Except RoleError Nat × Attached :=
  match r.usable cache with
  | none => (.ok 0, cache)
  | some backend =>
    let walk := r.source.descend id
    let (count, backend) := walk.asked.foldl drop (0, backend)
    (walk.roles.map fun _ ↦ count, some backend)

end Resolver

end RoleAccess
