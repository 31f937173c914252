import RoleAccess.Cache.Memory
import RoleAccess.Permission.Dialect
import RoleAccess.Role.Resolver

/-!
The configuration of the engine in four sections, each with defaults, and the conditions it has to
meet. Times are in whole seconds.
-/

set_option autoImplicit false
set_option relaxedAutoImplicit false

namespace RoleAccess

structure HierarchyConfig where
  maxDepth : Nat := 10
  detectCycles : Bool := true
  hierarchyTtl : Nat := 3600
  permissionsTtl : Nat := 1800
  cacheEnabled : Bool := true
deriving DecidableEq, Repr

structure CacheConfig where
  capacity : Nat := 10000
  /-- Zero for entries that never expire. -/
  defaultTtl : Nat := 3600
  /-- Zero for no sweeping. -/
  cleanupInterval : Nat := 60
  cleanupBatch : Nat := 1000
deriving DecidableEq, Repr

inductive LogFormat where
  | pretty
  | json
deriving DecidableEq, Repr

namespace LogFormat

def name : LogFormat → String
  | .pretty => "pretty"
  | .json => "json"

def ofName? (name : String) : Option LogFormat := [pretty, json].find? (·.name == name)

end LogFormat

structure LoggingConfig where
  level : String := "info"
  format : LogFormat := .pretty
deriving DecidableEq, Repr

structure EngineConfig where
  parser : Tokens := {}
  hierarchy : HierarchyConfig := {}
  cache : CacheConfig := {}
  logging : LoggingConfig := {}
deriving DecidableEq, Repr

def HierarchyConfig.options (c : HierarchyConfig) : ResolverOptions where
  maxDepth := c.maxDepth
  detectCycles := c.detectCycles
  hierarchyTtl := c.hierarchyTtl * nanosPerSecond
  permissionsTtl := c.permissionsTtl * nanosPerSecond
  cacheEnabled := c.cacheEnabled

def CacheConfig.options (c : CacheConfig) : MemoryCacheOptions where
  capacity := c.capacity
  defaultTtl := if c.defaultTtl = 0 then none else some (c.defaultTtl * nanosPerSecond)
  batch := c.cleanupBatch

namespace EngineConfig

/-- Why a configuration is refused; of several causes the first. -/
def fault? (c : EngineConfig) : Option ConfigError :=
  match c.parser.fault? with
  | some fault => some (.invalid fault)
  | none =>
    if c.hierarchy.maxDepth = 0 then some (.invalid .zeroDepth)
    else if c.cache.capacity = 0 then some (.invalid .zeroCacheCapacity)
    else if c.cache.cleanupBatch = 0 then some (.invalid .zeroBatch)
    else if (Text.trimmed c.logging.level).isEmpty then some (.missing "logging.level")
    else none

/-- The configuration, if there is one and nothing is wrong with it. -/
def checked (c : Option EngineConfig) : Except ConfigError EngineConfig :=
  match c with
  | none => .error (.load .malformed)
  | some c =>
    match c.fault? with
    | some fault => .error fault
    | none => .ok c

end EngineConfig

end RoleAccess
