import RoleAccess.Config.Basic
import RoleAccess.Permission.Record

/-!
Configurations as values. Every part may be left out, and none may be null.
-/

set_option autoImplicit false
set_option relaxedAutoImplicit false

namespace RoleAccess

open Parts

namespace Tokens

def fieldNames : List String := ["separator", "wildcard", "globstar", "case_sensitive"]

def toValue (t : Tokens) : Value :=
  .object [("separator", .string t.separator), ("wildcard", .string t.wildcard),
    ("globstar", .string t.globstar), ("case_sensitive", .bool t.caseSensitive)]

end Tokens

namespace HierarchyConfig

def fieldNames : List String :=
  ["max_depth", "detect_cycles", "hierarchy_ttl_secs", "permissions_ttl_secs", "cache_enabled"]

def toValue (c : HierarchyConfig) : Value :=
  .object [("max_depth", .int c.maxDepth), ("detect_cycles", .bool c.detectCycles),
    ("hierarchy_ttl_secs", .int c.hierarchyTtl), ("permissions_ttl_secs", .int c.permissionsTtl),
    ("cache_enabled", .bool c.cacheEnabled)]

end HierarchyConfig

namespace CacheConfig

def fieldNames : List String :=
  ["capacity", "default_ttl_secs", "cleanup_interval_secs", "cleanup_batch_size"]

def toValue (c : CacheConfig) : Value :=
  .object [("capacity", .int c.capacity), ("default_ttl_secs", .int c.defaultTtl),
    ("cleanup_interval_secs", .int c.cleanupInterval),
    ("cleanup_batch_size", .int c.cleanupBatch)]

end CacheConfig

namespace LoggingConfig

def fieldNames : List String := ["level", "format"]

def toValue (c : LoggingConfig) : Value :=
  .object [("level", .string c.level), ("format", .string c.format.name)]

end LoggingConfig

/-- How the parts of a configuration are read from one kind of values. -/
structure ConfigReader (β : Type) where
  text : β → Option String
  bool : β → Option Bool
  size : β → Option Nat
  format : β → Option LogFormat
  /-- The parts of a section with these field names. -/
  parts : List String → β → Option (List (Option β))

namespace ConfigReader

variable {β : Type}

def tokens (r : ConfigReader β) (v : β) : Option Tokens := do
  let base : Tokens := {}
  match ← r.parts Tokens.fieldNames v with
  | [separator, wildcard, globstar, caseSensitive] =>
    return {
      separator := ← defaulted r.text base.separator separator
      wildcard := ← defaulted r.text base.wildcard wildcard
      globstar := ← defaulted r.text base.globstar globstar
      caseSensitive := ← defaulted r.bool base.caseSensitive caseSensitive }
  | _ => none

def hierarchy (r : ConfigReader β) (v : β) : Option HierarchyConfig := do
  let base : HierarchyConfig := {}
  match ← r.parts HierarchyConfig.fieldNames v with
  | [maxDepth, detectCycles, hierarchyTtl, permissionsTtl, cacheEnabled] =>
    return {
      maxDepth := ← defaulted r.size base.maxDepth maxDepth
      detectCycles := ← defaulted r.bool base.detectCycles detectCycles
      hierarchyTtl := ← defaulted r.size base.hierarchyTtl hierarchyTtl
      permissionsTtl := ← defaulted r.size base.permissionsTtl permissionsTtl
      cacheEnabled := ← defaulted r.bool base.cacheEnabled cacheEnabled }
  | _ => none

def cache (r : ConfigReader β) (v : β) : Option CacheConfig := do
  let base : CacheConfig := {}
  match ← r.parts CacheConfig.fieldNames v with
  | [capacity, defaultTtl, cleanupInterval, cleanupBatch] =>
    return {
      capacity := ← defaulted r.size base.capacity capacity
      defaultTtl := ← defaulted r.size base.defaultTtl defaultTtl
      cleanupInterval := ← defaulted r.size base.cleanupInterval cleanupInterval
      cleanupBatch := ← defaulted r.size base.cleanupBatch cleanupBatch }
  | _ => none

def logging (r : ConfigReader β) (v : β) : Option LoggingConfig := do
  let base : LoggingConfig := {}
  match ← r.parts LoggingConfig.fieldNames v with
  | [level, format] =>
    return {
      level := ← defaulted r.text base.level level
      format := ← defaulted r.format base.format format }
  | _ => none

def sectionNames : List String := ["parser", "hierarchy", "cache", "logging"]

def config (r : ConfigReader β) (v : β) : Option EngineConfig := do
  match ← r.parts sectionNames v with
  | [parser, hierarchy, cache, logging] =>
    return {
      parser := ← defaulted r.tokens {} parser
      hierarchy := ← defaulted r.hierarchy {} hierarchy
      cache := ← defaulted r.cache {} cache
      logging := ← defaulted r.logging {} logging }
  | _ => none

end ConfigReader

/-- Reading from values, each part in its own type. -/
def ConfigReader.strict : ConfigReader Value where
  text := Value.asString?
  bool := Value.asBool?
  size := Value.asSize?
  format := Value.asChoice? LogFormat.ofName?
  parts := Value.parts?

namespace EngineConfig

def toValue (c : EngineConfig) : Value :=
  .object [("parser", c.parser.toValue), ("hierarchy", c.hierarchy.toValue),
    ("cache", c.cache.toValue), ("logging", c.logging.toValue)]

def ofValue? (v : Value) : Option EngineConfig := ConfigReader.strict.config v

end EngineConfig

end RoleAccess
