/-!
What can go wrong, by cause. The wording of each cause is in one place, its `message`.
-/

set_option autoImplicit false
set_option relaxedAutoImplicit false

namespace RoleAccess

/-- Why a setting is refused. -/
inductive SettingFault where
  | emptySeparator
  | emptyToken
  | equalTokens
  | wildcardInSeparator (separator wildcard : String)
  | zeroDepth
  | zeroCacheCapacity
  | zeroBatch
  | zeroCapacity
  | stated (text : String)
deriving DecidableEq, Repr

def SettingFault.message : SettingFault → String
  | .emptySeparator => "permission separator must not be empty"
  | .emptyToken => "wildcard tokens must not be empty"
  | .equalTokens => "wildcard and globstar tokens must differ"
  | .wildcardInSeparator separator wildcard =>
    "separator '" ++ separator ++ "' must not contain the wildcard token '" ++ wildcard ++ "'"
  | .zeroDepth => "hierarchy.max_depth must be greater than 0"
  | .zeroCacheCapacity => "cache.capacity must be greater than 0"
  | .zeroBatch => "cache.cleanup_batch_size must be greater than 0"
  | .zeroCapacity => "LRU capacity must be at least 1"
  | .stated text => text

/-- Why a permission string is refused. -/
inductive PermissionFault where
  | empty
  | tooManySegments
  | badSegment (segment : String)
  | stated (text : String)
deriving DecidableEq, Repr

def PermissionFault.message : PermissionFault → String
  | .empty => "permission must not be empty"
  | .tooManySegments => "permission has more than 3 segments"
  | .badSegment segment => "invalid segment '" ++ segment ++ "'"
  | .stated text => text

/-- Why a configuration or a roles file cannot be loaded. -/
inductive LoadFault where
  | fileNotFound (path : String)
  /-- The text is not of the expected form; no detail is kept. -/
  | malformed
  | stated (text : String)
deriving DecidableEq, Repr

inductive ConfigError where
  | load (fault : LoadFault)
  | invalid (fault : SettingFault)
  | missing (field : String)
  | invalidPermission (permission : String) (fault : PermissionFault)
  | io (text : String)
deriving DecidableEq, Repr

def ConfigError.message : ConfigError → String
  | .load (.fileNotFound path) =>
    "Failed to load configuration: Configuration file not found: " ++ path
  | .load .malformed => "Failed to load configuration:"
  | .load (.stated text) => "Failed to load configuration: " ++ text
  | .invalid fault => "Invalid configuration: " ++ fault.message
  | .missing field => "Missing required configuration: " ++ field
  | .invalidPermission permission fault =>
    "Invalid permission '" ++ permission ++ "': " ++ fault.message
  | .io text => "IO error: " ++ text

/-- The shape of a loop of parents, or a chain of parents that is too long. -/
inductive CycleKind where
  | selfReference
  | direct
  | indirect
  | maxDepthExceeded
deriving DecidableEq, Repr

namespace CycleKind

def message : CycleKind → String
  | .selfReference => "self-reference"
  | .direct => "direct cycle"
  | .indirect => "indirect cycle"
  | .maxDepthExceeded => "maximum depth exceeded"

/-- The shape of a chain whose last id repeats an earlier one. Only the loop counts: ids before the
first occurrence of the last one do not. -/
def ofChain (chain : List String) : CycleKind :=
  match chain.getLast? with
  | none => .indirect
  | some last =>
    match chain.length - 1 - chain.idxOf last with
    | 0 | 1 => .selfReference
    | 2 => .direct
    | _ => .indirect

end CycleKind

inductive RoleError where
  | notFound (id : String)
  | circular (kind : CycleKind) (chain : List String) (depth limit : Option Nat)
  | source (text : String)
deriving DecidableEq, Repr

namespace RoleError

def cycle (chain : List String) : RoleError := .circular (CycleKind.ofChain chain) chain none none

def tooDeep (chain : List String) (depth limit : Nat) : RoleError :=
  .circular .maxDepthExceeded chain (some depth) (some limit)

def depthNote : Option Nat → Option Nat → String
  | some depth, some limit =>
    " (depth " ++ toString depth ++ " exceeds maximum " ++ toString limit ++ ")"
  | _, _ => ""

def message : RoleError → String
  | .notFound id => "Role not found: " ++ id
  | .circular kind chain depth limit =>
    "Circular dependency (" ++ kind.message ++ "): " ++ String.intercalate " -> " chain ++
      depthNote depth limit
  | .source text => "Role source error: " ++ text

end RoleError

inductive CacheError where
  | backend (text : String)
  | invalidPattern (pattern reason : String)
deriving DecidableEq, Repr

def CacheError.message : CacheError → String
  | .backend text => "Cache backend error: " ++ text
  | .invalidPattern pattern reason => "Invalid key pattern '" ++ pattern ++ "': " ++ reason

/-- A required permission that is not granted, for callers that want an error. -/
structure Denial where
  permission : String
  reason : String
deriving DecidableEq, Repr

def Denial.message (d : Denial) : String :=
  "Permission '" ++ d.permission ++ "' denied: " ++ d.reason

end RoleAccess
