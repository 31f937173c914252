import RoleAccess.Permission.Matching
import RoleAccess.Value.Record

/-!
Permissions, contexts, reasons, patterns and decisions as values.
-/

set_option autoImplicit false
set_option relaxedAutoImplicit false

namespace RoleAccess

open Parts

namespace Permission

/-- Absent parts are left out, empty ones are kept. -/
def toValue (p : Permission) : Value :=
  .object ([("id", .string p.id), ("resource", .string p.resource), ("action", .string p.action)] ++
    Fields.whenSome "scope" (p.scope.map .string) ++
    Fields.whenSome "conditions" (p.conditions.map .object) ++
    Fields.whenSome "metadata" (p.metadata.map .object))

def ofParts? : Parts → Option Permission
  | [id, resource, action, scope, conditions, metadata] => do
    return {
      id := ← required Value.asString? id
      resource := ← required Value.asString? resource
      action := ← required Value.asString? action
      scope := ← optional Value.asString? scope
      conditions := ← optional Value.asFields? conditions
      metadata := ← optional Value.asFields? metadata }
  | _ => none

def fieldNames : List String := ["id", "resource", "action", "scope", "conditions", "metadata"]

def ofValue? (v : Value) : Option Permission := (v.parts? fieldNames).bind ofParts?

end Permission

namespace Context

def toValue (c : Context) : Value :=
  .object [("user_id", (c.userId.map Value.string).getD .null),
    ("resource_owner_id", (c.ownerId.map Value.string).getD .null),
    ("attributes", .object c.attributes)]

def ofParts? : Parts → Option Context
  | [userId, ownerId, attributes] => do
    return {
      userId := ← optional Value.asString? userId
      ownerId := ← optional Value.asString? ownerId
      attributes := ← defaulted Value.asFields? [] attributes }
  | _ => none

def fieldNames : List String := ["user_id", "resource_owner_id", "attributes"]

def ofValue? (v : Value) : Option Context := (v.parts? fieldNames).bind ofParts?

end Context

namespace Value

/-- A choice among names, given by the name or as an object with that name alone and null. -/
def asChoice? {α : Type} (ofName? : String → Option α) : Value → Option α
  | .string name => ofName? name
  | .object [(name, .null)] => ofName? name
  | _ => none

end Value

def Reason.toValue (r : Reason) : Value := .string r.name

def Reason.ofValue? (v : Value) : Option Reason := v.asChoice? Reason.ofName?

namespace Pattern

def toValue (p : Pattern) : Value :=
  .object [("resource", .string p.resource), ("action", .string p.action),
    ("scope", (p.scope.map Value.string).getD .null),
    ("is_resource_wildcard", .bool p.isResourceWildcard),
    ("is_action_wildcard", .bool p.isActionWildcard),
    ("is_scope_wildcard", .bool p.isScopeWildcard), ("is_globstar", .bool p.isGlobstar),
    ("original", .string p.written)]

end Pattern

namespace Grant

def toFields (g : Grant) : List (String × Value) :=
  [("matched", .bool true), ("permission", g.permission.toValue), ("pattern", .string g.pattern),
    ("score", .int g.score), ("reason", g.reason.toValue)]

end Grant

def Decision.toFields (d : Decision) : List (String × Value) :=
  match d with
  | some grant => grant.toFields
  | none => [("matched", .bool false), ("score", .int 0), ("reason", Reason.noMatch.toValue)]

end RoleAccess
