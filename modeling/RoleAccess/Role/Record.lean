import RoleAccess.Permission.Record
import RoleAccess.Role.Basic

/-!
Roles and trees of roles as values.
-/

set_option autoImplicit false
set_option relaxedAutoImplicit false

namespace RoleAccess

open Parts

namespace Role

def toValue (r : Role) : Value :=
  .object [("id", .string r.id), ("permissions", .array (r.permissions.map Permission.toValue)),
    ("parent_roles", .array (r.parents.map .string)), ("active", .bool r.active)]

def ofParts? : Parts → Option Role
  | [id, permissions, parents, active] => do
    return {
      id := ← required Value.asString? id
      permissions := ← defaulted (Value.asList? Permission.ofValue?) [] permissions
      parents := ← defaulted (Value.asList? Value.asString?) [] parents
      active := ← defaulted Value.asBool? true active }
  | _ => none

def fieldNames : List String := ["id", "permissions", "parent_roles", "active"]

def ofValue? (v : Value) : Option Role := (v.parts? fieldNames).bind ofParts?

end Role

namespace RoleTree

mutual

def toValue : RoleTree → Value
  | .node role depth children =>
    .object
      [("role", role.toValue), ("children", .array (toValues children)), ("depth", .int depth)]

def toValues : List RoleTree → List Value
  | [] => []
  | t :: rest => toValue t :: toValues rest

end

end RoleTree

end RoleAccess
