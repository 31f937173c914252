import RoleAccess.Permission.Record
import RoleAccess.Permission.Short
import RoleAccess.Role.Roster
import RoleAccess.Toml.Reader

/-!
Roles files: TOML documents with a list `roles`, whose permissions are given in short or in full.
-/

set_option autoImplicit false
set_option relaxedAutoImplicit false

namespace RoleAccess

namespace Toml

/-- The one field of the object that stands for a date or time. -/
def datetimeField : String := "$__toml_private_datetime"

mutual

/-- A TOML value as a plain one. -/
def toValue : Toml → Value
  | .string s => .string s
  | .int n => .int n
  | .float x => Value.ofBinary64 x
  | .tooLarge => .null
  | .bool b => .bool b
  | .datetime d => .object [(datetimeField, .string d.completed.write)]
  | .array items => .array (toValues items)
  | .table fields => .object (Fields.ofList (toFields fields))

def toValues : List Toml → List Value
  | [] => []
  | v :: rest => toValue v :: toValues rest

def toFields : List (String × Toml) → List (String × Value)
  | [] => []
  | (name, v) :: rest => (name, toValue v) :: toFields rest

end

def asString? : Toml → Option String
  | .string s => some s
  | _ => none

def asBool? : Toml → Option Bool
  | .bool b => some b
  | _ => none

def asList? {α : Type} (read : Toml → Option α) : Toml → Option (List α)
  | .array items => items.mapM read
  | _ => none

/-- The fields of a table. A date or time is read as a table with one field. -/
def asFields? (v : Toml) : Option Fields :=
  match v with
  | .table _ | .datetime _ => v.toValue.asFields?
  | _ => none

/-- The given parts of a record with these names, from a table or from a list in their order. -/
def parts? (names : List String) : Toml → Option (List (Option Toml))
  | .table fields => some (names.map fun name ↦ List.lookup name fields)
  | .array items =>
    if names.length < items.length then none
    else some (items.map some ++ List.replicate (names.length - items.length) none)
  | _ => none

/-- A list cut after so many items; other values stay. -/
def firstItems (n : Nat) : Toml → Toml
  | .array items => .array (items.take n)
  | v => v

/-- The least and the greatest integer that can be passed over. -/
def intRange : Int × Int := (-Nat.pow 2 127, Nat.pow 2 128 - 1)

/-- The least and the greatest integer that a permission can hold. -/
def heldIntRange : Int × Int := (-Nat.pow 2 63, Nat.pow 2 64 - 1)

end Toml

namespace Permission

open Parts

def ofTomlParts? : List (Option Toml) → Option Permission
  | [id, resource, action, scope, conditions, metadata] => do
    return {
      id := ← required Toml.asString? id
      resource := ← required Toml.asString? resource
      action := ← required Toml.asString? action
      scope := ← given Toml.asString? scope
      conditions := ← given Toml.asFields? conditions
      metadata := ← given Toml.asFields? metadata }
  | _ => none

/-- A permission in full. It may hold numbers of its own. -/
def ofToml? (v : Toml) : Option Permission :=
  if v.numbersWithin Toml.heldIntRange.1 Toml.heldIntRange.2 then
    (v.parts? fieldNames).bind ofTomlParts?
  else none

end Permission

/-- A permission in a roles file. -/
inductive PermissionEntry where
  | short (text : String)
  | full (permission : Permission)

namespace PermissionEntry

def ofToml? : Toml → Option PermissionEntry
  | .string s => some (.short s)
  | v => (Permission.ofToml? v).map .full

def permission (d : Dialect) : PermissionEntry → Except ConfigError Permission
  | .short text => d.permissionOf text
  | .full permission => .ok permission

end PermissionEntry

/-- A role in a roles file. -/
structure RoleEntry where
  id : String
  parents : List String
  permissions : List PermissionEntry
  active : Bool

namespace RoleEntry

open Parts

def fieldNames : List String := ["id", "parent_roles", "permissions", "active"]

def ofParts? : List (Option Toml) → Option RoleEntry
  | [id, parents, permissions, active] => do
    return {
      id := ← required Toml.asString? id
      parents := ← defaulted (Toml.asList? Toml.asString?) [] parents
      permissions := ← defaulted (Toml.asList? PermissionEntry.ofToml?) [] permissions
      active := ← defaulted Toml.asBool? true active }
  | _ => none

def ofToml? (v : Toml) : Option RoleEntry := (v.parts? fieldNames).bind ofParts?

def role (d : Dialect) (e : RoleEntry) : Except ConfigError Role := do
  return ⟨e.id, ← e.permissions.mapM (PermissionEntry.permission d), e.parents, e.active⟩

/-- The name of the list of roles in a document. -/
def listName : String := "roles"

/-- The fields of a document without what nobody looks at: the items that follow the parts of a role
given as a list. -/
def looked (fields : List (String × Toml)) : List (String × Toml) :=
  fields.map fun (name, v) ↦
    match v with
    | .array roles =>
      if name = listName then (name, .array (roles.map (Toml.firstItems fieldNames.length)))
      else (name, v)
    | _ => (name, v)

/-- The roles that a document lists; without a list there are none. -/
def listOf? : Toml → Option (List RoleEntry)
  | .table fields =>
    let fields := looked fields
    if (Toml.table fields).numbersWithin Toml.intRange.1 Toml.intRange.2 then
      defaulted (Toml.asList? ofToml?) [] (List.lookup listName fields)
    else none
  | _ => none

end RoleEntry

/-- The roster of a roles file. Of two roles with one id the later counts. That the file has the
right form is checked before any permission string is. -/
def Roster.ofFile (d : Dialect) (text : String) : Except ConfigError Roster :=
  match (Toml.read? false text).bind RoleEntry.listOf? with
  | none => .error (.load .malformed)
  | some entries => do
    return Roster.ofList (← entries.mapM (RoleEntry.role d))

end RoleAccess
