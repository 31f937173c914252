import RoleAccess.Role.Resolver

/-!
Records survive being written as values: a permission, a role, and a list of either is read back
from its value as it was. A value may spell a record in other ways than it is written: as a list of
its parts, with nulls, with fields that do not count, or without parts that stand for a default.
Read and written again it gives the same record all the same, so what a resolver keeps does not
drift (`Resolver.kept_read_back`).
-/

set_option autoImplicit false
set_option relaxedAutoImplicit false

namespace RoleAccess

theorem Fields.find?_append (a b : List (String × Value)) (name : String) :
    Fields.find? (a ++ b) name = (Fields.find? a name).or (Fields.find? b name) :=
  List.lookup_append

theorem Fields.find?_whenSome (name other : String) (v : Option Value) :
    Fields.find? (Fields.whenSome name v) other = if other = name then v else none := by
  cases v with
  | none => simp [Fields.whenSome, Fields.find?]
  | some v =>
    simp only [Fields.whenSome, Fields.find?, List.lookup_cons, List.lookup_nil]
    by_cases h : other = name
    · simp [h]
    · simp [beq_eq_false_iff_ne.mpr h, h]

theorem Value.asList?_map {α : Type} {write : α → Value} {read : Value → Option α}
    (h : ∀ a, read (write a) = some a) (items : List α) :
    Value.asList? read (.array (items.map write)) = some items := by
  simp only [Value.asList?]
  induction items with
  | nil => rfl
  | cons a rest ih => simp [h, ih]

theorem Permission.ofValue?_toValue (p : Permission) : ofValue? p.toValue = some p := by
  obtain ⟨id, resource, action, scope, conditions, metadata⟩ := p
  have hparts : Value.parts? fieldNames
      (toValue ⟨id, resource, action, scope, conditions, metadata⟩) =
      some [some (.string id), some (.string resource), some (.string action),
        scope.map .string, conditions.map .object, metadata.map .object] := by
    simp only [toValue, Value.parts?, fieldNames, List.map_cons, List.map_nil,
      Fields.find?_append, Fields.find?_whenSome]
    simp [Fields.find?, List.lookup_cons]
  rw [ofValue?, hparts]
  cases scope <;> cases conditions <;> cases metadata <;> rfl

theorem Role.ofValue?_toValue (r : Role) : ofValue? r.toValue = some r := by
  have hparts : Value.parts? fieldNames r.toValue =
      some [some (.string r.id), some (.array (r.permissions.map Permission.toValue)),
        some (.array (r.parents.map .string)), some (.bool r.active)] := by
    simp [toValue, Value.parts?, fieldNames, Fields.find?, List.lookup_cons]
  have hpermissions := Value.asList?_map Permission.ofValue?_toValue r.permissions
  have hstring : ∀ s : String, Value.asString? (.string s) = some s := fun _ ↦ rfl
  have hparents := Value.asList?_map hstring r.parents
  rw [ofValue?, hparts]
  simp [ofParts?, Parts.required, Parts.defaulted, hpermissions, hparents, Value.asString?,
    Value.asBool?]

/-- Where reading undoes writing, a value that is read and written again reads as before. -/
theorem Value.read_rewritten {α : Type} {write : α → Value} {read : Value → Option α}
    (h : ∀ a, read (write a) = some a) (v : Value) :
    ((read v).map write).bind read = read v := by
  cases read v with
  | none => rfl
  | some a => exact h a

/-- What a resolver keeps about a role is read back as it was, whatever the lists of ancestors and
of permissions hold; and any value at all reads as the same role or permission, or as none, once it
has been read and written again. -/
theorem Resolver.kept_read_back (r : Resolver) (id : String) (limit : Nat) :
    (∀ roles, (r.keptRoles id limit).decode ((r.keptRoles id limit).encode roles) = some roles) ∧
      (∀ permissions, (r.keptPermissions id).decode ((r.keptPermissions id).encode permissions) =
        some permissions) ∧
      (∀ v, ((Role.ofValue? v).map Role.toValue).bind Role.ofValue? = Role.ofValue? v) ∧
      ∀ v, ((Permission.ofValue? v).map Permission.toValue).bind Permission.ofValue? =
        Permission.ofValue? v := by
  refine ⟨?_, ?_, ?_, ?_⟩
  · exact Value.asList?_map Role.ofValue?_toValue
  · exact Value.asList?_map Permission.ofValue?_toValue
  · exact Value.read_rewritten Role.ofValue?_toValue
  · exact Value.read_rewritten Permission.ofValue?_toValue

/-- A role given by its parts, with one permission that has no scope and an empty set of
conditions. -/
example :
    (Role.ofValue? (.array [.string "reader", .array [.array [.string "p", .string "users",
      .string "read", .null, .object []]]])).map Role.toValue =
    some (.object [("id", .string "reader"),
      ("permissions", .array [.object [("id", .string "p"), ("resource", .string "users"),
        ("action", .string "read"), ("conditions", .object [])]]),
      ("parent_roles", .array []), ("active", .bool true)]) := by rfl

end RoleAccess
