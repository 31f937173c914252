import Mathlib.Data.List.Basic
import Std.Data.String.ToNat
import RoleAccess.Proofs.Text.GlobPieces
import RoleAccess.Role.Resolver

/-!
The keys under which a resolver keeps its results. A key tells the role it is about, and for a list
of ancestors the limit too, whatever characters the ids have; and the glob over a role covers all
its keys, because each character of a pattern also covers itself (`keys_apart_and_covered`).
-/

set_option autoImplicit false
set_option relaxedAutoImplicit false

namespace RoleAccess

theorem isDigit_of_mem_toString {n : Nat} {c : Char} (h : c ∈ (toString n).toList) :
    c.isDigit = true := by
  have hrepr : (toString n).toList = Nat.toDigits 10 n := by
    rw [Nat.toString_eq_repr, Nat.repr, String.toList_ofList]
  rw [hrepr] at h
  exact Nat.isDigit_of_mem_toDigits (by decide) (by decide) h

/-! ### The glob over a role -/

theorem covers_permissionsKey (id : String) :
    Text.Glob.covers (roleGlob id) (permissionsKey id) = true := by
  have hglob : roleGlob id = (roleTag id ++ ":") ++ "*" := by rw [String.append_assoc]; rfl
  have hkey : permissionsKey id = (roleTag id ++ ":") ++ "permissions" := by
    rw [String.append_assoc]
    rfl
  rw [hglob, hkey]
  exact Text.Glob.covers_append_star (by decide)

theorem covers_hierarchyKey (id : String) (limit : Nat) :
    Text.Glob.covers (roleGlob id) (hierarchyKey id limit) = true := by
  have hglob : roleGlob id = (roleTag id ++ ":") ++ "*" := by rw [String.append_assoc]; rfl
  have hkey : hierarchyKey id limit = (roleTag id ++ ":") ++ ("hierarchy:d" ++ toString limit) := by
    simp only [hierarchyKey, String.append_assoc]
    rfl
  rw [hglob, hkey]
  refine Text.Glob.covers_append_star ?_
  rw [String.toList_append, List.mem_append, not_or]
  refine ⟨by decide, fun h ↦ ?_⟩
  exact absurd (isDigit_of_mem_toString h) (by decide)

/-! ### Keys tell what they are about -/

theorem permissionsKey_injective {id other : String}
    (h : permissionsKey id = permissionsKey other) : id = other := by
  have h := congrArg String.toList h
  simp only [permissionsKey, roleTag, String.toList_append] at h
  exact String.toList_inj.mp (List.append_cancel_left (List.append_cancel_right h))

/-- Texts with a mark in them agree up to the mark, or one of the marks comes before the other. -/
theorem append_mark_cases {mark : Char} {a b x y : List Char}
    (h : a ++ mark :: x = b ++ mark :: y) :
    (a = b ∧ x = y) ∨ (∃ t, b = a ++ mark :: t ∧ x = t ++ mark :: y) ∨
      ∃ t, a = b ++ mark :: t ∧ y = t ++ mark :: x := by
  rcases List.append_eq_append_iff.mp h with ⟨t, rfl, ht⟩ | ⟨t, rfl, ht⟩
  · cases t with
    | nil => exact Or.inl (by simpa using ht)
    | cons c rest =>
      obtain ⟨rfl, rfl⟩ := List.cons.inj ht
      exact Or.inr (Or.inl ⟨rest, rfl, rfl⟩)
  · cases t with
    | nil => exact Or.inl (by simpa [eq_comm] using ht)
    | cons c rest =>
      obtain ⟨rfl, rfl⟩ := List.cons.inj ht
      exact Or.inr (Or.inr ⟨rest, rfl, rfl⟩)

/-- Texts whose last part is free of a mark agree in the parts before and after the last mark. -/
theorem append_mark_inj {mark : Char} {a b x y : List Char} (hx : mark ∉ x) (hy : mark ∉ y)
    (h : a ++ mark :: x = b ++ mark :: y) : a = b ∧ x = y := by
  rcases append_mark_cases h with heq | ⟨t, -, rfl⟩ | ⟨t, -, rfl⟩
  · exact heq
  · exact absurd (List.mem_append_right t List.mem_cons_self) hx
  · exact absurd (List.mem_append_right t List.mem_cons_self) hy

theorem not_mem_digits {n : Nat} {c : Char} (h : c.isDigit = false) : c ∉ (toString n).toList :=
  fun hmem ↦ by
    rw [isDigit_of_mem_toString hmem] at h
    cases h

theorem hierarchyKey_toList (id : String) (limit : Nat) :
    (hierarchyKey id limit).toList =
      ("role:".toList ++ id.toList ++ ":hierarchy:".toList) ++ 'd' :: (toString limit).toList := by
  simp [hierarchyKey, roleTag, String.toList_append]

theorem hierarchyKey_injective {id other : String} {limit bound : Nat}
    (h : hierarchyKey id limit = hierarchyKey other bound) : id = other ∧ limit = bound := by
  have h := congrArg String.toList h
  rw [hierarchyKey_toList, hierarchyKey_toList] at h
  obtain ⟨hhead, htail⟩ := append_mark_inj (not_mem_digits rfl) (not_mem_digits rfl) h
  refine ⟨String.toList_inj.mp (List.append_cancel_left (List.append_cancel_right hhead)), ?_⟩
  exact Nat.repr_injective (String.toList_inj.mp htail)

theorem permissionsKey_ne_hierarchyKey (id other : String) (limit : Nat) :
    permissionsKey id ≠ hierarchyKey other limit := by
  intro h
  have hlast := congrArg (fun s : String ↦ s.toList.getLast?) h
  have hleft : (permissionsKey id).toList.getLast? = some 's' := by
    simp [permissionsKey, String.toList_append, List.getLast?_append]
  simp only [hleft, hierarchyKey_toList, List.getLast?_append_of_ne_nil _ (List.cons_ne_nil _ _)]
    at hlast
  have hmem := List.mem_of_getLast? hlast.symm
  rw [List.mem_cons] at hmem
  rcases hmem with heq | hmem
  · exact absurd heq (by decide)
  · exact not_mem_digits rfl hmem

/-- No two results are kept under one key, whatever the ids and limits, and the glob over a role
covers both kinds of keys of the role. -/
theorem keys_apart_and_covered :
    Function.Injective permissionsKey ∧ Function.Injective2 hierarchyKey ∧
      (∀ id other limit, permissionsKey id ≠ hierarchyKey other limit) ∧
      ∀ id limit, Text.Glob.covers (roleGlob id) (permissionsKey id) = true ∧
        Text.Glob.covers (roleGlob id) (hierarchyKey id limit) = true := by
  refine ⟨?_, ?_, ?_, ?_⟩
  · exact fun id other h ↦ permissionsKey_injective h
  · exact fun id other limit bound h ↦ hierarchyKey_injective h
  · exact permissionsKey_ne_hierarchyKey
  · exact fun id limit ↦ ⟨covers_permissionsKey id, covers_hierarchyKey id limit⟩

/-- An id may read like a key or like a glob, over more than one line. -/
example : hierarchyKey "a" 1 = "role:a:hierarchy:d1" ∧
    permissionsKey "a:hierarchy:d1" = "role:a:hierarchy:d1:permissions" ∧
    Text.Glob.covers (roleGlob "*\n?[a]") (hierarchyKey "*\n?[a]" 10) = true := by
  decide

end RoleAccess
