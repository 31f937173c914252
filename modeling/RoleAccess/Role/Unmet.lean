/-!
Counting what a walk over names has not met. The count falls whenever a listed name is met for the
first time, by as many times as the name is listed, which bounds the length of the walk.
-/

set_option autoImplicit false
set_option relaxedAutoImplicit false

namespace RoleAccess

/-- How many entries of a list of names have not been met. -/
def unmet (names met : List String) : Nat := (names.filter (!met.contains ·)).length

theorem unmet_cons_add_count {met : List String} {name : String} (h : met.contains name = false)
    (names : List String) : unmet names (name :: met) + names.count name = unmet names met := by
  induction names with
  | nil => rfl
  | cons other rest ih =>
    simp only [unmet, List.filter_cons, List.count_cons] at ih ⊢
    by_cases heq : other = name
    · subst heq
      have hm : (other :: met).contains other = true := by simp
      simp only [hm, h, Bool.not_true, Bool.not_false, Bool.false_eq_true, if_true, if_false,
        List.length_cons, beq_self_eq_true]
      omega
    · have hm : (name :: met).contains other = met.contains other := by
        simp [heq]
      simp only [hm, beq_iff_eq, heq, if_false, Nat.add_zero]
      split
      · simp only [List.length_cons]
        omega
      · exact ih

theorem unmet_cons_lt {names met : List String} {name : String} (h : met.contains name = false)
    (hmem : name ∈ names) : unmet names (name :: met) < unmet names met := by
  have := unmet_cons_add_count h names
  have := List.count_pos_iff.mpr hmem
  omega

end RoleAccess
