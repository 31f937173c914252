/-!
Cutting a text at a separator: at its first occurrence, or at every one.
-/

set_option autoImplicit false
set_option relaxedAutoImplicit false

namespace RoleAccess.Text

/-- The parts before and after the first occurrence of `sep`. -/
def cut (sep : List Char) : List Char → Option (List Char × List Char)
  | [] => if sep = [] then some ([], []) else none
  | c :: rest =>
    if sep.isPrefixOf (c :: rest) then some ([], (c :: rest).drop sep.length)
    else (cut sep rest).map fun (before, after) ↦ (c :: before, after)

/-- Whether `sep` occurs in the text. -/
def occursIn (sep s : List Char) : Bool := (cut sep s).isSome

theorem cut_eq_append {sep s before after : List Char} (h : cut sep s = some (before, after)) :
    s = before ++ sep ++ after := by
  induction s generalizing before after with
  | nil =>
    unfold cut at h
    split at h <;> simp_all
  | cons c rest ih =>
    unfold cut at h
    split at h
    next hp =>
      obtain ⟨t, ht⟩ := List.isPrefixOf_iff_prefix.mp hp
      simp only [Option.some.injEq, Prod.mk.injEq] at h
      obtain ⟨rfl, rfl⟩ := h
      rw [← ht]
      simp
    next =>
      obtain ⟨⟨b, a⟩, hcut, heq⟩ := Option.map_eq_some_iff.mp h
      simp only [Prod.mk.injEq] at heq
      obtain ⟨rfl, rfl⟩ := heq
      simp [ih hcut]

theorem length_lt_of_cut {sep s before after : List Char} (hsep : sep ≠ [])
    (h : cut sep s = some (before, after)) : after.length < s.length := by
  have hpos := List.length_pos_iff.mpr hsep
  rw [cut_eq_append h]
  simp only [List.length_append]
  omega

/-- The parts between the occurrences of a separator, which must not be empty. -/
def splitAll (sep : List Char) (hsep : sep ≠ []) (s : List Char) : List (List Char) :=
  match h : cut sep s with
  | none => [s]
  | some (before, after) =>
    have := length_lt_of_cut hsep h
    before :: splitAll sep hsep after
termination_by s.length

end RoleAccess.Text
