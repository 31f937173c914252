import Mathlib.Data.List.Forall2
import RoleAccess.Text.Glob

/-!
What a glob describes, told from the text. A text is described if it can be cut into pieces, one for
each character of the pattern, such that a star has any piece, a question mark a piece of one
character, and every other character itself (`Describes`). Matching works within the lines, so of
the texts described it takes just those whose line feeds all stand in the pattern, which are those
with as many line feeds as the pattern (`covers_iff`).
-/

set_option autoImplicit false
set_option relaxedAutoImplicit false

namespace RoleAccess.Text.Glob

/-- Whether a character of a pattern stands for a piece of text. -/
def StandsForPiece (p : Char) (piece : List Char) : Prop :=
  if p = '*' then True else if p = '?' then piece.length = 1 else piece = [p]

/-- The text falls into pieces that the characters of the pattern stand for one by one. -/
def Describes (pattern text : List Char) : Prop :=
  ∃ pieces : List (List Char), pieces.flatten = text ∧ List.Forall₂ StandsForPiece pattern pieces

def lineFeeds (text : List Char) : Nat := text.count '\n'

/-- The glob describes the key, and all line feeds of the key stand in the pattern. -/
def Takes (pattern key : String) : Prop :=
  Describes pattern.toList key.toList ∧ lineFeeds key.toList = lineFeeds pattern.toList

variable {p : Char} {ps text : List Char}

/-! ### One character of a pattern -/

theorem describes_nil_iff : Describes [] text ↔ text = [] := by
  constructor
  · rintro ⟨pieces, rfl, hpieces⟩
    rw [List.forall₂_nil_left_iff.mp hpieces]
    rfl
  · rintro rfl
    exact ⟨[], rfl, .nil⟩

theorem describes_cons_iff : Describes (p :: ps) text ↔
    ∃ piece rest, text = piece ++ rest ∧ StandsForPiece p piece ∧ Describes ps rest := by
  constructor
  · rintro ⟨pieces, rfl, hpieces⟩
    obtain ⟨piece, rest, hpiece, hrest, rfl⟩ := List.forall₂_cons_left_iff.mp hpieces
    exact ⟨piece, rest.flatten, List.flatten_cons, hpiece, rest, rfl, hrest⟩
  · rintro ⟨piece, rest, rfl, hpiece, pieces, rfl, hpieces⟩
    exact ⟨piece :: pieces, List.flatten_cons, .cons hpiece hpieces⟩

theorem standsForPiece_self (c : Char) : StandsForPiece c [c] := by
  unfold StandsForPiece
  split
  · trivial
  · split <;> rfl

/-- Every text describes itself, tokens in it or not. -/
theorem describes_self (text : List Char) : Describes text text := by
  induction text with
  | nil => exact describes_nil_iff.mpr rfl
  | cons c rest ih => exact describes_cons_iff.mpr ⟨[c], rest, rfl, standsForPiece_self c, ih⟩

theorem describes_star (text : List Char) : Describes ['*'] text :=
  ⟨[text], List.flatten_singleton, .cons trivial .nil⟩

theorem Describes.append {qs more : List Char} (h : Describes ps text) (h' : Describes qs more) :
    Describes (ps ++ qs) (text ++ more) := by
  obtain ⟨pieces, rfl, hpieces⟩ := h
  obtain ⟨pieces', rfl, hpieces'⟩ := h'
  exact ⟨pieces ++ pieces', List.flatten_append, List.rel_append hpieces hpieces'⟩

/-! ### Line feeds -/

theorem lineFeeds_append (before after : List Char) :
    lineFeeds (before ++ after) = lineFeeds before + lineFeeds after :=
  List.count_append

theorem lineFeeds_eq_zero_iff : lineFeeds text = 0 ↔ '\n' ∉ text :=
  List.count_eq_zero

/-- A line feed in front of a pattern is one in the text. -/
theorem lineFeeds_le_of_standsForPiece {piece : List Char} (h : StandsForPiece p piece) :
    lineFeeds [p] ≤ lineFeeds piece := by
  unfold StandsForPiece at h
  split at h
  next hstar => simp [hstar, lineFeeds]
  next =>
    split at h
    next hmark => simp [hmark, lineFeeds]
    next => exact h ▸ Nat.le_refl _

theorem Describes.lineFeeds_le (h : Describes ps text) : lineFeeds ps ≤ lineFeeds text := by
  induction ps generalizing text with
  | nil => exact Nat.zero_le _
  | cons p ps ih =>
    obtain ⟨piece, rest, rfl, hpiece, hrest⟩ := describes_cons_iff.mp h
    rw [← List.singleton_append, lineFeeds_append, lineFeeds_append]
    exact Nat.add_le_add (lineFeeds_le_of_standsForPiece hpiece) (ih hrest)

/-! ### Matching -/

theorem isLineFeed_eq_false_iff {c : Char} : isLineFeed c = false ↔ c ≠ '\n' :=
  beq_eq_false_iff_ne

theorem afterRun_iff {accepts : List Char → Bool} : afterRun accepts text = true ↔
    ∃ run rest, text = run ++ rest ∧ '\n' ∉ run ∧ accepts rest = true := by
  induction text with
  | nil =>
    constructor
    · exact fun h ↦ ⟨[], [], rfl, List.not_mem_nil, h⟩
    · rintro ⟨run, rest, hsplit, -, h⟩
      obtain ⟨-, rfl⟩ := List.append_eq_nil_iff.mp hsplit.symm
      exact h
  | cons c tail ih =>
    rw [afterRun, Bool.or_eq_true, Bool.and_eq_true, Bool.not_eq_true', isLineFeed_eq_false_iff, ih]
    constructor
    · rintro (h | ⟨hc, run, rest, rfl, hrun, h⟩)
      · exact ⟨[], c :: tail, rfl, List.not_mem_nil, h⟩
      · exact ⟨c :: run, rest, rfl, by simp [hrun, Ne.symm hc], h⟩
    · rintro ⟨run, rest, hsplit, hrun, h⟩
      cases run with
      | nil =>
        obtain rfl : c :: tail = rest := hsplit
        exact Or.inl h
      | cons first run =>
        obtain ⟨rfl, rfl⟩ := List.cons.inj hsplit
        simp only [List.mem_cons, not_or] at hrun
        exact Or.inr ⟨Ne.symm hrun.1, run, rest, rfl, hrun.2, h⟩

theorem accepts_star_cons (ps text : List Char) :
    accepts ('*' :: ps) text = afterRun (accepts ps) text :=
  (congrFun (afterRun_accepts ps) text).symm

theorem accepts_cons_of_ne_star (hstar : p ≠ '*') : accepts (p :: ps) text = true ↔
    ∃ c rest, text = c :: rest ∧ standsFor p c = true ∧ accepts ps rest = true := by
  cases text <;> simp [accepts, hstar]

/-- A pattern of which one character has been taken off accepts what the piece of the character and
the rest of the pattern make up, as far as the piece stays within the line. -/
theorem accepts_cons_iff : accepts (p :: ps) text = true ↔
    ∃ piece rest, text = piece ++ rest ∧ StandsForPiece p piece ∧
      lineFeeds piece = lineFeeds [p] ∧ accepts ps rest = true := by
  by_cases hstar : p = '*'
  · subst hstar
    rw [accepts_star_cons, afterRun_iff]
    simp only [StandsForPiece, if_true, true_and, ← lineFeeds_eq_zero_iff]
    rfl
  · rw [accepts_cons_of_ne_star hstar]
    unfold standsFor StandsForPiece
    by_cases hmark : p = '?'
    · subst hmark
      simp only [if_true, if_neg hstar, Bool.not_eq_true', isLineFeed_eq_false_iff]
      constructor
      · rintro ⟨c, rest, rfl, hc, h⟩
        refine ⟨[c], rest, rfl, rfl, ?_, h⟩
        exact lineFeeds_eq_zero_iff.mpr (by simpa using Ne.symm hc)
      · rintro ⟨piece, rest, rfl, hlength, hfeeds, h⟩
        obtain ⟨c, rfl⟩ := List.length_eq_one_iff.mp hlength
        refine ⟨c, rest, rfl, ?_, h⟩
        have hnone : '\n' ∉ [c] := lineFeeds_eq_zero_iff.mp hfeeds
        exact fun hc ↦ hnone (List.mem_singleton.mpr hc.symm)
    · simp only [if_neg hstar, if_neg hmark, beq_iff_eq]
      constructor
      · rintro ⟨c, rest, rfl, rfl, h⟩
        exact ⟨[p], rest, rfl, rfl, rfl, h⟩
      · rintro ⟨piece, rest, rfl, rfl, -, h⟩
        exact ⟨p, rest, rfl, rfl, h⟩

/-- Matching takes the texts described that have no line feed more than the pattern. -/
theorem accepts_iff :
    accepts ps text = true ↔ Describes ps text ∧ lineFeeds text = lineFeeds ps := by
  induction ps generalizing text with
  | nil =>
    rw [describes_nil_iff, accepts, List.isEmpty_iff]
    exact ⟨fun h ↦ ⟨h, h ▸ rfl⟩, And.left⟩
  | cons p ps ih =>
    rw [accepts_cons_iff, describes_cons_iff]
    have hsplit : lineFeeds (p :: ps) = lineFeeds [p] + lineFeeds ps := lineFeeds_append [p] ps
    constructor
    · rintro ⟨piece, rest, rfl, hpiece, hfeeds, h⟩
      obtain ⟨hrest, hfeeds'⟩ := ih.mp h
      refine ⟨⟨piece, rest, rfl, hpiece, hrest⟩, ?_⟩
      rw [lineFeeds_append, hsplit, hfeeds, hfeeds']
    -- Neither the piece nor the rest falls short of its part of the pattern, so both are even.
    · rintro ⟨⟨piece, rest, rfl, hpiece, hrest⟩, hfeeds⟩
      have hle := lineFeeds_le_of_standsForPiece hpiece
      have hle' := hrest.lineFeeds_le
      rw [lineFeeds_append, hsplit] at hfeeds
      exact ⟨piece, rest, rfl, hpiece, by omega, ih.mpr ⟨hrest, by omega⟩⟩

theorem covers_iff {pattern key : String} : covers pattern key = true ↔ Takes pattern key := by
  rw [covers_eq_accepts, accepts_iff, Takes]

/-- What begins as the pattern does, and goes on within the line where the pattern ends in a
star. -/
theorem covers_append_star {head tail : String} (h : '\n' ∉ tail.toList) :
    covers (head ++ "*") (head ++ tail) = true := by
  rw [covers_iff, Takes, String.toList_append, String.toList_append, lineFeeds_append,
    lineFeeds_append, lineFeeds_eq_zero_iff.mpr h]
  exact ⟨(describes_self head.toList).append (describes_star tail.toList), rfl⟩

/-! ### Patterns that begin without a token -/

/-- What a text in front of a star covers, if there is neither a star nor a question mark in it. -/
theorem accepts_append_star_iff {head : List Char} (hstar : '*' ∉ head) (hmark : '?' ∉ head) :
    accepts (head ++ ['*']) text = true ↔ ∃ rest, text = head ++ rest ∧ '\n' ∉ rest := by
  induction head generalizing text with
  | nil =>
    rw [List.nil_append, accepts_star_cons, afterRun_iff]
    simp only [accepts, List.isEmpty_iff, List.nil_append]
    constructor
    · rintro ⟨run, rest, rfl, hrun, rfl⟩
      exact ⟨run, List.append_nil run, hrun⟩
    · rintro ⟨rest, rfl, hrest⟩
      exact ⟨text, [], (List.append_nil text).symm, hrest, rfl⟩
  | cons c head ih =>
    simp only [List.mem_cons, not_or] at hstar hmark
    rw [List.cons_append, accepts_cons_of_ne_star (Ne.symm hstar.1)]
    simp only [standsFor, if_neg (Ne.symm hmark.1), beq_iff_eq, ih hstar.2 hmark.2,
      List.cons_append]
    constructor
    · rintro ⟨_, _, rfl, rfl, rest, rfl, hrest⟩
      exact ⟨rest, rfl, hrest⟩
    · rintro ⟨rest, rfl, hrest⟩
      exact ⟨c, head ++ rest, rfl, rfl, rest, rfl, hrest⟩

end RoleAccess.Text.Glob
