/-!
Key globs: a star stands for any run of characters within one line, a question mark for one
character other than a line feed, and every other character for itself. Matching is done for all
ends of a text at once, so that many stars cost no more than as many characters; the result is the
one that the rules of the pattern give for the whole text.
-/

set_option autoImplicit false
set_option relaxedAutoImplicit false

namespace RoleAccess.Text.Glob

def isLineFeed (c : Char) : Bool := c == '\n'

/-- Whether a character of a pattern other than the star stands for a character. -/
def standsFor (p c : Char) : Bool := if p = '?' then !isLineFeed c else p == c

/-- Whether `accepts` takes what is left after some run of characters within the line. -/
def afterRun (accepts : List Char → Bool) : List Char → Bool
  | [] => accepts []
  | c :: rest => accepts (c :: rest) || (!isLineFeed c && afterRun accepts rest)

/-- Whether the whole text is matched by the pattern. -/
def accepts : List Char → List Char → Bool
  | [], text => text.isEmpty
  | p :: ps, text =>
    if p = '*' then afterRun (accepts ps) text
    else
      match text with
      | [] => false
      | c :: rest => standsFor p c && accepts ps rest

/-! ### All ends of a text at once -/

/-- An answer for every end of a text, from the whole text to the empty one. -/
abbrev Row := List Bool

/-- The answers that a function gives for the ends of a text. -/
def alongEnds (answer : List Char → Bool) : List Char → Row
  | [] => [answer []]
  | c :: rest => answer (c :: rest) :: alongEnds answer rest

/-- The row of a pattern with a star in front of one with this row. -/
def starRow : List Char → Row → Row
  | c :: rest, here :: below =>
    let later := starRow rest below
    (here || (!isLineFeed c && later.headD false)) :: later
  | _, row => row

/-- The row of a pattern with another character in front of one with this row. -/
def charRow (p : Char) : List Char → Row → Row
  | c :: rest, _ :: below => (standsFor p c && below.headD false) :: charRow p rest below
  | _, _ => [false]

/-- Which ends of a text are matched by the pattern. -/
def rowOf (text : List Char) : List Char → Row
  | [] => alongEnds List.isEmpty text
  | p :: ps => if p = '*' then starRow text (rowOf text ps) else charRow p text (rowOf text ps)

/-- Whether the key is one of those the pattern names. -/
def covers (pattern key : String) : Bool := (rowOf key.toList pattern.toList).headD false

theorem head_alongEnds (answer : List Char → Bool) (text : List Char) :
    (alongEnds answer text).headD false = answer text := by
  cases text <;> rfl

theorem starRow_alongEnds (answer : List Char → Bool) (text : List Char) :
    starRow text (alongEnds answer text) = alongEnds (afterRun answer) text := by
  induction text with
  | nil => rfl
  | cons c rest ih => rw [alongEnds, starRow, ih, head_alongEnds, alongEnds, afterRun]

theorem charRow_alongEnds {p : Char} (not_star : p ≠ '*') (ps text : List Char) :
    charRow p text (alongEnds (accepts ps) text) = alongEnds (accepts (p :: ps)) text := by
  induction text with
  | nil => simp [alongEnds, charRow, accepts, not_star]
  | cons c rest ih =>
    rw [alongEnds, charRow, ih, head_alongEnds, alongEnds]
    simp [accepts, not_star]

theorem afterRun_accepts (ps : List Char) : afterRun (accepts ps) = accepts ('*' :: ps) := by
  funext text
  cases text <;> simp [accepts]

theorem rowOf_eq_alongEnds (text ps : List Char) : rowOf text ps = alongEnds (accepts ps) text := by
  induction ps with
  | nil => rfl
  | cons p ps ih =>
    rw [rowOf, ih]
    by_cases star : p = '*'
    · subst star
      rw [if_pos rfl, starRow_alongEnds, afterRun_accepts]
    · rw [if_neg star, charRow_alongEnds star]

theorem covers_eq_accepts (pattern key : String) :
    covers pattern key = accepts pattern.toList key.toList := by
  rw [covers, rowOf_eq_alongEnds, head_alongEnds]

end RoleAccess.Text.Glob
