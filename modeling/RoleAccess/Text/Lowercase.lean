import RoleAccess.Text.CaseTable

/-!
Lowercase of a text. Every capital goes to its partner, with two exceptions: the dotted capital I
becomes an i and a dot above, and capital sigma becomes the final form exactly at the end of a
word, which is the one place where a letter depends on its neighbours.
-/

set_option autoImplicit false
set_option relaxedAutoImplicit false

namespace RoleAccess.Text

def isCased (c : Char) : Bool := casedSpans.any (·.contains c.toNat)

def isCaseIgnorable (c : Char) : Bool := caseIgnorableSpans.any (·.contains c.toNat)

/-- Whether a cased letter comes next, once ignorable characters are passed over. -/
def meetsCased (s : List Char) : Bool :=
  match s.dropWhile isCaseIgnorable with
  | [] => false
  | c :: _ => isCased c

/-- Lowercase of a character other than capital sigma. -/
def lowerChar (c : Char) : List Char :=
  if c.toNat = 0x130 then ['i', Char.ofNat 0x307]
  else
    match lowerRuns.find? (·.contains c.toNat) with
    | some run => [Char.ofNat (run.partner c.toNat)]
    | none => [c]

def capitalSigma : Char := Char.ofNat 0x3A3

/-- The final form after a letter of the word (`before` is read backwards) with none following. -/
def lowerSigma (before after : List Char) : Char :=
  if meetsCased before && !meetsCased after then Char.ofNat 0x3C2 else Char.ofNat 0x3C3

/-- Lowercase of the rest of a text whose beginning, read backwards, is `before`. -/
def lowerAfter (before : List Char) : List Char → List Char
  | [] => []
  | c :: rest =>
    (if c = capitalSigma then [lowerSigma before rest] else lowerChar c) ++
      lowerAfter (c :: before) rest

def lower (s : List Char) : List Char := lowerAfter [] s

/-- The text in lowercase. -/
def lowered (s : String) : String := String.ofList (lower s.toList)

end RoleAccess.Text
