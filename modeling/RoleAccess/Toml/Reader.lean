import RoleAccess.Toml.Outline
import RoleAccess.Toml.Scalar

/-!
Reading a TOML document: lines with a table header or with a key and its value, and comments.
Brackets nest to a fixed depth.
-/

set_option autoImplicit false
set_option relaxedAutoImplicit false

namespace RoleAccess.Toml

open Text

/-- The number of arrays and inline tables that may be open at once. -/
def nestingLimit : Nat := 80

def skipSpaces (s : List Char) : List Char := s.dropWhile isSpace

/-- Passes over blanks, line breaks and comments. `comment` tells whether a comment goes on. -/
def skipLayout (comment : Bool) : List Char → Option (List Char)
  | [] => some []
  | '\n' :: rest => skipLayout false rest
  | '\r' :: '\n' :: rest => skipLayout false rest
  | c :: rest =>
    if comment then if isPlain c then skipLayout true rest else none
    else if isSpace c then skipLayout false rest
    else if c = '#' then skipLayout true rest
    else some (c :: rest)

/-- Passes over the rest of a line, in which only blanks and a comment may stand. -/
def skipLine (comment : Bool) : List Char → Option (List Char)
  | [] => some []
  | '\n' :: rest => some rest
  | '\r' :: '\n' :: rest => some rest
  | c :: rest =>
    if comment then if isPlain c then skipLine true rest else none
    else if isSpace c then skipLine false rest
    else if c = '#' then skipLine true rest
    else none

/-! ### Keys -/

def isBareKeyChar (c : Char) : Bool :=
  isDigit c || ('a' ≤ c && c ≤ 'z') || ('A' ≤ c && c ≤ 'Z') || c == '_' || c == '-'

/-- Reads one part of a key: a bare word, or text in single quotes. -/
def readKeyPart (s : List Char) : Option (String × List Char) :=
  match s with
  | [] => none
  | c :: rest =>
    if c = '"' || c = apostrophe then readLine c rest
    else
      let word := s.takeWhile isBareKeyChar
      if word.isEmpty then none else some (String.ofList word, s.dropWhile isBareKeyChar)

/-- The number of parts that a dotted key may have. -/
def keyLimit : Nat := 80

/-- Reads a dotted key and the blanks after it: the parts before the last, and the last. It may have
`limit` parts. -/
def readKey (limit : Nat) (s : List Char) : Option (List String × String × List Char) :=
  match limit with
  | 0 => none
  | limit + 1 => do
    let (part, rest) ← readKeyPart (skipSpaces s)
    match skipSpaces rest with
    | '.' :: rest =>
      let (path, key, rest) ← readKey limit rest
      return (part :: path, key, rest)
    | rest => return ([], part, rest)

/-! ### Values -/

mutual

/-- Reads a value. Each call spends one unit of `fuel`, and a text of n characters never needs more
than 2n + 2 of them; `depth` counts the brackets that may still be opened. -/
def readValue (fuel depth : Nat) (s : List Char) : Option (Toml × List Char) :=
  match fuel with
  | 0 => none
  | fuel + 1 =>
    match s with
    | [] => none
    | '[' :: rest =>
      match depth with
      | 0 => none
      | depth + 1 => (readItems fuel depth rest).map fun (items, rest) ↦ (.array items, rest)
    | '\x7b' :: rest =>
      match depth with
      | 0 => none
      | depth + 1 =>
        (readFields fuel depth [] rest).map fun (entries, rest) ↦
          (.table (entriesToToml entries), rest)
    | c :: rest =>
      if c = '"' || c = apostrophe then
        (readQuoted c rest).map fun (text, rest) ↦ (.string text, rest)
      else readScalar s

/-- Reads the items of an array and its closing bracket. -/
def readItems (fuel depth : Nat) (s : List Char) : Option (List Toml × List Char) :=
  match fuel with
  | 0 => none
  | fuel + 1 => do
    match ← skipLayout false s with
    | ']' :: rest => return ([], rest)
    | s =>
      let (item, rest) ← readValue fuel depth s
      match ← skipLayout false rest with
      | ']' :: rest => return ([item], rest)
      | ',' :: rest =>
        let (items, rest) ← readItems fuel depth rest
        return (item :: items, rest)
      | _ => none

/-- Reads the fields of an inline table and its closing brace, after those already there. Blanks,
line breaks and comments may stand around everything but within a key. -/
def readFields (fuel depth : Nat) (entries : Entries) (s : List Char) :
    Option (Entries × List Char) :=
  match fuel with
  | 0 => none
  | fuel + 1 => do
    match ← skipLayout false s with
    | '\x7d' :: rest => return (entries, rest)
    | s =>
      let (path, key, rest) ← readKey keyLimit s
      let '=' :: rest := (← skipLayout false rest) | none
      let (v, rest) ← readValue fuel depth (← skipLayout false rest)
      let entries ← Entries.addValue false path key v .header entries
      match ← skipLayout false rest with
      | '\x7d' :: rest => return (entries, rest)
      | ',' :: rest => readFields fuel depth entries rest
      | _ => none

end

/-! ### Documents -/

/-- Reads one line with a header or a value, and adds it to the outline. -/
def readStatement (o : Outline) (s : List Char) : Option (Outline × List Char) :=
  match s with
  | '[' :: '[' :: rest => do
    let (path, key, rest) ← readKey keyLimit rest
    let ']' :: ']' :: rest := rest | none
    return (← o.openItem path key, ← skipLine false rest)
  | '[' :: rest => do
    let (path, key, rest) ← readKey keyLimit rest
    let ']' :: rest := rest | none
    return (← o.openTable path key, ← skipLine false rest)
  | s => do
    let (path, key, rest) ← readKey keyLimit s
    let '=' :: rest := rest | none
    let (v, rest) ← readValue (2 * s.length + 2) nestingLimit (skipSpaces rest)
    return (← o.addValue path key v, ← skipLine false rest)

/-- Reads lines up to the end. Every line spends one unit of fuel. -/
def readStatements : Nat → Outline → List Char → Option Outline
  | 0, _, _ => none
  | fuel + 1, o, s => do
    match ← skipLayout false s with
    | [] => return o
    | s =>
      let (o, rest) ← readStatement o s
      readStatements fuel o rest

/-- The text without a byte order mark at its start. -/
def withoutMark (text : String) : String :=
  match text.toList with
  | [] => ""
  | c :: rest => if c.toNat = 0xFEFF then String.ofList rest else text

/-- The table that a TOML text stands for, if it is well formed. With `extendImplied`, dotted keys
may add to tables that are only implied by a header. -/
def read? (extendImplied : Bool) (text : String) : Option Toml :=
  let s := (withoutMark text).toList
  (readStatements (s.length + 1) { extendImplied } s).map Outline.toToml

end RoleAccess.Toml
