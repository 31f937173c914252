import RoleAccess.Text.Digits

/-!
Quoted text in TOML, between one quote or three on each side. Between apostrophes every character
stands for itself; between double quotes a backslash starts an escape. Text between three quotes may
run over several lines.
-/

set_option autoImplicit false
set_option relaxedAutoImplicit false

namespace RoleAccess.Toml

open Text

def apostrophe : Char := Char.ofNat 39

def carriageReturn : Char := Char.ofNat 13

/-- A character that may stand in a comment or in quotes: no control character but the tab. -/
def isPlain (c : Char) : Bool := c == '\t' || (32 ≤ c.toNat && c.toNat != 127)

def isSpace (c : Char) : Bool := c == ' ' || c == '\t'

/-! ### Finding the closing quotes -/

/-- The raw text before a closing quote, and what follows the quote. After a backslash that counts,
a quote does not close. -/
def splitLine (quote : Char) : List Char → Option (List Char × List Char)
  | [] => none
  | '\\' :: c :: rest =>
    if quote = '"' then
      (splitLine quote rest).map fun (raw, after) ↦ ('\\' :: c :: raw, after)
    else if c = quote then some (['\\'], rest)
    else (splitLine quote (c :: rest)).map fun (raw, after) ↦ ('\\' :: raw, after)
  | c :: rest =>
    if c = quote then some ([], rest)
    else (splitLine quote rest).map fun (raw, after) ↦ (c :: raw, after)

/-- The number of quotes at the start of a text. -/
def countQuotes (quote : Char) (s : List Char) : Nat := (s.takeWhile (· == quote)).length

/-- The raw text before three closing quotes, and what follows them. Up to two more quotes before
the last three belong to the text. -/
def splitLines (quote : Char) : List Char → Option (List Char × List Char)
  | [] => none
  | c :: rest =>
    if c = quote && 3 ≤ countQuotes quote (c :: rest) then
      let extra := min (countQuotes quote (c :: rest)) 5 - 3
      some (List.replicate extra quote, (c :: rest).drop (extra + 3))
    else if c = '\\' && quote = '"' then
      match rest with
      | [] => none
      | d :: rest => (splitLines quote rest).map fun (raw, after) ↦ (c :: d :: raw, after)
    else (splitLines quote rest).map fun (raw, after) ↦ (c :: raw, after)

/-! ### Reading the raw text -/

/-- Where the reading of escapes stands. -/
inductive EscapeState where
  | plain
  | begun
  /-- So many more hexadecimal digits are to come. -/
  | code (left value : Nat)
  /-- Passing over the end of a line and the blanks after it. -/
  | lineEnd (broken : Bool)
deriving DecidableEq, Repr

/-- The character that a letter after a backslash stands for. -/
def shortEscape? (c : Char) : Option Char :=
  match c with
  | 'b' => some (Char.ofNat 8)
  | 't' => some '\t'
  | 'n' => some '\n'
  | 'f' => some (Char.ofNat 12)
  | 'r' => some carriageReturn
  | 'e' => some (Char.ofNat 27)
  | '"' => some '"'
  | '\\' => some '\\'
  | _ => none

/-- The number of digits of a character code after this letter. -/
def codeLength? (c : Char) : Option Nat :=
  match c with
  | 'x' => some 2
  | 'u' => some 4
  | 'U' => some 8
  | _ => none

def isLineBreak (c : Char) : Bool := c == '\n' || c == carriageReturn

def scalarOf? (code : Nat) : Option Char :=
  if code.isValidChar then some (Char.ofNat code) else none

/-- Reads raw text with escapes. With `lines` a backslash may stand at the end of a line. -/
def unescape (lines : Bool) : EscapeState → List Char → Option (List Char)
  | .plain, [] => some []
  | .lineEnd true, [] => some []
  | _, [] => none
  | .plain, c :: rest =>
    if c = '\\' then unescape lines .begun rest else (unescape lines .plain rest).map (c :: ·)
  | .begun, c :: rest =>
    match shortEscape? c, codeLength? c with
    | some e, _ => (unescape lines .plain rest).map (e :: ·)
    | none, some length => unescape lines (.code length 0) rest
    | none, none =>
      if lines && (isSpace c || isLineBreak c) then unescape lines (.lineEnd (isLineBreak c)) rest
      else none
  | .code left value, c :: rest => do
    let value := 16 * value + (← digitValue? c)
    match left with
    | 0 | 1 =>
      let e ← scalarOf? value
      (unescape lines .plain rest).map (e :: ·)
    | left + 1 => unescape lines (.code left value) rest
  | .lineEnd broken, c :: rest =>
    if isSpace c then unescape lines (.lineEnd broken) rest
    else if isLineBreak c then unescape lines (.lineEnd true) rest
    else if !broken then none
    else if c = '\\' then unescape lines .begun rest
    else (unescape lines .plain rest).map (c :: ·)

/-- Whether every character may stand in quotes. Line breaks may where there are `lines`, a carriage
return only before a line feed. -/
def isQuotable (lines : Bool) : List Char → Bool
  | [] => true
  | c :: rest =>
    (isPlain c || (lines && (c == '\n' || (c == carriageReturn && rest.head? == some '\n')))) &&
      isQuotable lines rest

/-- The text that raw text between quotes stands for. -/
def ofRaw (quote : Char) (lines : Bool) (raw : List Char) : Option String :=
  if isQuotable lines raw then
    (if quote = '"' then unescape lines .plain raw else some raw).map String.ofList
  else none

/-- Drops a line break at the start. -/
def dropBreak : List Char → List Char
  | '\n' :: rest => rest
  | '\r' :: '\n' :: rest => rest
  | s => s

/-- Reads text in single quotes of either kind, after the opening quote. -/
def readLine (quote : Char) (s : List Char) : Option (String × List Char) := do
  let (raw, rest) ← splitLine quote s
  return (← ofRaw quote false raw, rest)

/-- Reads text between three quotes, after the opening ones. -/
def readLines (quote : Char) (s : List Char) : Option (String × List Char) := do
  let (raw, rest) ← splitLines quote s
  return (← ofRaw quote true (dropBreak raw), rest)

/-- Reads quoted text of any kind, after its first quote. -/
def readQuoted (quote : Char) (s : List Char) : Option (String × List Char) :=
  match s with
  | a :: b :: rest => if a = quote && b = quote then readLines quote rest else readLine quote s
  | _ => readLine quote s

end RoleAccess.Toml
