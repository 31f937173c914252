import RoleAccess.Value.Number

/-!
Reading JSON text. The text holds one value with nothing after it but blanks; brackets nest to a
fixed depth; half of a surrogate pair is refused.
-/

set_option autoImplicit false
set_option relaxedAutoImplicit false

namespace RoleAccess.Value

open Text

/-- The number of brackets that may be open at once. -/
def nestingLimit : Nat := 127

def isJsonBlank (c : Char) : Bool := c == ' ' || c == '\n' || c == '\r' || c == '\t'

def skipBlanks (s : List Char) : List Char := s.dropWhile isJsonBlank

/-- The character of an escape other than a code unit. -/
def simpleEscape? (c : Char) : Option Char :=
  match c with
  | '"' => some '"'
  | '\\' => some '\\'
  | '/' => some '/'
  | 'b' => some (Char.ofNat 8)
  | 'f' => some (Char.ofNat 12)
  | 'n' => some '\n'
  | 'r' => some '\r'
  | 't' => some '\t'
  | _ => none

def isHighSurrogate (n : Nat) : Bool := 0xD800 ≤ n && n < 0xDC00

def isLowSurrogate (n : Nat) : Bool := 0xDC00 ≤ n && n < 0xE000

/-- Reads the rest of a quoted text up to its closing quote. -/
def readQuoted : List Char → Option (List Char × List Char)
  | [] => none
  | '"' :: rest => some ([], rest)
  | '\\' :: 'u' :: a :: b :: c :: d :: '\\' :: 'u' :: e :: f :: g :: h :: rest => do
    let unit ← hexNumber? [a, b, c, d]
    let next ← hexNumber? [e, f, g, h]
    if isHighSurrogate unit && isLowSurrogate next then
      let (text, rest) ← readQuoted rest
      return (Char.ofNat (0x10000 + (unit - 0xD800) * 0x400 + (next - 0xDC00)) :: text, rest)
    else if isHighSurrogate unit || isLowSurrogate unit then none
    else
      let (text, rest) ← readQuoted ('\\' :: 'u' :: e :: f :: g :: h :: rest)
      return (Char.ofNat unit :: text, rest)
  | '\\' :: 'u' :: a :: b :: c :: d :: rest => do
    let unit ← hexNumber? [a, b, c, d]
    if isHighSurrogate unit || isLowSurrogate unit then none
    else
      let (text, rest) ← readQuoted rest
      return (Char.ofNat unit :: text, rest)
  | '\\' :: c :: rest => do
    let escaped ← simpleEscape? c
    let (text, rest) ← readQuoted rest
    return (escaped :: text, rest)
  | c :: rest => do
    if c.toNat < 32 then none
    else
      let (text, rest) ← readQuoted rest
      return (c :: text, rest)

/-- Removes a word from the start of a text. -/
def stripWord (word : List Char) (s : List Char) : Option (List Char) :=
  if word.isPrefixOf s then some (s.drop word.length) else none

mutual

/-- Reads a value. Each call spends one unit of `fuel`, and a text of n characters never needs more
than n of them; `depth` counts the brackets that may still be opened. -/
def readValue (fuel depth : Nat) (s : List Char) : Option (Value × List Char) :=
  match fuel with
  | 0 => none
  | fuel + 1 =>
    match skipBlanks s with
    | '"' :: rest => (readQuoted rest).map fun (text, rest) ↦ (.string (String.ofList text), rest)
    | '[' :: rest =>
      match depth with
      | 0 => none
      | depth + 1 =>
        match skipBlanks rest with
        | ']' :: rest => some (.array [], rest)
        | _ => (readItems fuel depth rest).map fun (items, rest) ↦ (.array items, rest)
    | '\x7b' :: rest =>
      match depth with
      | 0 => none
      | depth + 1 =>
        match skipBlanks rest with
        | '\x7d' :: rest => some (.object [], rest)
        | _ =>
          (readFields fuel depth rest).map fun (fields, rest) ↦
            (.object (Fields.ofList fields), rest)
    | 'n' :: rest => (stripWord "ull".toList rest).map fun rest ↦ (.null, rest)
    | 't' :: rest => (stripWord "rue".toList rest).map fun rest ↦ (.bool true, rest)
    | 'f' :: rest => (stripWord "alse".toList rest).map fun rest ↦ (.bool false, rest)
    | s => readNumber s

/-- Reads the items of a list that is not empty, and its closing bracket. -/
def readItems (fuel depth : Nat) (s : List Char) : Option (List Value × List Char) :=
  match fuel with
  | 0 => none
  | fuel + 1 => do
    let (item, rest) ← readValue fuel depth s
    match skipBlanks rest with
    | ']' :: rest => return ([item], rest)
    | ',' :: rest =>
      let (items, rest) ← readItems fuel depth rest
      return (item :: items, rest)
    | _ => none

/-- Reads the fields of an object that is not empty, and its closing brace. -/
def readFields (fuel depth : Nat) (s : List Char) : Option (List (String × Value) × List Char) :=
  match fuel with
  | 0 => none
  | fuel + 1 =>
    match skipBlanks s with
    | '"' :: rest => do
      let (name, rest) ← readQuoted rest
      match skipBlanks rest with
      | ':' :: rest =>
        let (value, rest) ← readValue fuel depth rest
        let field := (String.ofList name, value)
        match skipBlanks rest with
        | '\x7d' :: rest => return ([field], rest)
        | ',' :: rest =>
          let (fields, rest) ← readFields fuel depth rest
          return (field :: fields, rest)
        | _ => none
      | _ => none
    | _ => none

end

/-- The value that a JSON text holds, if it is well formed. -/
def read? (text : String) : Option Value :=
  let s := text.toList
  match readValue (2 * s.length + 2) nestingLimit s with
  | some (v, rest) => if (skipBlanks rest).isEmpty then some v else none
  | none => none

end RoleAccess.Value
