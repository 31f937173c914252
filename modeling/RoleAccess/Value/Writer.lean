import RoleAccess.Value.Basic
import RoleAccess.Binary64.Text

/-!
JSON text of a value, spread over lines with two blanks for each level.
-/

set_option autoImplicit false
set_option relaxedAutoImplicit false

namespace RoleAccess.Value

/-- Numbers have a point or an exponent; of two equally short and near ones the even is written, and
what is not finite is written null. -/
def numberStyle : Binary64.Style := ⟨some (-4, 16), true, true, .even, "null", "null"⟩

def hexDigit (n : Nat) : Char := Nat.digitChar n

/-- One character inside quotes. -/
def escapeChar (c : Char) : List Char :=
  if c = '"' then ['\\', '"']
  else if c = '\\' then ['\\', '\\']
  else if c = '\n' then ['\\', 'n']
  else if c = '\r' then ['\\', 'r']
  else if c = '\t' then ['\\', 't']
  else if c.toNat = 8 then ['\\', 'b']
  else if c.toNat = 12 then ['\\', 'f']
  else if c.toNat < 32 then
    ['\\', 'u', '0', '0', hexDigit (c.toNat / 16), hexDigit (c.toNat % 16)]
  else [c]

def quote (s : String) : String :=
  String.ofList ('"' :: (s.toList.flatMap escapeChar ++ ['"']))

def indentation (level : Nat) : String := String.ofList (List.replicate (2 * level) ' ')

/-- Entries on lines of their own between an opening and a closing bracket. -/
def bracketed (opening closing : String) (level : Nat) (entries : List String) : String :=
  if entries.isEmpty then opening ++ closing
  else
    opening ++ "\n" ++ String.intercalate ",\n" (entries.map (indentation (level + 1) ++ ·)) ++
      "\n" ++ indentation level ++ closing

mutual

def writeAt (level : Nat) : Value → String
  | .null => "null"
  | .bool b => if b then "true" else "false"
  | .int n => toString n
  | .float x => if x.isFinite then numberStyle.write x else "null"
  | .string s => quote s
  | .array items => bracketed "[" "]" level (writeItems (level + 1) items)
  | .object fields => bracketed "\x7b" "\x7d" level (writeFields (level + 1) fields)

def writeItems (level : Nat) : List Value → List String
  | [] => []
  | v :: rest => writeAt level v :: writeItems level rest

def writeFields (level : Nat) : List (String × Value) → List String
  | [] => []
  | (name, v) :: rest => (quote name ++ ": " ++ writeAt level v) :: writeFields level rest

end

def write (v : Value) : String := writeAt 0 v

end RoleAccess.Value
