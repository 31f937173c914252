import RoleAccess.Binary64.Reading
import RoleAccess.Binary64.Text
import RoleAccess.Config.Record
import RoleAccess.Toml.Basic

/-!
Settings from files and from the environment. Sources are laid over one another, and only then are
the settings converted to the types of the configuration, which are generous: a number may be given
in writing, a truth value as a number, and so on.
-/

set_option autoImplicit false
set_option relaxedAutoImplicit false

namespace RoleAccess

/-- A setting as a source gives it. An item of an array that no source has given is nothing. -/
inductive Setting where
  | nothing
  | bool (b : Bool)
  | int (n : Int)
  | float (x : Binary64)
  | text (s : String)
  | array (items : List Setting)
  | table (fields : List (String × Setting))
deriving Repr, Inhabited

namespace Setting

/-! ### Conversions -/

def yesWords : List String := ["true", "on", "yes"]

def noWords : List String := ["false", "off", "no"]

def sizeLimit : Nat := Nat.pow 2 64 - 1

/-- The first integer that does not fit sixty-four bits with a sign. -/
def intBound : Int := Nat.pow 2 63

/-- The whole number that digits with an optional plus stand for. -/
def sizeOfText? (s : String) : Option Nat :=
  let digits :=
    match s.toList with
    | '+' :: rest => rest
    | s => s
  if digits.isEmpty || !digits.all Text.isDigit then none
  else
    let n := Text.numberOf 10 digits
    if n ≤ sizeLimit then some n else none

/-- The whole number nearest to a number, a half going up; what lies outside the range goes to its
ends, and what is not a number to zero. -/
def sizeOfFloat (x : Binary64) : Nat :=
  if x.isNaN || x.isNegative then 0
  else if x.isFinite then min x.roundedMagnitude sizeLimit
  else sizeLimit

def asSize? : Setting → Option Nat
  | .bool b => some b.toNat
  | .int n => if 0 ≤ n then some n.toNat else none
  | .float x => some (sizeOfFloat x)
  | .text s =>
    if yesWords.contains (Text.lowered s) then some 1
    else if noWords.contains (Text.lowered s) then some 0
    else sizeOfText? s
  | _ => none

def asBool? : Setting → Option Bool
  | .bool b => some b
  | .int n => some (n != 0)
  | .float x => some (!x.isZero)
  | .text s =>
    if ("1" :: yesWords).contains (Text.lowered s) then some true
    else if ("0" :: noWords).contains (Text.lowered s) then some false
    else none
  | _ => none

def asText? : Setting → Option String
  | .bool b => some (if b then "true" else "false")
  | .int n => some (toString n)
  | .float x => some (Binary64.plain.write x)
  | .text s => some s
  | _ => none

/-- A name, or a table with that name as its only key. -/
def asFormat? : Setting → Option LogFormat
  | .text s => LogFormat.ofName? s
  | .table [(name, _)] => LogFormat.ofName? name
  | _ => none

/-- The parts of a section with these names, from a table or from an array in their order. Further
items of the array do not count. -/
def parts? (names : List String) : Setting → Option (List (Option Setting))
  | .table fields => some (names.map fun name ↦ List.lookup name fields)
  | .array items =>
    some ((items.map some ++ List.replicate names.length none).take names.length)
  | _ => none

def reader : ConfigReader Setting where
  text := asText?
  bool := asBool?
  size := asSize?
  format := asFormat?
  parts := parts?

/-! ### Laying sources over one another -/

def fieldsOf : Option Setting → List (String × Setting)
  | some (.table fields) => fields
  | _ => []

def itemsOf : Option Setting → List Setting
  | some (.array items) => items
  | _ => []

def putField (name : String) (v : Setting) : List (String × Setting) → List (String × Setting)
  | [] => [(name, v)]
  | (other, held) :: rest =>
    if other = name then (name, v) :: rest else (other, held) :: putField name v rest

mutual

/-- Lays a setting over what is there. Tables are laid over field by field. -/
def laidOver : Setting → Option Setting → Setting
  | .table [], some .nothing => .table []
  | .table [], some held => held
  | .table fields, held => .table (fieldsOver fields (fieldsOf held))
  | v, _ => v

def fieldsOver : List (String × Setting) → List (String × Setting) → List (String × Setting)
  | [], held => held
  | (name, v) :: rest, held =>
    fieldsOver rest (putField name (laidOver v (List.lookup name held)) held)

end

/-- A step of a path to a setting. -/
inductive Step where
  | key (name : String)
  /-- An item of an array. An index below zero counts from the end. -/
  | index (i : Int)
deriving DecidableEq, Repr

/-- The items with room for the one of an index, and its place among them. -/
def makeRoom (i : Int) (items : List Setting) : List Setting × Nat :=
  if 0 ≤ i then (items ++ List.replicate (i.toNat + 1 - items.length) .nothing, i.toNat)
  else (List.replicate ((-i).toNat - items.length) .nothing ++ items, items.length - (-i).toNat)

/-- Changes the setting at the end of a path. What is in the way becomes a table or an array. -/
def changeAt (change : Option Setting → Setting) : List Step → Option Setting → Setting
  | [], held => change held
  | .index i :: path, held =>
    let (items, place) := makeRoom i (itemsOf held)
    .array (items.set place (changeAt change path items[place]?))
  | .key name :: path, held =>
    let fields := fieldsOf held
    .table (putField name (changeAt change path (List.lookup name fields)) fields)

def isNameChar (c : Char) : Bool :=
  Text.isDigit c || ('a' ≤ c && c ≤ 'z') || ('A' ≤ c && c ≤ 'Z') || c == '_' || c == '-'

/-- Reads an index after its opening bracket, and passes the closing one. It has to fit sixty-four
bits with a sign. -/
def readIndex? (s : List Char) : Option (Int × List Char) :=
  let isSpace (c : Char) : Bool := c == ' ' || c == '\t'
  let s := s.dropWhile isSpace
  let negative := s.head? == some '-'
  match Text.spanDigits (if negative then s.drop 1 else s) with
  | ([], _) => none
  | (digits, s) =>
    let n : Int := Text.numberOf 10 digits
    let i := if negative then -n else n
    match s.dropWhile isSpace with
    | ']' :: s => if -intBound ≤ i && i < intBound then some (i, s) else none
    | _ => none

/-- The steps that are written after the first name of a path; none if they are not well formed.
Every step spends one unit of fuel. -/
def stepsAfter? : Nat → List Char → Option (List Step)
  | _, [] => some []
  | 0, _ => none
  | fuel + 1, '.' :: s =>
    match s.takeWhile isNameChar with
    | [] => none
    | name => (stepsAfter? fuel (s.dropWhile isNameChar)).map (.key (String.ofList name) :: ·)
  | fuel + 1, '[' :: s => do
    let (i, s) ← readIndex? s
    return .index i :: (← stepsAfter? fuel s)
  | _, _ => none

/-- The path that a name at the top of a source is; a name that is no path stands for itself. -/
def pathOf (name : String) : List Step :=
  let s := name.toList
  match s.takeWhile isNameChar with
  | [] => [.key name]
  | first =>
    match stepsAfter? s.length (s.dropWhile isNameChar) with
    | none => [.key name]
    | some steps => .key (String.ofList first) :: steps

/-- Lays a source over the settings so far. -/
def layOver (source : List (String × Setting)) (held : Setting) : Setting :=
  source.foldl (fun held (name, v) ↦ changeAt (laidOver v) (pathOf name) (some held)) held

/-! ### Sources -/

mutual

def ofToml : Toml → Setting
  | .string s => .text s
  | .int n => .int n
  | .float x => .float x
  | .tooLarge => .nothing
  | .bool b => .bool b
  | .datetime d => .text d.write
  | .array items => .array (itemsOfToml items)
  | .table fields => .table (fieldsOfToml fields)

def itemsOfToml : List Toml → List Setting
  | [] => []
  | v :: rest => ofToml v :: itemsOfToml rest

def fieldsOfToml : List (String × Toml) → List (String × Setting)
  | [] => []
  | (name, v) :: rest => (name, ofToml v) :: fieldsOfToml rest

end

/-- The settings of a document. An integer has to fit sixty-four bits with a sign, and no other
number may be too large. -/
def sourceOfToml? : Toml → Option (List (String × Setting))
  | .table fields =>
    if (Toml.table fields).numbersWithin (-intBound) (intBound - 1) then some (fieldsOfToml fields)
    else none
  | _ => none

/-- The integer that a text stands for, if it fits sixty-four bits with a sign. -/
def intOfText? (s : String) : Option Int :=
  let (negative, digits) := Binary64.splitSign s.toList
  if digits.isEmpty || !digits.all Text.isDigit then none
  else
    let n : Int := Text.numberOf 10 digits
    let n := if negative then -n else n
    if -intBound ≤ n && n < intBound then some n else none

/-- A variable's text as the first it can be of a truth value, an integer and a number. -/
def ofVariable (s : String) : Setting :=
  if Text.lowered s = "true" then .bool true
  else if Text.lowered s = "false" then .bool false
  else
    match intOfText? s, Binary64.read? s with
    | some n, _ => .int n
    | none, some x => .float x
    | none, none => .text s

def variablePrefix : String := "rolegate__"

/-- Writes a point for every pair of underscores. -/
def dotted : List Char → List Char
  | '_' :: '_' :: rest => '.' :: dotted rest
  | c :: rest => c :: dotted rest
  | [] => []

/-- The settings of the variables that carry the name of the program. -/
def sourceOfEnvironment (environment : List (String × String)) : List (String × Setting) :=
  environment.filterMap fun (name, value) ↦
    let name := (Text.lowered name).toList
    if variablePrefix.toList.isPrefixOf name then
      some (String.ofList (dotted (name.drop variablePrefix.length)), ofVariable value)
    else none

end Setting

end RoleAccess
