import RoleAccess.Toml.Basic

/-!
A document while it is being read. A table may be named by its own header, implied by the header of
a table below it, or made by a dotted key; which of these it is decides what may still be added.
-/

set_option autoImplicit false
set_option relaxedAutoImplicit false

namespace RoleAccess.Toml

/-- How a table came to be. -/
inductive Origin where
  | header
  | implied
  | dotted
deriving DecidableEq, Repr

/-- A part of an outline. A value is complete; the tables of a list are in order. -/
inductive Node where
  | value (v : Toml)
  | table (origin : Origin) (entries : List (String × Node))
  | tables (items : List (List (String × Node)))
deriving Inhabited

abbrev Entries := List (String × Node)

namespace Entries

/-- Gives a key a new node, in its place or at the end. -/
def put (key : String) (node : Node) : Entries → Entries
  | [] => [(key, node)]
  | (other, held) :: rest =>
    if other = key then (key, node) :: rest else (other, held) :: put key node rest

/-- Changes the table at the end of a path, given with its origin. Tables on the way that are not
there are made; of a list of tables the last is meant. A dotted key does not lead into tables that
have a header. -/
def descend (dotted : Bool) (change : Origin → Entries → Option Entries) :
    List String → Origin → Entries → Option Entries
  | [], origin, entries => change origin entries
  | key :: path, _, entries =>
    match List.lookup key entries with
    | none => do
      let origin := if dotted then Origin.dotted else Origin.implied
      let inner ← descend dotted change path origin []
      return put key (.table origin inner) entries
    | some (.value _) => none
    | some (.tables items) => do
      let last ← items.getLast?
      let inner ← descend dotted change path .header last
      return put key (.tables (items.dropLast ++ [inner])) entries
    | some (.table origin inner) =>
      if dotted && origin = .header then none
      else do
        let inner ← descend dotted change path origin inner
        return put key (.table origin inner) entries

/-- Whether a key may add a value to a table of this origin. A key without dots adds to the table
that is open, a dotted one to a table made by dotted keys or, with `extendImplied`, to one that is
implied so far. -/
def admits (extendImplied dotted : Bool) : Origin → Bool
  | .header => !dotted
  | .implied => !dotted || extendImplied
  | .dotted => dotted

/-- Adds a value under a dotted key, whose last part must be new. -/
def addValue (extendImplied : Bool) (path : List String) (key : String) (v : Toml) :
    Origin → Entries → Option Entries :=
  descend true
    (fun origin entries ↦
      if admits extendImplied (!path.isEmpty) origin && (List.lookup key entries).isNone then
        some (put key (.value v) entries)
      else none)
    path

/-- Opens a table by its header. It must be new, or implied so far. -/
def openTable (key : String) (entries : Entries) : Option Entries :=
  match List.lookup key entries with
  | none => some (put key (.table .header []) entries)
  | some (.table .implied inner) => some (put key (.table .header inner) entries)
  | _ => none

/-- Opens one more table of a list of tables. -/
def openItem (key : String) (entries : Entries) : Option Entries :=
  match List.lookup key entries with
  | none => some (put key (.tables [[]]) entries)
  | some (.tables items) => some (put key (.tables (items ++ [[]])) entries)
  | _ => none

end Entries

mutual

def Node.toToml : Node → Toml
  | .value v => v
  | .table _ entries => .table (entriesToToml entries)
  | .tables items => .array (itemsToToml items)

def entriesToToml : List (String × Node) → List (String × Toml)
  | [] => []
  | (key, node) :: rest => (key, node.toToml) :: entriesToToml rest

def itemsToToml : List (List (String × Node)) → List Toml
  | [] => []
  | entries :: rest => .table (entriesToToml entries) :: itemsToToml rest

end

/-- What has been read of a document, and the path of the table that keys go to. -/
structure Outline where
  /-- Whether dotted keys may add to tables that are only implied by a header. -/
  extendImplied : Bool
  entries : Entries := []
  current : List String := []

namespace Outline

def addValue (o : Outline) (path : List String) (key : String) (v : Toml) : Option Outline := do
  let entries ←
    Entries.descend false (Entries.addValue o.extendImplied path key v) o.current .header o.entries
  return { o with entries }

/-- Goes on in the table that a header names. -/
def enter (o : Outline) (openLast : String → Entries → Option Entries) (path : List String)
    (key : String) : Option Outline := do
  let entries ← Entries.descend false (fun _ ↦ openLast key) path .header o.entries
  return { o with entries, current := path ++ [key] }

def openTable (o : Outline) (path : List String) (key : String) : Option Outline :=
  o.enter Entries.openTable path key

def openItem (o : Outline) (path : List String) (key : String) : Option Outline :=
  o.enter Entries.openItem path key

def toToml (o : Outline) : Toml := .table (entriesToToml o.entries)

end Outline

end RoleAccess.Toml
