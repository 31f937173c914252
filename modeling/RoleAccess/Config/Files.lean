/-!
Where files are found. A file tree holds texts under relative paths; it stands for both the working
directory and the home directory. It lies somewhere below the root directory, and of what lies
outside it only the directories above it and a few that every system has are known.
-/

set_option autoImplicit false
set_option relaxedAutoImplicit false

namespace RoleAccess

/-- What a path leads to. -/
inductive Place where
  | missing
  | directory
  | unreadable
  | file (text : String)
  /-- Something other than a file that can be read nevertheless. -/
  | device (text : String)
deriving DecidableEq, Repr

namespace Place

def isThere (p : Place) : Bool := p != .missing

/-- The text of a file. -/
def fileText? : Place → Option String
  | .file text => some text
  | _ => none

/-- The text of whatever can be read. -/
def text? : Place → Option String
  | .device text => some text
  | place => place.fileText?

end Place

/-- What the program can see of the machine: what paths lead to, and the variables. A path may start
at the home directory. -/
structure Surroundings where
  place : String → Place
  environment : List (String × String) := []

/-- The parts of a path between its slashes. -/
def pathParts (path : String) : List String :=
  (path.toList.splitOnP (· == '/')).map String.ofList

/-- The parts of a path without those at its end that lead no further. -/
def leadingParts (path : String) : List String :=
  ((pathParts path).reverse.dropWhile fun part ↦ part = "" || part = ".").reverse

/-- Whether a name has an ending after a point; a point in front does not count. -/
def hasEnding (name : String) : Bool := (name.toList.drop 1).contains '.'

/-- The path of the file with an ending that belongs to a directory. The ending goes right after the
name of the directory. If that name has an ending already it goes after the whole path, and if the
path ends with a slash, after a name of its own. -/
def besideDirectory? (ending path : String) : Option String :=
  let parts := leadingParts path
  match parts.getLast? with
  | none => none
  | some name =>
    if name = ".." || parts = ["~"] then none
    else if !hasEnding name then some ("/".intercalate parts ++ ending)
    else if path.toList.getLast? = some '/' then some (path ++ ".placeholder" ++ ending)
    else some (path ++ ending)

/-- Files by the parts of their paths. -/
abbrev FileTree := List (List String × String)

namespace FileTree

def ofList (files : List (String × String)) : FileTree :=
  files.map fun (path, text) ↦ ((pathParts path).filter fun part ↦ part != "" && part != ".", text)

/-- What lies at a place whose parts have been followed. -/
def placeAt (t : FileTree) (here : List String) : Place :=
  match List.lookup here t with
  | some text => .file text
  | none =>
    if here.isEmpty || t.any (fun (path, _) ↦ here.isPrefixOf path) then .directory else .missing

/-- The directories below the root that every system has. -/
def systemDirectories : List String :=
  ["bin", "dev", "etc", "home", "lib", "opt", "proc", "root", "run", "sbin", "sys", "tmp", "usr",
    "var"]

/-- What lies outside the tree, by the parts of a path from the root that lead somewhere. -/
def outside : List String → Place
  | [] => .directory
  | [name] => if systemDirectories.contains name then .directory else .missing
  | ["dev", "null"] => .device ""
  | _ => .missing

/-- Follows the parts of a path above the tree. The tree itself is not found again. -/
def followAbove : List String → Place
  | [] => .directory
  | part :: rest => if ["", ".", ".."].contains part then followAbove rest else .missing

/-- Follows the parts of a path. Every part before the last has to be a directory. -/
def follow (t : FileTree) : List String → List String → Place
  | here, [] => t.placeAt here
  | here, part :: rest =>
    if t.placeAt here != .directory then .missing
    else if part = "" || part = "." then follow t here rest
    else if part = ".." then if here.isEmpty then followAbove rest else follow t here.dropLast rest
    else follow t (here ++ [part]) rest

/-- Follows the parts of a path outside the tree, from a directory given by its parts. -/
def followOutside : List String → List String → Place
  | here, [] => outside here
  | here, part :: rest =>
    if outside here != .directory then .missing
    else if part = "" || part = "." then followOutside here rest
    else if part = ".." then followOutside here.dropLast rest
    else followOutside (here ++ [part]) rest

def place (t : FileTree) (path : String) : Place :=
  match pathParts path with
  | "~" :: rest => t.follow [] rest
  | [""] => .missing
  | "" :: rest => followOutside [] rest
  | parts => t.follow [] parts

end FileTree

end RoleAccess
