import RoleAccess.Command.Program

/-!
The program: collects the variables and the files that a run may read, runs it, and prints.
-/

set_option autoImplicit false
set_option relaxedAutoImplicit false

namespace RoleAccess.Program

/-- What a path leads to. A path that starts with a tilde is looked up in the home directory. -/
def look (home : Option String) (path : String) : IO Place := do
  let target :=
    match path.toList, home with
    | ['~'], some home => home
    | '~' :: '/' :: rest, some home => home ++ "/" ++ String.ofList rest
    | _, _ => path
  try
    return .file (← IO.FS.readFile target)
  catch e =>
    try
      discard (IO.FS.realPath target)
      return match e with
        | .inappropriateType .. => .directory
        | _ => .unreadable
    catch _ => return .missing

/-- The variables that the program is started with. -/
def readEnvironment : IO (List (String × String)) := do
  try
    let entries := (← IO.FS.readFile "/proc/self/environ").toList.splitOnP (· == '\x00')
    return entries.filterMap fun entry ↦
      match Arguments.splitEquals entry with
      | (_, none) => none
      | (name, some value) => some (name, value)
  catch _ => return []

/-- What a run with these arguments can see. -/
def surroundings (arguments : List String) : IO Surroundings := do
  let environment ← readEnvironment
  let home := List.lookup "HOME" environment
  let places ← (paths arguments environment).mapM fun path ↦ return (path, ← look home path)
  return ⟨fun path ↦ (List.lookup path places).getD .missing, environment⟩

end RoleAccess.Program

open RoleAccess in
def main (arguments : List String) : IO UInt32 := do
  let ending := Program.run arguments (← Program.surroundings arguments)
  IO.print ending.output
  match ending with
  | .failed error => IO.eprintln ("Error: " ++ error.message)
  | .misused => IO.eprint Program.help.text
  | .reported _ => pure ()
  return UInt32.ofNat ending.exitCode
