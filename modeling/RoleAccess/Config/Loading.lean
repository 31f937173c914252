import RoleAccess.Config.Files
import RoleAccess.Config.Setting
import RoleAccess.Toml.Reader

/-!
Loading the configuration: from a text, or from a file with the variables laid over it.
-/

set_option autoImplicit false
set_option relaxedAutoImplicit false

namespace RoleAccess

/-- The settings in a TOML text. -/
def settingsOfText? (text : String) : Option (List (String × Setting)) :=
  (Toml.read? true text).bind Setting.sourceOfToml?

namespace EngineConfig

/-- The configuration that sources add up to, the later ones over the earlier. -/
def ofSources (sources : List (List (String × Setting))) : Except ConfigError EngineConfig :=
  let settings := sources.foldl (fun held source ↦ Setting.layOver source held) (.table [])
  checked (Setting.reader.config settings)

/-- The configuration in a TOML text. -/
def ofText (text : String) : Except ConfigError EngineConfig :=
  match settingsOfText? text with
  | none => .error (.load .malformed)
  | some source => ofSources [source]

/-- Where a file is looked for when none is named; the first that is there counts. -/
def defaultPaths : List String :=
  ["rolegate.toml", ".rolegate.toml", "~/.config/rolegate/config.toml",
    "/etc/rolegate/config.toml"]

/-- The file that is read for a path that leads to something else. -/
def besideDirectory? (path : String) : Option String := RoleAccess.besideDirectory? ".toml" path

/-- The text of the file to read for a path, without a mark at its start. -/
def fileText? (s : Surroundings) (path : String) : Option String :=
  let text :=
    match s.place path with
    | .unreadable => none
    | place => place.fileText?.or ((besideDirectory? path).bind fun path ↦ (s.place path).fileText?)
  text.map Toml.withoutMark

/-- The settings of the file to use, none if there is no such file. A file that is named has to be
there. -/
def fileSource (s : Surroundings) (path : Option String) :
    Except ConfigError (List (String × Setting)) :=
  let load (path : String) : Except ConfigError (List (String × Setting)) :=
    match (fileText? s path).bind settingsOfText? with
    | none => .error (.load .malformed)
    | some source => .ok source
  match path with
  | some path => if (s.place path).isThere then load path else .error (.load (.fileNotFound path))
  | none =>
    match defaultPaths.find? fun path ↦ (s.place path).isThere with
    | some path => load path
    | none => .ok []

/-- The configuration of the file, if there is one, with the variables over it. -/
def load (s : Surroundings) (path : Option String) : Except ConfigError EngineConfig := do
  let file ← fileSource s path
  ofSources [file, Setting.sourceOfEnvironment s.environment]

end EngineConfig

end RoleAccess
