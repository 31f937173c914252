import RoleAccess.Command.Arguments
import RoleAccess.Command.Query
import RoleAccess.Config.Loading
import RoleAccess.Role.RosterFile

/-!
The program as a function of its arguments and its surroundings.
-/

set_option autoImplicit false
set_option relaxedAutoImplicit false

namespace RoleAccess

/-- Why a command fails. -/
inductive ProgramError where
  | config (error : ConfigError)
  | role (error : RoleError)
  | noRolesFile
  | unreadableRoles (path : String)
deriving DecidableEq, Repr

namespace ProgramError

def message : ProgramError → String
  | .config error => error.message
  | .role error => error.message
  | .noRolesFile => "a roles file is required (--roles or ROLEGATE_ROLES)"
  | .unreadableRoles path => "failed to read roles file " ++ path

/-- The first line of the message. -/
def headline (e : ProgramError) : String := String.ofList (e.message.toList.takeWhile (· ≠ '\n'))

end ProgramError

/-- How a run of the program ends. -/
inductive Ending where
  | reported (report : Report)
  | failed (error : ProgramError)
  | misused
deriving DecidableEq, Repr

namespace Ending

def exitCode : Ending → Nat
  | .reported report => if report.success then 0 else 1
  | .failed _ => 1
  | .misused => 2

/-- What is printed on standard output. -/
def output : Ending → String
  | .reported report => report.text
  | _ => ""

/-- The error, if the run ends with one. -/
def error? : Ending → Option ProgramError
  | .failed error => some error
  | _ => none

end Ending

/-- How a permission string is read. -/
def Dialect.parseReport (d : Dialect) (permission : String) : Except ConfigError Report := do
  d.validate permission
  let parsed := d.parse permission
  return ⟨[parsed.toValue.write, "specificity: " ++ toString (Dialect.specificity parsed)], true⟩

/-- The cache that a configuration asks for. -/
def EngineConfig.attached (c : EngineConfig) : Except ConfigError Attached :=
  if c.hierarchy.cacheEnabled then
    (MemoryCache.ofOptions c.cache.options).map (some <| .memory ·)
  else .ok none

namespace Invocation

/-- The configuration file to use, if one is named. An option goes before a variable. -/
def configPath (i : Invocation) (environment : List (String × String)) : Option String :=
  i.options.config.or (List.lookup "ROLEGATE_CONFIG" environment)

/-- The roles file to use, if one is named. -/
def rolesPath (i : Invocation) (environment : List (String × String)) : Option String :=
  i.options.roles.or (List.lookup "ROLEGATE_ROLES" environment)

/-- The roster of the roles file. -/
def roster (i : Invocation) (s : Surroundings) (d : Dialect) : Except ProgramError Roster :=
  match i.rolesPath s.environment with
  | none => .error .noRolesFile
  | some path =>
    match (s.place path).text? with
    | none => .error (.unreadableRoles path)
    | some text => (Roster.ofFile d text).mapError .config

/-- Runs the command. A command is done before anything that it keeps can expire. -/
def run (i : Invocation) (s : Surroundings) : Except ProgramError Report := do
  let config ← (EngineConfig.load s (i.configPath s.environment)).mapError .config
  let d ← (Dialect.ofTokens config.parser).mapError .config
  match i.command with
  | .parse permission => (d.parseReport permission).mapError .config
  | .ask query =>
    let roster ← i.roster s d
    let cache ← config.attached.mapError .config
    (query.run d ⟨config.hierarchy.options, { roster }⟩ 0 cache).mapError .role

/-- The paths of all files that a run may read. -/
def paths (i : Invocation) (environment : List (String × String)) : List String :=
  let configPaths := (i.configPath environment).elim EngineConfig.defaultPaths ([·])
  configPaths ++ configPaths.filterMap EngineConfig.besideDirectory? ++
    (i.rolesPath environment).toList

end Invocation

namespace Program

def version : Report := ⟨["rolegate 0.1.0"], true⟩

def help : Report where
  lines := [
    "Usage: rolegate [OPTIONS] <COMMAND>",
    "",
    "Commands:",
    "  check <ROLE> <PERMISSIONS>...  Check whether a role grants permissions",
    "      [--all] [--user <ID>] [--owner <ID>] [--attr <KEY=VALUE>]...",
    "  inherited <ROLE>               Print a role's inherited permissions",
    "  tree [--json] <ROLE>           Print the tree of roles inheriting from a role",
    "  validate                       Check every role for cycles and orphaned parents",
    "  parse <PERMISSION>             Show how a permission string is parsed",
    "  help [COMMAND]                 Print this help",
    "",
    "Options:",
    "  -c, --config <CONFIG>          Path to configuration file [env: ROLEGATE_CONFIG]",
    "      --log-level <LOG_LEVEL>    Log level [env: ROLEGATE_LOG_LEVEL]",
    "  -r, --roles <ROLES>            Roles file [env: ROLEGATE_ROLES]",
    "  -h, --help                     Print help",
    "  -V, --version                  Print version"]
  success := true

/-- How a run with these arguments ends. -/
def run (arguments : List String) (s : Surroundings) : Ending :=
  match Invocation.ofArguments arguments with
  | .error .misuse => .misused
  | .error .help => .reported help
  | .error .version => .reported version
  | .ok invocation =>
    match invocation.run s with
    | .ok report => .reported report
    | .error error => .failed error

/-- The paths of all files that a run with these arguments may read. -/
def paths (arguments : List String) (environment : List (String × String)) : List String :=
  match Invocation.ofArguments arguments with
  | .error _ => []
  | .ok invocation => invocation.paths environment

end Program

end RoleAccess
