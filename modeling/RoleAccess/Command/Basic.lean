import RoleAccess.Permission.Basic

/-!
What the command line can be asked to do.
-/

set_option autoImplicit false
set_option relaxedAutoImplicit false

namespace RoleAccess

/-- Whether a role is granted permissions, in a context. -/
structure CheckRequest where
  role : String
  required : List String
  /-- Whether every permission has to be granted, and not only one. -/
  all : Bool := false
  context : Context := {}

/-- A command about the roles of a roles file. -/
inductive Query where
  | check (request : CheckRequest)
  | inherited (role : String)
  | tree (role : String) (json : Bool)
  | validate

inductive Command where
  /-- Shows how a permission string is read; no roles are needed. -/
  | parse (permission : String)
  | ask (query : Query)

/-- What is given on the command line besides the command. -/
structure CommonOptions where
  config : Option String := none
  logLevel : Option String := none
  roles : Option String := none
deriving DecidableEq, Repr

/-- A command with its options. -/
structure Invocation where
  options : CommonOptions
  command : Command

/-- What a command prints, in lines, and whether it ends in success. -/
structure Report where
  lines : List String
  success : Bool
deriving DecidableEq, Repr

namespace Report

def text (r : Report) : String := String.join (r.lines.map (· ++ "\n"))

end Report

end RoleAccess
