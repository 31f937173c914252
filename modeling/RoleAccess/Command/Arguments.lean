import RoleAccess.Command.Basic
import RoleAccess.Value.Reader

/-!
Reading a command line. Arguments are read from the left; the first that cannot be accepted, or that
asks for help, decides. Options of the program itself stand before the command, those of the command
after it, in any order with its other arguments. After two dashes no argument is an option.
-/

set_option autoImplicit false
set_option relaxedAutoImplicit false

namespace RoleAccess

/-- Why no command is run. -/
inductive Halt where
  | misuse
  | help
  | version
deriving DecidableEq, Repr

namespace Arguments

/-- What an option is for. -/
inductive OptionUse where
  /-- It ends the reading of arguments. -/
  | halt (reason : Halt)
  | switch
  | valued
deriving DecidableEq, Repr

structure OptionForm where
  long : String
  short : Option Char := none
  use : OptionUse := .valued
deriving DecidableEq, Repr

/-- What an argument is by itself. -/
inductive Shape where
  | operand
  /-- Two dashes alone. -/
  | escape
  | halt (reason : Halt)
  | switch (name : String)
  /-- An option with the value that is attached to it, if there is one. -/
  | valued (name : String) (value : Option String)
deriving DecidableEq, Repr

/-- The text before the first equals sign and the one after it. -/
def splitEquals (s : List Char) : String × Option String :=
  (String.ofList (s.takeWhile (· ≠ '=')),
    match s.dropWhile (· ≠ '=') with
    | [] => none
    | _ :: value => some (String.ofList value))

/-- The value behind a short option in one argument. -/
def shortValue : List Char → Option String
  | [] => none
  | '=' :: value => some (String.ofList value)
  | value => some (String.ofList value)

def longShape (forms : List OptionForm) (name : String) (value : Option String) : Shape :=
  match forms.find? (·.long == name) with
  | none => .halt .misuse
  | some form =>
    match form.use, value with
    | .valued, value => .valued form.long value
    | .halt reason, none => .halt reason
    | .switch, none => .switch form.long
    | _, some _ => .halt .misuse

/-- An argument of one dash. What follows the letter of an option without a value is not looked at
here, for such an option is a halt. -/
def shortShape (forms : List OptionForm) (letter : Char) (rest : List Char) : Shape :=
  match forms.find? (·.short == some letter) with
  | none => .halt .misuse
  | some form =>
    match form.use with
    | .valued => .valued form.long (shortValue rest)
    | .halt reason => .halt reason
    | .switch => .halt .misuse

def shapeOf (forms : List OptionForm) (argument : String) : Shape :=
  match argument.toList with
  | ['-', '-'] => .escape
  | '-' :: '-' :: rest =>
    let (name, value) := splitEquals rest
    longShape forms name value
  | '-' :: letter :: rest => shortShape forms letter rest
  | _ => .operand

/-- Whether an argument cannot be the value of the option before it. -/
def isDashed (argument : String) : Bool :=
  match argument.toList with
  | '-' :: _ :: _ => true
  | _ => false

/-! ### Arguments of a command -/

/-- An argument of a command. -/
inductive Given where
  | operand (text : String)
  | switch (name : String)
  | valued (name value : String)
deriving DecidableEq, Repr

/-- Hands the arguments to `accept` one after the other. -/
def scan {σ : Type} (forms : List OptionForm) (accept : σ → Given → Except Halt σ) :
    σ → List String → Except Halt σ
  | s, [] => .ok s
  | s, argument :: rest =>
    match shapeOf forms argument with
    | .operand => do scan forms accept (← accept s (.operand argument)) rest
    | .escape => rest.foldlM (fun s text ↦ accept s (.operand text)) s
    | .halt reason => .error reason
    | .switch name => do scan forms accept (← accept s (.switch name)) rest
    | .valued name (some value) => do scan forms accept (← accept s (.valued name value)) rest
    | .valued name none =>
      match rest with
      | [] => .error .misuse
      | value :: rest =>
        if isDashed value then .error .misuse
        else do scan forms accept (← accept s (.valued name value)) rest

def helpForm : OptionForm := ⟨"help", some 'h', .halt .help⟩

/-- An option that may be given once. -/
def once {α : Type} (given : Option α) (value : α) : Except Halt (Option α) :=
  match given with
  | none => .ok (some value)
  | some _ => .error .misuse

/-- A switch that may be given once. -/
def switchOnce (given : Bool) : Except Halt Bool := if given then .error .misuse else .ok true

/-- A named attribute. Its value is JSON if it can be read so, and else the text itself. -/
def attribute? (text : String) : Option (String × Value) :=
  match splitEquals text.toList with
  | (_, none) => none
  | (name, some value) =>
    if name.isEmpty then none else some (name, (Value.read? value).getD (.string value))

/-- What has been read of a check. -/
structure CheckDraft where
  role : Option String := none
  required : List String := []
  all : Bool := false
  user : Option String := none
  owner : Option String := none
  attributes : Fields := []

namespace CheckDraft

def forms : List OptionForm :=
  [⟨"all", none, .switch⟩, ⟨"user", none, .valued⟩, ⟨"owner", none, .valued⟩,
    ⟨"attr", none, .valued⟩, helpForm]

def accept (c : CheckDraft) : Given → Except Halt CheckDraft
  | .operand text =>
    match c.role with
    | none => .ok { c with role := some text }
    | some _ => .ok { c with required := c.required ++ [text] }
  | .switch "all" => do return { c with all := ← switchOnce c.all }
  | .valued "user" id => do return { c with user := ← once c.user id }
  | .valued "owner" id => do return { c with owner := ← once c.owner id }
  | .valued "attr" text =>
    match attribute? text with
    | none => .error .misuse
    | some (name, value) => .ok { c with attributes := Fields.insert name value c.attributes }
  | _ => .error .misuse

/-- The request, which needs a role and a permission. -/
def request (c : CheckDraft) : Except Halt CheckRequest :=
  match c.role with
  | none => .error .misuse
  | some role =>
    if c.required.isEmpty then .error .misuse
    else .ok ⟨role, c.required, c.all, ⟨c.user, c.owner, c.attributes⟩⟩

end CheckDraft

/-- What has been read of a command with at most one operand and at most one switch. -/
structure SimpleDraft where
  operand : Option String := none
  switched : Bool := false

def SimpleDraft.accept (c : SimpleDraft) : Given → Except Halt SimpleDraft
  | .operand text => do return { c with operand := ← once c.operand text }
  | .switch _ => do return { c with switched := ← switchOnce c.switched }
  | .valued _ _ => .error .misuse

/-- The operand of a command that takes one, and whether its switch is given. -/
def oneOperand (forms : List OptionForm) (arguments : List String) :
    Except Halt (String × Bool) := do
  let draft ← scan (forms ++ [helpForm]) SimpleDraft.accept {} arguments
  match draft.operand with
  | none => .error .misuse
  | some operand => return (operand, draft.switched)

/-- Accepts no argument. -/
def acceptNone (_ : Unit) (_ : Given) : Except Halt Unit := .error .misuse

def commandNames : List String := ["check", "inherited", "tree", "validate", "parse", "help"]

/-- Help may be asked for on one command by its name. -/
def helpOn : List String → Halt
  | [] => .help
  | [name] => if commandNames.contains name then .help else .misuse
  | _ => .misuse

def command (name : String) (arguments : List String) : Except Halt Command :=
  match name with
  | "check" => do
    let draft ← scan CheckDraft.forms CheckDraft.accept {} arguments
    return .ask (.check (← draft.request))
  | "inherited" => do
    let (role, _) ← oneOperand [] arguments
    return .ask (.inherited role)
  | "tree" => do
    let (role, json) ← oneOperand [⟨"json", none, .switch⟩] arguments
    return .ask (.tree role json)
  | "validate" => do
    scan [helpForm] acceptNone () arguments
    return .ask .validate
  | "parse" => do
    let (permission, _) ← oneOperand [] arguments
    return .parse permission
  | "help" => .error (helpOn arguments)
  | _ => .error .misuse

/-! ### Options of the program -/

def commonForms : List OptionForm :=
  [⟨"config", some 'c', .valued⟩, ⟨"log-level", none, .valued⟩, ⟨"roles", some 'r', .valued⟩,
    helpForm, ⟨"version", some 'V', .halt .version⟩]

def accept (o : CommonOptions) (name value : String) : Except Halt CommonOptions :=
  match name with
  | "config" => do return { o with config := ← once o.config value }
  | "log-level" => do return { o with logLevel := ← once o.logLevel value }
  | "roles" => do return { o with roles := ← once o.roles value }
  | _ => .error .misuse

/-- Reads the options up to the command, and the command. That an option is repeated with its value
in an argument of its own comes out at the next option or at the end, so what the command halts for
goes before it. -/
def invocation (options : Except Halt CommonOptions) : List String → Except Halt Invocation
  | [] => .error .misuse
  | argument :: rest =>
    match shapeOf commonForms argument with
    | .operand => do
      let command ← command argument rest
      return ⟨← options, command⟩
    | .halt reason => do
      let _ ← options
      .error reason
    | .valued name (some value) => do
      let options ← accept (← options) name value
      invocation (.ok options) rest
    | .valued name none => do
      let options ← options
      match rest with
      | [] => .error .misuse
      | value :: rest =>
        if isDashed value then .error .misuse else invocation (accept options name value) rest
    | .escape | .switch _ => .error .misuse

end Arguments

/-- The invocation that a command line stands for, or why there is none. -/
def Invocation.ofArguments (arguments : List String) : Except Halt Invocation :=
  Arguments.invocation (.ok {}) arguments

end RoleAccess
