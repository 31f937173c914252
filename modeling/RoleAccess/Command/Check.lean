import RoleAccess.Command.Basic
import RoleAccess.Permission.Matching
import RoleAccess.Role.Resolver

/-!
Checking permissions: one verdict for each required permission, and whether the whole check passes.
-/

set_option autoImplicit false
set_option relaxedAutoImplicit false

namespace RoleAccess

/-- The decision on one required permission. -/
structure Verdict where
  required : String
  decision : Decision
deriving Repr

namespace Verdict

def isGranted (v : Verdict) : Bool := v.decision.isSome

def line (v : Verdict) : String :=
  match v.decision with
  | some grant =>
    "ALLOW " ++ v.required ++ " via " ++ grant.pattern ++ " (score " ++ toString grant.score ++
      ", " ++ grant.reason.message ++ ")"
  | none => "DENY  " ++ v.required ++ " (" ++ Reason.noMatch.message ++ ")"

end Verdict

namespace CheckRequest

/-- The verdicts on what is required, given the permissions that are held. -/
def verdicts (c : CheckRequest) (d : Dialect) (held : List Permission) : List Verdict :=
  c.required.map fun required ↦ ⟨required, d.bestMatch required held (some c.context)⟩

/-- Whether enough is granted. -/
def passes (c : CheckRequest) (verdicts : List Verdict) : Bool :=
  if c.all then verdicts.all Verdict.isGranted else verdicts.any Verdict.isGranted

def report (c : CheckRequest) (d : Dialect) (held : List Permission) : Report :=
  let verdicts := c.verdicts d held
  ⟨verdicts.map Verdict.line, c.passes verdicts⟩

/-- Checks what a role holds and inherits. -/
def run (c : CheckRequest) (d : Dialect) (r : Resolver) (now : Nat) (cache : Attached) :
    Except RoleError Report :=
  (r.inheritedPermissions now c.role cache).1.map (c.report d)

end CheckRequest

end RoleAccess
