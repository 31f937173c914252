import RoleAccess.Command.Check
import RoleAccess.Role.Audit
import RoleAccess.Value.Writer

/-!
Answering queries about the roles of a roster.
-/

set_option autoImplicit false
set_option relaxedAutoImplicit false

namespace RoleAccess

namespace RoleTree

mutual

/-- The tree as an indented list of ids. -/
def listing : RoleTree → List String
  | .node role depth children =>
    (Value.indentation depth ++ role.id ++ if role.active then "" else " (inactive)") ::
      listingOfAll children

def listingOfAll : List RoleTree → List String
  | [] => []
  | t :: rest => listing t ++ listingOfAll rest

end

def report (t : RoleTree) (json : Bool) : Report :=
  ⟨if json then [t.toValue.write] else t.listing, true⟩

end RoleTree

def inheritedReport (held : List Permission) : Report :=
  ⟨held.map fun p ↦ p.id ++ "\t" ++ p.display, true⟩

/-- The report of an audit of so many roles. Only errors make it fail. -/
def auditReport (roles : Nat) (findings : List Finding) : Report :=
  let sound := !findings.any Finding.isError
  let summary := if sound then ["OK    " ++ toString roles ++ " roles"] else []
  ⟨findings.map Finding.line ++ summary, sound⟩

/-- Answers a query. -/
def Query.run (q : Query) (d : Dialect) (r : Resolver) (now : Nat) (cache : Attached) :
    Except RoleError Report :=
  match q with
  | .check request => request.run d r now cache
  | .inherited role => (r.inheritedPermissions now role cache).1.map inheritedReport
  | .tree role json => (r.tree role).map (RoleTree.report · json)
  | .validate => (r.audit now cache).map (auditReport r.source.roster.size)

end RoleAccess
