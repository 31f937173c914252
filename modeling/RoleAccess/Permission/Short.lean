import RoleAccess.Permission.Basic
import RoleAccess.Permission.Dialect

/-!
Held permissions given by a permission string alone.
-/

set_option autoImplicit false
set_option relaxedAutoImplicit false

namespace RoleAccess.Dialect

/-- The permission that a well-formed string stands for. The string is its id. Only the globstar by
itself becomes the grant of everything. -/
def permissionOf (d : Dialect) (short : String) : Except ConfigError Permission := do
  d.validate short
  let pattern := d.parse short
  return if pattern.isGlobstar then
      { id := short, resource := d.globstar, action := d.wildcard }
    else
      { id := short, resource := pattern.resource, action := pattern.action,
        scope := pattern.scope }

end RoleAccess.Dialect
