import RoleAccess.Command.Program
import RoleAccess.Proofs.Role.Coherence

/-!
What a run of the program starts from. A configuration that has been loaded is sound, so that the
cache it asks for can be made; that cache is empty, and does not show in what is read through it
(`EngineConfig.exists_attached`). The roles are those of the roles file, which is the only thing in
`Surroundings.ofRoles`.
-/

set_option autoImplicit false
set_option relaxedAutoImplicit false

namespace RoleAccess

/-- Surroundings with nothing but a file of roles. -/
def Surroundings.ofRoles (text : String) : Surroundings where
  place := fun path ↦ if path = "roles" then .file text else .missing

theorem Invocation.roster_ofRoles (command : Command) (d : Dialect) (text : String) :
    Invocation.roster ⟨⟨none, none, some "roles"⟩, command⟩ (.ofRoles text) d =
      (Roster.ofFile d text).mapError .config := by
  simp only [roster, rolesPath, Option.some_or, Surroundings.ofRoles, if_true, Place.text?,
    Place.fileText?]

namespace EngineConfig

theorem fault?_of_load {s : Surroundings} {path : Option String} {config : EngineConfig}
    (h : load s path = .ok config) : config.fault? = none := by
  unfold load at h
  cases hfile : fileSource s path with
  | error e => simp [hfile, bind, Except.bind] at h
  | ok file =>
    simp only [hfile, bind, Except.bind, ofSources, checked] at h
    split at h
    next => cases h
    next =>
      split at h
      next => cases h
      next hfault =>
        cases h
        exact hfault

theorem capacity_pos {config : EngineConfig} (h : config.fault? = none) :
    0 < config.cache.capacity := by
  refine Nat.pos_of_ne_zero fun hzero ↦ ?_
  unfold fault? at h
  split at h
  next => cases h
  next =>
    split at h
    next => cases h
    next => cases h

/-- The cache that a sound configuration asks for, if any, is there and holds nothing yet. -/
theorem exists_attached {config : EngineConfig} (h : config.fault? = none) (r : Resolver)
    (hoptions : r.options = config.hierarchy.options) :
    ∃ cache, config.attached = .ok cache ∧ r.Trusted cache := by
  unfold attached
  cases henabled : config.hierarchy.cacheEnabled with
  | false => exact ⟨none, rfl, .absent⟩
  | true =>
    obtain ⟨c, hc⟩ := MemoryCache.exists_ofOptions (o := config.cache.options) (capacity_pos h)
    have hon : r.options.cacheEnabled = true := by
      rw [hoptions, HierarchyConfig.options, henabled]
    refine ⟨some (.memory c), ?_, .coherent hon (Resolver.Coherent.of_ofOptions hc)⟩
    rw [if_pos rfl, hc]
    rfl

end EngineConfig

end RoleAccess
