import RoleAccess.Proofs.Role.Coherence

/-!
Sessions: runs that change a roster, read from it through a resolver, and let time pass and the
cache be purged in between. A session is settled if the change of a role is followed by the
invalidation of that role before the next reading. A reading in a settled session does not show
whether a cache is attached (`Session.ask_eq_uncached`).
-/

set_option autoImplicit false
set_option relaxedAutoImplicit false

namespace RoleAccess

/-- What can be asked about the inheritance of a role. -/
inductive Reading where
  | inherited (id : String)
  | parents (id : String) (limit : Option Nat)
  | hierarchy (id : String)

inductive Answer where
  | permissions (result : Except RoleError (List Permission))
  | roles (result : Except RoleError (List Role))

/-- The answer of a resolver, and the cache afterwards. -/
def Reading.ask (q : Reading) (r : Resolver) (now : Nat) (cache : Attached) : Answer × Attached :=
  match q with
  | .inherited about =>
    let (result, cache) := r.inheritedPermissions now about cache
    (.permissions result, cache)
  | .parents about limit =>
    let (result, cache) := r.parentRoles now about limit cache
    (.roles result, cache)
  | .hierarchy about =>
    let (result, cache) := r.rolesInHierarchy now about cache
    (.roles result, cache)

/-- A change of one role. -/
inductive Mutation where
  | insert (role : Role)
  | remove (id : String)
  | addParent (child parent : String)

namespace Mutation

/-- The id of the role that changes. -/
def about : Mutation → String
  | .insert role => role.id
  | .remove id => id
  | .addParent child _ => child

def apply : Mutation → Roster → Roster
  | .insert role, r => r.insert role
  | .remove id, r => r.erase id
  | .addParent child parent, r => r.addParent child parent

theorem sameExcept_apply (m : Mutation) (r : Roster) : r.SameExcept (m.apply r) m.about := by
  cases m with
  | insert role => exact Roster.sameExcept_insert r role
  | remove id => exact Roster.sameExcept_erase r id
  | addParent child parent => exact Roster.sameExcept_addParent r child parent

end Mutation

inductive SessionEvent where
  | advance (delay : Nat)
  | purge
  | read (q : Reading)
  | mutate (m : Mutation)
  | invalidate (id : String)

/-- The ids of the roles whose change has not been followed by an invalidation yet. -/
def SessionEvent.pending (before : List String) : SessionEvent → List String
  | .mutate m => m.about :: before
  | .invalidate id => before.filter (· ≠ id)
  | _ => before

/-- No reading comes while a change is pending. -/
def Settled : List String → List SessionEvent → Prop
  | _, [] => True
  | pending, e :: rest => (∀ q, e = .read q → pending = []) ∧ Settled (e.pending pending) rest

def CacheBackend.purge (now : Nat) : CacheBackend → CacheBackend
  | .memory c => .memory (c.purge now).2
  | .unavailable text => .unavailable text

structure Session where
  roster : Roster
  cache : Attached
  now : Nat

namespace Session

def step (o : ResolverOptions) (s : Session) : SessionEvent → Session
  | .advance delay => { s with now := s.now + delay }
  | .purge => { s with cache := s.cache.map (CacheBackend.purge s.now) }
  | .read q => { s with cache := (q.ask (.ofRoster o s.roster) s.now s.cache).2 }
  | .mutate m => { s with roster := m.apply s.roster }
  | .invalidate id => { s with cache := ((Resolver.ofRoster o s.roster).invalidate id s.cache).2 }

def run (o : ResolverOptions) (s : Session) (events : List SessionEvent) : Session :=
  events.foldl (step o) s

/-- The answer to a reading now, with the cache of the session or with none. -/
def answer (o : ResolverOptions) (s : Session) (q : Reading) : Answer :=
  (q.ask (.ofRoster o s.roster) s.now s.cache).1

def uncached (s : Session) : Session := { s with cache := none }

end Session

/-! ### One reading -/

/-- A cache that may not be used is left alone, and makes no difference. -/
theorem Reading.ask_disabled {r : Resolver} (h : r.options.cacheEnabled = false) (q : Reading)
    (now : Nat) (cache : Attached) : q.ask r now cache = ((q.ask r now none).1, cache) := by
  cases q with
  | inherited id =>
    simp only [ask, Resolver.inheritedPermissions, Resolver.withCache_disabled h]
  | parents id limit =>
    simp only [ask, Resolver.parentRoles, Resolver.withCache_disabled h]
  | hierarchy id =>
    simp only [ask, Resolver.rolesInHierarchy, Resolver.withCache_disabled h]

/-- With no change pending, a coherent cache gives the answers that no cache gives. -/
theorem Reading.ask_coherent {r : Resolver} {c : MemoryCache} (h : r.Coherent [] c)
    (henabled : r.options.cacheEnabled = true) (q : Reading) (now : Nat) :
    ∃ c', q.ask r now (some (.memory c)) = ((q.ask r now none).1, some (.memory c')) ∧
      r.Coherent [] c' := by
  cases q with
  | inherited id =>
    obtain ⟨c', hresult, hcoherent⟩ := h.inheritedPermissions henabled now id
    refine ⟨c', ?_, hcoherent⟩
    simp only [ask, hresult, r.inheritedPermissions_none]
  | parents id limit =>
    obtain ⟨c', hresult, hcoherent⟩ := h.parentRoles henabled now id limit
    refine ⟨c', ?_, hcoherent⟩
    simp only [ask, hresult, r.parentRoles_none]
  | hierarchy id =>
    obtain ⟨c', hresult, hcoherent⟩ := h.rolesInHierarchy henabled now id
    refine ⟨c', ?_, hcoherent⟩
    simp only [ask, hresult, r.rolesInHierarchy_none]

/-! ### A whole run -/

namespace Session

/-- A session with a cache in memory that is coherent as far as it is used. -/
def Faithful (o : ResolverOptions) (pending : List String) (s : Session) : Prop :=
  ∃ c : MemoryCache, s.cache = some (.memory c) ∧
    (o.cacheEnabled = true → (Resolver.ofRoster o s.roster).Coherent pending c)

theorem Faithful.answer {o : ResolverOptions} {s : Session} (h : s.Faithful o []) (q : Reading) :
    s.answer o q = s.uncached.answer o q := by
  obtain ⟨c, hcache, hcoherent⟩ := h
  cases henabled : o.cacheEnabled with
  | false =>
    unfold Session.answer
    rw [Reading.ask_disabled (r := Resolver.ofRoster o s.roster) henabled]
    rfl
  | true =>
    obtain ⟨c', hresult, -⟩ := q.ask_coherent (hcoherent henabled) henabled s.now
    unfold Session.answer
    rw [hcache, hresult]
    rfl

theorem Faithful.step {o : ResolverOptions} {pending : List String} {s : Session}
    (h : s.Faithful o pending) {e : SessionEvent} (hread : ∀ q, e = .read q → pending = []) :
    (s.step o e).Faithful o (e.pending pending) := by
  obtain ⟨c, hcache, hcoherent⟩ := h
  cases e with
  | advance delay => exact ⟨c, hcache, hcoherent⟩
  | purge =>
    refine ⟨(c.purge s.now).2, ?_, fun henabled ↦ (hcoherent henabled).purge s.now⟩
    simp only [Session.step, hcache, Option.map_some, CacheBackend.purge]
  | mutate m =>
    exact ⟨c, hcache, fun henabled ↦
      (hcoherent henabled).change (m.sameExcept_apply s.roster)⟩
  | read q =>
    obtain rfl := hread q rfl
    cases henabled : o.cacheEnabled with
    | false =>
      refine ⟨c, ?_, fun hon ↦ by simp [henabled] at hon⟩
      have hask := q.ask_disabled (r := Resolver.ofRoster o s.roster) henabled s.now s.cache
      exact (congrArg Prod.snd hask).trans hcache
    | true =>
      obtain ⟨c', hresult, hnext⟩ := q.ask_coherent (hcoherent henabled) henabled s.now
      refine ⟨c', ?_, fun _ ↦ hnext⟩
      simp only [Session.step, hcache, hresult]
  | invalidate id =>
    cases henabled : o.cacheEnabled with
    | false =>
      refine ⟨c, ?_, fun hon ↦ by simp [henabled] at hon⟩
      simp only [Session.step, Resolver.invalidate, Resolver.usable, Resolver.ofRoster, henabled,
        Bool.false_eq_true, if_false, hcache]
    | true =>
      obtain ⟨count, c', hresult, hnext⟩ := (hcoherent henabled).invalidate henabled rfl id
      refine ⟨c', ?_, fun _ ↦ hnext⟩
      simp only [Session.step, hcache, hresult]

theorem Faithful.run {o : ResolverOptions} {pending : List String} {s : Session}
    {before after : List SessionEvent} (h : s.Faithful o pending)
    (hsettled : Settled pending (before ++ after)) :
    ∃ left, (s.run o before).Faithful o left ∧ Settled left after := by
  induction before generalizing pending s with
  | nil => exact ⟨pending, h, hsettled⟩
  | cons e rest ih =>
    obtain ⟨hread, hrest⟩ := hsettled
    exact ih (h.step hread) hrest

theorem faithful_start (o : ResolverOptions) {limits : MemoryCacheOptions} {cache : MemoryCache}
    (hcache : MemoryCache.ofOptions limits = .ok cache) (roster : Roster) (now : Nat) :
    Faithful o [] ⟨roster, some (.memory cache), now⟩ :=
  ⟨cache, rfl, fun _ ↦ .of_ofOptions hcache⟩

/-- Whatever a settled session with a cache in memory does before a reading, the answer is the one
that a resolver without a cache gives over the roster of that moment. -/
theorem ask_eq_uncached (o : ResolverOptions) {limits : MemoryCacheOptions}
    (hcapacity : 0 < limits.capacity) (roster : Roster) (now : Nat) {before : List SessionEvent}
    {q : Reading} (hsettled : Settled [] (before ++ [.read q])) :
    ∃ cache, MemoryCache.ofOptions limits = .ok cache ∧
      (run o ⟨roster, some (.memory cache), now⟩ before).answer o q =
        (run o ⟨roster, some (.memory cache), now⟩ before).uncached.answer o q := by
  obtain ⟨cache, hcache⟩ := MemoryCache.exists_ofOptions hcapacity
  refine ⟨cache, hcache, ?_⟩
  obtain ⟨pending, hfaithful, hread, -⟩ := (faithful_start o hcache roster now).run hsettled
  obtain rfl := hread q rfl
  exact hfaithful.answer q

/-- Two roles, one the parent of the other, whose ids are globs. -/
def globIds : Roster := .ofList [⟨"a*", [], ["b:?"], true⟩, ⟨"b:?", [], [], true⟩]

/-- A reading of the one, and the removal of the other with its invalidation. -/
def orphaning : List SessionEvent :=
  [.read (.hierarchy "a*"), .mutate (.remove "b:?"), .advance 7, .invalidate "b:?"]

/-- A role that is orphaned between two readings, over a cache of one entry. -/
theorem ask_eq_uncached_orphaned :
    ∃ cache, MemoryCache.ofOptions { capacity := 1 } = .ok cache ∧
      (run {} ⟨globIds, some (.memory cache), 0⟩ orphaning).answer {} (.hierarchy "a*") =
        (run {} ⟨globIds, some (.memory cache), 0⟩ orphaning).uncached.answer {}
          (.hierarchy "a*") :=
  ask_eq_uncached {} (by decide) _ 0
    (by simp [orphaning, Settled, SessionEvent.pending, Mutation.about])

end Session

end RoleAccess
