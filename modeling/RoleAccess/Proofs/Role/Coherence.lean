import RoleAccess.Proofs.Cache.Contents
import RoleAccess.Proofs.Role.Downwards
import RoleAccess.Proofs.Role.KeptForms
import RoleAccess.Proofs.Role.KeptKeys
import RoleAccess.Proofs.Role.Loading

/-!
A resolver with a cache answers as one without. Every kept entry is about one role, and either is
what would be computed for that role now, or the role lies below one that has changed and whose
entries have not been dropped yet (`Kept`). A change of a role and the dropping of what is kept
below it preserve this, so once every change has been followed by its invalidation each entry is up
to date, and a reading with the cache gives the answer of one without (`Session.ask_eq_uncached`).
-/

set_option autoImplicit false
set_option relaxedAutoImplicit false

namespace RoleAccess

/-! ### What is computed without a cache -/

namespace Resolver

/-- The ancestors of a role within a limit, read afresh. -/
def freshParents (r : Resolver) (id : String) (limit : Nat) : Except RoleError (List Role) :=
  (r.source.require id).bind (r.source.ancestors (r.mode limit))

/-- The permissions of a role and of its active ancestors, read afresh. -/
def freshPermissions (r : Resolver) (id : String) : Except RoleError (List Permission) :=
  (r.source.require id).bind fun root ↦
    if root.active then
      (r.source.ancestors (r.mode r.options.maxDepth) root).map (collectPermissions root)
    else .ok []

/-- A role and its ancestors, read afresh. -/
def freshHierarchy (r : Resolver) (id : String) : Except RoleError (List Role) :=
  (r.source.require id).bind fun root ↦
    (r.source.ancestors (r.mode r.options.maxDepth) root).map (root :: ·)

theorem through_none {α : Type} (k : Keeping α) (now : Nat) {result : Except RoleError α}
    {compute : Attached → Except RoleError α × Attached} (h : compute none = (result, none)) :
    k.through none now compute = (result, none) := by
  simp only [Keeping.through, Keeping.fetch, h]
  cases result <;> rfl

theorem withCache_none {α : Type} (r : Resolver) {result : Except RoleError α}
    {read : Attached → Except RoleError α × Attached} (h : read none = (result, none)) :
    r.withCache none read = (result, none) := by
  have husable : r.usable none = none := by
    unfold usable
    split <;> rfl
  simp only [withCache, husable, h]
  split <;> rfl

theorem withCache_disabled {α : Type} {r : Resolver} (h : r.options.cacheEnabled = false)
    (cache : Attached) (read : Attached → Except RoleError α × Attached) :
    r.withCache cache read = ((read none).1, cache) := by
  simp only [withCache, usable, h, Bool.false_eq_true, if_false]

theorem withCache_enabled {α : Type} {r : Resolver} (h : r.options.cacheEnabled = true)
    (cache : Attached) (read : Attached → Except RoleError α × Attached) :
    r.withCache cache read = read cache := by
  simp only [withCache, usable, h, if_true]

theorem ancestors_none (r : Resolver) (now limit : Nat) (root : Role) :
    r.ancestors now limit root none = (r.source.ancestors (r.mode limit) root, none) :=
  through_none _ _ rfl

theorem inheritedPermissions_none (r : Resolver) (now : Nat) (id : String) :
    r.inheritedPermissions now id none = (r.freshPermissions id, none) := by
  refine r.withCache_none (through_none _ _ ?_)
  unfold freshPermissions
  cases r.source.require id with
  | error e => rfl
  | ok root =>
    simp only [ancestors_none, Except.bind]
    split <;> rfl

theorem parentRoles_none (r : Resolver) (now : Nat) (id : String) (limit : Option Nat) :
    r.parentRoles now id limit none =
      (r.freshParents id (limit.getD r.options.maxDepth), none) := by
  refine r.withCache_none ?_
  unfold freshParents
  cases r.source.require id with
  | error e => rfl
  | ok root => exact r.ancestors_none _ _ _

theorem rolesInHierarchy_none (r : Resolver) (now : Nat) (id : String) :
    r.rolesInHierarchy now id none = (r.freshHierarchy id, none) := by
  refine r.withCache_none ?_
  unfold freshHierarchy
  cases r.source.require id with
  | error e => rfl
  | ok root => simp only [ancestors_none, Except.bind]

end Resolver

/-! ### What is kept -/

/-- A key under which something about a role is kept. -/
def IsKeyOf (id key : String) : Prop :=
  key = permissionsKey id ∨ ∃ limit, key = hierarchyKey id limit

theorem IsKeyOf.covers {id key : String} (h : IsKeyOf id key) :
    Text.Glob.covers (roleGlob id) key = true := by
  rcases h with rfl | ⟨limit, rfl⟩
  · exact covers_permissionsKey id
  · exact covers_hierarchyKey id limit

namespace Resolver

/-- An entry from which what would be computed for the role now is read. -/
def UpToDate (r : Resolver) (id : String) (entry : String × Value) : Prop :=
  (∃ held, entry.1 = permissionsKey id ∧ (r.keptPermissions id).decode entry.2 = some held ∧
    r.freshPermissions id = .ok held) ∨
  ∃ limit held, entry.1 = hierarchyKey id limit ∧
    (r.keptRoles id limit).decode entry.2 = some held ∧ r.freshParents id limit = .ok held

/-- An entry about some role that is up to date, unless that role is or lies below one of those
whose changes are still pending. -/
def Kept (r : Resolver) (pending : List String) (entry : String × Value) : Prop :=
  ∃ id, IsKeyOf id entry.1 ∧
    (r.UpToDate id entry ∨ ∃ changed ∈ pending, r.source.roster.Names id changed)

structure Coherent (r : Resolver) (pending : List String) (c : MemoryCache) : Prop where
  sound : c.Sound
  kept : ∀ entry ∈ c.entries, r.Kept pending entry

theorem UpToDate.isKeyOf {r : Resolver} {id : String} {entry : String × Value}
    (h : r.UpToDate id entry) : IsKeyOf id entry.1 := by
  rcases h with ⟨held, hkey, -, -⟩ | ⟨limit, held, hkey, -, -⟩
  · exact Or.inl hkey
  · exact Or.inr ⟨limit, hkey⟩

theorem upToDate_permissions_iff {r : Resolver} {id about : String} {v : Value} :
    r.UpToDate about (permissionsKey id, v) ↔ about = id ∧
      ∃ held, (r.keptPermissions id).decode v = some held ∧ r.freshPermissions id = .ok held := by
  constructor
  · rintro (⟨held, hkey, hheld⟩ | ⟨limit, held, hkey, -⟩)
    · obtain rfl := permissionsKey_injective hkey
      exact ⟨rfl, held, hheld⟩
    · exact absurd hkey (permissionsKey_ne_hierarchyKey id about limit)
  · rintro ⟨rfl, held, hheld⟩
    exact Or.inl ⟨held, rfl, hheld⟩

theorem upToDate_hierarchy_iff {r : Resolver} {id about : String} {limit : Nat} {v : Value} :
    r.UpToDate about (hierarchyKey id limit, v) ↔ about = id ∧
      ∃ held, (r.keptRoles id limit).decode v = some held ∧
        r.freshParents id limit = .ok held := by
  constructor
  · rintro (⟨held, hkey, -⟩ | ⟨bound, held, hkey, hheld⟩)
    · exact absurd hkey.symm (permissionsKey_ne_hierarchyKey about id limit)
    · obtain ⟨rfl, rfl⟩ := hierarchyKey_injective hkey
      exact ⟨rfl, held, hheld⟩
  · rintro ⟨rfl, held, hheld⟩
    exact Or.inr ⟨limit, held, rfl, hheld⟩

namespace Coherent

variable {r : Resolver} {pending : List String} {c : MemoryCache}

/-- A new cache holds nothing that could be out of date. -/
theorem of_ofOptions {limits : MemoryCacheOptions} (h : MemoryCache.ofOptions limits = .ok c) :
    r.Coherent pending c := by
  obtain ⟨hsound, hempty⟩ := MemoryCache.sound_ofOptions h
  refine ⟨hsound, fun entry hentry ↦ ?_⟩
  rw [hempty] at hentry
  cases hentry

/-- Whatever only takes entries out of a cache leaves it coherent. -/
theorem of_subset (h : r.Coherent pending c) {c' : MemoryCache} (hsound : c'.Sound)
    (hsub : c'.entries ⊆ c.entries) : r.Coherent pending c' :=
  ⟨hsound, fun entry hentry ↦ h.kept entry (hsub hentry)⟩

theorem get (h : r.Coherent pending c) (now : Nat) (key : String) :
    r.Coherent pending (c.get now key).2 :=
  have hget := MemoryCache.sound_get h.sound now key
  h.of_subset hget.2.1 hget.2.2

theorem purge (h : r.Coherent pending c) (now : Nat) : r.Coherent pending (c.purge now).2 :=
  have hpurge := MemoryCache.sound_purge h.sound now
  h.of_subset hpurge.1 hpurge.2

theorem set (h : r.Coherent pending c) (now : Nat) {id key : String} {value : Value}
    (hnew : r.UpToDate id (key, value)) (o : WriteOptions) :
    r.Coherent pending (c.set now key value o) := by
  obtain ⟨hsound, hentries⟩ := MemoryCache.sound_set h.sound now key value o
  refine ⟨hsound, fun entry hentry ↦ ?_⟩
  rcases hentries entry hentry with rfl | hold
  · exact ⟨id, hnew.isKeyOf, Or.inl hnew⟩
  · exact h.kept entry hold

/-- With no change pending, a read entry is up to date. -/
theorem upToDate_of_get (h : r.Coherent [] c) {now : Nat} {key : String} {v : Value}
    (hv : (c.get now key).1 = some v) : ∃ id, r.UpToDate id (key, v) := by
  obtain ⟨id, -, hdate | ⟨changed, hchanged, -⟩⟩ :=
    h.kept _ ((MemoryCache.sound_get h.sound now key).1 v hv)
  · exact ⟨id, hdate⟩
  · cases hchanged

/-- A result that is kept or else computed is the expected one, if up to date entries give it and
the computation does. -/
theorem through {α : Type} {k : Keeping α} {expected : Except RoleError α} {now : Nat}
    {compute : Attached → Except RoleError α × Attached} (h : r.Coherent [] c)
    (hheld : ∀ id v, r.UpToDate id (k.key, v) → ∃ a, k.decode v = some a ∧ expected = .ok a)
    (hkeep : ∀ a, expected = .ok a → ∃ id, r.UpToDate id (k.key, k.encode a))
    (hcompute : ∀ c, r.Coherent [] c → ∃ c',
      compute (some (.memory c)) = (expected, some (.memory c')) ∧ r.Coherent [] c') :
    ∃ c', k.through (some (.memory c)) now compute = (expected, some (.memory c')) ∧
      r.Coherent [] c' := by
  have hget := h.get now k.key
  cases hv : (c.get now k.key).1 with
  | some v =>
    obtain ⟨id, hdate⟩ := h.upToDate_of_get hv
    obtain ⟨a, hdecode, hexpected⟩ := hheld id v hdate
    refine ⟨(c.get now k.key).2, ?_, hget⟩
    simp only [Keeping.through, Keeping.fetch, CacheBackend.get, hv, Option.bind_some, hdecode,
      hexpected]
  | none =>
    obtain ⟨c', hresult, hcoherent⟩ := hcompute _ hget
    simp only [Keeping.through, Keeping.fetch, CacheBackend.get, hv, Option.bind_none, hresult]
    cases expected with
    | error e => exact ⟨c', rfl, hcoherent⟩
    | ok a =>
      obtain ⟨id, hdate⟩ := hkeep a rfl
      exact ⟨_, rfl, hcoherent.set now hdate _⟩

theorem ancestors (h : r.Coherent [] c) (now limit : Nat) {id : String} {root : Role}
    (hroot : r.source.require id = .ok root) :
    ∃ c', r.ancestors now limit root (some (.memory c)) =
        (r.source.ancestors (r.mode limit) root, some (.memory c')) ∧ r.Coherent [] c' := by
  obtain rfl := RoleSource.id_of_require hroot
  have hfresh : r.freshParents root.id limit = r.source.ancestors (r.mode limit) root := by
    rw [freshParents, hroot]
    rfl
  refine h.through (fun id v hdate ↦ ?_) (fun held hheld ↦ ⟨root.id, ?_⟩)
    fun c' hc' ↦ ⟨c', rfl, hc'⟩
  · obtain ⟨-, held, hdecode, hheld⟩ := upToDate_hierarchy_iff.mp hdate
    exact ⟨held, hdecode, hfresh ▸ hheld⟩
  · exact upToDate_hierarchy_iff.mpr
      ⟨rfl, held, Value.asList?_map Role.ofValue?_toValue held, hfresh.trans hheld⟩

end Coherent

namespace Coherent

variable {r : Resolver} {c : MemoryCache}

/-- A reading of a cache that may be used. -/
theorem withCache {α : Type} (henabled : r.options.cacheEnabled = true)
    {expected : Except RoleError α} {read : Attached → Except RoleError α × Attached}
    (hread : ∃ c', read (some (.memory c)) = (expected, some (.memory c')) ∧ r.Coherent [] c') :
    ∃ c', r.withCache (some (.memory c)) read = (expected, some (.memory c')) ∧
      r.Coherent [] c' := by
  obtain ⟨c', hresult, hcoherent⟩ := hread
  refine ⟨c', ?_, hcoherent⟩
  simp only [Resolver.withCache, usable, henabled, if_true, hresult]

theorem parentRoles (h : r.Coherent [] c) (henabled : r.options.cacheEnabled = true) (now : Nat)
    (id : String) (limit : Option Nat) :
    ∃ c', r.parentRoles now id limit (some (.memory c)) =
        (r.freshParents id (limit.getD r.options.maxDepth), some (.memory c')) ∧
      r.Coherent [] c' := by
  refine withCache henabled ?_
  unfold freshParents
  cases hroot : r.source.require id with
  | error e => exact ⟨c, rfl, h⟩
  | ok root => exact h.ancestors now _ hroot

theorem rolesInHierarchy (h : r.Coherent [] c) (henabled : r.options.cacheEnabled = true)
    (now : Nat) (id : String) :
    ∃ c', r.rolesInHierarchy now id (some (.memory c)) =
        (r.freshHierarchy id, some (.memory c')) ∧ r.Coherent [] c' := by
  refine withCache henabled ?_
  unfold freshHierarchy
  cases hroot : r.source.require id with
  | error e => exact ⟨c, rfl, h⟩
  | ok root =>
    obtain ⟨c', hresult, hcoherent⟩ := h.ancestors now r.options.maxDepth hroot
    simp only [hresult]
    exact ⟨c', rfl, hcoherent⟩

theorem inheritedPermissions (h : r.Coherent [] c) (henabled : r.options.cacheEnabled = true)
    (now : Nat) (id : String) :
    ∃ c', r.inheritedPermissions now id (some (.memory c)) =
        (r.freshPermissions id, some (.memory c')) ∧ r.Coherent [] c' := by
  refine withCache henabled (h.through (fun about v hdate ↦ ?_) (fun held hheld ↦ ⟨id, ?_⟩)
    fun c' hc' ↦ ?_)
  · obtain ⟨-, held, hdecode, hheld⟩ := upToDate_permissions_iff.mp hdate
    exact ⟨held, hdecode, hheld⟩
  · exact upToDate_permissions_iff.mpr
      ⟨rfl, held, Value.asList?_map Permission.ofValue?_toValue held, hheld⟩
  · unfold freshPermissions
    cases hroot : r.source.require id with
    | error e => exact ⟨c', rfl, hc'⟩
    | ok root =>
      simp only [Except.bind]
      cases root.active with
      | false => exact ⟨c', rfl, hc'⟩
      | true =>
        obtain ⟨last, hresult, hcoherent⟩ :=
          hc'.ancestors now r.options.maxDepth hroot
        simp only [hresult, if_true]
        exact ⟨last, rfl, hcoherent⟩

end Coherent

/-! ### Caches that do not show -/

/-- No cache at all, or one that may be used and with no change pending. -/
inductive Trusted (r : Resolver) : Attached → Prop
  | absent : Trusted r none
  | coherent {c : MemoryCache} (henabled : r.options.cacheEnabled = true) (h : r.Coherent [] c) :
    Trusted r (some (.memory c))

theorem Trusted.inheritedPermissions {r : Resolver} {cache : Attached} (h : r.Trusted cache)
    (now : Nat) (id : String) : ∃ after,
      r.inheritedPermissions now id cache = (r.freshPermissions id, after) ∧ r.Trusted after := by
  cases h with
  | absent => exact ⟨none, r.inheritedPermissions_none now id, .absent⟩
  | coherent henabled h =>
    obtain ⟨c', hresult, hcoherent⟩ := h.inheritedPermissions henabled now id
    exact ⟨_, hresult, .coherent henabled hcoherent⟩

theorem Trusted.parentRoles {r : Resolver} {cache : Attached} (h : r.Trusted cache) (now : Nat)
    (id : String) (limit : Option Nat) : ∃ after,
      r.parentRoles now id limit cache =
        (r.freshParents id (limit.getD r.options.maxDepth), after) ∧ r.Trusted after := by
  cases h with
  | absent => exact ⟨none, r.parentRoles_none now id limit, .absent⟩
  | coherent henabled h =>
    obtain ⟨c', hresult, hcoherent⟩ := h.parentRoles henabled now id limit
    exact ⟨_, hresult, .coherent henabled hcoherent⟩

/-! ### Dropping what is kept -/

theorem foldl_drop {c : MemoryCache} (h : c.Sound) (ids : List String) (count : Nat) :
    ∃ (total : Nat) (c' : MemoryCache), ids.foldl drop (count, .memory c) = (total, .memory c') ∧
      c'.Sound ∧ ∀ entry, entry ∈ c'.entries ↔
        entry ∈ c.entries ∧ ∀ id ∈ ids, Text.Glob.covers (roleGlob id) entry.1 = false := by
  induction ids generalizing c count with
  | nil => exact ⟨count, c, rfl, h, by simp⟩
  | cons id rest ih =>
    obtain ⟨hsound, hentries⟩ := MemoryCache.sound_deletePattern h (roleGlob id)
    obtain ⟨total, c', hresult, hlast, hmem⟩ := ih hsound (count + (c.deletePattern _).1)
    refine ⟨total, c', hresult, hlast, fun entry ↦ ?_⟩
    rw [hmem, hentries, List.mem_filter, List.forall_mem_cons, and_assoc, Bool.not_eq_true']

/-- Invalidation leaves no entry about a role from which the changed one can be reached. -/
theorem Coherent.invalidate {r : Resolver} {pending : List String} {c : MemoryCache}
    (h : r.Coherent pending c) (henabled : r.options.cacheEnabled = true)
    (hanswers : r.source.failedChildren = []) (changed : String) :
    ∃ (count : Nat) (c' : MemoryCache),
      r.invalidate changed (some (.memory c)) = (.ok count, some (.memory c')) ∧
      r.Coherent (pending.filter (· ≠ changed)) c' := by
  obtain ⟨roles, hroles⟩ := RoleSource.exists_descend_of_no_failure hanswers changed
  obtain ⟨count, c', hresult, hsound, hmem⟩ := foldl_drop h.sound (r.source.descend changed).asked 0
  refine ⟨count, c', ?_, hsound, fun entry hentry ↦ ?_⟩
  · simp only [Resolver.invalidate, usable, henabled, if_true, hresult, hroles]
    rfl
  obtain ⟨hold, hfree⟩ := (hmem entry).mp hentry
  obtain ⟨id, hkey, hkept⟩ := h.kept entry hold
  refine ⟨id, hkey, hkept.imp_right fun ⟨other, hother, hnames⟩ ↦ ⟨other, ?_, hnames⟩⟩
  refine List.mem_filter.mpr ⟨hother, decide_eq_true fun heq ↦ ?_⟩
  have hasked := (RoleSource.mem_asked_descend_iff hroles).mpr (heq ▸ hnames)
  have hcovered := hfree id hasked
  rw [hkey.covers] at hcovered
  cases hcovered

/-! ### Changing a role -/

theorem require_congr {s s' : RoleSource} {id : String} (h : s'.find? id = s.find? id) :
    s'.require id = s.require id := by
  unfold RoleSource.require
  rw [h]

theorem ancestors_congr {s s' : RoleSource} {root : Role} (mode : WalkMode)
    (hroot : s.roster.find? root.id = some root)
    (h : ∀ other, s.roster.Names root.id other → s'.find? other = s.find? other) :
    s'.ancestors mode root = s.ancestors mode root := by
  unfold RoleSource.ancestors
  rw [RoleSource.snapshot_congr hroot h]

/-- What is computed for a role only depends on the ids named above it. -/
theorem fresh_congr (r r' : Resolver) (id : String) (hoptions : r'.options = r.options)
    (h : ∀ other, r.source.roster.Names id other →
      r'.source.find? other = r.source.find? other) :
    r'.freshPermissions id = r.freshPermissions id ∧
      ∀ limit, r'.freshParents id limit = r.freshParents id limit := by
  have hmode : r'.mode = r.mode := by
    funext limit
    rw [mode, mode, hoptions]
  unfold freshPermissions freshParents
  rw [require_congr (h id .refl), hmode, hoptions]
  cases hroot : r.source.require id with
  | error e => exact ⟨rfl, fun limit ↦ rfl⟩
  | ok root =>
    obtain rfl := RoleSource.id_of_require hroot
    have hsame := fun mode ↦
      ancestors_congr mode (RoleSource.roster_find?_of_require hroot) h
    simp only [Except.bind, hsame, true_and]
    exact fun limit ↦ trivial

/-- The resolver over a roster. -/
def ofRoster (o : ResolverOptions) (roster : Roster) : Resolver := ⟨o, { roster }⟩

/-- A change of one role only touches what is kept about the roles at and below it. -/
theorem Coherent.change {o : ResolverOptions} {roster roster' : Roster} {pending : List String}
    {c : MemoryCache} (h : (ofRoster o roster).Coherent pending c) {changed : String}
    (hsame : roster.SameExcept roster' changed) :
    (ofRoster o roster').Coherent (changed :: pending) c := by
  refine ⟨h.sound, fun entry hentry ↦ ?_⟩
  obtain ⟨id, hkey, hkept⟩ := h.kept entry hentry
  refine ⟨id, hkey, ?_⟩
  rcases hkept with hdate | ⟨other, hother, hnames⟩
  -- An entry that was up to date stays so, unless the change can be reached from its role.
  · by_cases hreach : roster.Names id changed
    · refine Or.inr ⟨changed, List.mem_cons_self, ?_⟩
      exact (hsame.names hreach).elim (fun hway ↦ hway) fun hway ↦ hway
    · obtain ⟨hpermissions, hparents⟩ :=
        fresh_congr (ofRoster o roster) (ofRoster o roster') id rfl fun other hother ↦
          congrArg Except.ok (hsame.find?_of_not_names hreach hother)
      refine Or.inl (hdate.imp (fun ⟨held, hk, hdecode, hheld⟩ ↦ ?_)
        fun ⟨limit, held, hk, hdecode, hheld⟩ ↦ ?_)
      · exact ⟨held, hk, hdecode, hpermissions.trans hheld⟩
      · exact ⟨limit, held, hk, hdecode, (hparents limit).trans hheld⟩
  · rcases hsame.names hnames with hway | hway
    · exact Or.inr ⟨other, List.mem_cons_of_mem _ hother, hway⟩
    · exact Or.inr ⟨changed, List.mem_cons_self, hway⟩

end Resolver

end RoleAccess
