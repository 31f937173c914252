import RoleAccess.Proofs.Cache.Readings
import RoleAccess.Proofs.Role.Discovery
import RoleAccess.Proofs.Role.Session

/-!
How old the answers of a session can be that does not invalidate what it keeps. Each entry of the
cache is traced to the moment at which it was written: a list of ancestors shows the roster of that
moment, and a permission set shows rosters that were no older, at that moment, than a list of
ancestors may get (`Told`). So a permission that is read was held, by the role or by an active role
above it, no longer ago than the two times to live together (`Session.exists_holds_of_answer`).
-/

set_option autoImplicit false
set_option relaxedAutoImplicit false

namespace RoleAccess

namespace Roster

/-- The role itself has the permission, or some active role above it has. -/
def Holds (r : Roster) (id : String) (p : Permission) : Prop :=
  (∃ role, r.find? id = some role ∧ p ∈ role.permissions) ∨
    ∃ above, r.find? above.id = some above ∧ above.active = true ∧
      Relation.TransGen r.Parent id above.id ∧ p ∈ above.permissions

/-- These are roles of the roster, and they lie above the role with the id. -/
def AllAbove (r : Roster) (id : String) (found : List Role) : Prop :=
  ∀ role ∈ found, r.find? role.id = some role ∧ Relation.TransGen r.Parent id role.id

end Roster

/-! ### What entries tell -/

/-- A value that may have been written under a key at some moment of a session, to be kept for so
long. -/
inductive Told (o : ResolverOptions) (seen : Session → Prop) (wrote : Session) :
    String → Nat → Value → Prop
  | permissions {id : String} {held : List Permission}
    (holds : ∀ p ∈ held, ∃ m, seen m ∧ wrote.now ≤ m.now + o.hierarchyTtl ∧
      m.roster.Holds id p) :
    Told o seen wrote (permissionsKey id) o.permissionsTtl
      (.array (held.map Permission.toValue))
  | ancestors {id : String} {limit : Nat} {found : List Role}
    (above : wrote.roster.AllAbove id found) :
    Told o seen wrote (hierarchyKey id limit) o.hierarchyTtl (.array (found.map Role.toValue))

/-- Every entry was written at some moment that has been seen, and is kept from then on. -/
structure Dated (o : ResolverOptions) (seen : Session → Prop) (c : MemoryCache) : Prop where
  whole : c.Whole
  told : ∀ key (x : Holding), c.standing key = x.standing →
    ∃ wrote ttl, seen wrote ∧ Told o seen wrote key ttl x.value ∧
      x.lease = .granted wrote.now (some ttl) false

section Keeping

variable {o : ResolverOptions} {seen seen' : Session → Prop} {wrote : Session} {c c' : MemoryCache}
  {id key : String} {ttl limit : Nat} {v : Value}

theorem Told.mono (h : Told o seen wrote key ttl v) (hseen : ∀ m, seen m → seen' m) :
    Told o seen' wrote key ttl v := by
  cases h with
  | permissions holds =>
    refine .permissions fun p hp ↦ ?_
    obtain ⟨m, hm, hage, hholds⟩ := holds p hp
    exact ⟨m, hseen m hm, hage, hholds⟩
  | ancestors above => exact .ancestors above

theorem Told.of_permissionsKey (h : Told o seen wrote (permissionsKey id) ttl v) :
    ttl = o.permissionsTtl ∧ ∃ held, v = .array (List.map Permission.toValue held) ∧
      ∀ p ∈ held, ∃ m, seen m ∧ wrote.now ≤ m.now + o.hierarchyTtl ∧ m.roster.Holds id p := by
  generalize hkey : permissionsKey id = key at h
  cases h with
  | permissions holds =>
    obtain rfl := permissionsKey_injective hkey
    exact ⟨rfl, _, rfl, holds⟩
  | ancestors above => exact absurd hkey (permissionsKey_ne_hierarchyKey _ _ _)

theorem Told.of_hierarchyKey (h : Told o seen wrote (hierarchyKey id limit) ttl v) :
    ttl = o.hierarchyTtl ∧ ∃ found, v = .array (List.map Role.toValue found) ∧
      wrote.roster.AllAbove id found := by
  generalize hkey : hierarchyKey id limit = key at h
  cases h with
  | permissions holds => exact absurd hkey.symm (permissionsKey_ne_hierarchyKey _ _ _)
  | ancestors above =>
    obtain ⟨rfl, -⟩ := hierarchyKey_injective hkey
    exact ⟨rfl, _, rfl, above⟩

namespace Dated

/-- A new cache holds nothing. -/
theorem of_ofOptions {limits : MemoryCacheOptions} (h : MemoryCache.ofOptions limits = .ok c) :
    Dated o seen c := by
  obtain ⟨hwhole, hempty, -⟩ := MemoryCache.whole_ofOptions h
  refine ⟨hwhole, fun key x hx ↦ ?_⟩
  rw [hempty] at hx
  cases hx

theorem mono (h : Dated o seen c) (hseen : ∀ m, seen m → seen' m) : Dated o seen' c := by
  refine ⟨h.whole, fun key x hx ↦ ?_⟩
  obtain ⟨wrote, ttl, hwrote, htold, hlease⟩ := h.told key x hx
  exact ⟨wrote, ttl, hseen wrote hwrote, htold.mono hseen, hlease⟩

/-- Whatever only takes keys out of a cache leaves the others dated. -/
theorem of_removed {gone : String → Prop} [DecidablePred gone] (h : Dated o seen c)
    (hb : c.Became c' fun key ↦ if gone key then {} else c.standing key) : Dated o seen c' := by
  constructor
  · exact hb.whole fun key ↦ MemoryCache.whole_gone h.whole (gone key) key
  · intro key x hx
    rw [hb.standing] at hx
    dsimp only at hx
    split at hx
    · cases hx
    · exact h.told key x hx

theorem purge (h : Dated o seen c) (now : Nat) : Dated o seen (c.purge now).2 :=
  h.of_removed (MemoryCache.became_purge h.whole.inOrder now)

theorem foldl_drop (h : Dated o seen c) (ids : List String) (count : Nat) :
    ∃ (total : Nat) (c' : MemoryCache),
      ids.foldl Resolver.drop (count, .memory c) = (total, .memory c') ∧ Dated o seen c' := by
  induction ids generalizing c count with
  | nil => exact ⟨count, c, rfl, h⟩
  | cons id rest ih =>
    have hdropped : Dated o seen (c.deletePattern (roleGlob id)).2 :=
      h.of_removed (MemoryCache.became_deleteAll h.whole.inOrder _)
    exact ih hdropped _

/-- No lease slides, so that reading renews none. -/
theorem map_renewed (h : Dated o seen c) (now : Nat) (key : String) :
    (c.standing key).lease.map (·.renewed now) = (c.standing key).lease := by
  cases hlease : (c.standing key).lease with
  | none => rfl
  | some lease =>
    have hleased := (h.whole.standing key).leased
    rw [hlease, Option.isSome_some] at hleased
    obtain ⟨v, hv⟩ := Option.isSome_iff_exists.mp hleased.symm
    obtain ⟨x, hx, -⟩ := (h.whole.standing key).exists_holding hv
    obtain ⟨wrote, ttl, -, -, hgranted⟩ := h.told key x hx
    have hsame : lease = x.lease := Option.some.inj (hlease.symm.trans (congrArg _ hx))
    rw [hsame, hgranted]
    rfl

/-- What is read was written so lately that it is not over yet. -/
theorem get (h : Dated o seen c) (now : Nat) (key : String) :
    Dated o seen (c.get now key).2 ∧ ∀ v, (c.get now key).1 = some v →
      ∃ wrote ttl, seen wrote ∧ Told o seen wrote key ttl v ∧
        (wrote.now + ttl < endOfTime → now ≤ wrote.now + ttl) := by
  constructor
  · have hread : Function.update c.standing key ((c.standing key).read now) = fun other ↦
        if other = key ∧ (c.standing key).lease.any (·.isOver now) then {}
        else c.standing other := by
      funext other
      by_cases hother : other = key
      · subst hother
        rw [Function.update_self, Standing.read, h.map_renewed]
        simp only [true_and]
      · rw [Function.update_of_ne hother, if_neg fun hboth ↦ hother hboth.1]
    exact h.of_removed (hread ▸ (MemoryCache.became_get h.whole now key).2)
  · intro v hv
    obtain ⟨x, hx, rfl, halive⟩ := (h.whole.get_eq_some_iff now key v).mp hv
    obtain ⟨wrote, ttl, hwrote, htold, hlease⟩ := h.told key x hx
    refine ⟨wrote, ttl, hwrote, htold, fun hrepresentable ↦ halive _ ?_⟩
    rw [hlease]
    exact Lease.dueAt_eq_some_iff.mpr ⟨rfl, hrepresentable⟩

theorem set (h : Dated o seen c) (hwrote : seen wrote) (htold : Told o seen wrote key ttl v)
    (tags : List String) :
    Dated o seen (c.set wrote.now key v { ttl := some ttl, tags }) := by
  have hb := MemoryCache.became_set h.whole.inOrder wrote.now key v { ttl := some ttl, tags }
  constructor
  · refine hb.whole fun other ↦ ?_
    split
    · exact ⟨rfl, fun _ ↦ rfl⟩
    · exact MemoryCache.whole_gone h.whole _ other
  · intro other x hx
    rw [hb.standing] at hx
    dsimp only at hx
    split at hx
    next heq =>
      obtain ⟨hvalue, hlease, -⟩ := Standing.mk.inj hx
      refine ⟨wrote, ttl, hwrote, ?_, (Option.some.inj hlease).symm⟩
      rw [← Option.some.inj hvalue, heq]
      exact htold
    next =>
      split at hx
      · cases hx
      · exact h.told other x hx

/-- A result that is kept or else computed has what kept results and computed ones have. -/
theorem through {α : Type} {k : Keeping α} {good : α → Prop} {s : Session}
    {compute : Attached → Except RoleError α × Attached} (h : Dated o seen c) (hs : seen s)
    (hkept : ∀ wrote ttl v, seen wrote → Told o seen wrote k.key ttl v →
      (wrote.now + ttl < endOfTime → s.now ≤ wrote.now + ttl) →
        ∃ a, k.decode v = some a ∧ good a)
    (hcompute : ∀ c, Dated o seen c → ∃ result c',
      compute (some (.memory c)) = (result, some (.memory c')) ∧ Dated o seen c' ∧
        ∀ a, result = .ok a → good a ∧ Told o seen s k.key k.ttl (k.encode a)) :
    ∃ result c', k.through (some (.memory c)) s.now compute = (result, some (.memory c')) ∧
      Dated o seen c' ∧ ∀ a, result = .ok a → good a := by
  obtain ⟨hget, hread⟩ := h.get s.now k.key
  cases hv : (c.get s.now k.key).1 with
  | some v =>
    obtain ⟨wrote, ttl, hwrote, htold, hage⟩ := hread v hv
    obtain ⟨a, hdecode, hgood⟩ := hkept wrote ttl v hwrote htold hage
    refine ⟨.ok a, (c.get s.now k.key).2, ?_, hget, fun b hb ↦ Except.ok.inj hb ▸ hgood⟩
    simp only [Keeping.through, Keeping.fetch, CacheBackend.get, hv, Option.bind_some, hdecode]
  | none =>
    obtain ⟨result, c', hresult, hdated, hgood⟩ := hcompute _ hget
    simp only [Keeping.through, Keeping.fetch, CacheBackend.get, hv, Option.bind_none, hresult]
    cases result with
    | error e => exact ⟨.error e, c', rfl, hdated, fun a ha ↦ by cases ha⟩
    | ok a =>
      obtain ⟨ha, htold⟩ := hgood a rfl
      exact ⟨.ok a, _, rfl, hdated.set hs htold _, fun b hb ↦ Except.ok.inj hb ▸ ha⟩

/-- What has been read can be read again. -/
theorem get_again (h : Dated o seen c) {now : Nat} (hv : (c.get now key).1 = some v) :
    ((c.get now key).2.get now key).1 = some v := by
  obtain ⟨hvalue, hb⟩ := MemoryCache.became_get h.whole now key
  rw [hv] at hvalue
  rw [(MemoryCache.became_get (h.get now key).1.whole now key).1, hb.standing,
    Function.update_self, hvalue]
  unfold Standing.read at hvalue ⊢
  split at hvalue
  · cases hvalue
  next hover =>
    rw [if_neg hover, h.map_renewed, if_neg hover]

/-- A result is read again at once, whatever would be computed in its place. -/
theorem through_again {α : Type} {k : Keeping α} {now : Nat} {a : α}
    {compute compute' : Attached → Except RoleError α × Attached} (h : Dated o seen c)
    (hform : ∀ a, k.decode (k.encode a) = some a)
    (hcompute : ∀ c, Dated o seen c → ∃ result c',
      compute (some (.memory c)) = (result, some (.memory c')) ∧ Dated o seen c')
    (hfirst : k.through (some (.memory c)) now compute = (.ok a, some (.memory c'))) :
    (k.through (some (.memory c')) now compute').1 = .ok a := by
  suffices hagain : ∃ v, (c'.get now k.key).1 = some v ∧ k.decode v = some a by
    obtain ⟨v, hv, hdecode⟩ := hagain
    simp only [Keeping.through, Keeping.fetch, CacheBackend.get, hv, Option.bind_some, hdecode]
  simp only [Keeping.through, Keeping.fetch, CacheBackend.get] at hfirst
  cases hheld : (c.get now k.key).1.bind k.decode with
  | some b =>
    obtain ⟨v, hv, hdecode⟩ := Option.bind_eq_some_iff.mp hheld
    rw [hheld] at hfirst
    cases hfirst
    exact ⟨v, h.get_again hv, hdecode⟩
  | none =>
    obtain ⟨result, c'', hresult, hdated⟩ := hcompute _ (h.get now k.key).1
    rw [hheld] at hfirst
    simp only [hresult] at hfirst
    cases result with
    | error e => cases hfirst
    | ok b =>
      cases hfirst
      exact ⟨k.encode a, hdated.whole.get_set now k.key _ _, hform a⟩

end Dated

end Keeping

/-! ### Readings -/

/-- A moment of a session as far as it has gone, early enough for every time to live. -/
structure Latest (o : ResolverOptions) (seen : Session → Prop) (s : Session) : Prop where
  here : seen s
  past : ∀ m, seen m → m.now ≤ s.now
  permissionsTtl : s.now + o.permissionsTtl < endOfTime
  hierarchyTtl : s.now + o.hierarchyTtl < endOfTime

/-- The ancestors were above the role no longer ago than a list of ancestors is kept. -/
def Session.LatelyAbove (o : ResolverOptions) (seen : Session → Prop) (s : Session) (id : String)
    (found : List Role) : Prop :=
  ∃ m, seen m ∧ s.now ≤ m.now + o.hierarchyTtl ∧ m.roster.AllAbove id found

/-- The permission was held no longer ago than some time. -/
def Session.LatelyHeld (seen : Session → Prop) (s : Session) (age : Nat) (id : String)
    (p : Permission) : Prop :=
  ∃ m, seen m ∧ s.now ≤ m.now + age ∧ m.roster.Holds id p

section Readings

variable {o : ResolverOptions} {seen : Session → Prop} {s : Session} {c : MemoryCache}
  {id : String} {root : Role}

theorem Latest.latelyAbove (h : Latest o seen s) {mode : WalkMode} {found : List Role}
    (hroot : s.roster.find? root.id = some root)
    (hfound : RoleSource.ancestors { roster := s.roster } mode root = .ok found) :
    s.LatelyAbove o seen root.id found :=
  ⟨s, h.here, Nat.le_add_right _ _, fun _ hrole ↦ RoleSource.mem_ancestors hroot hfound hrole⟩

/-- What is collected for a role from a list of ancestors was held as lately as that list is. -/
theorem Latest.latelyHeld (h : Latest o seen s) {found : List Role} {p : Permission}
    (hroot : s.roster.find? root.id = some root) (hfound : s.LatelyAbove o seen root.id found)
    (hp : p ∈ collectPermissions root found) : s.LatelyHeld seen o.hierarchyTtl root.id p := by
  rcases mem_collectPermissions hp with hown | ⟨role, hrole, hactive, hheld⟩
  · exact ⟨s, h.here, Nat.le_add_right _ _, Or.inl ⟨root, hroot, hown⟩⟩
  · obtain ⟨m, hm, hage, habove⟩ := hfound
    obtain ⟨hpresent, hway⟩ := habove role hrole
    exact ⟨m, hm, hage, Or.inr ⟨role, hpresent, hactive, hway, hheld⟩⟩

theorem Dated.ancestors (h : Dated o seen c) (hlatest : Latest o seen s) (limit : Nat)
    (hroot : s.roster.find? root.id = some root) :
    ∃ result c', (Resolver.ofRoster o s.roster).ancestors s.now limit root (some (.memory c)) =
        (result, some (.memory c')) ∧ Dated o seen c' ∧
      ∀ found, result = .ok found → s.LatelyAbove o seen root.id found := by
  refine h.through hlatest.here (fun wrote ttl v hwrote htold hage ↦ ?_)
    fun c' hc' ↦ ⟨_, c', rfl, hc', fun found hfound ↦ ?_⟩
  · obtain ⟨rfl, found, rfl, habove⟩ := htold.of_hierarchyKey
    have hrepresentable := Nat.lt_of_le_of_lt
      (Nat.add_le_add_right (hlatest.past wrote hwrote) o.hierarchyTtl) hlatest.hierarchyTtl
    exact ⟨found, Value.asList?_map Role.ofValue?_toValue found, wrote, hwrote,
      hage hrepresentable, habove⟩
  · have habove : s.roster.AllAbove root.id found :=
      fun role hrole ↦ RoleSource.mem_ancestors hroot hfound hrole
    exact ⟨hlatest.latelyAbove hroot hfound, .ancestors habove⟩

/-- Without a kept permission set, what is collected was held no longer ago than a list of ancestors
is kept. -/
theorem Latest.freshPermissions (h : Latest o seen s) {held : List Permission}
    (hheld : (Resolver.ofRoster o s.roster).freshPermissions id = .ok held) :
    ∀ p ∈ held, s.LatelyHeld seen o.hierarchyTtl id p := by
  intro p hp
  unfold Resolver.freshPermissions at hheld
  cases hrequire : (Resolver.ofRoster o s.roster).source.require id with
  | error e => simp [hrequire, Except.bind] at hheld
  | ok root =>
    obtain rfl := RoleSource.id_of_require hrequire
    have hroot := RoleSource.roster_find?_of_require hrequire
    rw [hrequire, Except.bind] at hheld
    split at hheld
    · cases hfound : (Resolver.ofRoster o s.roster).source.ancestors
          ((Resolver.ofRoster o s.roster).mode (Resolver.ofRoster o s.roster).options.maxDepth)
          root with
      | error e => simp [hfound, Except.map] at hheld
      | ok found =>
        rw [hfound, Except.map, Except.ok.injEq] at hheld
        exact h.latelyHeld hroot (h.latelyAbove hroot hfound) (hheld ▸ hp)
    · cases hheld
      cases hp

/-- A permission set that is collected with the cache is as good as the list of ancestors. -/
theorem Dated.collect (h : Dated o seen c) (hlatest : Latest o seen s) (id : String) :
    ∃ result c', (match (Resolver.ofRoster o s.roster).source.require id with
      | .error e => (.error e, some (.memory c))
      | .ok root =>
        if root.active then
          let (found, cache) := (Resolver.ofRoster o s.roster).ancestors s.now o.maxDepth root
            (some (.memory c))
          (found.map (collectPermissions root), cache)
        else (.ok [], some (.memory c))) = (result, some (.memory c')) ∧ Dated o seen c' ∧
      ∀ held, result = .ok held → ∀ p ∈ held, s.LatelyHeld seen o.hierarchyTtl id p := by
  cases hrequire : (Resolver.ofRoster o s.roster).source.require id with
  | error e => exact ⟨.error e, c, rfl, h, fun held hheld ↦ by cases hheld⟩
  | ok root =>
    obtain rfl := RoleSource.id_of_require hrequire
    have hroot := RoleSource.roster_find?_of_require hrequire
    dsimp only
    split
    · obtain ⟨result, c', hresult, hdated, hgood⟩ := h.ancestors hlatest o.maxDepth hroot
      rw [hresult]
      refine ⟨_, c', rfl, hdated, fun held hheld ↦ ?_⟩
      cases result with
      | error e => cases hheld
      | ok found =>
        obtain rfl := Except.ok.inj hheld
        exact fun p hp ↦ hlatest.latelyHeld hroot (hgood found rfl) hp
    · refine ⟨.ok [], c, rfl, h, fun held hheld p hp ↦ ?_⟩
      obtain rfl := Except.ok.inj hheld
      cases hp

theorem Dated.inheritedPermissions (h : Dated o seen c) (hlatest : Latest o seen s)
    (henabled : o.cacheEnabled = true) (id : String) :
    ∃ result c', (Resolver.ofRoster o s.roster).inheritedPermissions s.now id
        (some (.memory c)) = (result, some (.memory c')) ∧ Dated o seen c' ∧
      ∀ held, result = .ok held →
        ∀ p ∈ held, s.LatelyHeld seen (o.permissionsTtl + o.hierarchyTtl) id p := by
  rw [Resolver.inheritedPermissions, Resolver.withCache_enabled henabled]
  refine h.through hlatest.here (fun wrote ttl v hwrote htold hage ↦ ?_) fun c' hc' ↦ ?_
  -- A kept set is as old as it may get, on top of what it was collected from.
  · obtain ⟨rfl, held, rfl, hholds⟩ := htold.of_permissionsKey
    have hrepresentable := Nat.lt_of_le_of_lt
      (Nat.add_le_add_right (hlatest.past wrote hwrote) o.permissionsTtl) hlatest.permissionsTtl
    refine ⟨held, Value.asList?_map Permission.ofValue?_toValue held, fun p hp ↦ ?_⟩
    obtain ⟨m, hm, hbefore, hm'⟩ := hholds p hp
    have := hage hrepresentable
    exact ⟨m, hm, by omega, hm'⟩
  · obtain ⟨result, last, hresult, hlast, hlately⟩ := hc'.collect hlatest id
    refine ⟨result, last, hresult, hlast, fun held hheld ↦ ⟨fun p hp ↦ ?_, ?_⟩⟩
    · obtain ⟨m, hm, hage, hm'⟩ := hlately held hheld p hp
      exact ⟨m, hm, by omega, hm'⟩
    · exact .permissions (hlately held hheld)

/-- A permission set that has been read is read again at once, whatever has become of the roster. -/
theorem Dated.inheritedPermissions_again {c' : MemoryCache} {held : List Permission}
    (h : Dated o seen c) (hlatest : Latest o seen s) (henabled : o.cacheEnabled = true)
    (hfirst : (Resolver.ofRoster o s.roster).inheritedPermissions s.now id (some (.memory c)) =
      (.ok held, some (.memory c'))) (roster : Roster) :
    ((Resolver.ofRoster o roster).inheritedPermissions s.now id (some (.memory c'))).1 =
      .ok held := by
  rw [Resolver.inheritedPermissions, Resolver.withCache_enabled henabled] at hfirst ⊢
  refine h.through_again (Value.asList?_map Permission.ofValue?_toValue) (fun c hc ↦ ?_) hfirst
  obtain ⟨result, last, hresult, hlast, -⟩ := hc.collect hlatest id
  exact ⟨result, last, hresult, hlast⟩

/-- Whatever is read, the cache stays dated. -/
theorem Dated.ask (h : Dated o seen c) (hlatest : Latest o seen s)
    (henabled : o.cacheEnabled = true) (q : Reading) :
    ∃ c', (q.ask (.ofRoster o s.roster) s.now (some (.memory c))).2 = some (.memory c') ∧
      Dated o seen c' := by
  have hon : (Resolver.ofRoster o s.roster).options.cacheEnabled = true := henabled
  cases q with
  | inherited id =>
    obtain ⟨result, c', hresult, hdated, -⟩ := h.inheritedPermissions hlatest henabled id
    exact ⟨c', congrArg Prod.snd hresult, hdated⟩
  | parents id limit =>
    simp only [Reading.ask, Resolver.parentRoles, Resolver.withCache_enabled hon]
    cases hrequire : (Resolver.ofRoster o s.roster).source.require id with
    | error e => exact ⟨c, rfl, h⟩
    | ok root =>
      have hroot := RoleSource.roster_find?_of_require hrequire
      rw [← RoleSource.id_of_require hrequire] at hroot
      obtain ⟨result, c', hresult, hdated, -⟩ := h.ancestors hlatest (limit.getD o.maxDepth) hroot
      exact ⟨c', congrArg Prod.snd hresult, hdated⟩
  | hierarchy id =>
    simp only [Reading.ask, Resolver.rolesInHierarchy, Resolver.withCache_enabled hon]
    cases hrequire : (Resolver.ofRoster o s.roster).source.require id with
    | error e => exact ⟨c, rfl, h⟩
    | ok root =>
      have hroot := RoleSource.roster_find?_of_require hrequire
      rw [← RoleSource.id_of_require hrequire] at hroot
      obtain ⟨result, c', hresult, hdated, -⟩ := h.ancestors hlatest o.maxDepth hroot
      exact ⟨c', congrArg Prod.snd hresult, hdated⟩

end Readings

/-! ### A whole run -/

namespace Session

/-- A moment of a run. -/
def Passed (o : ResolverOptions) (start : Session) (events : List SessionEvent) (m : Session) :
    Prop :=
  ∃ earlier later, events = earlier ++ later ∧ m = start.run o earlier

/-- A session with a cache in memory that is dated as far as it is used. -/
def KeepsDated (o : ResolverOptions) (seen : Session → Prop) (s : Session) : Prop :=
  ∃ c : MemoryCache, s.cache = some (.memory c) ∧ (o.cacheEnabled = true → Dated o seen c)

variable {o : ResolverOptions} {seen : Session → Prop} {s start : Session}
  {events : List SessionEvent}

theorem now_le_step (o : ResolverOptions) (s : Session) (e : SessionEvent) :
    s.now ≤ (s.step o e).now := by
  cases e with
  | advance delay => exact Nat.le_add_right s.now delay
  | purge | read | mutate | invalidate => exact Nat.le_refl s.now

theorem now_le_run (o : ResolverOptions) (s : Session) (events : List SessionEvent) :
    s.now ≤ (s.run o events).now := by
  induction events generalizing s with
  | nil => exact Nat.le_refl s.now
  | cons e rest ih => exact (now_le_step o s e).trans (ih (s.step o e))

theorem run_append (o : ResolverOptions) (s : Session) (earlier later : List SessionEvent) :
    s.run o (earlier ++ later) = (s.run o earlier).run o later :=
  List.foldl_append

theorem Passed.concat {m : Session} (h : Passed o start events m) (e : SessionEvent) :
    Passed o start (events ++ [e]) m := by
  obtain ⟨earlier, later, rfl, hm⟩ := h
  exact ⟨earlier, later ++ [e], List.append_assoc _ _ _, hm⟩

theorem latest_run (hpermissions : (start.run o events).now + o.permissionsTtl < endOfTime)
    (hhierarchy : (start.run o events).now + o.hierarchyTtl < endOfTime) :
    Latest o (Passed o start events) (start.run o events) := by
  refine ⟨⟨events, [], (List.append_nil events).symm, rfl⟩, fun m hm ↦ ?_, hpermissions,
    hhierarchy⟩
  obtain ⟨earlier, later, rfl, rfl⟩ := hm
  rw [run_append]
  exact now_le_run o _ later

theorem KeepsDated.step (h : s.KeepsDated o seen) (hlatest : Latest o seen s) (e : SessionEvent) :
    (s.step o e).KeepsDated o seen := by
  obtain ⟨c, hcache, hdated⟩ := h
  cases e with
  | advance delay => exact ⟨c, hcache, hdated⟩
  | mutate m => exact ⟨c, hcache, hdated⟩
  | purge =>
    refine ⟨(c.purge s.now).2, ?_, fun henabled ↦ (hdated henabled).purge s.now⟩
    simp only [Session.step, hcache, Option.map_some, CacheBackend.purge]
  | read q =>
    cases henabled : o.cacheEnabled with
    | false =>
      have hask := q.ask_disabled (r := Resolver.ofRoster o s.roster) henabled s.now s.cache
      exact ⟨c, (congrArg Prod.snd hask).trans hcache, hdated⟩
    | true =>
      obtain ⟨c', hresult, hnext⟩ := (hdated henabled).ask hlatest henabled q
      refine ⟨c', ?_, fun _ ↦ hnext⟩
      simp only [Session.step, hcache, hresult]
  | invalidate id =>
    cases henabled : o.cacheEnabled with
    | false =>
      refine ⟨c, ?_, hdated⟩
      simp only [Session.step, Resolver.invalidate, Resolver.usable, Resolver.ofRoster, henabled,
        Bool.false_eq_true, if_false, hcache]
    | true =>
      obtain ⟨total, c', hdropped, hnext⟩ := (hdated henabled).foldl_drop
        ((Resolver.ofRoster o s.roster).source.descend id).asked 0
      refine ⟨c', ?_, fun _ ↦ hnext⟩
      have husable : (Resolver.ofRoster o s.roster).usable s.cache = some (.memory c) :=
        (if_pos henabled).trans hcache
      simp only [Session.step, Resolver.invalidate, husable, hdropped]

theorem keepsDated_run {limits : MemoryCacheOptions} {cache : MemoryCache}
    (hcache : MemoryCache.ofOptions limits = .ok cache)
    (hstart : start.cache = some (.memory cache))
    (hpermissions : (start.run o events).now + o.permissionsTtl < endOfTime)
    (hhierarchy : (start.run o events).now + o.hierarchyTtl < endOfTime) :
    (start.run o events).KeepsDated o (Passed o start events) := by
  induction events using List.reverseRecOn with
  | nil => exact ⟨cache, hstart, fun _ ↦ .of_ofOptions hcache⟩
  | append_singleton events e ih =>
    have hrun : start.run o (events ++ [e]) = (start.run o events).step o e :=
      run_append o start events [e]
    rw [hrun] at hpermissions hhierarchy ⊢
    have hle := now_le_step o (start.run o events) e
    have hpermissions' := Nat.lt_of_le_of_lt (Nat.add_le_add_right hle _) hpermissions
    have hhierarchy' := Nat.lt_of_le_of_lt (Nat.add_le_add_right hle _) hhierarchy
    obtain ⟨c, hc, hdated⟩ := (ih hpermissions' hhierarchy').step
      (latest_run hpermissions' hhierarchy') e
    exact ⟨c, hc, fun henabled ↦ (hdated henabled).mono fun m hm ↦ hm.concat e⟩

/-- Whatever a session with a cache in memory has done, with changes that were never followed by an
invalidation too: a permission that is read now was held, by the role itself or by an active role
above it, at some moment of the run that is no longer ago than the two times to live together. -/
theorem exists_holds_of_answer {limits : MemoryCacheOptions} {cache : MemoryCache}
    (hcache : MemoryCache.ofOptions limits = .ok cache) {roster : Roster} {start : Nat}
    {o : ResolverOptions} {events : List SessionEvent} {id : String} {held : List Permission}
    {p : Permission}
    (hanswer : (run o ⟨roster, some (.memory cache), start⟩ events).answer o (.inherited id) =
      .permissions (.ok held))
    (hp : p ∈ held)
    (hpermissions : (run o ⟨roster, some (.memory cache), start⟩ events).now + o.permissionsTtl <
      endOfTime)
    (hhierarchy : (run o ⟨roster, some (.memory cache), start⟩ events).now + o.hierarchyTtl <
      endOfTime) :
    ∃ earlier later, events = earlier ++ later ∧
      (run o ⟨roster, some (.memory cache), start⟩ events).now ≤
        (run o ⟨roster, some (.memory cache), start⟩ earlier).now +
          (o.permissionsTtl + o.hierarchyTtl) ∧
      (run o ⟨roster, some (.memory cache), start⟩ earlier).roster.Holds id p := by
  have hlatest := latest_run hpermissions hhierarchy
  obtain ⟨c, hc, hdated⟩ := keepsDated_run hcache rfl hpermissions hhierarchy
  have hlately : (run o ⟨roster, some (.memory cache), start⟩ events).LatelyHeld
      (Passed o ⟨roster, some (.memory cache), start⟩ events)
      (o.permissionsTtl + o.hierarchyTtl) id p := by
    unfold answer at hanswer
    cases henabled : o.cacheEnabled with
    | false =>
      rw [Reading.ask_disabled (r := .ofRoster o _) henabled, Reading.ask,
        Resolver.inheritedPermissions_none] at hanswer
      obtain ⟨m, hm, hage, hholds⟩ :=
        hlatest.freshPermissions (Answer.permissions.inj hanswer) p hp
      exact ⟨m, hm, by omega, hholds⟩
    | true =>
      obtain ⟨result, c', hresult, -, hgood⟩ :=
        (hdated henabled).inheritedPermissions hlatest henabled id
      rw [hc, Reading.ask, hresult] at hanswer
      exact hgood held (Answer.permissions.inj hanswer) p hp
  obtain ⟨m, ⟨earlier, later, hevents, rfl⟩, hage, hholds⟩ := hlately
  exact ⟨earlier, later, hevents, hage, hholds⟩

def heldPermission : Permission := ⟨"p", "x", "y", none, none, none⟩

/-- One role with one permission, and a cache that holds nothing yet. -/
def holding (cache : MemoryCache) : Session :=
  ⟨.ofList [⟨"a", [heldPermission], [], true⟩], some (.memory cache), 0⟩

/-- A permission is read of a role that has just been removed. -/
theorem exists_holds_of_answer_removed :
    ∃ cache, MemoryCache.ofOptions { capacity := 1 } = .ok cache ∧
      (run {} (holding cache) [.read (.inherited "a"), .mutate (.remove "a")]).answer {}
          (.inherited "a") = .permissions (.ok [heldPermission]) ∧
      ∃ earlier later, [.read (.inherited "a"), .mutate (.remove "a")] = earlier ++ later ∧
        (run {} (holding cache) earlier).roster.Holds "a" heldPermission := by
  obtain ⟨cache, hcache⟩ := MemoryCache.exists_ofOptions (o := { capacity := 1 }) (by decide)
  have hfresh : (Resolver.ofRoster {} (holding cache).roster).freshPermissions "a" =
      .ok [heldPermission] := by
    cbv
  have hearly : 0 + ({} : ResolverOptions).permissionsTtl < endOfTime ∧
      0 + ({} : ResolverOptions).hierarchyTtl < endOfTime := by decide
  obtain ⟨after, hfirst, -⟩ := (Resolver.Coherent.of_ofOptions hcache).inheritedPermissions
    (r := .ofRoster {} (holding cache).roster) rfl 0 "a"
  rw [hfresh] at hfirst
  have hlatest : Latest {} (· = holding cache) (holding cache) :=
    ⟨rfl, fun m hm ↦ hm ▸ Nat.le_refl _, hearly.1, hearly.2⟩
  have hagain := (Dated.of_ofOptions hcache).inheritedPermissions_again hlatest rfl hfirst
    ((holding cache).roster.erase "a")
  have hanswer : (run {} (holding cache) [.read (.inherited "a"), .mutate (.remove "a")]).answer {}
      (.inherited "a") = .permissions (.ok [heldPermission]) := by
    have hkept := congrArg Prod.snd hfirst
    dsimp only at hkept
    rw [← hagain, ← hkept]
    rfl
  obtain ⟨earlier, later, hevents, -, hholds⟩ := exists_holds_of_answer hcache hanswer
    (List.mem_singleton_self _) hearly.1 hearly.2
  exact ⟨cache, hcache, hanswer, earlier, later, hevents, hholds⟩

end Session

end RoleAccess
