import Mathlib.Data.List.Permutation
import RoleAccess.Proofs.Cache.Removal
import RoleAccess.Proofs.Role.Coherence

/-!
What an invalidation drops. For the role and for each role below it, invalidation deletes what the
glob over that role takes, so all that is kept about these roles goes, and what is kept about the
others stays as it is if their ids are told apart from those (`Resolver.invalidate_run`). The glob
begins with the bare id, so `a` is not told apart from `a:b`, whatever the roster says of the two
(`Resolver.invalidate_beyond_colon`). For ids without tokens in them `ToldApart` is exact
(`toldApart_iff`).
-/

set_option autoImplicit false
set_option relaxedAutoImplicit false

namespace RoleAccess

/-! ### Where the glob over a role ends -/

/-- Nothing that is kept about the second id looks as if it were about the first. -/
structure ToldApart (id other : String) : Prop where
  no_star : '*' ∉ id.toList
  no_mark : '?' ∉ id.toList
  not_longer : ∀ rest : String, '\n' ∉ rest.toList → other ≠ id ++ ":" ++ rest
  not_shorter : id ≠ other ++ ":hierarchy"

/-- The glob over an id without tokens covers what begins with the id and goes on within the line
after a colon. -/
theorem covers_roleGlob_iff {id key : String} (hstar : '*' ∉ id.toList) (hmark : '?' ∉ id.toList) :
    Text.Glob.covers (roleGlob id) key = true ↔
      ∃ rest, key.toList = "role:".toList ++ (id.toList ++ ':' :: rest) ∧ '\n' ∉ rest := by
  have hglob : (roleGlob id).toList = ("role:".toList ++ id.toList ++ [':']) ++ ['*'] := by
    simp [roleGlob, roleTag, String.toList_append]
  have hhead (c : Char) (hc : c ∉ id.toList) (htag : c ∉ "role:".toList) (hcolon : c ≠ ':') :
      c ∉ "role:".toList ++ id.toList ++ [':'] := by
    simp only [List.mem_append, List.mem_singleton, not_or]
    exact ⟨⟨htag, hc⟩, hcolon⟩
  rw [Text.Glob.covers_eq_accepts, hglob, Text.Glob.accepts_append_star_iff
    (hhead '*' hstar (by decide) (by decide)) (hhead '?' hmark (by decide) (by decide))]
  simp only [List.append_assoc, List.singleton_append]

theorem permissionsKey_toList (id : String) :
    (permissionsKey id).toList =
      "role:".toList ++ (id.toList ++ ':' :: "permissions".toList) := by
  simp [permissionsKey, roleTag, String.toList_append]

theorem ToldApart.covers_eq_false {id other key : String} (h : ToldApart id other)
    (hne : id ≠ other) (hkey : IsKeyOf other key) :
    Text.Glob.covers (roleGlob id) key = false := by
  rw [Bool.eq_false_iff]
  intro hcovers
  obtain ⟨rest, hrest, hline⟩ := (covers_roleGlob_iff h.no_star h.no_mark).mp hcovers
  have hdistinct : other.toList ≠ id.toList := fun heq ↦ hne (String.toList_inj.mp heq).symm
  have hlonger (t : List Char) (ht : '\n' ∉ t) : other.toList ≠ id.toList ++ ':' :: t := by
    intro heq
    refine h.not_longer (String.ofList t) (by simpa using ht) (String.toList_inj.mp ?_)
    simpa [String.toList_append] using heq
  have hfree (t x : List Char) (heq : rest = t ++ ':' :: x) : '\n' ∉ t :=
    fun ht ↦ hline (heq ▸ List.mem_append_left _ ht)
  rcases hkey with rfl | ⟨limit, rfl⟩
  · rw [permissionsKey_toList] at hrest
    rcases append_mark_cases (List.append_cancel_left hrest) with
      ⟨heq, -⟩ | ⟨t, -, ht⟩ | ⟨t, ht, hx⟩
    · exact hdistinct heq
    · exact absurd (ht ▸ List.mem_append_right t List.mem_cons_self) (by decide)
    · exact hlonger t (hfree t _ hx) ht
  -- The key of a list of ancestors has one more colon, which the id may reach.
  · have hsplit : (hierarchyKey other limit).toList = "role:".toList ++ (other.toList ++
        ':' :: ("hierarchy".toList ++ ':' :: 'd' :: (toString limit).toList)) := by
      rw [hierarchyKey_toList]
      simp
    rw [hsplit] at hrest
    rcases append_mark_cases (List.append_cancel_left hrest) with
      ⟨heq, -⟩ | ⟨t, hid, ht⟩ | ⟨t, ht, hx⟩
    · exact hdistinct heq
    · rcases append_mark_cases ht with ⟨rfl, -⟩ | ⟨u, -, hu⟩ | ⟨u, hu, -⟩
      · refine h.not_shorter (String.toList_inj.mp ?_)
        simpa [String.toList_append] using hid
      · have hmem : ':' ∈ 'd' :: (toString limit).toList :=
          hu ▸ List.mem_append_right u List.mem_cons_self
        exact not_mem_digits rfl (List.mem_of_ne_of_mem (by decide) hmem)
      · exact absurd (hu ▸ List.mem_append_right t List.mem_cons_self) (by decide)
    · exact hlonger t (hfree t _ hx) ht

/-- The glob over an id without tokens keeps clear of all that is kept about another id just if the
two are told apart. -/
theorem toldApart_iff {id other : String} (hstar : '*' ∉ id.toList) (hmark : '?' ∉ id.toList)
    (hne : id ≠ other) :
    ToldApart id other ↔
      ∀ key, IsKeyOf other key → Text.Glob.covers (roleGlob id) key = false := by
  refine ⟨fun h key hkey ↦ h.covers_eq_false hne hkey, fun h ↦ ⟨hstar, hmark, ?_, ?_⟩⟩
  · rintro rest hline rfl
    have hcovers : Text.Glob.covers (roleGlob id) (permissionsKey (id ++ ":" ++ rest)) = true :=
      (covers_roleGlob_iff hstar hmark).mpr ⟨rest.toList ++ ":permissions".toList,
        by simp [permissionsKey_toList, String.toList_append], by simpa using hline⟩
    rw [h _ (Or.inl rfl)] at hcovers
    cases hcovers
  · rintro rfl
    have hcovers : Text.Glob.covers (roleGlob (other ++ ":hierarchy")) (hierarchyKey other 0) =
        true :=
      (covers_roleGlob_iff hstar hmark).mpr ⟨['d', '0'],
        by simp [hierarchyKey_toList, String.toList_append], by decide⟩
    rw [h _ (Or.inr ⟨0, rfl⟩)] at hcovers
    cases hcovers

/-! ### Dropping role by role -/

namespace Resolver

theorem drops_foldl_drop {c c' : MemoryCache} {n : Nat} {gone : String → Prop} (h : c'.Whole)
    (hdrops : c.Drops (n, c') gone) (ids : List String) :
    ∃ (total : Nat) (last : MemoryCache),
      ids.foldl drop (n, .memory c') = (total, .memory last) ∧
      c.Drops (total, last) fun key ↦ gone key ∨ ∃ id ∈ ids, Text.Glob.Takes (roleGlob id) key := by
  induction ids generalizing c' n gone with
  | nil => exact ⟨n, c', rfl, by simpa using hdrops⟩
  | cons id rest ih =>
    obtain ⟨total, last, hfold, hlast⟩ :=
      ih (h.deletePattern (roleGlob id)) (hdrops.trans (h.drops_deletePattern (roleGlob id)))
    exact ⟨total, last, hfold, by simpa only [List.exists_mem_cons_iff, or_assoc] using hlast⟩

/-- What the invalidation of a role makes of a cache. -/
structure Invalidates (r : Resolver) (id : String) (c : MemoryCache)
    (removed : Nat × MemoryCache) : Prop where
  drops : c.Drops removed fun key ↦
    ∃ below, r.source.roster.Names below id ∧ Text.Glob.Takes (roleGlob below) key
  /-- Nothing is left about the role and those below it. -/
  gone : ∀ below, r.source.roster.Names below id → ∀ key, IsKeyOf below key →
    key ∉ removed.2.keys
  /-- What there was about another role is there, if its id is told apart from theirs. -/
  kept : ∀ other, ¬r.source.roster.Names other id →
    (∀ below, r.source.roster.Names below id → ToldApart below other) →
      ∀ key, IsKeyOf other key → removed.2.standing key = c.standing key

theorem invalidate_disabled {r : Resolver} (h : r.options.cacheEnabled = false) (id : String)
    (cache : Attached) : r.invalidate id cache = (.ok 0, cache) := by
  simp only [Resolver.invalidate, usable, h, Bool.false_eq_true, if_false]

theorem invalidate_enabled {r : Resolver} (h : r.options.cacheEnabled = true) (id : String)
    (backend : CacheBackend) :
    r.invalidate id (some backend) =
      ((r.source.descend id).roles.map fun _ ↦
          ((r.source.descend id).asked.foldl drop (0, backend)).1,
        some ((r.source.descend id).asked.foldl drop (0, backend)).2) := by
  simp only [Resolver.invalidate, usable, h, if_true]

theorem invalidates {r : Resolver} {c : MemoryCache} (h : c.Whole)
    (henabled : r.options.cacheEnabled = true) {id : String} {roles : List Role}
    (hroles : (r.source.descend id).roles = .ok roles) :
    ∃ (total : Nat) (last : MemoryCache),
      r.invalidate id (some (.memory c)) = (.ok total, some (.memory last)) ∧
      r.Invalidates id c (total, last) := by
  obtain ⟨total, last, hfold, hdrops⟩ :=
    drops_foldl_drop h (.refl c) (r.source.descend id).asked
  simp only [RoleSource.mem_asked_descend_iff hroles, false_or] at hdrops
  refine ⟨total, last, ?_, hdrops, fun below hbelow key hkey hmem ↦ ?_,
    fun other hother hapart key hkey ↦ ?_⟩
  · rw [invalidate_enabled henabled, hfold, hroles]
    rfl
  · exact (hdrops.mem_keys_iff.mp hmem).2
      ⟨below, hbelow, Text.Glob.covers_iff.mp hkey.covers⟩
  · refine hdrops.kept key ?_
    rintro ⟨below, hbelow, htakes⟩
    have hne : below ≠ other := fun heq ↦ hother (heq ▸ hbelow)
    have hclear := (hapart below hbelow).covers_eq_false hne hkey
    rw [Text.Glob.covers_iff.mpr htakes] at hclear
    cases hclear

/-- Where the children of all roles can be listed, invalidation succeeds; and whenever it succeeds
on a cache in memory, whatever that has been asked before, it drops what is kept about the role and
those below it, and says how many entries. A cache that may not be used is left alone. -/
theorem invalidate_run (r : Resolver) {o : MemoryCacheOptions} (hcapacity : 0 < o.capacity)
    (now : Nat) (requests : List CacheRequest) (id : String) :
    ∃ start c, MemoryCache.ofOptions o = .ok start ∧
      (CacheClock.run ⟨start, now⟩ requests).cache = c ∧
      (r.source.failedChildren = [] →
        ∃ total, (r.invalidate id (some (.memory c))).1 = .ok total) ∧
      ∀ total after, r.invalidate id (some (.memory c)) = (.ok total, after) →
        if r.options.cacheEnabled then
          ∃ last, after = some (.memory last) ∧ r.Invalidates id c (total, last)
        else total = 0 ∧ after = some (.memory c) := by
  obtain ⟨start, hstart⟩ := MemoryCache.exists_ofOptions hcapacity
  have hwhole := (MemoryCache.whole_run (c := ⟨start, now⟩)
    (MemoryCache.whole_ofOptions hstart).1 requests).1
  refine ⟨start, _, hstart, rfl, ?_⟩
  cases henabled : r.options.cacheEnabled with
  | false =>
    rw [invalidate_disabled henabled]
    refine ⟨fun _ ↦ ⟨0, rfl⟩, ?_⟩
    rintro total after ⟨⟩
    exact ⟨rfl, rfl⟩
  | true =>
    refine ⟨fun hanswers ↦ ?_, fun total after hdone ↦ ?_⟩
    · obtain ⟨roles, hroles⟩ := RoleSource.exists_descend_of_no_failure hanswers id
      obtain ⟨total, last, hresult, -⟩ := invalidates hwhole henabled hroles
      exact ⟨total, congrArg Prod.fst hresult⟩
    · cases hroles : (r.source.descend id).roles with
      | error e =>
        rw [invalidate_enabled henabled, hroles] at hdone
        cases hdone
      | ok roles =>
        obtain ⟨count, last, hresult, hinvalidates⟩ := invalidates hwhole henabled hroles
        cases hresult.symm.trans hdone
        exact ⟨last, rfl, hinvalidates⟩

/-- Roles in a loop, one of them under two parents, and another role. -/
def colonLoop : Resolver :=
  ofRoster {} (.ofList [⟨"a", [], ["c:d"], true⟩, ⟨"b", [], ["a"], true⟩,
    ⟨"c:d", [], ["b", "a"], true⟩, ⟨"d", [], [], true⟩])

/-- Two entries about roles of that loop, one about the other role and one about none. -/
def keptEntries : List CacheRequest :=
  [.set (permissionsKey "a") (.array []) { ttl := some 9 },
    .set (hierarchyKey "c:d" 3) (.array []) {}, .set "else" .null {},
    .set (permissionsKey "d") (.array []) {}]

theorem invalidate_run_looped :
    0 < ({} : MemoryCacheOptions).capacity ∧
      ∃ start c, MemoryCache.ofOptions {} = .ok start ∧
        (CacheClock.run ⟨start, 0⟩ keptEntries).cache = c ∧
        ∃ last, colonLoop.invalidate "a" (some (.memory c)) = (.ok 2, some (.memory last)) ∧
          colonLoop.Invalidates "a" c (2, last) ∧ last.keys = [permissionsKey "d", "else"] := by
  obtain ⟨start, c, hstart, rfl, hdone, hinvalidates⟩ := invalidate_run colonLoop
    (o := {}) (by decide) 0 keptEntries "a"
  cases hstart
  obtain ⟨total, htotal⟩ := hdone rfl
  obtain ⟨last, hlast, hresult⟩ := hinvalidates total _ (Prod.ext htotal rfl)
  have hasked : (colonLoop.source.descend "a").asked = ["a", "b", "c:d"] := by
    cbv
  have hkeys : last.keys = [permissionsKey "d", "else"] := by
    rw [invalidate_enabled rfl, hasked] at hlast
    exact (Option.some.inj
      (congrArg (fun after ↦ (after.bind CacheBackend.memory?).map MemoryCache.keys) hlast)).symm
  have hcount := hresult.drops.count
  rw [hkeys] at hcount
  obtain rfl : total = 2 := Nat.add_right_cancel hcount
  exact ⟨by decide, _, _, rfl, rfl, last, Prod.ext htotal hlast, hresult, hkeys⟩

/-- Two roles without parents, of which the id of one goes on behind a colon. -/
def besideColon : Roster := .ofList [⟨"a", [], [], true⟩, ⟨"a:b", [], [], true⟩]

/-- What is kept about the role `a:b` goes with the invalidation of the role `a`, although neither
of them has a parent. -/
theorem invalidate_beyond_colon :
    ¬besideColon.Names "a:b" "a" ∧
      ∃ start c, MemoryCache.ofOptions {} = .ok start ∧
        ((ofRoster {} besideColon).keptPermissions "a:b").store (some (.memory start)) 0 [] =
          some (.memory c) ∧
        c.keys = [permissionsKey "a:b"] ∧
        ∃ total last,
          (ofRoster {} besideColon).invalidate "a" (some (.memory c)) =
            (.ok total, some (.memory last)) ∧
          total = 1 ∧ last.keys = [] := by
  constructor
  · intro hnames
    obtain heq | ⟨parent, ⟨role, hrole, hlisted⟩, -⟩ := hnames.cases_head
    · exact absurd heq (by decide)
    · obtain rfl : ⟨"a:b", [], [], true⟩ = role := Option.some.inj hrole
      cases hlisted
  obtain ⟨start, hstart⟩ := MemoryCache.exists_ofOptions (o := {}) (by decide)
  obtain ⟨hwhole, -⟩ := MemoryCache.whole_run (c := ⟨start, 0⟩)
    (MemoryCache.whole_ofOptions hstart).1
    [.set (permissionsKey "a:b") (.array []) {
      ttl := some (1800 * nanosPerSecond), tags := [roleTag "a:b"] }]
  obtain ⟨roles, hroles⟩ :=
    RoleSource.exists_descend_of_no_failure (s := { roster := besideColon }) rfl "a"
  obtain ⟨total, last, hresult, hinvalidates⟩ :=
    invalidates (r := ofRoster {} besideColon) hwhole rfl hroles
  cases hstart
  have hkeys : last.keys = [] := by
    refine List.eq_nil_iff_forall_not_mem.mpr fun key hkey ↦ ?_
    obtain ⟨hmem, hleft⟩ := hinvalidates.drops.mem_keys_iff.mp hkey
    obtain rfl : key = permissionsKey "a:b" := List.mem_singleton.mp hmem
    exact hleft ⟨"a", .refl, Text.Glob.covers_iff.mp (by decide)⟩
  have hcount := hinvalidates.drops.count
  rw [hkeys] at hcount
  exact ⟨_, _, rfl, rfl, rfl, total, last, hresult, hcount, hkeys⟩

end Resolver

end RoleAccess
