import RoleAccess.Proofs.Cache.Contents
import RoleAccess.Proofs.Cache.EntryLookups
import RoleAccess.Proofs.Cache.LeaseSteps
import RoleAccess.Proofs.Cache.RecencyViews
import RoleAccess.Proofs.Cache.TagIndex

/-!
What a memory cache holds under each key. Its recency map, its leases and its tags are kept by
different code, and `Standing` gathers what they have under one key. Every operation turns the
standings into others in one of three ways: it removes some keys from all the parts at once, it
reads a key, or it writes one (`Became`).
-/

set_option autoImplicit false
set_option relaxedAutoImplicit false

namespace RoleAccess

/-- What the parts of a cache hold under one key. -/
structure Standing where
  value : Option Value := none
  lease : Option Lease := none
  tags : List String := []

namespace Standing

/-- A key has a lease if it has a value, and no tags if it has none. -/
structure Whole (s : Standing) : Prop where
  leased : s.lease.isSome = s.value.isSome
  tagged : s.tags ≠ [] → s.value.isSome

/-- What reading leaves: nothing if the lease is over, and otherwise the same with the lease
renewed. -/
def read (s : Standing) (now : Nat) : Standing :=
  if s.lease.any (·.isOver now) then {} else { s with lease := s.lease.map (·.renewed now) }

theorem whole_empty : Whole {} := ⟨rfl, fun h ↦ absurd rfl h⟩

theorem Whole.read {s : Standing} (h : s.Whole) (now : Nat) : (s.read now).Whole := by
  unfold Standing.read
  split
  · exact whole_empty
  · exact ⟨(Option.isSome_map).trans h.leased, h.tagged⟩

end Standing

namespace MemoryCache

open UseOrder

def standing (c : MemoryCache) (key : String) : Standing :=
  ⟨c.entries.lookup key, c.expiry.plain key, tagsOn c.tagsOf key⟩

/-- The options that a cache goes by. -/
def options (c : MemoryCache) : MemoryCacheOptions :=
  ⟨c.recency.capacity, c.expiry.defaultTtl, c.expiry.batch⟩

/-- Each part of a cache is in order by itself. -/
structure InOrder (c : MemoryCache) : Prop where
  recency : c.recency.Sound
  expiry : c.expiry.Sound
  tags : TagsAgree c.keysOf c.tagsOf

/-- The standings have become these, every part is in order, and the options are the same. -/
structure Became (c c' : MemoryCache) (seen : String → Standing) : Prop where
  inOrder : c'.InOrder
  standing : c'.standing = seen
  options : c'.options = c.options

/-- The parts are in order and agree on every key. -/
structure Whole (c : MemoryCache) : Prop where
  inOrder : c.InOrder
  standing : ∀ key, (c.standing key).Whole

namespace Became

variable {c c' c'' : MemoryCache} {seen seen' : String → Standing}

theorem refl (h : c.InOrder) : c.Became c c.standing := ⟨h, rfl, rfl⟩

theorem trans (h : c.Became c' seen) (h' : c'.Became c'' seen') : c.Became c'' seen' :=
  ⟨h'.inOrder, h'.standing, h'.options.trans h.options⟩

theorem whole (h : c.Became c' seen) (hseen : ∀ key, (seen key).Whole) : c'.Whole :=
  ⟨h.inOrder, fun key ↦ h.standing ▸ hseen key⟩

end Became

theorem options_of_became {c : MemoryCache} {e : Expiry} {m : Leases} (h : c.expiry.Became e m) :
    options { c with expiry := e } = c.options := by
  unfold options
  dsimp only
  rw [h.rest]

/-- Another recency map of the same capacity changes what values the keys have. -/
theorem became_recency {c : MemoryCache} (h : c.InOrder) {r : Recency Value} (hsound : r.Sound)
    (hcapacity : r.capacity = c.recency.capacity) :
    c.Became { c with recency := r } fun other ↦
      { c.standing other with value := r.entries.lookup other } := by
  refine ⟨⟨hsound, h.expiry, h.tags⟩, rfl, ?_⟩
  unfold options
  rw [hcapacity]

/-! ### Removing keys -/

/-- Forgetting a key leaves nothing of it but its value. -/
theorem became_forget {c : MemoryCache} (h : c.InOrder) (key : String) :
    c.Became (c.forget key)
      (Function.update c.standing key { value := (c.standing key).value }) := by
  obtain ⟨-, hremoved⟩ := Expiry.became_remove h.expiry key
  refine ⟨⟨h.recency, hremoved.sound, h.tags.forget key⟩, ?_, options_of_became hremoved⟩
  funext other
  have hleft : (c.forget key).standing other = ⟨c.entries.lookup other,
      Function.update c.expiry.plain key none other,
      if other = key then [] else tagsOn c.tagsOf other⟩ := by
    rw [← hremoved.plain, ← tagsOn_forget]
    rfl
  rw [hleft]
  by_cases hother : other = key
  · subst hother
    simp [standing]
  · simp [hother, standing]

theorem became_delete {c : MemoryCache} (h : c.InOrder) (key : String) :
    c.Became (c.delete key).2 (Function.update c.standing key {}) := by
  obtain ⟨-, hsound, hentries⟩ := Recency.sound_delete h.recency key
  have hcapacity : (c.recency.delete key).2.capacity = c.recency.capacity :=
    congrArg Recency.Tally.capacity (Recency.tally_delete c.recency key)
  have hdeleted := became_recency h hsound hcapacity
  have hforgot := hdeleted.trans (became_forget hdeleted.inOrder key)
  refine ⟨hforgot.inOrder, hforgot.standing.trans ?_, hforgot.options⟩
  rw [hdeleted.standing, hentries]
  funext other
  by_cases hother : other = key
  · subst hother
    simp [lookup_without]
  · simp [hother, lookup_without, standing, entries]

theorem became_foldl_delete {c : MemoryCache} (h : c.InOrder) (keys : List String) (count : Nat) :
    c.Became (keys.foldl (fun (kept : Nat × MemoryCache) key ↦
      (kept.1 + (kept.2.delete key).1.toNat, (kept.2.delete key).2)) (count, c)).2
      fun other ↦ if other ∈ keys then {} else c.standing other := by
  induction keys generalizing c count with
  | nil =>
    have hall : (fun other ↦ if other ∈ ([] : List String) then {} else c.standing other) =
        c.standing := by simp
    rw [hall]
    exact .refl h
  | cons key rest ih =>
    have hdeleted := became_delete h key
    have hrest := hdeleted.trans (ih hdeleted.inOrder (count + (c.delete key).1.toNat))
    refine ⟨hrest.inOrder, hrest.standing.trans ?_, hrest.options⟩
    funext other
    rw [hdeleted.standing]
    by_cases hother : other = key <;> simp [hother]

theorem became_deleteAll {c : MemoryCache} (h : c.InOrder) (keys : List String) :
    c.Became (c.deleteAll keys).2 fun other ↦ if other ∈ keys then {} else c.standing other :=
  became_foldl_delete h keys 0

/-- The keys that a purge removes. -/
def expiredKeys (c : MemoryCache) (now : Nat) : List String :=
  (c.expiry.takeExpired now none).1.map Expiration.key

theorem became_purge {c : MemoryCache} (h : c.InOrder) (now : Nat) :
    c.Became (c.purge now).2 fun other ↦
      if other ∈ c.expiredKeys now then {} else c.standing other := by
  obtain ⟨htook, htaken⟩ := Expiry.became_takeExpired h.expiry now none
  obtain ⟨horder, hstanding, hoptions⟩ := became_deleteAll
    (c := { c with expiry := (c.expiry.takeExpired now none).2 })
    ⟨h.recency, htaken.sound, h.tags⟩ (c.expiredKeys now)
  refine ⟨horder, hstanding.trans ?_, hoptions.trans (options_of_became htaken)⟩
  funext other
  by_cases hgone : other ∈ c.expiredKeys now
  · rw [if_pos hgone, if_pos hgone]
  · rw [if_neg hgone, if_neg hgone]
    have hlease : (c.expiry.takeExpired now none).2.plain other = c.expiry.plain other :=
      (htook.rest other).trans (if_neg hgone)
    unfold standing
    dsimp only
    rw [hlease]
    rfl

theorem standing_of_empty {c : MemoryCache} (hentries : c.entries = [])
    (hleases : c.expiry.plain = fun _ ↦ none) (htags : c.tagsOf = ∅) :
    c.standing = fun _ ↦ {} := by
  funext key
  rw [standing, hentries, hleases, htags, tagsOn_empty]
  rfl

theorem became_clear (c : MemoryCache) : c.Became c.clear fun _ ↦ {} := by
  obtain ⟨hsound, hempty⟩ := Recency.sound_clear c.recency
  have hcleared := Expiry.became_clear c.expiry
  have hstanding := standing_of_empty (c := c.clear) hempty hcleared.plain rfl
  exact ⟨⟨hsound, hcleared.sound, tagsAgree_empty⟩, hstanding, rfl⟩

/-! ### Reading -/

/-- Using an entry changes nothing of what the cache holds. -/
theorem became_use {c : MemoryCache} (h : c.InOrder) (key : String) :
    c.Became { c with recency := (c.recency.get key).2 } c.standing := by
  obtain ⟨-, hsound, hentries⟩ := Recency.sound_get h.recency key
  have hcapacity : (c.recency.get key).2.capacity = c.recency.capacity :=
    congrArg Recency.Tally.capacity (Recency.tally_get c.recency key)
  obtain ⟨horder, hstanding, hoptions⟩ := became_recency h hsound hcapacity
  refine ⟨horder, hstanding.trans ?_, hoptions⟩
  funext other
  rw [hentries, lookup_toFront]
  rfl

/-- Changing the lease of one key. -/
theorem became_lease {c : MemoryCache} (h : c.InOrder) {e : Expiry} {key : String} {lease : Lease}
    (hbecame : c.expiry.Became e (Function.update c.expiry.plain key (some lease))) :
    c.Became { c with expiry := e }
      (Function.update c.standing key { c.standing key with lease := some lease }) := by
  refine ⟨⟨h.recency, hbecame.sound, h.tags⟩, ?_, options_of_became hbecame⟩
  funext other
  have hseen : standing { c with expiry := e } other =
      { c.standing other with lease := Function.update c.expiry.plain key (some lease) other } := by
    rw [← hbecame.plain]
    rfl
  rw [hseen]
  by_cases hother : other = key
  · subst hother
    simp
  · simp [hother, standing]

theorem get_of_untracked {c : MemoryCache} {key : String} (hlease : c.expiry.plain key = none)
    (hvalue : (c.recency.get key).1 = none) (now : Nat) :
    c.get now key = (none, { c with recency := (c.recency.get key).2 }) := by
  simp only [get, Expiry.isTracked_eq, hlease, Option.isSome_none, Bool.false_and,
    Bool.false_eq_true, if_false, hvalue]

theorem get_of_over {c : MemoryCache} {now : Nat} {key : String} {lease : Lease}
    (hlease : c.expiry.plain key = some lease) (hover : lease.isOver now = true) :
    c.get now key = (none, (c.delete key).2) := by
  simp only [get, Expiry.isTracked_eq, Expiry.isExpired_eq hlease, hlease, hover,
    Option.isSome_some, Bool.and_self, if_true]

theorem get_of_alive {c : MemoryCache} {now : Nat} {key : String} {lease : Lease} {v : Value}
    (hlease : c.expiry.plain key = some lease) (hover : lease.isOver now = false)
    (hvalue : (c.recency.get key).1 = some v) :
    c.get now key = (some v,
      { c with recency := (c.recency.get key).2, expiry := (c.expiry.touch now key).2 }) := by
  simp only [get, Expiry.isTracked_eq, Expiry.isExpired_eq hlease, hlease, hover,
    Option.isSome_some, Bool.and_false, Bool.false_eq_true, if_false, hvalue]

/-- Reading gives the value that is left, and changes what the cache holds under the key and no
other. -/
theorem became_get {c : MemoryCache} (h : c.Whole) (now : Nat) (key : String) :
    (c.get now key).1 = ((c.standing key).read now).value ∧
      c.Became (c.get now key).2
        (Function.update c.standing key ((c.standing key).read now)) := by
  have hused := became_use h.inOrder key
  have hvalue : (c.recency.get key).1 = (c.standing key).value :=
    (Recency.sound_get h.inOrder.recency key).1
  have hleased := (h.standing key).leased
  unfold Standing.read
  cases hlease : c.expiry.plain key with
  | none =>
    have hnone : (c.standing key).lease = none := hlease
    rw [hnone, Option.isSome_none] at hleased
    have hmissing := Option.not_isSome_iff_eq_none.mp (Bool.eq_false_iff.mp hleased.symm)
    rw [get_of_untracked hlease (hvalue.trans hmissing), hnone, Option.any_none,
      if_neg Bool.false_ne_true, Option.map_none, ← hnone, Function.update_eq_self]
    exact ⟨hmissing.symm, hused⟩
  | some lease =>
    have hsome : (c.standing key).lease = some lease := hlease
    rw [hsome, Option.isSome_some] at hleased
    rw [hsome, Option.any_some, Option.map_some]
    by_cases hover : lease.isOver now = true
    · rw [get_of_over hlease hover, if_pos hover]
      exact ⟨rfl, became_delete h.inOrder key⟩
    · have halive : lease.isOver now = false := Bool.eq_false_iff.mpr hover
      obtain ⟨v, hv⟩ := Option.isSome_iff_exists.mp hleased.symm
      rw [get_of_alive hlease halive (hvalue.trans hv), if_neg hover]
      have hrenewed := (Expiry.became_touch h.inOrder.expiry
        (Expiry.alive_iff.mpr ⟨hlease, halive⟩)).2
      have hread := hused.trans (became_lease hused.inOrder hrenewed)
      rw [hused.standing] at hread
      exact ⟨hv.symm, hread⟩

/-! ### Writing -/

/-- The key whose entry makes room when another is written. -/
def displaced (c : MemoryCache) (key : String) (value : Value) : Option String :=
  (c.recency.set key value).1.map Prod.fst

/-- A new key displaces the one that has not been used for longest, if the cache is full. -/
theorem displaced_eq_some_iff {c : MemoryCache} (h : c.InOrder) (key : String) (value : Value)
    (other : String) : c.displaced key value = some other ↔
      key ∉ c.keys ∧ c.keys.length = c.recency.capacity ∧ c.keys.getLast? = some other := by
  obtain ⟨hgone, -⟩ := Recency.sound_set h.recency key value
  have hover := put_over_iff c.recency.capacity_pos h.recency.length_entries_le key value other
  have hlength : c.keys.length = c.recency.entries.length := List.length_map ..
  rw [displaced, hgone, hlength]
  exact hover

theorem displaced_ne {c : MemoryCache} (h : c.InOrder) (key : String) (value : Value) :
    c.displaced key value ≠ some key := by
  intro hself
  obtain ⟨hnew, -, hlast⟩ := (displaced_eq_some_iff h key value key).mp hself
  exact hnew (List.mem_of_getLast? hlast)

theorem became_put {c : MemoryCache} (h : c.InOrder) (key : String) (value : Value) :
    c.Became { c with recency := (c.recency.set key value).2 } fun other ↦
      { c.standing other with
        value := if c.displaced key value = some other then none
          else if other = key then some value else (c.standing other).value } := by
  obtain ⟨hgone, hsound, hcapacity, hentries⟩ := Recency.sound_set h.recency key value
  obtain ⟨horder, hstanding, hoptions⟩ := became_recency h hsound hcapacity
  refine ⟨horder, hstanding.trans ?_, hoptions⟩
  funext other
  have hlength : (put key value c.recency.entries).length ≤ c.recency.capacity + 1 :=
    Nat.le_trans (length_put_le key value c.recency.entries)
      (Nat.succ_le_succ h.recency.length_entries_le)
  have hlookup := lookup_take (distinct_put h.recency.distinct key value) hlength other
  rw [← hentries, ← hgone, lookup_put] at hlookup
  rw [hlookup]
  rfl

/-- Forgetting the key that makes room, if there is one. -/
theorem became_forget_gone {c : MemoryCache} (h : c.InOrder) (gone : Option (String × Value)) :
    c.Became (gone.elim c fun e ↦ c.forget e.1) fun other ↦
      if gone.map Prod.fst = some other then { value := (c.standing other).value }
      else c.standing other := by
  cases gone with
  | none => exact .refl h
  | some e =>
    obtain ⟨horder, hstanding, hoptions⟩ := became_forget h e.1
    refine ⟨horder, hstanding.trans ?_, hoptions⟩
    funext other
    by_cases hother : other = e.1
    · subst hother
      simp
    · simp [hother, Ne.symm hother]

theorem became_addTags {c : MemoryCache} (h : c.InOrder) (key : String) (tags : List String) :
    c.Became (tags.foldl (addTag key) c) (Function.update c.standing key
      { c.standing key with tags := (c.standing key).tags ++ tags }) := by
  obtain ⟨hagree, htags⟩ := addTag_foldl key tags h.tags
  have hrecency := recency_foldl_addTag key tags c
  have hexpiry := expiry_foldl_addTag key tags c
  refine ⟨⟨hrecency ▸ h.recency, hexpiry ▸ h.expiry, hagree⟩, ?_, ?_⟩
  · funext other
    unfold standing entries
    rw [htags, hrecency, hexpiry]
    by_cases hother : other = key
    · subst hother
      simp
    · simp [hother]
  · unfold options
    rw [hrecency, hexpiry]

/-- A cache with a new value under a key, before it gets a lease and tags. -/
def stow (c : MemoryCache) (key : String) (value : Value) : MemoryCache :=
  (c.recency.set key value).1.elim
    { c.forget key with recency := (c.recency.set key value).2 }
    fun e ↦ { c.forget key with recency := (c.recency.set key value).2 }.forget e.1

theorem became_stow {c : MemoryCache} (h : c.InOrder) (key : String) (value : Value) :
    c.Became (c.stow key value) fun other ↦
      if other = key then { value := some value }
      else if c.displaced key value = some other then {} else c.standing other := by
  have hforgot := became_forget h key
  have hput := hforgot.trans (became_put hforgot.inOrder key value)
  have hroom := hput.trans (became_forget_gone hput.inOrder (c.recency.set key value).1)
  refine ⟨hroom.inOrder, hroom.standing.trans ?_, hroom.options⟩
  have hsame : (c.forget key).displaced key value = c.displaced key value := rfl
  rw [hput.standing, hforgot.standing, hsame]
  funext other
  change (if c.displaced key value = some other then _ else _) = _
  by_cases hother : other = key
  · subst hother
    simp [displaced_ne h other value]
  · by_cases hgone : c.displaced key value = some other <;> simp [hother, hgone]

/-- Writing gives the key its value, a new lease and its tags, and nothing remains of the key that
makes room. -/
theorem became_set {c : MemoryCache} (h : c.InOrder) (now : Nat) (key : String) (value : Value)
    (o : WriteOptions) : c.Became (c.set now key value o) fun other ↦
      if other = key then
        ⟨some value, some (.granted now (o.ttl.or c.options.defaultTtl) o.sliding), o.tags⟩
      else if c.displaced key value = some other then {} else c.standing other := by
  have hstowed := became_stow h key value
  have hgranted := hstowed.trans (became_lease hstowed.inOrder
    (Expiry.became_set hstowed.inOrder.expiry now key o.ttl o.sliding))
  have htagged := hgranted.trans (became_addTags hgranted.inOrder key o.tags)
  refine ⟨htagged.inOrder, htagged.standing.trans ?_, htagged.options⟩
  have hdefault : (c.stow key value).expiry.defaultTtl = c.options.defaultTtl :=
    congrArg MemoryCacheOptions.defaultTtl hstowed.options
  rw [hgranted.standing, hstowed.standing, hdefault]
  funext other
  by_cases hother : other = key <;> simp [hother]

end MemoryCache

end RoleAccess
