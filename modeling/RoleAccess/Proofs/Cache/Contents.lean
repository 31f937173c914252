import RoleAccess.Cache.Backend
import RoleAccess.Proofs.Cache.RecencyEntries

/-!
What a memory cache holds. Its entries are those of its recency map; leases and tags only decide
which of them go. Reading and purging never add an entry, writing adds the one written, and deletion
by a glob takes out exactly the keys that the glob covers.
-/

set_option autoImplicit false
set_option relaxedAutoImplicit false

namespace RoleAccess.MemoryCache

open UseOrder

/-- The entries with their values, the latest used first. -/
def entries (c : MemoryCache) : List (String × Value) := c.recency.entries

def Sound (c : MemoryCache) : Prop := c.recency.Sound

theorem exists_ofOptions {o : MemoryCacheOptions} (h : 0 < o.capacity) :
    ∃ c, ofOptions o = .ok c := by
  simp only [ofOptions, Recency.ofCapacity, h, dif_pos]
  exact ⟨_, rfl⟩

theorem sound_ofOptions {o : MemoryCacheOptions} {c : MemoryCache} (h : ofOptions o = .ok c) :
    c.Sound ∧ c.entries = [] := by
  unfold ofOptions at h
  cases hr : Recency.ofCapacity (α := Value) o.capacity with
  | error e => simp [hr, bind, Except.bind] at h
  | ok r =>
    simp only [hr, bind, Except.bind, pure, Except.pure, Except.ok.injEq] at h
    subst h
    exact Recency.sound_ofCapacity hr

theorem recency_foldl_addTag (key : String) (tags : List String) (c : MemoryCache) :
    (tags.foldl (addTag key) c).recency = c.recency := by
  induction tags generalizing c with
  | nil => rfl
  | cons tag rest ih => exact ih (addTag key c tag)

theorem expiry_foldl_addTag (key : String) (tags : List String) (c : MemoryCache) :
    (tags.foldl (addTag key) c).expiry = c.expiry := by
  induction tags generalizing c with
  | nil => rfl
  | cons tag rest ih => exact ih (addTag key c tag)

/-! ### Taking out -/

theorem sound_delete {c : MemoryCache} (h : c.Sound) (key : String) :
    (c.delete key).2.Sound ∧ (c.delete key).2.entries = without key c.entries :=
  (Recency.sound_delete h key).2

theorem sound_foldl_delete {c : MemoryCache} (h : c.Sound) (keys : List String) (count : Nat) :
    let after := (keys.foldl (fun (kept : Nat × MemoryCache) key ↦
      (kept.1 + (kept.2.delete key).1.toNat, (kept.2.delete key).2)) (count, c)).2
    after.Sound ∧ after.entries = c.entries.filter (!keys.contains ·.1) := by
  induction keys generalizing c count with
  | nil => exact ⟨h, by simp⟩
  | cons key rest ih =>
    obtain ⟨hsound, hentries⟩ := sound_delete h key
    obtain ⟨hrest, hleft⟩ := ih hsound (count + (c.delete key).1.toNat)
    refine ⟨hrest, hleft.trans ?_⟩
    rw [hentries, without, List.filter_filter]
    refine List.filter_congr fun e _ ↦ ?_
    by_cases he : e.1 = key <;> simp [he]

theorem sound_deleteAll {c : MemoryCache} (h : c.Sound) (keys : List String) :
    (c.deleteAll keys).2.Sound ∧
      (c.deleteAll keys).2.entries = c.entries.filter (!keys.contains ·.1) :=
  sound_foldl_delete h keys 0

/-- Deletion by a glob leaves exactly the entries whose keys the glob does not cover. -/
theorem sound_deletePattern {c : MemoryCache} (h : c.Sound) (pattern : String) :
    (c.deletePattern pattern).2.Sound ∧
      (c.deletePattern pattern).2.entries =
        c.entries.filter (!Text.Glob.covers pattern ·.1) := by
  obtain ⟨hsound, hentries⟩ := sound_deleteAll h (c.keys.filter (Text.Glob.covers pattern))
  refine ⟨hsound, hentries.trans (List.filter_congr fun e he ↦ ?_)⟩
  have hkey : e.1 ∈ c.keys := List.mem_map_of_mem he
  by_cases hcovers : Text.Glob.covers pattern e.1 = true <;> simp [hkey, hcovers]

theorem sound_purge {c : MemoryCache} (h : c.Sound) (now : Nat) :
    (c.purge now).2.Sound ∧ (c.purge now).2.entries ⊆ c.entries := by
  have hrest : ({ c with expiry := (c.expiry.takeExpired now none).2 } : MemoryCache).Sound := h
  obtain ⟨hsound, hentries⟩ := sound_deleteAll hrest
    ((c.expiry.takeExpired now none).1.map Expiration.key)
  exact ⟨hsound, fun e he ↦ (List.mem_filter.mp (hentries ▸ he)).1⟩

/-! ### Reading and writing -/

/-- A read value is held under its key. -/
theorem sound_get {c : MemoryCache} (h : c.Sound) (now : Nat) (key : String) :
    (∀ v, (c.get now key).1 = some v → (key, v) ∈ c.entries) ∧ (c.get now key).2.Sound ∧
      (c.get now key).2.entries ⊆ c.entries := by
  unfold get
  split
  next =>
    obtain ⟨hsound, hentries⟩ := sound_delete h key
    refine ⟨fun v hv ↦ (by cases hv), hsound, fun e he ↦ ?_⟩
    exact (mem_without.mp (hentries ▸ he)).1
  next =>
    obtain ⟨hvalue, hsound, hentries⟩ := Recency.sound_get h key
    have hkept : (c.recency.get key).2.entries ⊆ c.entries := fun e he ↦
      mem_of_mem_toFront (hentries ▸ he)
    cases hheld : (c.recency.get key).1 with
    | none =>
      simp only [hheld]
      exact ⟨fun v hv ↦ (by cases hv), hsound, hkept⟩
    | some v =>
      simp only [hheld]
      refine ⟨fun w hw ↦ ?_, hsound, hkept⟩
      cases hw
      exact mem_of_lookup (hvalue ▸ hheld)

theorem recency_set (c : MemoryCache) (now : Nat) (key : String) (value : Value)
    (o : WriteOptions) : (c.set now key value o).recency = (c.recency.set key value).2 := by
  unfold set
  rw [recency_foldl_addTag]
  change (((c.recency.set key value).1.elim _ _ : MemoryCache)).recency = _
  cases (c.recency.set key value).1 <;> rfl

/-- After a write the cache holds the entry written and others that it held before. -/
theorem sound_set {c : MemoryCache} (h : c.Sound) (now : Nat) (key : String) (value : Value)
    (o : WriteOptions) :
    (c.set now key value o).Sound ∧
      ∀ e ∈ (c.set now key value o).entries, e = (key, value) ∨ e ∈ c.entries := by
  obtain ⟨-, hsound, -, hentries⟩ := Recency.sound_set h key value
  unfold Sound entries
  rw [recency_set]
  refine ⟨hsound, fun e he ↦ ?_⟩
  rw [hentries] at he
  rcases List.mem_cons.mp (List.mem_of_mem_take he) with rfl | he
  · exact Or.inl rfl
  · exact Or.inr (mem_without.mp he).1

end RoleAccess.MemoryCache
