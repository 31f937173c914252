import RoleAccess.Proofs.Role.Coherence

/-!
Readings with nothing kept beforehand. Over a cache without entries, or over none, a resolver
answers from its source alone, and a reading that fails leaves no entry behind
(`Vacant.inheritedPermissions`, `Vacant.parentRoles`). Only a result is kept, and nothing is kept
before the whole of it has been read.
-/

set_option autoImplicit false
set_option relaxedAutoImplicit false

namespace RoleAccess

/-- No cache, or one in memory that holds nothing. -/
inductive Vacant : Attached → Prop
  | absent : Vacant none
  | empty {c : MemoryCache} (sound : c.Sound) (nothing : c.entries = []) :
    Vacant (some (.memory c))

theorem vacant_ofOptions {limits : MemoryCacheOptions} {c : MemoryCache}
    (h : MemoryCache.ofOptions limits = .ok c) : Vacant (some (.memory c)) :=
  have hnew := MemoryCache.sound_ofOptions h
  .empty hnew.1 hnew.2

/-- A reading that comes to the expected result, and leaves a cache without entries behind if that
is an error. -/
def Reads {α : Type} (expected : Except RoleError α) (answer : Except RoleError α × Attached) :
    Prop :=
  answer.1 = expected ∧ ∀ e, expected = .error e → Vacant answer.2

namespace Vacant

variable {α : Type} {cache : Attached}

theorem fetch (h : Vacant cache) (k : Keeping α) (now : Nat) :
    ∃ after, k.fetch cache now = (none, after) ∧ Vacant after := by
  cases h with
  | absent => exact ⟨none, rfl, .absent⟩
  | @empty c hsound hnothing =>
    obtain ⟨hheld, hsound', hsub⟩ := MemoryCache.sound_get hsound now k.key
    rw [hnothing] at hheld hsub
    refine ⟨some (.memory (c.get now k.key).2), ?_, .empty hsound' (List.subset_nil.mp hsub)⟩
    have hmiss : (c.get now k.key).1 = none :=
      Option.eq_none_iff_forall_ne_some.mpr fun v hv ↦ List.not_mem_nil (hheld v hv)
    simp only [Keeping.fetch, CacheBackend.get, hmiss, Option.bind_none]

theorem through (h : Vacant cache) {k : Keeping α} {now : Nat} {expected : Except RoleError α}
    {compute : Attached → Except RoleError α × Attached}
    (hcompute : ∀ c, Vacant c → Reads expected (compute c)) :
    Reads expected (k.through cache now compute) := by
  obtain ⟨fetched, hfetch, hvacant⟩ := h.fetch k now
  obtain ⟨hresult, hleft⟩ := hcompute fetched hvacant
  rw [Keeping.through, hfetch]
  dsimp only
  cases hanswer : compute fetched with
  | mk result after =>
    rw [hanswer] at hresult hleft
    cases result with
    | error e => exact ⟨hresult, hleft⟩
    | ok a =>
      refine ⟨hresult, fun e he ↦ ?_⟩
      rw [he] at hresult
      cases hresult

theorem withCache (h : Vacant cache) {r : Resolver} {expected : Except RoleError α}
    {read : Attached → Except RoleError α × Attached}
    (hread : ∀ c, Vacant c → Reads expected (read c)) :
    Reads expected (r.withCache cache read) := by
  cases henabled : r.options.cacheEnabled with
  | true =>
    rw [Resolver.withCache_enabled henabled]
    exact hread cache h
  | false =>
    rw [Resolver.withCache_disabled henabled]
    exact ⟨(hread none .absent).1, fun _ _ ↦ h⟩

theorem ancestors (h : Vacant cache) (r : Resolver) (now limit : Nat) (root : Role) :
    Reads (r.source.ancestors (r.mode limit) root) (r.ancestors now limit root cache) :=
  h.through fun _ hc ↦ ⟨rfl, fun _ _ ↦ hc⟩

theorem parentRoles (h : Vacant cache) (r : Resolver) (now : Nat) (id : String)
    (limit : Option Nat) :
    Reads (r.freshParents id (limit.getD r.options.maxDepth))
      (r.parentRoles now id limit cache) := by
  refine h.withCache fun c hc ↦ ?_
  unfold Resolver.freshParents
  cases r.source.require id with
  | error e => exact ⟨rfl, fun _ _ ↦ hc⟩
  | ok root => exact hc.ancestors r now _ root

theorem inheritedPermissions (h : Vacant cache) (r : Resolver) (now : Nat) (id : String) :
    Reads (r.freshPermissions id) (r.inheritedPermissions now id cache) := by
  refine h.withCache fun c hc ↦ hc.through fun c hc ↦ ?_
  unfold Resolver.freshPermissions
  cases r.source.require id with
  | error e => exact ⟨rfl, fun _ _ ↦ hc⟩
  | ok root =>
    simp only [Except.bind]
    split
    next =>
      obtain ⟨hresult, hleft⟩ := hc.ancestors r now r.options.maxDepth root
      refine ⟨congrArg (Except.map (collectPermissions root)) hresult, fun e he ↦ ?_⟩
      cases hfound : r.source.ancestors (r.mode r.options.maxDepth) root with
      | error e' => exact hleft e' hfound
      | ok found =>
        rw [hfound] at he
        cases he
    next => exact ⟨rfl, fun _ he ↦ by cases he⟩

end Vacant

end RoleAccess
