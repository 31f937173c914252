import RoleAccess.Proofs.Role.Lineage
import RoleAccess.Role.Graph

/-!
The search for a shortest path finds one just where there is one: the target is another id than the
root, and is named by some role above it (`RoleGraph.pathTo_isSome_iff`).
-/

set_option autoImplicit false
set_option relaxedAutoImplicit false

namespace RoleAccess.RoleGraph

variable {g : RoleGraph} {target id : String} {path trail : List String}

/-! ### The parents of one role -/

/-- A search that has looked at some parents without coming to its end: those `added` to the queue
are the ones that had not been met. -/
structure Search.Met (target : String) (path parents added : List String) (s next : Search) :
    Prop where
  queue : next.queue = s.queue ++ added.map (·, path)
  mem_met_iff : ∀ x, x ∈ next.met ↔ x ∈ s.met ∨ x ∈ added
  new : ∀ x ∈ added, x ∈ parents ∧ x ∉ s.met ∧ x ≠ target
  complete : ∀ x ∈ parents, x ∈ next.met

theorem Search.exists_met {parents : List String} {s next : Search}
    (h : s.meet target path parents = .ok next) :
    ∃ added, Search.Met target path parents added s next := by
  induction parents generalizing s with
  | nil =>
    cases h
    exact ⟨[], (List.append_nil _).symm, fun x ↦ by simp, nofun, nofun⟩
  | cons parent rest ih =>
    unfold meet at h
    split at h
    next hold =>
      obtain ⟨added, hqueue, hmet, hnew, hcomplete⟩ := ih h
      refine ⟨added, hqueue, hmet, fun x hx ↦ ?_, List.forall_mem_cons.mpr ⟨?_, hcomplete⟩⟩
      · exact (hnew x hx).imp_left (List.mem_cons_of_mem parent)
      · exact (hmet parent).mpr (Or.inl (List.contains_iff_mem.mp hold))
    next hfresh =>
      split at h
      next => cases h
      next hother =>
        obtain ⟨added, hqueue, hmet, hnew, hcomplete⟩ := ih h
        have hmem : ∀ x, x ∈ next.met ↔ x ∈ s.met ∨ x ∈ parent :: added := by
          intro x
          rw [hmet, List.mem_cons, List.mem_cons, or_assoc, or_left_comm]
        refine ⟨parent :: added, ?_, hmem, List.forall_mem_cons.mpr ⟨?_, fun x hx ↦ ?_⟩,
          List.forall_mem_cons.mpr ⟨(hmem parent).mpr (Or.inr List.mem_cons_self), hcomplete⟩⟩
        · rw [hqueue, List.append_assoc]
          rfl
        · exact ⟨List.mem_cons_self, mt List.contains_iff_mem.mpr hfresh, hother⟩
        · obtain ⟨hparent, hlater, hne⟩ := hnew x hx
          exact ⟨List.mem_cons_of_mem parent hparent, mt (List.mem_cons_of_mem parent) hlater, hne⟩

theorem Search.meet_error {parents found : List String} {s : Search}
    (h : s.meet target path parents = .error found) :
    found = target :: path ∧ target ∈ parents ∧ target ∉ s.met := by
  induction parents generalizing s with
  | nil => cases h
  | cons parent rest ih =>
    unfold meet at h
    split at h
    next =>
      obtain ⟨hfound, hmem, hnew⟩ := ih h
      exact ⟨hfound, List.mem_cons_of_mem parent hmem, hnew⟩
    next hnew =>
      split at h
      next heq =>
        cases h
        rw [List.contains_iff_mem] at hnew
        exact ⟨heq ▸ rfl, heq ▸ List.mem_cons_self, heq ▸ hnew⟩
      next =>
        obtain ⟨hfound, hmem, hlater⟩ := ih h
        exact ⟨hfound, List.mem_cons_of_mem parent hmem, mt (List.mem_cons_of_mem parent) hlater⟩

/-! ### The whole search -/

/-- Every id met is named above the root, has been or will be looked at, and is not the target,
unless that is the root. -/
structure Searching (g : RoleGraph) (target : String) (s : Search) : Prop where
  root : g.rootId ∈ s.met
  named : ∀ id ∈ s.met, g.roles.Names g.rootId id
  queue_met : ∀ entry ∈ s.queue, entry.1 ∈ s.met
  closed : ∀ id ∈ s.met, (∃ trail, (id, trail) ∈ s.queue) ∨
    ∀ parent, g.roles.Lists id parent → parent ∈ s.met
  missed : ∀ id ∈ s.met, id = target → id = g.rootId

theorem searching_start (g : RoleGraph) (target : String) :
    Searching g target ⟨[(g.rootId, [])], [g.rootId]⟩ := by
  refine ⟨List.mem_singleton_self _, ?_, ?_, ?_, ?_⟩
  · intro id hid
    rw [List.mem_singleton.mp hid]
  · intro entry hentry
    rw [List.mem_singleton.mp hentry]
    exact List.mem_singleton_self _
  · intro id hid
    rw [List.mem_singleton.mp hid]
    exact Or.inl ⟨[], List.mem_singleton_self _⟩
  · exact fun id hid _ ↦ List.mem_singleton.mp hid

theorem Searching.next {s next : Search} {rest : List (String × List String)}
    (h : Searching g target s) (hq : s.queue = (id, trail) :: rest)
    (hmeet : Search.meet target (id :: trail) ⟨rest, s.met⟩ (g.listedParents id) = .ok next) :
    Searching g target next := by
  obtain ⟨added, hqueue, hmet, hnew, hcomplete⟩ := Search.exists_met hmeet
  have hold {x : String} (hx : x ∈ s.met) : x ∈ next.met := (hmet x).mpr (Or.inl hx)
  have hid : id ∈ s.met := h.queue_met (id, trail) (hq ▸ List.mem_cons_self)
  refine ⟨hold h.root, fun x hx ↦ ?_, ?_, fun x hx ↦ ?_, fun x hx heq ↦ ?_⟩
  · rcases (hmet x).mp hx with hx | hx
    · exact h.named x hx
    · exact (h.named id hid).tail (mem_listedParents_iff.mp (hnew x hx).1)
  · rw [hqueue]
    refine List.forall_mem_append.mpr ⟨fun entry hentry ↦ ?_, List.forall_mem_map.mpr ?_⟩
    · exact hold (h.queue_met entry (hq ▸ List.mem_cons_of_mem _ hentry))
    · exact fun x hx ↦ (hmet x).mpr (Or.inr hx)
  -- The role whose parents have just been looked at leaves the queue, and is closed from now on.
  · rw [hqueue]
    rcases (hmet x).mp hx with hx | hx
    · by_cases heq : x = id
      · exact Or.inr fun parent hlists ↦
          hcomplete parent (mem_listedParents_iff.mpr (heq ▸ hlists))
      · rcases h.closed x hx with ⟨way, hway⟩ | hdone
        · rw [hq, List.mem_cons] at hway
          have hrest := hway.resolve_left fun hhead ↦ heq (Prod.mk.inj hhead).1
          exact Or.inl ⟨way, List.mem_append_left _ hrest⟩
        · exact Or.inr fun parent hlists ↦ hold (hdone parent hlists)
    · exact Or.inl ⟨id :: trail, List.mem_append_right _ (List.mem_map_of_mem hx)⟩
  · rcases (hmet x).mp hx with hx | hx
    · exact h.missed x hx heq
    · exact absurd heq (hnew x hx).2.2

/-- A search that has come to its end without a path has met everything above the root. -/
theorem Searching.mem_met {s : Search} (h : Searching g target s) (hq : s.queue = [])
    (hway : g.roles.Names g.rootId id) : id ∈ s.met := by
  induction hway with
  | refl => exact h.root
  | @tail child parent _ hedge ih =>
    rcases h.closed child ih with ⟨trail, hmem⟩ | hdone
    · rw [hq] at hmem
      cases hmem
    · exact hdone parent hedge

theorem Searching.run_isSome_iff {s : Search} (h : Searching g target s) :
    (s.run g target).isSome ↔ target ≠ g.rootId ∧ g.roles.Names g.rootId target := by
  fun_induction Search.run g target s with
  | case1 s hq =>
    rw [Option.isSome_none, iff_false_left Bool.false_ne_true]
    rintro ⟨hne, hway⟩
    exact hne (h.missed target (h.mem_met hq hway) rfl)
  | case2 s id trail rest hq path hmeet =>
    obtain ⟨-, hmem, hnew⟩ := Search.meet_error hmeet
    have hid : id ∈ s.met := h.queue_met (id, trail) (hq ▸ List.mem_cons_self)
    refine iff_of_true rfl ⟨?_, (h.named id hid).tail (mem_listedParents_iff.mp hmem)⟩
    rintro rfl
    exact hnew h.root
  | case3 s id trail rest hq next hmeet _ ih => exact ih (h.next hq hmeet)

theorem pathTo_isSome_iff (g : RoleGraph) (target : String) :
    (g.pathTo target).isSome ↔ target ≠ g.rootId ∧ g.roles.Names g.rootId target :=
  (searching_start g target).run_isSome_iff

end RoleAccess.RoleGraph
