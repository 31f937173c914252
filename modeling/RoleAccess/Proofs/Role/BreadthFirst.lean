import RoleAccess.Proofs.Role.FirstOccurrences
import RoleAccess.Proofs.Role.Loading

/-!
The order in which a loading looks ids up: level by level, each level what the roles of the one
before list, and of each id only its first occurrence (`RoleSource.traces_load`). A loading skips
what it knows, so that its queue is not the rest of that order. But nothing comes first behind what
it skips: what a known role lists is known or queued already (`Follows.closed`).
-/

set_option autoImplicit false
set_option relaxedAutoImplicit false

namespace RoleAccess

/-! ### Level by level -/

namespace Roster

variable {r : Roster} {id : String} {ids : List String}

/-- So many levels upwards from some ids: the ids themselves, what they list, what that lists, and
so on, each id as often as it is listed. -/
def layers (r : Roster) : Nat → List String → List String
  | 0, _ => []
  | n + 1, ids => ids ++ r.layers n (ids.flatMap r.listed)

theorem names_of_mem_layers {n : Nat} (h : id ∈ r.layers n ids) :
    ∃ start ∈ ids, r.Names start id := by
  induction n generalizing ids with
  | zero => exact absurd h List.not_mem_nil
  | succ n ih =>
    rw [layers, List.mem_append] at h
    rcases h with hmem | habove
    · exact ⟨id, hmem, .refl⟩
    · obtain ⟨parent, hparent, hnames⟩ := ih habove
      obtain ⟨start, hstart, hlisted⟩ := List.mem_flatMap.mp hparent
      exact ⟨start, hstart, .head (mem_listed_iff.mp hlisted) hnames⟩

theorem layers_isPrefix_succ (r : Roster) (n : Nat) (ids : List String) :
    r.layers n ids <+: r.layers (n + 1) ids := by
  induction n generalizing ids with
  | zero => exact List.nil_prefix
  | succ n ih =>
    rw [layers, layers, List.prefix_append_right_inj]
    exact ih (ids.flatMap r.listed)

theorem layers_isPrefix_of_le (r : Roster) (ids : List String) {n m : Nat} (h : n ≤ m) :
    r.layers n ids <+: r.layers m ids := by
  induction h with
  | refl => exact List.prefix_rfl
  | step _ ih => exact ih.trans (r.layers_isPrefix_succ _ ids)

/-- Going through the levels one id after another. -/
theorem append_layers_isPrefix_layers (r : Roster) (n : Nat) (first rest : List String) :
    first ++ r.layers n (rest ++ first.flatMap r.listed) <+: r.layers (n + 1) (first ++ rest) := by
  rw [layers, List.append_assoc, List.prefix_append_right_inj]
  induction n generalizing first rest with
  | zero => exact List.nil_prefix
  | succ n ih =>
    rw [layers, layers, List.append_assoc, List.prefix_append_right_inj, List.flatMap_append,
      List.flatMap_append, List.append_assoc, List.prefix_append_right_inj]
    exact ih (first.flatMap r.listed) (rest.flatMap r.listed)

end Roster

/-! ### The lookups -/

namespace RoleSource

variable {s : RoleSource} {root id : String} {l : Loading} {past ahead rest : List String}

/-- A loading that has gone through the levels as far as `past`, and has `ahead` of it the rest of
one level and what has been listed since. Its queue may lack what is known, but it agrees with
`ahead` in the first occurrences of all else. -/
structure Follows (s : RoleSource) (root : String) (l : Loading) (past ahead : List String) :
    Prop where
  rooted : l.graph.rootId = root
  met : root :: l.asked.reverse = past.eraseDups
  queued : (past ++ l.queue).eraseDups = (past ++ ahead).eraseDups
  closed : ∀ x ∈ past, ∀ parent ∈ s.roster.listed x, parent ∈ past ++ ahead
  foreseen : ∀ n, ∃ m, past ++ s.roster.layers n ahead <+: s.roster.layers m [root]
  answered : ∀ x ∈ l.asked, x ∉ s.failedFinds

/-- What a loading comes to, and the ids it has asked for: it goes through all the levels, or as far
as the first id that fails. -/
inductive Traces (s : RoleSource) (root : String) : Loaded → Prop
  | complete {past asked : List String} {g : RoleGraph} (n : Nat)
    (reached : past <+: s.roster.layers n [root]) (met : root :: asked = past.eraseDups)
    (closed : ∀ x ∈ past, ∀ parent ∈ s.roster.listed x, parent ∈ past)
    (answered : ∀ x ∈ asked, x ∉ s.failedFinds) : Traces s root ⟨.ok g, asked⟩
  | stopped {past asked : List String} {failed : String} (n : Nat)
    (reached : past ++ [failed] <+: s.roster.layers n [root])
    (met : root :: asked = (past ++ [failed]).eraseDups)
    (answered : ∀ x ∈ past, x = root ∨ x ∉ s.failedFinds) (failing : failed ∈ s.failedFinds) :
    Traces s root ⟨.error (.source ("find " ++ failed)), asked⟩

namespace Follows

theorem mem_past_iff (h : s.Follows root l past ahead) : id ∈ past ↔ isKnown l id = true := by
  rw [← List.mem_eraseDups, ← h.met, List.mem_cons, List.mem_reverse, isKnown, h.rooted]
  simp

theorem answered_past (h : s.Follows root l past ahead) :
    ∀ x ∈ past, x = root ∨ x ∉ s.failedFinds := by
  intro x hx
  rw [← List.mem_eraseDups, ← h.met, List.mem_cons, List.mem_reverse] at hx
  exact hx.imp_right (h.answered x)

theorem known (h : s.Follows root l past ahead) (hq : l.queue = id :: rest)
    (hknown : isKnown l id = true) : s.Follows root { l with queue := rest } past ahead where
  rooted := h.rooted
  met := h.met
  queued := by rw [← h.queued, hq, eraseDups_append_cons_of_mem (h.mem_past_iff.mpr hknown)]
  closed := h.closed
  foreseen := h.foreseen
  answered := h.answered

/-- The next id that is not known is the next one of the levels, but for some that are. -/
theorem exists_ahead (h : s.Follows root l past ahead) (hq : l.queue = id :: rest)
    (hnew : ¬isKnown l id = true) :
    ∃ pre post, ahead = pre ++ id :: post ∧ (∀ x ∈ pre, x ∈ past) ∧
      root :: (id :: l.asked).reverse = (past ++ pre ++ [id]).eraseDups := by
  have hid : id ∉ past := mt h.mem_past_iff.mp hnew
  obtain ⟨pre, post, rfl, hpre⟩ := exists_of_eraseDups_eq hid (hq ▸ h.queued)
  refine ⟨pre, post, rfl, hpre, ?_⟩
  rw [eraseDups_append_of_not_mem (mt (mem_of_mem_append_of_subset hpre) hid),
    eraseDups_append_of_subset hpre, ← h.met, List.reverse_cons, List.cons_append]

/-- An id that is looked up without a failure. -/
theorem found (h : s.Follows root l past ahead) (hq : l.queue = id :: rest)
    (hnew : ¬isKnown l id = true) (hanswers : id ∉ s.failedFinds) (graph : RoleGraph)
    (hrooted : graph.rootId = root) :
    ∃ past' ahead', s.Follows root ⟨rest ++ s.roster.listed id, graph, id :: l.asked⟩
      past' ahead' := by
  obtain ⟨pre, post, rfl, hpre, hmet⟩ := h.exists_ahead hq hnew
  have hlisted : ∀ x ∈ pre.flatMap s.roster.listed, x ∈ past ++ (pre ++ id :: post) := by
    intro x hx
    obtain ⟨y, hy, hxy⟩ := List.mem_flatMap.mp hx
    exact h.closed y (hpre y hy) x hxy
  refine ⟨past ++ pre ++ [id], post ++ (pre ++ [id]).flatMap s.roster.listed, hrooted, hmet, ?_, ?_,
    fun n ↦ ?_, ?_⟩
  · -- Past `pre` nothing is new until `id`, and what `pre` lists has been met as well.
    have hstart : (past ++ pre ++ id :: rest).eraseDups = (past ++ id :: rest).eraseDups :=
      eraseDups_append_congr (eraseDups_append_of_subset hpre)
    have hmeet : (past ++ (pre ++ id :: post) ++ pre.flatMap s.roster.listed).eraseDups =
        (past ++ pre ++ id :: rest).eraseDups := by
      rw [eraseDups_append_of_subset hlisted, hstart, ← h.queued, hq]
    have hlast : (past ++ pre ++ id :: rest ++ s.roster.listed id).eraseDups =
        (past ++ (pre ++ id :: post) ++ pre.flatMap s.roster.listed ++
          s.roster.listed id).eraseDups := eraseDups_append_congr hmeet.symm
    simpa [List.append_assoc] using hlast
  · intro x hx parent hparent
    have hin : parent ∈ past ++ (pre ++ id :: post) ∨ parent ∈ s.roster.listed id := by
      rcases List.mem_append.mp hx with hx | hx
      · exact Or.inl (h.closed x (mem_of_mem_append_of_subset hpre hx) parent hparent)
      · exact Or.inr (List.mem_singleton.mp hx ▸ hparent)
    simp only [List.mem_append, List.mem_cons, List.flatMap_append, List.flatMap_singleton,
      List.not_mem_nil, or_false] at hin ⊢
    tauto
  · obtain ⟨m, hm⟩ := h.foreseen (n + 1)
    have hnext := s.roster.append_layers_isPrefix_layers n (pre ++ [id]) post
    rw [List.append_assoc pre [id] post, List.singleton_append] at hnext
    refine ⟨m, List.IsPrefix.trans ?_ hm⟩
    rwa [List.append_assoc past, List.append_assoc past, List.prefix_append_right_inj]
  · exact List.forall_mem_cons.mpr ⟨hanswers, h.answered⟩

theorem finish (h : s.Follows root l past ahead) : s.Traces root (s.finish l) := by
  fun_induction RoleSource.finish s l generalizing past ahead with
  | case1 l hq =>
    obtain ⟨n, hn⟩ := h.foreseen 0
    rw [Roster.layers, List.append_nil] at hn
    refine .complete n hn h.met (fun x hx parent hparent ↦ ?_) fun x hx ↦ ?_
    · have hmem := List.mem_eraseDups.mpr (h.closed x hx parent hparent)
      rwa [← h.queued, hq, List.append_nil, List.mem_eraseDups] at hmem
    · exact h.answered x (List.mem_reverse.mp hx)
  | case2 l id rest hq hknown _ ih => exact ih (h.known hq hknown)
  | case3 l id rest hq hnew e hfind =>
    obtain ⟨hfailing, rfl⟩ := failed_of_find? hfind
    obtain ⟨pre, post, rfl, hpre, hmet⟩ := h.exists_ahead hq hnew
    obtain ⟨n, hn⟩ := h.foreseen 1
    refine .stopped n (List.IsPrefix.trans ?_ hn) hmet (fun x hx ↦ ?_) hfailing
    · simp [Roster.layers]
    · exact h.answered_past x (mem_of_mem_append_of_subset hpre hx)
  | case4 l id rest hq hnew hfind _ ih =>
    obtain ⟨past', ahead', hnext⟩ := h.found hq hnew (not_failed_of_find? hfind) l.graph h.rooted
    rw [Roster.listed_of_find? (roster_find?_of_find? hfind), Option.elim_none,
      List.append_nil] at hnext
    exact ih hnext
  | case5 l id rest hq hnew role hfind _ ih =>
    obtain ⟨past', ahead', hnext⟩ :=
      h.found hq hnew (not_failed_of_find? hfind) (l.graph.insert role) h.rooted
    rw [Roster.listed_of_find? (roster_find?_of_find? hfind), Option.elim_some] at hnext
    exact ih hnext

end Follows

/-- The ids that are looked up above a role are the first occurrences in the levels above it, as far
as the first one that fails. -/
theorem traces_load {role : Role} (hroot : s.roster.find? role.id = some role) :
    s.Traces role.id (s.load role) := by
  have hlisted : s.roster.listed role.id = role.parents := Roster.listed_of_find? hroot
  suffices hstart : s.Follows role.id ⟨role.parents, RoleGraph.ofRoot role, []⟩ [role.id]
      role.parents from hstart.finish
  refine ⟨rfl, ?_, rfl, ?_, fun n ↦ ⟨n + 1, ?_⟩, ?_⟩
  · rw [List.eraseDups_cons, List.filter_nil, List.eraseDups_nil]
    rfl
  · intro x hx parent hparent
    obtain rfl := List.mem_singleton.mp hx
    exact List.mem_append_right _ (hlisted ▸ hparent)
  · rw [Roster.layers, List.flatMap_singleton, hlisted]
  · exact fun x hx ↦ absurd hx List.not_mem_nil

/-- No id is looked up twice, and that of the root is not looked up again. -/
theorem nodup_asked {role : Role} (hroot : s.roster.find? role.id = some role) :
    (role.id :: (s.load role).asked).Nodup := by
  have htraces := traces_load hroot
  cases hload : s.load role with
  | mk graph asked =>
    rw [hload] at htraces
    cases htraces with
    | complete n hreached hmet hclosed hanswered => exact hmet ▸ nodup_eraseDups _
    | stopped n hreached hmet hanswered hfailing => exact hmet ▸ nodup_eraseDups _

end RoleSource

end RoleAccess
