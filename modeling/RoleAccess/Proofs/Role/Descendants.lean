import RoleAccess.Proofs.Role.Downwards
import RoleAccess.Proofs.Role.Hops
import RoleAccess.Proofs.Role.Loading
import RoleAccess.Proofs.Role.PathSearch
import RoleAccess.Role.Inheritance

/-!
The walk downwards and the search upwards are converse: a role is found below another just where
that one is found above it (`descendants_converse`). The walk meets the roles in the order of their
hops. What carries this is that at any time the ids met lie in one layer or in the next one
(`Descent.Layered`), so that whatever is met anew is one hop further down than the id asked for.
-/

set_option autoImplicit false
set_option relaxedAutoImplicit false

namespace RoleAccess

namespace Descent

/-! ### What the walk notes down -/

/-- Ids are asked for in the order in which they were met, and each id met, the start apart, is that
of one role found. -/
structure Noted (r : Roster) (start : String) (d : Descent) : Prop where
  inOrder : d.met.reverse = d.asked.reverse ++ d.queue
  found : d.met.reverse = start :: d.found.map Role.id
  nodup : d.met.Nodup
  present : ∀ role ∈ d.found, r.find? role.id = some role

theorem meet_of_mem {d : Descent} {child : Role} (h : child.id ∈ d.met) : d.meet child = d :=
  if_pos (List.contains_iff_mem.mpr h)

theorem meet_of_not_mem {d : Descent} {child : Role} (h : child.id ∉ d.met) :
    d.meet child = { d with
      queue := d.queue ++ [child.id]
      met := child.id :: d.met
      found := d.found ++ [child] } :=
  if_neg fun hmem ↦ h (List.contains_iff_mem.mp hmem)

variable {r : Roster} {start id : String} {rest : List String} {d : Descent}

theorem noted_start (r : Roster) (id : String) : (Descent.start id).Noted r id :=
  ⟨rfl, rfl, List.nodup_singleton id, fun _ hrole ↦ absurd hrole List.not_mem_nil⟩

theorem Noted.meet {child : Role} (h : d.Noted r start) (hchild : r.find? child.id = some child) :
    (d.meet child).Noted r start := by
  by_cases hmem : child.id ∈ d.met
  · rwa [meet_of_mem hmem]
  · rw [meet_of_not_mem hmem]
    refine ⟨?_, ?_, List.nodup_cons.mpr ⟨hmem, h.nodup⟩, fun role hrole ↦ ?_⟩
    · rw [List.reverse_cons, h.inOrder, List.append_assoc]
    · rw [List.reverse_cons, h.found, List.map_append, List.map_singleton, List.cons_append]
    · rcases List.mem_append.mp hrole with hold | hnew
      · exact h.present role hold
      · rwa [List.mem_singleton.mp hnew]

theorem Noted.foldl_meet (h : d.Noted r start) {children : List Role}
    (hchildren : ∀ child ∈ children, r.find? child.id = some child) :
    (children.foldl Descent.meet d).Noted r start := by
  induction children generalizing d with
  | nil => exact h
  | cons child rest ih =>
    exact ih (h.meet (hchildren child List.mem_cons_self))
      fun other hother ↦ hchildren other (List.mem_cons_of_mem _ hother)

theorem Noted.ask (h : d.Noted r start) (hq : d.queue = id :: rest) :
    ((r.children id).foldl Descent.meet { d with queue := rest, asked := id :: d.asked }).Noted r
      start := by
  have horder : d.met.reverse = (id :: d.asked).reverse ++ rest := by
    rw [h.inOrder, hq, List.reverse_cons, List.append_assoc, List.singleton_append]
  have hpopped : Noted r start { d with queue := rest, asked := id :: d.asked } :=
    ⟨horder, h.found, h.nodup, h.present⟩
  exact hpopped.foldl_meet fun child hchild ↦ (Roster.mem_children_iff.mp hchild).1

/-! ### Layers -/

/-- The ids are met in the order of their hops. Nothing met is more than one hop further down than
the layer, and nothing queued is nearer than the layer. -/
structure Layered (r : Roster) (start : String) (layer : Nat) (d : Descent) : Prop where
  ascending : d.met.reverse.Pairwise fun a b ↦ r.hops start a ≤ r.hops start b
  reached : ∀ id ∈ d.met, r.hops start id ≤ layer + 1
  ahead : ∀ id ∈ d.queue, layer ≤ r.hops start id

theorem layered_start (r : Roster) (id : String) : (Descent.start id).Layered r id 0 := by
  refine ⟨List.pairwise_singleton _ _, fun other hother ↦ ?_, fun other hother ↦ Nat.zero_le _⟩
  rw [List.mem_singleton.mp hother, Roster.hops_self]
  exact Nat.zero_le _

variable {layer : Nat}

/-- A child that has not been met has to be in the next layer. -/
theorem Layered.meet {child : Role} (h : d.Layered r start layer)
    (hchild : child.id ∈ d.met ∨ r.hops start child.id = layer + 1) :
    (d.meet child).Layered r start layer := by
  by_cases hmem : child.id ∈ d.met
  · rwa [meet_of_mem hmem]
  · have hnext : r.hops start child.id = layer + 1 := hchild.resolve_left hmem
    rw [meet_of_not_mem hmem]
    refine ⟨?_, fun other hother ↦ ?_, fun other hother ↦ ?_⟩
    · rw [List.reverse_cons, List.pairwise_append]
      refine ⟨h.ascending, List.pairwise_singleton _ _, fun a ha b hb ↦ ?_⟩
      rw [List.mem_singleton.mp hb, hnext]
      exact h.reached a (List.mem_reverse.mp ha)
    · rcases List.mem_cons.mp hother with rfl | hold
      · exact hnext.le
      · exact h.reached other hold
    · rcases List.mem_append.mp hother with hold | hnew
      · exact h.ahead other hold
      · rw [List.mem_singleton.mp hnew, hnext]
        exact Nat.le_succ layer

theorem Layered.foldl_meet (h : d.Layered r start layer) {children : List Role}
    (hchildren : ∀ child ∈ children, child.id ∈ d.met ∨ r.hops start child.id = layer + 1) :
    (children.foldl Descent.meet d).Layered r start layer := by
  induction children generalizing d with
  | nil => exact h
  | cons child rest ih =>
    refine ih (h.meet (hchildren child List.mem_cons_self)) fun other hother ↦ ?_
    refine (hchildren other (List.mem_cons_of_mem _ hother)).imp_left fun hmet ↦ ?_
    exact mem_met_meet.mpr (Or.inl hmet)

/-- The layer may be taken to be that of the id that is asked for next. -/
theorem Layered.at_head (h : d.Layered r start layer) (hnoted : d.Noted r start)
    (hq : d.queue = id :: rest) : d.Layered r start (r.hops start id) := by
  have hlayer : layer ≤ r.hops start id := h.ahead id (hq ▸ List.mem_cons_self)
  have hqueue : (id :: rest).Pairwise fun a b ↦ r.hops start a ≤ r.hops start b := by
    have hall := h.ascending
    rw [hnoted.inOrder, hq] at hall
    exact (List.pairwise_append.mp hall).2.1
  refine ⟨h.ascending, fun other hother ↦ ?_, fun other hother ↦ ?_⟩
  · exact (h.reached other hother).trans (Nat.succ_le_succ hlayer)
  · rw [hq] at hother
    rcases List.mem_cons.mp hother with rfl | hlater
    · exact le_rfl
    · exact List.rel_of_pairwise_cons hqueue hlater

/-- By the time an id is asked for, all that is as near as it has been met. -/
theorem Layered.mem_met (h : d.Layered r start (r.hops start id)) (hbelow : d.Below r start)
    {other : String} (hother : r.Names other start)
    (hnear : r.hops start other ≤ r.hops start id) : other ∈ d.met := by
  -- The induction goes up along a shortest way, on which all ids are nearer still.
  generalize hn : r.hops start other = n
  induction n generalizing other with
  | zero =>
    by_cases heq : other = start
    · exact heq ▸ hbelow.started
    · obtain ⟨parent, -, -, hstep⟩ := Roster.exists_nearer hother heq
      omega
  | succ n ih =>
    have hne : other ≠ start := by
      rintro rfl
      rw [Roster.hops_self] at hn
      omega
    obtain ⟨parent, hlists, hparent, hstep⟩ := Roster.exists_nearer hother hne
    have hmet : parent ∈ d.met := ih hparent (by omega) (by omega)
    have hasked : parent ∈ d.asked := by
      refine (hbelow.pending parent hmet).resolve_left fun hqueued ↦ ?_
      have := h.ahead parent hqueued
      omega
    exact hbelow.closed parent hasked other hlists

theorem Layered.ask (h : d.Layered r start layer) (hbelow : d.Below r start)
    (hnoted : d.Noted r start) (hq : d.queue = id :: rest) :
    ((r.children id).foldl Descent.meet { d with queue := rest, asked := id :: d.asked }).Layered r
      start (r.hops start id) := by
  have hhead := h.at_head hnoted hq
  have hpopped : Layered r start (r.hops start id)
      { d with queue := rest, asked := id :: d.asked } :=
    ⟨hhead.ascending, hhead.reached,
      fun other hother ↦ hhead.ahead other (hq ▸ List.mem_cons_of_mem _ hother)⟩
  refine hpopped.foldl_meet fun child hchild ↦ or_iff_not_imp_left.mpr fun hnew ↦ ?_
  have hid : r.Names id start := hbelow.sound id (Or.inl (hq ▸ List.mem_cons_self))
  have hlists : r.Lists child.id id :=
    Roster.lists_iff_mem_children.mpr (List.mem_map_of_mem hchild)
  have hle := Roster.hops_le_of_lists hlists hid
  have hlt : ¬r.hops start child.id ≤ r.hops start id :=
    fun hnear ↦ hnew (hhead.mem_met hbelow (.head hlists hid) hnear)
  omega

end Descent

/-! ### Both ways -/

namespace RoleSource

variable {s : RoleSource}

/-- A role is above another if the other names it, unless they are one. -/
theorem exists_isAncestor (hanswers : s.failedFinds = []) (above id : String)
    (hid : s.roster.contains id = true) :
    ∃ answer, s.isAncestor above id = .ok answer ∧
      (answer = true ↔ above ≠ id ∧ s.roster.Names id above) := by
  obtain ⟨role, hrole⟩ := Roster.exists_of_contains hid
  obtain rfl := Roster.id_of_find? hrole
  obtain ⟨g, hg⟩ := exists_snapshot_of_no_failure hanswers role
  have hrequire := require_of_no_failure hanswers hrole
  have hpath := RoleGraph.pathTo_isSome_iff g above
  rw [(find?_snapshot_iff hrole hg).1, names_snapshot_iff hrole hg] at hpath
  refine ⟨(g.pathTo above).isSome, ?_, hpath⟩
  simp only [isAncestor, hrequire, hg, bind, Except.bind, pure, Except.pure]

/-- The walk downwards finds each role below its start once, the nearer ones first. -/
theorem exists_descendants (hanswers : s.failedChildren = []) (start : String) :
    ∃ roles, s.descendants start = .ok roles ∧
      (∀ role ∈ roles, s.roster.find? role.id = some role) ∧
      (start :: roles.map Role.id).Nodup ∧
      (∀ id, id ∈ start :: roles.map Role.id ↔ s.roster.Names id start) ∧
      (start :: roles.map Role.id).Pairwise
        fun a b ↦ s.roster.hops start a ≤ s.roster.hops start b := by
  obtain ⟨roles, hroles⟩ := exists_descend_of_no_failure hanswers start
  obtain ⟨last, ⟨hbelow, hnoted, layer, hlayered⟩, hqueue, rfl, -⟩ := Descent.exists_last
    (motive := fun d ↦ d.Below s.roster start ∧ d.Noted s.roster start ∧
      ∃ layer, d.Layered s.roster start layer)
    ⟨Descent.below_start s.roster start, Descent.noted_start s.roster start, 0,
      Descent.layered_start s.roster start⟩
    (fun d id rest ⟨hbelow, hnoted, layer, hlayered⟩ hq ↦
      ⟨hbelow.ask hq, hnoted.ask hq, _, hlayered.ask hbelow hnoted hq⟩) hroles
  refine ⟨last.found, hroles, hnoted.present, ?_, fun id ↦ ?_, ?_⟩
  · exact hnoted.found ▸ List.nodup_reverse.mpr hnoted.nodup
  · rw [← hbelow.mem_asked_iff hqueue, ← hnoted.found, hnoted.inOrder, hqueue, List.append_nil,
      List.mem_reverse]
  · exact hnoted.found ▸ hlayered.ascending

end RoleSource

/-- Over any roster, with loops in it or with parents that are missing, and below any id, the walk
downwards comes to its end. It finds a role just where the search upwards from that role finds the
start, it finds each one once, the start never, and those that are fewer hops away first. -/
theorem descendants_converse (r : Roster) (start : String) :
    ∃ roles, RoleSource.descendants { roster := r } start = .ok roles ∧
      (∀ id, r.contains id = true →
        ∃ answer, RoleSource.isAncestor { roster := r } start id = .ok answer ∧
          (id ∈ roles.map Role.id ↔ answer = true)) ∧
      (∀ role ∈ roles, r.find? role.id = some role ∧
        r.Climbs start (r.hops start role.id) role.id) ∧
      (roles.map Role.id).Nodup ∧ start ∉ roles.map Role.id ∧
      roles.Pairwise fun a b ↦ r.hops start a.id ≤ r.hops start b.id := by
  obtain ⟨roles, hroles, hpresent, hnodup, hmem, hsorted⟩ :=
    RoleSource.exists_descendants (s := { roster := r }) rfl start
  obtain ⟨hstart, hids⟩ := List.nodup_cons.mp hnodup
  refine ⟨roles, hroles, fun id hid ↦ ?_, fun role hrole ↦ ?_, hids, hstart, ?_⟩
  · obtain ⟨answer, hanswer, hiff⟩ :=
      RoleSource.exists_isAncestor (s := { roster := r }) rfl start id hid
    refine ⟨answer, hanswer, ?_⟩
    rw [hiff, ← hmem id, List.mem_cons]
    constructor
    · exact fun hbelow ↦ ⟨fun heq ↦ hstart (heq ▸ hbelow), Or.inr hbelow⟩
    · rintro ⟨hne, heq | hbelow⟩
      · exact absurd heq.symm hne
      · exact hbelow
  · have hbelow : role.id ∈ start :: roles.map Role.id :=
      List.mem_cons_of_mem _ (List.mem_map_of_mem hrole)
    exact ⟨hpresent role hrole, Roster.climbs_hops ((hmem role.id).mp hbelow)⟩
  · have hbelow := (List.pairwise_cons.mp hsorted).2
    rwa [List.pairwise_map] at hbelow

theorem descendants_converse_orphaned :
    Roster.orphanedLoop.contains "a" = true ∧
      ∃ roles, RoleSource.descendants { roster := .orphanedLoop } "x" = .ok roles ∧
        "a" ∈ roles.map Role.id := by
  obtain ⟨roles, hroles, hconverse, -⟩ := descendants_converse .orphanedLoop "x"
  obtain ⟨answer, hanswer, hbelow⟩ := hconverse "a" rfl
  obtain ⟨same, hsame, habove⟩ := RoleSource.exists_isAncestor
    (s := { roster := .orphanedLoop }) rfl "x" "a" rfl
  have hfirst : Roster.orphanedLoop.Lists "a" "b" := ⟨⟨"a", [], ["b"], true⟩, rfl, by decide⟩
  have hsecond : Roster.orphanedLoop.Lists "b" "x" :=
    ⟨⟨"b", [], ["a", "x"], true⟩, rfl, by decide⟩
  have hyes : same = true := habove.mpr ⟨by decide, .head hfirst (.single hsecond)⟩
  cases hanswer.symm.trans hsame
  exact ⟨rfl, roles, hroles, hbelow.mpr hyes⟩

end RoleAccess
