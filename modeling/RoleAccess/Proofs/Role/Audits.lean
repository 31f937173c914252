import Mathlib.Data.String.Basic
import RoleAccess.Proofs.Role.Coherence
import RoleAccess.Proofs.Role.Discovery
import RoleAccess.Proofs.Role.FirstLoop
import RoleAccess.Role.Audit

/-!
What an audit finds. Each role is judged by two searches, one for a loop and one for its ancestors,
and they agree: a role with no loop above it and no chain of parents too long is found sound, and
any other role is found at fault once, for the loop if there is one (`Roster.Judged`). Before that
come the warnings about entries of its list of parents that name no role (`Roster.Warned`). The
judgement on a role does not depend on what earlier ones have left in a cache
(`Resolver.Trusted.inspect`).
-/

set_option autoImplicit false
set_option relaxedAutoImplicit false

namespace RoleAccess

/-- An error counts as found, a result does not. -/
def Finding.ofResult {α : Type} (id : String) : Except RoleError α → Option Finding
  | .ok _ => none
  | .error e => some (.unresolved id e)

theorem RoleError.message_tooDeep (chain : List String) (depth limit : Nat) :
    (tooDeep chain depth limit).message =
      "Circular dependency (" ++ CycleKind.maxDepthExceeded.message ++ "): " ++
        String.intercalate " -> " chain ++ (" (depth " ++ toString depth ++ " exceeds maximum " ++
        toString limit ++ ")") := rfl

theorem Finding.line_tooDeep (id : String) (chain : List String) (depth limit : Nat) :
    (Finding.unresolved id (.tooDeep chain depth limit)).line =
      "ERROR " ++ id ++ ": Circular dependency (maximum depth exceeded): " ++
        String.intercalate " -> " chain ++ " (depth " ++ toString depth ++ " exceeds maximum " ++
        toString limit ++ ")" := by
  have hlead : ": Circular dependency (maximum depth exceeded): " =
      ": " ++ ("Circular dependency (" ++ (CycleKind.maxDepthExceeded.message ++ "): ")) := by
    decide
  rw [line, RoleError.message_tooDeep, hlead]
  simp only [String.append_assoc]

namespace Roster

/-! ### The lines about one role -/

/-- The warnings about a list of parents: one for each entry that names no role, in order. -/
inductive Warned (r : Roster) (id : String) : List String → List String → Prop
  | nil : Warned r id [] []
  | present {parent : String} {role : Role} {parents lines : List String}
    (found : r.find? parent = some role) (rest : Warned r id parents lines) :
    Warned r id (parent :: parents) lines
  | missing {parent : String} {parents lines : List String}
    (absent : r.find? parent = none) (rest : Warned r id parents lines) :
    Warned r id (parent :: parents)
      (("WARN  " ++ id ++ ": parent '" ++ parent ++ "' does not exist") :: lines)

/-- What is said of a role: nothing if it is sound, or else the error with a way up that closes a
loop, or where there is no loop, with a way up that is just one edge too long. -/
inductive Judged (r : Roster) (limit : Nat) (id : String) : Option String → Prop
  | sound (free : ¬r.LoopAbove id) (short : r.HeightLE id limit) : Judged r limit id none
  | loop {above before mid : List String} {x : String} (way : r.IsChainAbove id above)
    (closed : id :: above = before ++ x :: mid ++ [x]) (nodup : (before ++ x :: mid).Nodup) :
    Judged r limit id
      (some ("ERROR " ++ id ++ ": cycle " ++ String.intercalate " -> " (id :: above)))
  | tooDeep {above : List String} (free : ¬r.LoopAbove id) (way : r.IsChainAbove id above)
    (length : above.length = limit + 1) :
    Judged r limit id
      (some ("ERROR " ++ id ++ ": Circular dependency (maximum depth exceeded): " ++
        String.intercalate " -> " (id :: above) ++ " (depth " ++ toString (limit + 1) ++
        " exceeds maximum " ++ toString limit ++ ")"))

/-- All lines about a role: the warnings about its parents, and then the error if it is at fault. -/
inductive Told (r : Roster) (limit : Nat) (id : String) : List String → Prop
  | intro {role : Role} {warnings : List String} {verdict : Option String}
    (found : r.find? id = some role) (warned : r.Warned id role.parents warnings)
    (judged : r.Judged limit id verdict) : Told r limit id (warnings ++ verdict.toList)

variable {r : Roster} {limit : Nat} {id : String} {verdict : Option String}
  {fault : Option Finding}

/-- Nothing is said of a role just where it is sound. -/
theorem Judged.eq_none_iff (h : r.Judged limit id verdict) :
    verdict = none ↔ ¬r.LoopAbove id ∧ r.HeightLE id limit := by
  cases h with
  | sound hfree hshort => exact iff_of_true rfl ⟨hfree, hshort⟩
  | loop hway hclosed hnodup =>
    refine iff_of_false (Option.some_ne_none _) fun ⟨hfree, _⟩ ↦ hfree ?_
    exact ⟨_, reaches_loop_of_isChain hway hclosed⟩
  | tooDeep hfree hway hlength =>
    refine iff_of_false (Option.some_ne_none _) fun ⟨_, hshort⟩ ↦ ?_
    have := hshort _ hway
    omega

/-! ### The findings about one role -/

/-- A fault that is found in a role is an error, and its line is what is said of the role. -/
structure FaultOf (r : Roster) (limit : Nat) (id : String) (fault : Option Finding) : Prop where
  judged : r.Judged limit id (fault.map Finding.line)
  isError : ∀ finding ∈ fault, finding.isError = true

/-- The findings about a role: the parents that are missing, and then what is wrong above it. -/
def findings (r : Roster) (id : String) (fault : Option Finding) : List Finding :=
  (r.missingParents id).map (.missingParent id) ++ fault.toList

theorem warned_filter (r : Roster) (id : String) (parents : List String) :
    r.Warned id parents
      ((parents.filter (!r.contains ·)).map (Finding.line ∘ .missingParent id)) := by
  induction parents with
  | nil => exact .nil
  | cons parent rest ih =>
    cases hparent : r.find? parent with
    | none =>
      rw [List.filter_cons_of_pos (by simp [contains, hparent])]
      exact .missing hparent ih
    | some role =>
      rw [List.filter_cons_of_neg (by simp [contains, hparent])]
      exact .present hparent ih

theorem FaultOf.of_judged {finding : Finding} (h : r.Judged limit id (some finding.line))
    (herror : finding.isError = true) : r.FaultOf limit id (some finding) := by
  refine ⟨h, fun other hother ↦ ?_⟩
  rwa [← Option.some.inj hother]

theorem FaultOf.told (h : r.FaultOf limit id fault) (hid : r.contains id = true) :
    r.Told limit id ((r.findings id fault).map Finding.line) := by
  obtain ⟨role, hrole⟩ := exists_of_contains hid
  have hmissing : r.missingParents id = role.parents.filter (!r.contains ·) := by
    rw [missingParents, hrole]
    rfl
  have hlines := Told.intro hrole (r.warned_filter id role.parents) h.judged
  rwa [findings, hmissing, List.map_append, List.map_map, ← Option.toList_map]

theorem FaultOf.any_isError (h : r.FaultOf limit id fault) :
    (r.findings id fault).any Finding.isError = fault.isSome := by
  have hwarnings : ((r.missingParents id).map (Finding.missingParent id)).any Finding.isError =
      false := by
    rw [List.any_map, List.any_eq_false]
    exact fun parent _ ↦ Bool.false_ne_true
  rw [findings, List.any_append, hwarnings, Bool.false_or]
  cases fault with
  | none => rfl
  | some finding => simp [h.isError finding rfl]

end Roster

/-! ### The judgement on one role -/

namespace RoleSource

variable {s : RoleSource} {root : Role} {g : RoleGraph} {id : String}

theorem hasLoop_snapshot_iff (hroot : s.roster.find? root.id = some root)
    (hg : s.snapshot root = .ok g) : g.HasLoop ↔ s.roster.LoopAbove root.id := by
  unfold RoleGraph.HasLoop Roster.LoopAbove
  rw [(find?_snapshot_iff hroot hg).1]
  simp only [Relation.reflTransGen_iff_eq_or_transGen, transGen_snapshot_iff hroot hg .refl]
  refine exists_congr fun id ↦ and_congr_right fun hway ↦ ?_
  exact transGen_snapshot_iff hroot hg (Relation.reflTransGen_iff_eq_or_transGen.mpr hway)

section Judgement

variable {limit : Nat} (hroot : s.roster.find? root.id = some root) (hg : s.snapshot root = .ok g)

include hroot hg

theorem faultOf_loop {chain : List String} (h : g.findCycle = some chain) :
    s.roster.FaultOf limit root.id (some (.loop root.id chain)) := by
  refine .of_judged ?_ rfl
  obtain ⟨hway, before, mid, x, hclosed, hnodup⟩ := RoleGraph.isClosedWay_of_findCycle h
  obtain ⟨above, rfl, hchain⟩ := hway.eq_cons
  rw [(find?_snapshot_iff hroot hg).1] at hchain hclosed ⊢
  exact .loop ((isChainAbove_snapshot_iff hroot hg).mp hchain) hclosed hnodup

theorem not_loopAbove_of_none (h : g.findCycle = none) : ¬s.roster.LoopAbove root.id :=
  (hasLoop_snapshot_iff hroot hg).not.mp (RoleGraph.findCycle_eq_none_iff.mp h)

theorem faultOf_none {a : Ancestry} (hcycle : g.findCycle = none)
    (h : g.ancestors ⟨limit, true⟩ = .ok a) : s.roster.FaultOf limit root.id none := by
  obtain ⟨hheight, hle⟩ := RoleGraph.height_of_ancestors rfl h
  rw [(find?_snapshot_iff hroot hg).1] at hheight
  have hshort := (heightLE_snapshot_iff hroot hg).mp (hheight.le.mono hle)
  exact ⟨.sound (not_loopAbove_of_none hroot hg hcycle) hshort, fun _ hfinding ↦ nomatch hfinding⟩

theorem faultOf_error {e : RoleError} (hcycle : g.findCycle = none)
    (h : g.ancestors ⟨limit, true⟩ = .error e) :
    s.roster.FaultOf limit root.id (some (.unresolved root.id e)) := by
  refine .of_judged ?_ rfl
  have hfault := (RoleGraph.ancestors_eq_error h).2
  cases hfault with
  | loop hway hnodup =>
    exact absurd ⟨_, hway.reaches_loop⟩ (RoleGraph.findCycle_eq_none_iff.mp hcycle)
  | tooDeep hway hnodup hlength =>
    obtain ⟨above, rfl, hchain⟩ := hway.eq_cons
    rw [(find?_snapshot_iff hroot hg).1] at hchain ⊢
    have hline := Finding.line_tooDeep root.id (root.id :: above) (limit + 1) limit
    rw [RoleError.tooDeep] at hline
    rw [hline]
    exact .tooDeep (not_loopAbove_of_none hroot hg hcycle)
      ((isChainAbove_snapshot_iff hroot hg).mp hchain) (Nat.succ.inj hlength)

end Judgement

/-- What the two searches find wrong above a role, read afresh. -/
def fault (s : RoleSource) (limit : Nat) (id : String) : Except RoleError (Option Finding) :=
  (s.findCycle id).map fun
    | some chain => some (.loop id chain)
    | none => Finding.ofResult id ((s.require id).bind (s.ancestors ⟨limit, true⟩))

theorem exists_fault (hanswers : s.failedFinds = []) (limit : Nat)
    (hid : s.roster.contains id = true) :
    ∃ fault, s.fault limit id = .ok fault ∧ s.roster.FaultOf limit id fault := by
  obtain ⟨root, hroot⟩ := Roster.exists_of_contains hid
  obtain rfl := Roster.id_of_find? hroot
  obtain ⟨g, hg⟩ := exists_snapshot_of_no_failure hanswers root
  have hfound : s.find? root.id = .ok (some root) :=
    (find?_of_no_failure hanswers root.id).trans (congrArg Except.ok hroot)
  have hcycle : s.findCycle root.id = .ok g.findCycle := by
    simp only [findCycle, hfound, hg, bind, Except.bind, pure, Except.pure]
  have hparents : (s.require root.id).bind (s.ancestors ⟨limit, true⟩) =
      (g.ancestors ⟨limit, true⟩).map fun a ↦ a.ids.filterMap g.find? := by
    rw [require_eq_ok_iff.mpr hfound]
    simp only [Except.bind, ancestors, hg, bind]
    rfl
  refine ⟨_, by rw [fault, hcycle, hparents]; rfl, ?_⟩
  cases hsearch : g.findCycle with
  | some chain => exact faultOf_loop hroot hg hsearch
  | none =>
    cases hancestors : g.ancestors ⟨limit, true⟩ with
    | ok a => exact faultOf_none hroot hg hsearch hancestors
    | error e => exact faultOf_error hroot hg hsearch hancestors

end RoleSource

/-! ### The whole audit -/

theorem RoleSource.exists_faults {s : RoleSource} (hanswers : s.failedFinds = []) (limit : Nat)
    {ids : List String} (hids : ∀ id ∈ ids, s.roster.contains id = true) :
    ∃ faults, List.Forall₂ (fun id fault ↦ s.fault limit id = .ok fault) ids faults ∧
      List.Forall₂ (s.roster.FaultOf limit) ids faults := by
  induction ids with
  | nil => exact ⟨[], .nil, .nil⟩
  | cons id rest ih =>
    obtain ⟨fault, hfault, hof⟩ := exists_fault hanswers limit (hids id List.mem_cons_self)
    obtain ⟨faults, hfaults, hall⟩ :=
      ih fun other hother ↦ hids other (List.mem_cons_of_mem _ hother)
    exact ⟨fault :: faults, .cons hfault hfaults, .cons hof hall⟩

namespace Resolver

variable {r : Resolver} {now : Nat} {cache : Attached}

/-- A cache does not show in the judgement on a role. -/
theorem Trusted.ancestryFault (h : r.Trusted cache) (hstrict : r.options.detectCycles = true)
    (now : Nat) {id : String} {fault : Option Finding}
    (hfault : r.source.fault r.options.maxDepth id = .ok fault) :
    ∃ after, r.ancestryFault now id cache = .ok (fault, after) ∧ r.Trusted after := by
  rw [RoleSource.fault] at hfault
  cases hcycle : r.source.findCycle id with
  | error e =>
    rw [hcycle] at hfault
    cases hfault
  | ok found =>
    rw [hcycle] at hfault
    obtain rfl := Except.ok.inj hfault
    rw [Resolver.ancestryFault, hcycle]
    cases found with
    | some chain => exact ⟨cache, rfl, h⟩
    | none =>
      obtain ⟨after, hparents, hafter⟩ := h.parentRoles now id none
      rw [Option.getD_none, freshParents, mode, hstrict] at hparents
      refine ⟨after, ?_, hafter⟩
      cases hresult : (r.source.require id).bind
          (r.source.ancestors ⟨r.options.maxDepth, true⟩) with
      | ok found =>
        rw [hresult] at hparents
        simp only [bind, Except.bind, hparents]
        rfl
      | error e =>
        rw [hresult] at hparents
        simp only [bind, Except.bind, hparents]
        rfl

/-- An audit goes through the roles in order. What earlier judgements leave in a cache does not show
in later ones. -/
theorem Trusted.inspect (h : r.Trusted cache) (hstrict : r.options.detectCycles = true)
    {ids : List String} {faults : List (Option Finding)}
    (hfaults : List.Forall₂ (fun id fault ↦ r.source.fault r.options.maxDepth id = .ok fault)
      ids faults) :
    r.inspect now ids cache =
      .ok (List.zipWith r.source.roster.findings ids faults).flatten := by
  induction hfaults generalizing cache with
  | nil => rfl
  | cons hfault _ ih =>
    obtain ⟨after, hresult, hafter⟩ := h.ancestryFault hstrict now hfault
    simp only [Resolver.inspect, hresult, ih hafter, bind, Except.bind, List.zipWith_cons_cons,
      List.flatten_cons]
    rfl

end Resolver

end RoleAccess
