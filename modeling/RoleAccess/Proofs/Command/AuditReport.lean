import RoleAccess.Proofs.Command.StartingCache
import RoleAccess.Proofs.Role.Audits

/-!
What an audit reports. A run that audits a roster prints the warnings and the errors about each role
in ascending order of the ids, and ends in success just if no role has a loop or too long a chain of
parents above it. Nothing in the configuration but the limit shows in the report, so that it is the
same with a cache and without one (`Program.run_validate`).
-/

set_option autoImplicit false
set_option relaxedAutoImplicit false

namespace RoleAccess

namespace Roster

variable {r : Roster} {limit : Nat} {ids : List String} {faults : List (Option Finding)}

/-- The lines of all findings, role by role. -/
theorem told_findings (hids : ∀ id ∈ ids, r.contains id = true)
    (h : List.Forall₂ (r.FaultOf limit) ids faults) :
    ∃ sections, List.Forall₂ (r.Told limit) ids sections ∧
      (List.zipWith r.findings ids faults).flatten.map Finding.line = sections.flatten := by
  induction h with
  | nil => exact ⟨[], .nil, rfl⟩
  | @cons id fault rest faults hof _ ih =>
    obtain ⟨sections, htold, hlines⟩ :=
      ih fun other hother ↦ hids other (List.mem_cons_of_mem _ hother)
    refine ⟨(r.findings id fault).map Finding.line :: sections,
      .cons (hof.told (hids id List.mem_cons_self)) htold, ?_⟩
    rw [List.zipWith_cons_cons, List.flatten_cons, List.map_append, hlines, List.flatten_cons]

theorem any_isError_findings (h : List.Forall₂ (r.FaultOf limit) ids faults) :
    (List.zipWith r.findings ids faults).flatten.any Finding.isError =
      faults.any Option.isSome := by
  induction h with
  | nil => rfl
  | cons hof _ ih =>
    rw [List.zipWith_cons_cons, List.flatten_cons, List.any_append, List.any_cons, ih,
      hof.any_isError]

theorem no_fault_iff (h : List.Forall₂ (r.FaultOf limit) ids faults) :
    faults.any Option.isSome = false ↔ ∀ id ∈ ids, ¬r.LoopAbove id ∧ r.HeightLE id limit := by
  induction h with
  | nil => simp
  | cons hof _ ih =>
    rw [List.any_cons, Bool.or_eq_false_iff, ih, List.forall_mem_cons, ← hof.judged.eq_none_iff,
      Option.map_eq_none_iff, Option.isSome_eq_false_iff, Option.isNone_iff_eq_none]

end Roster

namespace Program

/-- A run whose arguments ask for the audit of a roster, under a configuration. -/
def Audits (arguments : List String) (s : Surroundings) (config : EngineConfig)
    (roster : Roster) : Prop :=
  ∃ i d, Invocation.ofArguments arguments = .ok i ∧ i.command = .ask .validate ∧
    EngineConfig.load s (i.configPath s.environment) = .ok config ∧
    Dialect.ofTokens config.parser = .ok d ∧ i.roster s d = .ok roster

variable {arguments : List String} {s : Surroundings} {config : EngineConfig} {roster : Roster}

/-- The report only depends on what the two searches find in the roster. -/
theorem Audits.run (h : Audits arguments s config roster)
    (hstrict : config.hierarchy.detectCycles = true) {faults : List (Option Finding)}
    (hfaults : List.Forall₂
      (fun id fault ↦ RoleSource.fault { roster } config.hierarchy.maxDepth id = .ok fault)
      roster.ids faults) :
    Program.run arguments s = .reported (auditReport roster.size
      (List.zipWith roster.findings roster.ids faults).flatten) := by
  obtain ⟨i, d, harguments, hcommand, hconfig, hdialect, hroster⟩ := h
  obtain ⟨cache, hcache, htrusted⟩ := EngineConfig.exists_attached
    (EngineConfig.fault?_of_load hconfig) ⟨config.hierarchy.options, { roster }⟩ rfl
  have haudit : Resolver.inspect ⟨config.hierarchy.options, { roster }⟩ 0 roster.ids cache =
      .ok (List.zipWith roster.findings roster.ids faults).flatten :=
    htrusted.inspect hstrict hfaults
  have hquery : Query.run .validate d ⟨config.hierarchy.options, { roster }⟩ 0 cache =
      .ok (auditReport roster.size (List.zipWith roster.findings roster.ids faults).flatten) := by
    rw [Query.run, Resolver.audit, haudit]
    rfl
  simp only [Program.run, harguments, Invocation.run, hconfig, hdialect, hcommand, hroster, hcache,
    hquery, Except.mapError, bind, Except.bind]

/-- An audit that looks for loops always ends in a report, and in success just if for no role a loop
can be reached or a chain of parents is longer than the limit. The report goes through the roles in
ascending order of the ids: each has a warning for every entry of its list of parents that names no
role, and then one error if it is at fault, which is about the loop if there is one. Any other run
over the same roster with the same limit ends in the same report, with a cache or without one. -/
theorem run_validate (h : Audits arguments s config roster)
    (hstrict : config.hierarchy.detectCycles = true) :
    ∃ report, Program.run arguments s = .reported report ∧
      ((Program.run arguments s).exitCode = 0 ↔ ∀ id, roster.contains id = true →
        ¬roster.LoopAbove id ∧ roster.HeightLE id config.hierarchy.maxDepth) ∧
      (roster.ids.Pairwise (· < ·) ∧ ∀ id, id ∈ roster.ids ↔ roster.contains id = true) ∧
      (∃ sections, List.Forall₂ (roster.Told config.hierarchy.maxDepth) roster.ids sections ∧
        report.lines = sections.flatten ++ if (Program.run arguments s).exitCode = 0 then
          ["OK    " ++ toString roster.ids.length ++ " roles"] else []) ∧
      ∀ (arguments' : List String) (s' : Surroundings) (config' : EngineConfig),
        Audits arguments' s' config' roster → config'.hierarchy.detectCycles = true →
        config'.hierarchy.maxDepth = config.hierarchy.maxDepth →
        Program.run arguments' s' = .reported report := by
  obtain ⟨faults, hfaults, hof⟩ := RoleSource.exists_faults (s := { roster }) rfl
    config.hierarchy.maxDepth fun id hid ↦ Roster.mem_ids_iff.mp hid
  have hrun := h.run hstrict hfaults
  have hcode : (Program.run arguments s).exitCode = 0 ↔
      (List.zipWith roster.findings roster.ids faults).flatten.any Finding.isError = false := by
    rw [hrun]
    simp [Ending.exitCode, auditReport]
  have hsound := Roster.no_fault_iff hof
  rw [← Roster.any_isError_findings hof] at hsound
  simp only [Roster.mem_ids_iff] at hsound
  obtain ⟨sections, htold, hlines⟩ := Roster.told_findings
    (fun id hid ↦ Roster.mem_ids_iff.mp hid) hof
  refine ⟨_, hrun, hcode.trans hsound, ⟨roster.pairwise_ids, fun id ↦ Roster.mem_ids_iff⟩,
    ⟨sections, htold, ?_⟩,
    fun arguments' s' config' h' hstrict' hdepth ↦ h'.run hstrict' (hdepth ▸ hfaults)⟩
  have hsize : roster.size = roster.ids.length := Std.TreeMap.length_keys.symm
  simp only [hcode, auditReport, hlines, hsize, Bool.not_eq_true']

/-! ### A role that is its own parent -/

def ownParent : Role := ⟨"a", [], ["a", "x"], true⟩

/-- A single role, which is its own parent and lists another parent without a role. -/
def selfLoop : Roster := .ofList [ownParent]

/-- The same roster as a roles file. -/
def selfLoopFile : String := "roles=[[\"a\",[\"a\",\"x\"]]]"

/-- Whether a document is what the file is read as. -/
def isSelfLoop : Option Toml → Bool
  | some (.table [("roles", .array [.array [.string "a", .array [.string "a", .string "x"]]])]) =>
    true
  | _ => false

theorem ofFile_selfLoopFile : Roster.ofFile (.standard false) selfLoopFile = .ok selfLoop := by
  have hread : isSelfLoop (Toml.read? false selfLoopFile) = true := by decide +kernel
  unfold isSelfLoop at hread
  split at hread
  next hdocument =>
    rw [Roster.ofFile, hdocument]
    rfl
  next => cases hread

theorem contains_selfLoop {id : String} (h : selfLoop.contains id = true) : id = "a" :=
  List.mem_singleton.mp (Roster.mem_ids_iff.mpr h)

theorem loopAbove_selfLoop : selfLoop.LoopAbove "a" :=
  ⟨"a", .refl, .single ⟨⟨ownParent, rfl, List.mem_cons_self⟩, rfl⟩⟩

/-- The warning of the parent without a role is the only one. -/
theorem warned_selfLoop {warnings : List String}
    (h : selfLoop.Warned "a" ownParent.parents warnings) :
    warnings = ["WARN  a: parent 'x' does not exist"] := by
  cases h with
  | missing habsent => exact absurd habsent (Option.some_ne_none ownParent)
  | present _ hrest =>
    cases hrest with
    | present hfound => exact absurd hfound.symm (Option.some_ne_none _)
    | missing _ hlast =>
      cases hlast
      rfl

/-- The only way up from the role that closes a loop goes to the role itself. -/
theorem judged_selfLoop {limit : Nat} {verdict : Option String}
    (h : selfLoop.Judged limit "a" verdict) : verdict = some "ERROR a: cycle a -> a" := by
  cases h with
  | sound hfree => exact absurd loopAbove_selfLoop hfree
  | tooDeep hfree => exact absurd loopAbove_selfLoop hfree
  | @loop above before mid x hway hclosed hnodup =>
    have hsame : before ++ x :: mid = List.replicate (before ++ x :: mid).length "a" := by
      refine List.eq_replicate_of_mem fun id hid ↦ ?_
      have hmem : id ∈ "a" :: above := hclosed ▸ List.mem_append_left [x] hid
      exact contains_selfLoop
        (Roster.contains_of_reaches rfl (Roster.reaches_of_isChain hway id hmem))
    rw [hsame, List.nodup_replicate, List.length_append, List.length_cons] at hnodup
    have hbefore : before = [] := List.length_eq_zero_iff.mp (by omega)
    have hmid : mid = [] := List.length_eq_zero_iff.mp (by omega)
    subst hbefore hmid
    cases hclosed
    rfl

theorem run_validate_looped :
    Program.run ["-r", "roles", "validate"] (.ofRoles selfLoopFile) =
      .reported ⟨["WARN  a: parent 'x' does not exist", "ERROR a: cycle a -> a"], false⟩ := by
  have hroster : Invocation.roster ⟨⟨none, none, some "roles"⟩, .ask .validate⟩
      (.ofRoles selfLoopFile) (.standard false) = .ok selfLoop := by
    rw [Invocation.roster_ofRoles, ofFile_selfLoopFile]
    rfl
  have haudits : Audits ["-r", "roles", "validate"] (.ofRoles selfLoopFile) {} selfLoop :=
    ⟨_, .standard false, rfl, rfl, rfl, rfl, hroster⟩
  obtain ⟨⟨lines, success⟩, hrun, hcode, -, ⟨sections, htold, hlines⟩, -⟩ :=
    run_validate haudits rfl
  have hfault : (Program.run ["-r", "roles", "validate"] (.ofRoles selfLoopFile)).exitCode ≠ 0 :=
    fun hzero ↦ (hcode.mp hzero "a" rfl).1 loopAbove_selfLoop
  have hfailed : success = false := by
    rw [hrun] at hfault
    simpa [Ending.exitCode] using hfault
  -- There is one role, so that all lines are about it.
  have hids : selfLoop.ids = ["a"] := rfl
  rw [hids] at htold
  obtain _ | ⟨⟨hfound, hwarned, hjudged⟩, ⟨⟩⟩ := htold
  cases hfound
  rw [if_neg hfault, List.append_nil, warned_selfLoop hwarned, judged_selfLoop hjudged] at hlines
  obtain rfl : lines = _ := hlines
  rw [hrun, hfailed]
  rfl

end Program

end RoleAccess
