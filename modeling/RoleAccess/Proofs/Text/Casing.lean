import RoleAccess.Text.Blank
import RoleAccess.Text.Lowercase

/-!
Lowercase piece by piece. `lowerBetween` is the lowercase of a text where it stands between two
others. Only a capital sigma makes a difference between two places, and only in the form of the
small sigma that it becomes (`map_plainSigma_lowerBetween`, `lowerBetween_of_no_sigma`). Lowercase
is settled: wherever its characters are put, they stay as they are (`settled_of_mem_lowerBetween`,
`lowerBetween_of_settled`). Characters without case, such as white space, stay where they are and do
not come from any others (`Caseless`), so that a text of them occurs in lowercase only where it was
before (`isInfix_of_isInfix_lowerBetween`).
-/

set_option autoImplicit false
set_option relaxedAutoImplicit false

namespace RoleAccess.Text

/-! ### Lowercase in place -/

/-- Lowercase of a character between two texts, the first of which is read backwards. -/
def lowerAt (before : List Char) (c : Char) (after : List Char) : List Char :=
  if c = capitalSigma then [lowerSigma before after] else lowerChar c

/-- Lowercase of a text between two others, the first of which is read backwards. -/
def lowerBetween (before : List Char) : List Char → List Char → List Char
  | [], _ => []
  | c :: rest, after => lowerAt before c (rest ++ after) ++ lowerBetween (c :: before) rest after

theorem lower_eq_lowerBetween (s : List Char) : lower s = lowerBetween [] s [] := by
  suffices hafter : ∀ before, lowerAfter before s = lowerBetween before s [] from hafter []
  induction s with
  | nil => exact fun _ ↦ rfl
  | cons c rest ih =>
    intro before
    rw [lowerAfter, lowerBetween, List.append_nil, ih (c :: before)]
    rfl

theorem lowerBetween_append (before s t after : List Char) :
    lowerBetween before (s ++ t) after =
      lowerBetween before s (t ++ after) ++ lowerBetween (s.reverse ++ before) t after := by
  induction s generalizing before with
  | nil => rfl
  | cons c rest ih =>
    rw [List.cons_append, lowerBetween, lowerBetween, ih, List.append_assoc, List.append_assoc,
      List.reverse_cons, List.append_assoc]
    rfl

theorem lowerChar_ne_nil (c : Char) : lowerChar c ≠ [] := by
  unfold lowerChar
  split
  · exact List.cons_ne_nil _ _
  · split <;> exact List.cons_ne_nil _ _

theorem lowerAt_ne_nil (before : List Char) (c : Char) (after : List Char) :
    lowerAt before c after ≠ [] := by
  unfold lowerAt
  split
  · exact List.cons_ne_nil _ _
  · exact lowerChar_ne_nil c

theorem lowerBetween_eq_nil_iff {before s after : List Char} :
    lowerBetween before s after = [] ↔ s = [] := by
  cases s with
  | nil => exact iff_of_true rfl rfl
  | cons c rest =>
    refine iff_of_false (fun h ↦ ?_) (List.cons_ne_nil c rest)
    exact lowerAt_ne_nil _ _ _ (List.append_eq_nil_iff.mp h).1

/-! ### The forms of sigma -/

def smallSigma : Char := Char.ofNat 0x3C3

def finalSigma : Char := Char.ofNat 0x3C2

/-- The form of a character that does not depend on where a word ends. -/
def plainSigma (c : Char) : Char := if c = finalSigma then smallSigma else c

theorem lowerSigma_eq (before after : List Char) :
    lowerSigma before after = finalSigma ∨ lowerSigma before after = smallSigma := by
  unfold lowerSigma
  split
  · exact Or.inl rfl
  · exact Or.inr rfl

/-- Lowercase in which every sigma has its plain form. -/
def plainLower (c : Char) : List Char :=
  if c = capitalSigma then [smallSigma] else (lowerChar c).map plainSigma

theorem map_plainSigma_lowerAt (before : List Char) (c : Char) (after : List Char) :
    (lowerAt before c after).map plainSigma = plainLower c := by
  unfold lowerAt plainLower
  split
  · rcases lowerSigma_eq before after with h | h
    · rw [h]
      rfl
    · rw [h]
      rfl
  · rfl

/-- Up to the forms of sigma lowercase is the same in every place. -/
theorem map_plainSigma_lowerBetween (before s after : List Char) :
    (lowerBetween before s after).map plainSigma = s.flatMap plainLower := by
  induction s generalizing before with
  | nil => rfl
  | cons c rest ih =>
    rw [lowerBetween, List.map_append, map_plainSigma_lowerAt, ih, List.flatMap_cons]

/-- Without a capital sigma lowercase is the same in every place. -/
theorem lowerBetween_of_no_sigma {s : List Char} (h : capitalSigma ∉ s)
    (before after : List Char) : lowerBetween before s after = s.flatMap lowerChar := by
  induction s generalizing before with
  | nil => rfl
  | cons c rest ih =>
    obtain ⟨hc, hrest⟩ := not_or.mp (mt List.mem_cons.mpr h)
    rw [lowerBetween, lowerAt, if_neg (Ne.symm hc), ih hrest, List.flatMap_cons]

/-! ### Settled characters -/

/-- A character that is its own lowercase wherever it stands. -/
def IsSettled (c : Char) : Prop := ∀ before after, lowerAt before c after = [c]

/-- The runs of all capitals, the dotted I and the sigma included. -/
def capitalRuns : List CaseRun := ⟨0x130, 0x130, 1, 0⟩ :: ⟨0x3A3, 0x3A3, 1, 0⟩ :: lowerRuns

theorem toNat_ne_of_no_run {c : Char} {n : Nat} (hrun : ⟨n, n, 1, 0⟩ ∈ capitalRuns)
    (h : ∀ run ∈ capitalRuns, run.contains c.toNat = false) : c.toNat ≠ n := by
  intro hn
  have hcontains := h _ hrun
  simp [CaseRun.contains, hn] at hcontains

theorem settled_of_no_run {c : Char} (h : ∀ run ∈ capitalRuns, run.contains c.toNat = false) :
    IsSettled c := by
  intro before after
  have hdotted : c.toNat ≠ 0x130 := toNat_ne_of_no_run List.mem_cons_self h
  have hsigma : c.toNat ≠ capitalSigma.toNat :=
    toNat_ne_of_no_run (List.mem_cons_of_mem _ List.mem_cons_self) h
  have hnone : lowerRuns.find? (·.contains c.toNat) = none := by
    apply List.find?_eq_none.mpr
    intro run hrun
    exact Bool.eq_false_iff.mp (h run (List.mem_cons_of_mem _ (List.mem_cons_of_mem _ hrun)))
  have hcapital : c ≠ capitalSigma := fun heq ↦ hsigma (congrArg Char.toNat heq)
  rw [lowerAt, if_neg hcapital, lowerChar, if_neg hdotted, hnone]

/-- Whether no partner of one run lies in another: the ranges are apart, or they have every other
code point each and no common one. -/
def CaseRun.avoids (run other : CaseRun) : Bool :=
  (run.partner run.last).blt other.first || other.last.blt (run.partner run.first) ||
    (other.step == 2 && (run.step == 2 || run.first == run.last) &&
      0 ≤ run.first + run.shift && (run.partner run.first + other.first) % 2 == 1)

theorem CaseRun.not_contains_partner {run other : CaseRun} (h : run.avoids other = true) {n : Nat}
    (hn : run.contains n = true) : other.contains (run.partner n) = false := by
  simp only [CaseRun.contains, Bool.and_eq_true, decide_eq_true_eq, beq_iff_eq] at hn
  simp only [CaseRun.avoids, Bool.or_eq_true, Bool.and_eq_true, decide_eq_true_eq, beq_iff_eq,
    Nat.blt_eq] at h
  apply Bool.eq_false_iff.mpr
  intro hother
  simp only [CaseRun.contains, Bool.and_eq_true, decide_eq_true_eq, beq_iff_eq] at hother
  obtain ⟨⟨hfirst, hlast⟩, hstep⟩ := hn
  obtain ⟨⟨hfirst', hlast'⟩, hstep'⟩ := hother
  unfold CaseRun.partner at *
  rcases h with (h | h) | ⟨⟨⟨htwo, hone⟩, hshift⟩, hodd⟩
  · omega
  · omega
  · rw [htwo] at hstep'
    rcases hone with hone | hone
    · rw [hone] at hstep
      omega
    · omega

theorem runs_avoid_capitals : (lowerRuns.all fun run ↦ capitalRuns.all run.avoids) = true := by
  decide +kernel

/-- Letters that other characters become, besides the partners in the runs, and the null. -/
def specialPartners : List Nat := [0, 0x69, 0x307, 0x3C2, 0x3C3]

theorem specialPartners_no_run :
    ∀ n ∈ specialPartners, ∀ run ∈ capitalRuns, run.contains n = false := by
  decide +kernel

theorem settled_of_special {c : Char} (h : c.toNat ∈ specialPartners) : IsSettled c :=
  settled_of_no_run (specialPartners_no_run _ h)

theorem toNat_ofNat_eq_or (m : Nat) : (Char.ofNat m).toNat = m ∨ (Char.ofNat m).toNat = 0 := by
  by_cases hvalid : m.isValidChar
  · rw [Char.ofNat, dif_pos hvalid]
    exact Or.inl rfl
  · rw [Char.ofNat, dif_neg hvalid]
    exact Or.inr rfl

theorem settled_partner {run : CaseRun} (hrun : run ∈ lowerRuns) {n : Nat}
    (hn : run.contains n = true) : IsSettled (Char.ofNat (run.partner n)) := by
  apply settled_of_no_run
  intro other hother
  have havoids : run.avoids other = true :=
    List.all_eq_true.mp (List.all_eq_true.mp runs_avoid_capitals run hrun) other hother
  rcases toNat_ofNat_eq_or (run.partner n) with h | h
  · rw [h]
    exact CaseRun.not_contains_partner havoids hn
  · rw [h]
    exact specialPartners_no_run 0 List.mem_cons_self other hother

/-- What a character can become: itself, the partner in a run, or one of the special letters. -/
theorem mem_lowerAt {before after : List Char} {c d : Char} (h : d ∈ lowerAt before c after) :
    d.toNat ∈ specialPartners ∨
      (∃ run ∈ lowerRuns, run.contains c.toNat = true ∧ d = Char.ofNat (run.partner c.toNat)) ∨
        (d = c ∧ IsSettled c) := by
  by_cases hsigma : c = capitalSigma
  · rw [lowerAt, if_pos hsigma] at h
    rcases lowerSigma_eq before after with hform | hform
    · rw [List.mem_singleton.mp h, hform]
      exact Or.inl (by decide)
    · rw [List.mem_singleton.mp h, hform]
      exact Or.inl (by decide)
  rw [lowerAt, if_neg hsigma] at h
  by_cases hdotted : c.toNat = 0x130
  · rw [lowerChar, if_pos hdotted] at h
    rcases List.mem_cons.mp h with hd | hd
    · rw [hd]
      exact Or.inl (by decide)
    · rw [List.mem_singleton.mp hd]
      exact Or.inl (by decide)
  rw [lowerChar, if_neg hdotted] at h
  cases hfind : lowerRuns.find? (·.contains c.toNat) with
  | some run =>
    have hcontains := List.find?_some hfind
    rw [hfind] at h
    exact Or.inr (Or.inl ⟨run, List.mem_of_find?_eq_some hfind, hcontains, List.mem_singleton.mp h⟩)
  | none =>
    rw [hfind] at h
    refine Or.inr (Or.inr ⟨List.mem_singleton.mp h, fun before after ↦ ?_⟩)
    rw [lowerAt, if_neg hsigma, lowerChar, if_neg hdotted, hfind]

theorem settled_of_mem_lowerAt {before after : List Char} {c d : Char}
    (h : d ∈ lowerAt before c after) : IsSettled d := by
  rcases mem_lowerAt h with hspecial | ⟨run, hrun, hcontains, rfl⟩ | ⟨rfl, hsettled⟩
  · exact settled_of_special hspecial
  · exact settled_partner hrun hcontains
  · exact hsettled

theorem exists_of_mem_lowerBetween {before s after : List Char} {d : Char}
    (h : d ∈ lowerBetween before s after) : ∃ c ∈ s, ∃ left right, d ∈ lowerAt left c right := by
  induction s generalizing before with
  | nil => exact absurd h List.not_mem_nil
  | cons first rest ih =>
    rw [lowerBetween] at h
    rcases List.mem_append.mp h with hfirst | hrest
    · exact ⟨first, List.mem_cons_self, _, _, hfirst⟩
    · obtain ⟨c, hc, hlower⟩ := ih hrest
      exact ⟨c, List.mem_cons_of_mem first hc, hlower⟩

theorem settled_of_mem_lowerBetween {before s after : List Char} {c : Char}
    (h : c ∈ lowerBetween before s after) : IsSettled c := by
  obtain ⟨_, _, _, _, hlower⟩ := exists_of_mem_lowerBetween h
  exact settled_of_mem_lowerAt hlower

theorem lowerBetween_of_settled {before s after : List Char} (h : ∀ c ∈ s, IsSettled c) :
    lowerBetween before s after = s := by
  induction s generalizing before with
  | nil => rfl
  | cons c rest ih =>
    rw [lowerBetween, h c List.mem_cons_self, ih fun d hd ↦ h d (List.mem_cons_of_mem c hd)]
    rfl

/-! ### Characters without case -/

/-- A character that is its own lowercase and no part of that of another one. -/
structure Caseless (c : Char) : Prop where
  settled : IsSettled c
  only : ∀ other before after, c ∈ lowerAt before other after → other = c

/-- Whether a code point is neither a capital nor part of the lowercase of one, the ranges of both
taken whole. -/
def isOutside (n : Nat) : Bool :=
  !specialPartners.contains n &&
    capitalRuns.all fun run ↦ (n < run.first || run.last < n) &&
      ((n : Int) < run.first + run.shift || run.last + run.shift < n)

theorem caseless_of_isOutside {c : Char} (h : isOutside c.toNat = true) : Caseless c := by
  obtain ⟨hspecial, hruns⟩ := by
    simpa only [isOutside, Bool.and_eq_true, Bool.or_eq_true, Bool.not_eq_true', decide_eq_true_eq,
      List.all_eq_true, ← Bool.not_eq_true, List.contains_iff_mem] using h
  constructor
  · apply settled_of_no_run
    intro run hrun
    apply Bool.eq_false_iff.mpr
    intro hcontains
    simp only [CaseRun.contains, Bool.and_eq_true, decide_eq_true_eq] at hcontains
    have hapart := (hruns run hrun).1
    omega
  · intro other before after hmem
    rcases mem_lowerAt hmem with hc | ⟨run, hrun, hcontains, heq⟩ | ⟨heq, -⟩
    · exact absurd hc hspecial
    · have hzero : c.toNat ≠ 0 := fun hc ↦ hspecial (hc ▸ List.mem_cons_self)
      have hcode : c.toNat = run.partner other.toNat := by
        rw [heq] at hzero ⊢
        exact (toNat_ofNat_eq_or _).resolve_right hzero
      simp only [CaseRun.contains, Bool.and_eq_true, decide_eq_true_eq] at hcontains
      have hapart := (hruns run (List.mem_cons_of_mem _ (List.mem_cons_of_mem _ hrun))).2
      unfold CaseRun.partner at hcode
      omega
    · exact heq.symm

section InPlace

variable {before s t after : List Char} {c : Char}

theorem Caseless.mem_lowerBetween_iff (h : Caseless c) :
    c ∈ lowerBetween before s after ↔ c ∈ s := by
  induction s generalizing before with
  | nil => rfl
  | cons first rest ih =>
    rw [lowerBetween, List.mem_append, ih, List.mem_cons]
    refine or_congr_left ⟨fun hmem ↦ (h.only _ _ _ hmem).symm, ?_⟩
    intro heq
    rw [← heq, h.settled]
    exact List.mem_singleton_self c

/-- A text without case is the lowercase of no other. -/
theorem eq_of_lowerBetween_eq (ht : ∀ c ∈ t, Caseless c) (h : lowerBetween before s after = t) :
    s = t := by
  have hs : ∀ c ∈ s, Caseless c := by
    subst h
    induction s generalizing before with
    | nil => exact fun c hc ↦ absurd hc List.not_mem_nil
    | cons first rest ih =>
      rw [lowerBetween] at ht
      obtain ⟨hfirst, hrest⟩ := List.forall_mem_append.mp ht
      refine List.forall_mem_cons.mpr ⟨?_, ih hrest⟩
      obtain ⟨x, hx⟩ := List.exists_mem_of_ne_nil _ (lowerAt_ne_nil before first (rest ++ after))
      exact (hfirst x hx).only _ _ _ hx ▸ hfirst x hx
  exact (lowerBetween_of_settled fun c hc ↦ (hs c hc).settled).symm.trans h

theorem Caseless.eq_of_mem_lowerAt (h : Caseless c) {other : Char}
    (hmem : c ∈ lowerAt before other after) : other = c ∧ lowerAt before other after = [c] := by
  obtain rfl := h.only other before after hmem
  exact ⟨rfl, h.settled before after⟩

theorem isPrefix_of_isPrefix_lowerBetween (ht : ∀ c ∈ t, Caseless c)
    (h : t <+: lowerBetween before s after) : t <+: s := by
  induction t generalizing before s with
  | nil => exact List.nil_prefix
  | cons c rest ih =>
    obtain ⟨hc, hrest⟩ := List.forall_mem_cons.mp ht
    cases s with
    | nil => exact absurd (List.prefix_nil.mp h) (List.cons_ne_nil c rest)
    | cons first others =>
      rw [lowerBetween] at h
      have hmem : c ∈ lowerAt before first (others ++ after) := by
        obtain ⟨x, more, hx⟩ :=
          List.exists_cons_of_ne_nil (lowerAt_ne_nil before first (others ++ after))
        rw [hx] at h ⊢
        exact (List.cons_prefix_cons.mp h).1 ▸ List.mem_cons_self
      obtain ⟨rfl, hlower⟩ := hc.eq_of_mem_lowerAt hmem
      rw [hlower] at h
      exact List.cons_prefix_cons.mpr ⟨rfl, ih hrest (List.cons_prefix_cons.mp h).2⟩

theorem isInfix_of_isInfix_append (hc : c ∉ s) (h : c :: t <:+: s ++ after) :
    c :: t <:+: after := by
  rcases List.infix_append_iff.mp h with hinside | hlater | ⟨left, right, heq, hleft, hright⟩
  · exact absurd (hinside.subset List.mem_cons_self) hc
  · exact hlater
  · cases left with
    | nil => exact heq ▸ hright.isInfix
    | cons x more =>
      obtain ⟨rfl, -⟩ := List.cons.inj heq
      exact absurd (hleft.subset List.mem_cons_self) hc

/-- A text without case occurs in lowercase only where it was before. -/
theorem isInfix_of_isInfix_lowerBetween (ht : ∀ c ∈ t, Caseless c)
    (h : t <:+: lowerBetween before s after) : t <:+: s := by
  cases t with
  | nil => exact List.nil_infix
  | cons c rest =>
    obtain ⟨hc, hrest⟩ := List.forall_mem_cons.mp ht
    induction s generalizing before with
    | nil => exact h
    | cons first others ih =>
      by_cases hmem : c ∈ lowerAt before first (others ++ after)
      · obtain ⟨hfirst, hlower⟩ := hc.eq_of_mem_lowerAt hmem
        rw [lowerBetween, hlower] at h
        rcases List.infix_cons_iff.mp h with hhere | hlater
        · have hrest : rest <+: others :=
            isPrefix_of_isPrefix_lowerBetween hrest (List.cons_prefix_cons.mp hhere).2
          exact (List.cons_prefix_cons.mpr ⟨hfirst.symm, hrest⟩).isInfix
        · exact (ih hlater).trans (List.suffix_cons first others).isInfix
      · rw [lowerBetween] at h
        exact (ih (isInfix_of_isInfix_append hmem h)).trans (List.suffix_cons first others).isInfix

end InPlace

/-! ### White space -/

/-- The code points of white space. -/
def blankCodes : List Nat :=
  [9, 10, 11, 12, 13, 0x20, 0x85, 0xA0, 0x1680, 0x2000, 0x2001, 0x2002, 0x2003, 0x2004, 0x2005,
    0x2006, 0x2007, 0x2008, 0x2009, 0x200A, 0x2028, 0x2029, 0x202F, 0x205F, 0x3000]

theorem mem_blankCodes {c : Char} (h : isBlank c = true) : c.toNat ∈ blankCodes := by
  simp only [isBlank, Bool.or_eq_true, Bool.and_eq_true, decide_eq_true_eq, beq_iff_eq] at h
  simp only [blankCodes, List.mem_cons, List.not_mem_nil, or_false]
  omega

theorem isOutside_of_mem_blankCodes : ∀ n ∈ blankCodes, isOutside n = true := by
  decide +kernel

theorem caseless_of_isBlank {c : Char} (h : isBlank c = true) : Caseless c :=
  caseless_of_isOutside (isOutside_of_mem_blankCodes _ (mem_blankCodes h))

/-- Lowercase of a character that is not white space has none in it. -/
theorem isBlank_of_mem_lowerAt {before after : List Char} {c d : Char}
    (hc : isBlank c = false) (hd : d ∈ lowerAt before c after) : isBlank d = false := by
  by_cases hblank : isBlank d = true
  · rw [(caseless_of_isBlank hblank).only c before after hd] at hc
    exact absurd hblank (Bool.eq_false_iff.mp hc)
  · exact Bool.eq_false_iff.mpr hblank

end RoleAccess.Text
