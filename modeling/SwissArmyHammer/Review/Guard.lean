import Mathlib.Data.List.Infix
import SwissArmyHammer.Review.Render

/-! The guard that refutes a finding before any agent sees it, on a fact about the finding's own
file or on the first fact probe of a name. -/

namespace SwissArmyHammer.Review

inductive RefutingLayer
  | guard
  | agent
  deriving DecidableEq, Repr

structure VerifiedFinding where
  finding : Finding
  confirmed : Bool
  reason : String
  decidedBy : Option RefutingLayer
  deriving DecidableEq, Repr

structure GuardOutcome where
  survivors : List Candidate
  refuted : List VerifiedFinding

inductive Refute
  | whenRowsPresent
  | whenRowsAbsent
  deriving DecidableEq, Repr

def Refute.refutes (refute : Refute) (rowsPresent : Bool) : Bool :=
  match refute with
  | whenRowsPresent => rowsPresent
  | whenRowsAbsent => !rowsPresent

structure GuardRule where
  className : String
  probe : String
  refute : Refute
  reason : String
  deriving DecidableEq, Repr

def deadCodeRule : GuardRule where
  className := "dead-code"
  probe := "callers"
  refute := .whenRowsPresent
  reason :=
    "refuted by `callers` fact: the symbol has inbound callers, so it is not dead code"

def duplicateRule : GuardRule where
  className := "duplicat"
  probe := "duplicates"
  refute := .whenRowsAbsent
  reason := "refuted by `duplicates` fact: no matching duplicate block exists"

def guardRules : List GuardRule := [deadCodeRule, duplicateRule]

def lineOutOfBoundsReason : String :=
  String.join [
    "refuted: the cited line does not exist in the file's current content — a citation past the ",
    "end of the file cannot be describing code that is actually there (stale or mismatched line ",
    "number, see ^j4d2613)"]

def offTheChangeReason : String :=
  String.join [
    "refuted: this review's subject is the diffs — the lines the change added or modified — and ",
    "the cited line is not one of them. The finding is about pre-existing code, which is context ",
    "to consider and never itself the subject here (it may well be real; it is not what this ",
    "review was asked about)"]

def changedSetTarget : String := "<changed-set>"

def selectProbeResultsBy (cache : List ProbeResult) (probes : List String)
    (matching : ProbeResult → Bool) : List ProbeResult :=
  cache.filter fun r => r.name ∈ probes && matching r

def probeResultForFile (file : String) (changedSymbols : List String) (result : ProbeResult) :
    Bool :=
  result.target = file ∨ result.target ∈ changedSymbols

def selectProbeResults (cache : List ProbeResult) (file : String) (changedSymbols : List String)
    (probes : List String) : List ProbeResult :=
  selectProbeResultsBy cache probes (probeResultForFile file changedSymbols)

def selectSharedProbeResults (cache : List ProbeResult) (probes : List String) :
    List ProbeResult :=
  selectProbeResultsBy cache probes fun r => r.target = changedSetTarget

def lineOutOfBounds (candidate : Candidate) : Bool :=
  let trimmed := Text.trimEnd candidate.sourceSlice.toList
  if trimmed = [] then false
  else
    candidate.finding.line = 0 ∨
      (Text.lines trimmed).length % 2 ^ 32 < candidate.finding.line

def lineIsReviewed (subject : ReviewSubject) (annotations : List LineAnnotation) (line : Nat) :
    Bool :=
  if subject = .files ∨ annotations = [] ∨ line = 0 then true
  else annotations[line - 1]?.all LineAnnotation.touched

def offTheChange (candidate : Candidate) (subject : ReviewSubject) : Bool :=
  !lineIsReviewed subject candidate.lineAnnotations candidate.finding.line

def structuralRefutation (candidate : Candidate) (subject : ReviewSubject) : Option String :=
  if lineOutOfBounds candidate then some lineOutOfBoundsReason
  else if offTheChange candidate subject then some offTheChangeReason
  else none

/-- `to_ascii_lowercase` and `contains`. -/
def namesClass (name className : String) : Bool :=
  className.toList <:+: name.toList.map Char.toLower

def findingIsClass (finding : Finding) (className : String) : Bool :=
  namesClass finding.validator className || finding.rule.any fun r => namesClass r className

def isFact (name : String) (result : ProbeResult) : Bool :=
  result.name = name ∧ result.kind = .fact

def factProbe (results : List ProbeResult) (name : String) : Option ProbeResult :=
  results.find? (isFact name)

def GuardRule.decides (rule : GuardRule) (candidate : Candidate) : Bool :=
  findingIsClass candidate.finding rule.className &&
    (factProbe candidate.probeResults rule.probe).any fun fact => rule.refute.refutes (fact.rows ≠ [])

def guardVerdict (candidate : Candidate) : Option GuardRule :=
  guardRules.find? fun rule => rule.decides candidate

def guardRefuted (finding : Finding) (reason : String) : VerifiedFinding :=
  ⟨finding, false, reason, some .guard⟩

def guardReason (subject : ReviewSubject) (candidate : Candidate) : Option String :=
  (structuralRefutation candidate subject).or ((guardVerdict candidate).map GuardRule.reason)

def runGuard (candidates : List Candidate) (subject : ReviewSubject) : GuardOutcome :=
  candidates.foldl (fun outcome candidate =>
    match structuralRefutation candidate subject with
    | some reason =>
      { outcome with refuted := outcome.refuted ++ [guardRefuted candidate.finding reason] }
    | none =>
      match guardVerdict candidate with
      | some rule =>
        { outcome with refuted := outcome.refuted ++ [guardRefuted candidate.finding rule.reason] }
      | none => { outcome with survivors := outcome.survivors ++ [candidate] }) ⟨[], []⟩

section

variable {subject : ReviewSubject} {c : Candidate} {results : List ProbeResult} {name : String}

theorem refuted_runGuard (candidates : List Candidate) (subject : ReviewSubject) :
    (runGuard candidates subject).refuted = candidates.filterMap fun candidate =>
      (guardReason subject candidate).map (guardRefuted candidate.finding) := by
  have hrun : ∀ (candidates : List Candidate) (outcome : GuardOutcome),
      (candidates.foldl (fun outcome candidate =>
        match structuralRefutation candidate subject with
        | some reason =>
          { outcome with refuted := outcome.refuted ++ [guardRefuted candidate.finding reason] }
        | none =>
          match guardVerdict candidate with
          | some rule => { outcome with
              refuted := outcome.refuted ++ [guardRefuted candidate.finding rule.reason] }
          | none => { outcome with survivors := outcome.survivors ++ [candidate] })
        outcome).refuted = outcome.refuted ++ candidates.filterMap fun candidate =>
          (guardReason subject candidate).map (guardRefuted candidate.finding) := by
    intro candidates
    induction candidates with
    | nil => simp
    | cons candidate candidates ih =>
      intro outcome
      rw [List.foldl_cons, ih, List.filterMap_cons, guardReason]
      cases structuralRefutation candidate subject with
      | some reason => simp
      | none =>
        grind
  rw [runGuard, hrun, List.nil_append]

def WorkList.evidence (work : WorkList) : List ProbeResult :=
  work.validators.flatMap fun v => v.files.flatMap FileWork.probeResults ++ v.sharedProbeResults

def hasCallers (work : WorkList) (symbol : String) : Prop :=
  ∃ r ∈ work.evidence, isFact deadCodeRule.probe r ∧ r.target = symbol ∧ r.rows ≠ []

/-- The guard refutes a candidate only on evidence about its finding. `covering` is the symbol whose
definition covers the line of a finding, and `about` tells when a row is about a file. -/
structure GuardSound (work : WorkList) (subject : ReviewSubject)
    (covering : Finding → Option String) (about : ProbeResult → ProbeRow → String → Prop)
    (c : Candidate) : Prop where
  callers : guardReason subject c = some deadCodeRule.reason →
    ∃ symbol, covering c.finding = some symbol ∧ hasCallers work symbol
  duplicates : guardReason subject c = some duplicateRule.reason →
    ∀ r ∈ work.evidence, isFact duplicateRule.probe r → ∀ row ∈ r.rows,
      ¬ about r row c.finding.file
  stable : ∀ added results, (∀ r ∈ added, r.name = deadCodeRule.probe ∧
      some r.target ≠ covering c.finding) → results.Perm (c.probeResults ++ added) →
    guardReason subject { c with probeResults := results } = guardReason subject c

/-- The finding is refuted by its own file, or is not of the class of dead code; and for the class
of duplicates the facts on the candidate agree, and where they have no row there is none about the
file. -/
def Settled (work : WorkList) (subject : ReviewSubject)
    (about : ProbeResult → ProbeRow → String → Prop) (c : Candidate) : Prop :=
  structuralRefutation c subject ≠ none ∨
    findingIsClass c.finding deadCodeRule.className = false ∧
      (findingIsClass c.finding duplicateRule.className →
        (∀ r ∈ c.probeResults, ∀ s ∈ c.probeResults, isFact duplicateRule.probe r →
          isFact duplicateRule.probe s → r.rows = [] → s.rows = []) ∧
        ((∃ r ∈ c.probeResults, isFact duplicateRule.probe r ∧ r.rows = []) →
          ∀ r ∈ work.evidence, isFact duplicateRule.probe r → ∀ row ∈ r.rows,
            ¬ about r row c.finding.file))

theorem reasons_ne (h : structuralRefutation c subject = some name) :
    name ≠ deadCodeRule.reason ∧ name ≠ duplicateRule.reason := by
  rw [structuralRefutation] at h
  split at h
  · obtain rfl := Option.some.inj h
    decide
  · split at h
    · obtain rfl := Option.some.inj h
      decide
    · cases h

theorem factProbe_cons (r : ProbeResult) (hfact : isFact name r) :
    factProbe (r :: results) name = some r := List.find?_cons_of_pos hfact

theorem guardReason_eq (hnone : structuralRefutation c subject = none) :
    guardReason subject c =
      if deadCodeRule.decides c then some deadCodeRule.reason
      else if duplicateRule.decides c then some duplicateRule.reason else none := by
  rw [guardReason, hnone, guardVerdict, guardRules]
  simp only [List.find?_cons, List.find?_nil]
  cases deadCodeRule.decides c with
  | true => rfl
  | false =>
    grind

theorem guardReason_dead (hnone : structuralRefutation c subject = none) :
    guardReason subject c = some deadCodeRule.reason ↔ deadCodeRule.decides c = true := by
  rw [guardReason_eq hnone]
  cases deadCodeRule.decides c with
  | true => simp
  | false =>
    cases duplicateRule.decides c with
    | true => simp [deadCodeRule, duplicateRule]
    | false => simp

theorem guardReason_duplicate (hnone : structuralRefutation c subject = none)
    (hdead : deadCodeRule.decides c = false) :
    guardReason subject c = some duplicateRule.reason ↔ duplicateRule.decides c = true := by
  rw [guardReason_eq hnone, hdead]
  cases duplicateRule.decides c with
  | true => simp
  | false => simp

theorem decides_cons (rule : GuardRule) (r : ProbeResult) (hfact : isFact rule.probe r) :
    rule.decides { c with probeResults := r :: results } =
      (findingIsClass c.finding rule.className && rule.refute.refutes (r.rows ≠ [])) := by
  rw [GuardRule.decides, factProbe_cons r hfact, Option.any_some]

theorem not_stable_of_dead {covering : Finding → Option String}
    (hnone : structuralRefutation c subject = none)
    (hdead : findingIsClass c.finding deadCodeRule.className = true) :
    ¬ ∀ added results, (∀ r ∈ added, r.name = deadCodeRule.probe ∧
        some r.target ≠ covering c.finding) → results.Perm (c.probeResults ++ added) →
      guardReason subject { c with probeResults := results } = guardReason subject c := by
  intro hstable
  obtain ⟨target, htarget⟩ : ∃ target, some target ≠ covering c.finding := by
    cases covering c.finding with
    | none => exact ⟨"", by simp⟩
    | some symbol =>
      refine ⟨symbol ++ "'", fun heq => ?_⟩
      have hlength := congrArg String.length (Option.some.inj heq)
      rw [String.length_append] at hlength
      have hone : "'".length = 1 := rfl
      omega
  have hadded : ∀ rows, guardReason subject
      { c with probeResults := ⟨deadCodeRule.probe, .fact, target, rows⟩ :: c.probeResults } =
        guardReason subject c := fun rows =>
    hstable [⟨deadCodeRule.probe, .fact, target, rows⟩] _
      (fun r hr => by rw [List.mem_singleton.mp hr]; exact ⟨rfl, htarget⟩)
      (List.perm_append_singleton _ _).symm
  have hdecides : ∀ rows, deadCodeRule.decides { c with probeResults :=
      ⟨deadCodeRule.probe, .fact, target, rows⟩ :: c.probeResults } = decide (rows ≠ []) := by
    intro rows
    rw [decides_cons deadCodeRule _ (by simp [isFact]), hdead, Bool.true_and]
    rfl
  have hpresent := (guardReason_dead (c := { c with probeResults := ⟨deadCodeRule.probe, .fact,
    target, [⟨"", none, none, none, none⟩]⟩ :: c.probeResults }) hnone).mpr
      ((hdecides _).trans (by simp))
  rw [hadded, ← hadded [], guardReason_dead (by exact hnone), hdecides] at hpresent
  simp at hpresent

theorem duplicate_decides_iff
    (hagree : ∀ r ∈ results, ∀ s ∈ results, isFact duplicateRule.probe r →
      isFact duplicateRule.probe s → r.rows = [] → s.rows = []) :
    duplicateRule.decides { c with probeResults := results } = true ↔
      findingIsClass c.finding duplicateRule.className = true ∧
        ∃ r ∈ results, isFact duplicateRule.probe r ∧ r.rows = [] := by
  have hrefutes : ∀ r : ProbeResult, duplicateRule.refute.refutes (r.rows ≠ []) = true ↔
      r.rows = [] := by
    intro r
    simp [duplicateRule, Refute.refutes]
  rw [GuardRule.decides, Bool.and_eq_true]
  refine and_congr_right fun _ => ?_
  cases hfirst : factProbe results duplicateRule.probe with
  | none =>
    have hno := List.find?_eq_none.mp hfirst
    simp only [Option.any_none, Bool.false_eq_true, false_iff]
    rintro ⟨r, hr, hfact, -⟩
    exact hno r hr hfact
  | some r =>
    have hr := List.mem_of_find?_eq_some hfirst
    have hfact := List.find?_some hfirst
    rw [Option.any_some, hrefutes]
    exact ⟨fun hrows => ⟨r, hr, hfact, hrows⟩,
      fun ⟨s, hs, hsfact, hrows⟩ => hagree s hs r hr hsfact hfact hrows⟩

theorem dead_decides_false (hdead : findingIsClass c.finding deadCodeRule.className = false) :
    deadCodeRule.decides c = false := by
  rw [GuardRule.decides, hdead, Bool.false_and]

theorem agree_of_stable (hnone : structuralRefutation c subject = none)
    (hdead : findingIsClass c.finding deadCodeRule.className = false)
    (hclass : findingIsClass c.finding duplicateRule.className = true)
    (hstable : ∀ results : List ProbeResult, results.Perm c.probeResults →
      guardReason subject { c with probeResults := results } = guardReason subject c) :
    ∀ r ∈ c.probeResults, ∀ s ∈ c.probeResults, isFact duplicateRule.probe r →
      isFact duplicateRule.probe s → r.rows = [] → s.rows = [] := by
  have hfront : ∀ r ∈ c.probeResults, isFact duplicateRule.probe r →
      (guardReason subject c = some duplicateRule.reason ↔ r.rows = []) := by
    intro r hr hfact
    have hnone' : structuralRefutation
        { c with probeResults := r :: c.probeResults.erase r } subject = none := hnone
    rw [← hstable (r :: c.probeResults.erase r) (List.perm_cons_erase hr).symm,
      guardReason_duplicate hnone' (dead_decides_false hdead), decides_cons duplicateRule r hfact, hclass, Bool.true_and]
    simp [duplicateRule, Refute.refutes]
  intro r hr s hs hfact hsfact hrows
  exact (hfront s hs hsfact).mp ((hfront r hr hfact).mpr hrows)

theorem guardSound_of_structural {work : WorkList} {covering : Finding → Option String}
    {about : ProbeResult → ProbeRow → String → Prop}
    (h : structuralRefutation c subject ≠ none) : GuardSound work subject covering about c := by
  obtain ⟨reason, hreason⟩ := Option.ne_none_iff_exists'.mp h
  have hguard : ∀ results, guardReason subject { c with probeResults := results } = some reason :=
    fun results => by
      have hsame : structuralRefutation { c with probeResults := results } subject = some reason :=
        hreason
      rw [guardReason, hsame, Option.some_or]
  have hself : guardReason subject c = some reason := hguard c.probeResults
  obtain ⟨hdead, hduplicate⟩ := reasons_ne hreason
  refine ⟨fun heq => ?_, fun heq => ?_, fun _ results _ _ => (hguard results).trans hself.symm⟩
  · rw [hself] at heq
    exact absurd (Option.some.inj heq) hdead
  · rw [hself] at heq
    exact absurd (Option.some.inj heq) hduplicate

theorem guardSound_iff (work : WorkList) (subject : ReviewSubject)
    (covering : Finding → Option String) (about : ProbeResult → ProbeRow → String → Prop)
    (c : Candidate) :
    GuardSound work subject covering about c ↔ Settled work subject about c := by
  cases hnone : structuralRefutation c subject with
  | some reason =>
    have hne : structuralRefutation c subject ≠ none := by simp [hnone]
    exact ⟨fun _ => .inl hne, fun _ => guardSound_of_structural hne⟩
  | none =>
    constructor
    · intro h
      have hdead : findingIsClass c.finding deadCodeRule.className = false :=
        Bool.eq_false_iff.mpr fun hdead => not_stable_of_dead hnone hdead h.stable
      refine .inr ⟨hdead, fun hclass => ?_⟩
      have hagree := agree_of_stable hnone hdead hclass fun results hperm =>
        h.stable [] results (fun _ hr => absurd hr List.not_mem_nil) (by rwa [List.append_nil])
      refine ⟨hagree, fun habsent => h.duplicates ?_⟩
      exact (guardReason_duplicate hnone (dead_decides_false hdead)).mpr
        ((duplicate_decides_iff hagree).mpr ⟨hclass, habsent⟩)
    · intro h
      obtain ⟨hdead, hduplicate⟩ := h.resolve_left fun hne => hne hnone
      have hdecides := dead_decides_false hdead
      refine ⟨fun heq => ?_, fun heq => ?_, fun added results hadded hperm => ?_⟩
      · rw [guardReason_dead hnone, hdecides] at heq
        cases heq
      · rw [guardReason_duplicate hnone hdecides] at heq
        have hclass := (Bool.and_eq_true_iff.mp heq).1
        obtain ⟨hagree, habout⟩ := hduplicate hclass
        exact habout ((duplicate_decides_iff hagree).mp heq).2
      · -- the facts of duplication are the same ones, and they agree in any order
        have hmem : ∀ r, isFact duplicateRule.probe r →
            (r ∈ results ↔ r ∈ c.probeResults) := by
          intro r hfact
          rw [hperm.mem_iff, List.mem_append]
          refine or_iff_left fun hr => ?_
          have hname := (of_decide_eq_true hfact).1
          rw [(hadded r hr).1] at hname
          exact absurd hname (by decide)
        rw [guardReason_eq (by exact hnone), guardReason_eq hnone, hdecides,
          dead_decides_false (c := { c with probeResults := results }) hdead]
        by_cases hclass : findingIsClass c.finding duplicateRule.className = true
        · obtain ⟨hagree, -⟩ := hduplicate hclass
          have hagree' : ∀ r ∈ results, ∀ s ∈ results, isFact duplicateRule.probe r →
              isFact duplicateRule.probe s → r.rows = [] → s.rows = [] :=
            fun r hr s hs hfact hsfact => hagree r ((hmem r hfact).mp hr) s
              ((hmem s hsfact).mp hs) hfact hsfact
          have hsame : duplicateRule.decides { c with probeResults := results } = true ↔
              duplicateRule.decides c = true := by
            rw [duplicate_decides_iff hagree', duplicate_decides_iff hagree]
            refine and_congr_right fun _ => exists_congr fun r => ?_
            exact ⟨fun hr => ⟨(hmem r hr.2.1).mp hr.1, hr.2⟩,
              fun hr => ⟨(hmem r hr.2.1).mpr hr.1, hr.2⟩⟩
          rw [Bool.eq_iff_iff.mpr hsame]
        · rw [Bool.not_eq_true] at hclass
          rw [GuardRule.decides, GuardRule.decides, hclass, Bool.false_and, Bool.false_and]

/-- Every candidate of a run is decided by itself, and soundly if and only if it is settled. -/
theorem runGuard_sound_iff (work : WorkList) (findings : List Finding) (subject : ReviewSubject)
    (covering : Finding → Option String) (about : ProbeResult → ProbeRow → String → Prop) :
    (runGuard (buildCandidates work findings) subject).refuted =
        (buildCandidates work findings).filterMap (fun candidate =>
          (guardReason subject candidate).map (guardRefuted candidate.finding)) ∧
      ∀ c : Candidate, GuardSound work subject covering about c ↔ Settled work subject about c :=
  ⟨refuted_runGuard _ _, guardSound_iff work subject covering about⟩

def usedAndUnused : List ProbeResult :=
  [⟨"callers", .fact, "used", [⟨"b.rs", some "main", none, none, none⟩]⟩,
    ⟨"callers", .fact, "unused", []⟩]

def unusedFinding : Finding := ⟨"a.rs", 5, "dead-code", none, "", "", none⟩

def twoSymbols : WorkList :=
  ⟨"", [⟨"dead-code", [], ["callers"], [⟨"a.rs", [], "", selectProbeResults usedAndUnused "a.rs"
    ["unused", "used"] ["callers"], []⟩], []⟩], [], 1, .files⟩

theorem selectProbeResults_usedAndUnused :
    selectProbeResults usedAndUnused "a.rs" ["unused", "used"] ["callers"] = usedAndUnused := by
  simp [selectProbeResults, selectProbeResultsBy, usedAndUnused, probeResultForFile]

theorem not_hasCallers_unused : ¬ hasCallers twoSymbols "unused" := by
  have hevidence : twoSymbols.evidence = usedAndUnused := by
    simp only [WorkList.evidence, twoSymbols, selectProbeResults_usedAndUnused]
    rfl
  rintro ⟨r, hr, -, htarget, hrows⟩
  rw [hevidence, usedAndUnused] at hr
  simp only [List.mem_cons, List.not_mem_nil, or_false] at hr
  rcases hr with rfl | rfl
  · simp at htarget
  · exact hrows rfl

theorem refuted_by_another_symbol : ∃ c ∈ buildCandidates twoSymbols [unusedFinding],
    ∀ about, ¬ GuardSound twoSymbols .files (fun _ => some "unused") about c := by
  refine ⟨⟨unusedFinding, "", usedAndUnused, []⟩, ?_, fun about h => ?_⟩
  · simp [buildCandidates, twoSymbols, unusedFinding, selectProbeResults_usedAndUnused]
  · have hnone : structuralRefutation ⟨unusedFinding, "", usedAndUnused, []⟩ .files = none := by
      decide
    have hclass : findingIsClass unusedFinding deadCodeRule.className = true := by decide
    have hdecides : deadCodeRule.decides ⟨unusedFinding, "", usedAndUnused, []⟩ = true := by
      rw [GuardRule.decides, hclass, Bool.true_and]
      decide
    obtain ⟨symbol, hsymbol, hcallers⟩ := h.callers ((guardReason_dead hnone).mpr hdecides)
    obtain rfl := Option.some.inj hsymbol
    exact not_hasCallers_unused hcallers

end

end SwissArmyHammer.Review
