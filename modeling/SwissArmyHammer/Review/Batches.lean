import SwissArmyHammer.Common.IndexMap
import SwissArmyHammer.Common.Packing
import SwissArmyHammer.Text.Lines

/-! The evidence of the probes, and how it is rendered into a prompt, in full or within a budget of
bytes. -/

namespace SwissArmyHammer.Review

inductive ProbeKind
  | fact
  | candidate
  deriving DecidableEq, Repr

structure ProbeRow where
  filePath : String
  symbol : Option String
  line : Option Nat
  similarity : Option String
  detail : Option String
  deriving DecidableEq, Repr

structure ProbeResult where
  name : String
  kind : ProbeKind
  target : String
  rows : List ProbeRow
  deriving DecidableEq, Repr

def renderProbeRow (row : ProbeRow) : String :=
  "  - " ++ row.filePath ++
    (row.line.elim "" fun line => ":" ++ toString line) ++
    (row.symbol.elim "" fun symbol => " `" ++ symbol ++ "`") ++
    (row.similarity.elim "" fun similarity => " @ " ++ similarity) ++
    (row.detail.elim "" fun detail => " — " ++ detail) ++ "\n"

def ProbeKind.label : ProbeKind → String
  | fact => "fact"
  | candidate => "candidate"

def renderResultHeader (showKind : Bool) (result : ProbeResult) : String :=
  if showKind then
    "- probe `" ++ result.name ++ "` (" ++ result.kind.label ++ ") on `" ++ result.target ++ "`:\n"
  else "- probe `" ++ result.name ++ "` on `" ++ result.target ++ "`:\n"

/-- A budget of `none` is `usize::MAX`, which no text exceeds. -/
def exceeds (maxBytes : Option Nat) (out : String) : Bool :=
  maxBytes.any fun max => max < out.utf8ByteSize

def renderRowsWithin (maxBytes : Option Nat) (out : String) : List ProbeRow → String × Nat
  | [] => (out, 0)
  | row :: rows =>
    if exceeds maxBytes (out ++ renderProbeRow row) then (out, rows.length + 1)
    else renderRowsWithin maxBytes (out ++ renderProbeRow row) rows

def renderResultRowsWithin (maxBytes : Option Nat) (out : String) (result : ProbeResult) :
    String × Nat :=
  if result.rows = [] then (out ++ "  - (no rows)\n", 0)
  else renderRowsWithin maxBytes out result.rows

def renderResultWithin (showKind : Bool) (maxBytes : Option Nat) (s : String × Nat)
    (result : ProbeResult) : String × Nat :=
  if 0 < s.2 then (s.1, s.2 + result.rows.length)
  else
    let r := renderResultRowsWithin maxBytes (s.1 ++ renderResultHeader showKind result) result
    if result.rows ≠ [] ∧ r.2 = result.rows.length then (s.1, r.2) else r

def renderProbeEvidenceWithin (results : List ProbeResult) (showKind : Bool)
    (maxBytes : Option Nat) : String × Nat :=
  if results = [] then ("_No probe evidence._\n\n", 0)
  else
    let s := results.foldl (renderResultWithin showKind maxBytes) ("", 0)
    (s.1 ++ "\n", s.2)

def renderProbeEvidence (results : List ProbeResult) (showKind : Bool) : String :=
  (renderProbeEvidenceWithin results showKind none).1

section

def rowsBytes (rows : List ProbeRow) : Nat :=
  (rows.map fun row => (renderProbeRow row).utf8ByteSize).sum

def resultBytes (showKind : Bool) (result : ProbeResult) : Nat :=
  (renderResultHeader showKind result).utf8ByteSize +
    if result.rows = [] then "  - (no rows)\n".utf8ByteSize else rowsBytes result.rows

def resultsBytes (showKind : Bool) (results : List ProbeResult) : Nat :=
  (results.map (resultBytes showKind)).sum

variable (maxBytes : Option Nat) (showKind : Bool) (out : String)

theorem renderRowsWithin_full (rows : List ProbeRow)
    (h : ∀ max, maxBytes = some max → out.utf8ByteSize + rowsBytes rows ≤ max) :
    (renderRowsWithin maxBytes out rows).2 = 0 ∧
      (renderRowsWithin maxBytes out rows).1.utf8ByteSize =
        out.utf8ByteSize + rowsBytes rows := by
  induction rows generalizing out with
  | nil => exact ⟨rfl, rfl⟩
  | cons row rows ih =>
    have hsize : (out ++ renderProbeRow row).utf8ByteSize =
        out.utf8ByteSize + (renderProbeRow row).utf8ByteSize := String.utf8ByteSize_append
    have hbytes : rowsBytes (row :: rows) =
        (renderProbeRow row).utf8ByteSize + rowsBytes rows := List.sum_cons
    have hfits : exceeds maxBytes (out ++ renderProbeRow row) = false := by
      cases maxBytes with
      | none => rfl
      | some max =>
        have hmax := h max rfl
        simp only [exceeds, Option.any_some, decide_eq_false_iff_not]
        omega
    rw [renderRowsWithin, hfits, if_neg (by decide)]
    obtain ⟨homitted, hrest⟩ := ih (out ++ renderProbeRow row) fun max hmax => by
      have hle := h max hmax
      omega
    exact ⟨homitted, by omega⟩

theorem renderResultWithin_full (result : ProbeResult)
    (h : ∀ max, maxBytes = some max → out.utf8ByteSize + resultBytes showKind result ≤ max) :
    (renderResultWithin showKind maxBytes (out, 0) result).2 = 0 ∧
      (renderResultWithin showKind maxBytes (out, 0) result).1.utf8ByteSize =
        out.utf8ByteSize + resultBytes showKind result := by
  have hsize : (out ++ renderResultHeader showKind result).utf8ByteSize =
      out.utf8ByteSize + (renderResultHeader showKind result).utf8ByteSize :=
    String.utf8ByteSize_append
  rw [renderResultWithin, if_neg (Nat.lt_irrefl 0), renderResultRowsWithin]
  rw [resultBytes] at h ⊢
  by_cases hrows : result.rows = []
  · simp only [hrows, if_true, ne_eq, not_true_eq_false, false_and, if_false]
    refine ⟨trivial, ?_⟩
    rw [String.utf8ByteSize_append]
    omega
  · simp only [hrows, if_false, ne_eq, not_false_eq_true, true_and] at h ⊢
    obtain ⟨homitted, hbytes⟩ := renderRowsWithin_full maxBytes
      (out ++ renderResultHeader showKind result) result.rows fun max hmax => by
        have hle := h max hmax
        omega
    have hlen : result.rows.length ≠ 0 := fun hzero => hrows (List.length_eq_zero_iff.mp hzero)
    rw [if_neg (by omega)]
    exact ⟨homitted, by omega⟩

theorem foldl_renderResultWithin_full (results : List ProbeResult)
    (h : ∀ max, maxBytes = some max → out.utf8ByteSize + resultsBytes showKind results ≤ max) :
    (results.foldl (renderResultWithin showKind maxBytes) (out, 0)).2 = 0 ∧
      (results.foldl (renderResultWithin showKind maxBytes) (out, 0)).1.utf8ByteSize =
        out.utf8ByteSize + resultsBytes showKind results := by
  induction results generalizing out with
  | nil => exact ⟨rfl, rfl⟩
  | cons result results ih =>
    have hbytes : resultsBytes showKind (result :: results) =
        resultBytes showKind result + resultsBytes showKind results := List.sum_cons
    obtain ⟨homitted, hfirst⟩ := renderResultWithin_full maxBytes showKind out
      result fun max hmax => by
        have hle := h max hmax
        omega
    obtain ⟨homitted', hrest⟩ :=
      ih (renderResultWithin showKind maxBytes (out, 0) result).1 fun max hmax => by
        have hle := h max hmax
        omega
    rw [List.foldl_cons, ← Prod.eta (renderResultWithin showKind maxBytes (out, 0) result),
      homitted]
    exact ⟨homitted', by omega⟩

def evidenceBytes (showKind : Bool) (results : List ProbeResult) : Nat :=
  if results = [] then "_No probe evidence._\n\n".utf8ByteSize
  else resultsBytes showKind results + 1

theorem renderProbeEvidenceWithin_full (results : List ProbeResult)
    (h : ∀ max, maxBytes = some max → resultsBytes showKind results ≤ max) :
    (renderProbeEvidenceWithin results showKind maxBytes).2 = 0 ∧
      (renderProbeEvidenceWithin results showKind maxBytes).1.utf8ByteSize =
        evidenceBytes showKind results := by
  rw [renderProbeEvidenceWithin, evidenceBytes]
  by_cases hempty : results = []
  · rw [if_pos hempty, if_pos hempty]
    exact ⟨rfl, rfl⟩
  · rw [if_neg hempty, if_neg hempty]
    have hstart : ("" : String).utf8ByteSize = 0 := rfl
    obtain ⟨homitted, hbytes⟩ := foldl_renderResultWithin_full maxBytes showKind ""
      results fun max hmax => by
        have hle := h max hmax
        omega
    have hend : ("\n" : String).utf8ByteSize = 1 := rfl
    simp only
    rw [String.utf8ByteSize_append]
    omega

end

end SwissArmyHammer.Review

/-! The work-list of a review, and how it is split into batches of whole files that fit a budget of
rendered bytes. -/

namespace SwissArmyHammer.Review

inductive ReviewSubject
  | diffs
  | files
  deriving DecidableEq, Repr

structure LineAnnotation where
  sha : String
  touched : Bool
  deriving DecidableEq, Repr

inductive ChangeType
  | added
  | modified
  | deleted
  | moved
  | renamed
  deriving DecidableEq, Repr

structure SemanticChange where
  changeType : ChangeType
  entityType : String
  entityName : String
  deriving DecidableEq, Repr

structure FileWork where
  path : String
  semanticDiff : List SemanticChange
  sourceSlice : String
  probeResults : List ProbeResult
  lineAnnotations : List LineAnnotation
  deriving DecidableEq, Repr

structure ValidatorWork where
  validatorName : String
  rules : List String
  probes : List String
  files : List FileWork
  sharedProbeResults : List ProbeResult
  deriving DecidableEq, Repr

inductive ExclusionKind
  | reviewIgnore
  | validatorFixture
  deriving DecidableEq, Repr

structure ExcludedFile where
  path : String
  reason : String
  kind : ExclusionKind
  deriving DecidableEq, Repr

structure WorkList where
  changePurpose : String
  validators : List ValidatorWork
  excluded : List ExcludedFile
  resolvedFiles : Nat
  subject : ReviewSubject
  deriving DecidableEq, Repr

def WorkList.distinctFiles (work : WorkList) : List FileWork :=
  dedupByKey FileWork.path (work.validators.flatMap ValidatorWork.files)

def WorkList.sharedProbeResults (work : WorkList) : List ProbeResult :=
  dedupByKey (fun result => (result.name, result.target))
    (work.validators.flatMap ValidatorWork.sharedProbeResults)

structure BatchBudget where
  fileCap : Nat
  batchBytes : Nat
  deriving DecidableEq, Repr

structure SkippedFile where
  path : String
  validator : String
  size : Nat
  cap : Nat
  deriving DecidableEq, Repr

def WorkList.pairs (work : WorkList) : List (String × FileWork) :=
  work.validators.flatMap fun v => v.files.map fun file => (v.validatorName, file)

structure Costed where
  skipped : List SkippedFile
  affordable : List (String × String)
  pathCost : IndexMap String Nat

section

variable (budget : BatchBudget) (cost : FileWork → Nat)

def costPair (s : Costed) (pair : String × FileWork) : Costed :=
  let size := cost pair.2
  if budget.fileCap < size then
    { s with skipped := s.skipped ++ [⟨pair.2.path, pair.1, size, budget.fileCap⟩] }
  else
    { s with
      affordable := s.affordable ++ [(pair.1, pair.2.path)]
      pathCost := s.pathCost.insert pair.2.path
        (max ((s.pathCost.get? pair.2.path).getD 0) size) }

def costPairs (work : WorkList) : Costed :=
  work.pairs.foldl (costPair budget cost) ⟨[], [], .empty⟩

def projectOntoFiles (work : WorkList) (paths : List String) (affordable : List (String × String)) :
    WorkList where
  changePurpose := work.changePurpose
  validators := work.validators.filterMap fun v =>
    let files := v.files.filter fun file =>
      file.path ∈ paths ∧ (v.validatorName, file.path) ∈ affordable
    if files = [] then none else some { v with files }
  excluded := []
  resolvedFiles := 0
  subject := work.subject

def charges (work : WorkList) : List (String × Nat) :=
  work.distinctFiles.filterMap fun file =>
    ((costPairs budget cost work).pathCost.get? file.path).map fun size => (file.path, size)

def batchWorkList (work : WorkList) : List WorkList × List SkippedFile :=
  let costed := costPairs budget cost work
  ((pack Prod.snd budget.batchBytes (charges budget cost work)).map fun batch =>
    projectOntoFiles work (batch.map Prod.fst) costed.affordable, costed.skipped)

end

/-- What the scope stage assembles: one entry for each validator, one for each of its files, and
shared evidence selected from one run of the probes. -/
structure WorkList.Assembled (work : WorkList) : Prop where
  validators : (work.validators.map ValidatorWork.validatorName).Nodup
  files : ∀ v ∈ work.validators, (v.files.map FileWork.path).Nodup
  shared : ∀ v ∈ work.validators,
    (v.sharedProbeResults.map fun result => (result.name, result.target)).Nodup
  oneRun : ∀ v ∈ work.validators, ∀ w ∈ work.validators, ∀ r ∈ v.sharedProbeResults,
    ∀ s ∈ w.sharedProbeResults, r.name = s.name → r.target = s.target → r = s

section

variable {budget : BatchBudget} {cost : FileWork → Nat} {work b : WorkList} {v : ValidatorWork}
  {file : FileWork}

structure Charged (budget : BatchBudget) (cost : FileWork → Nat) (pairs : List (String × FileWork))
    (s : Costed) : Prop where
  cap : ∀ path c, s.pathCost.get? path = some c → c ≤ budget.fileCap
  paid : ∀ pair ∈ pairs, cost pair.2 ≤ budget.fileCap →
    ∃ c, s.pathCost.get? pair.2.path = some c ∧ cost pair.2 ≤ c
  affordable : ∀ a ∈ s.affordable, ∃ pair ∈ pairs,
    a = (pair.1, pair.2.path) ∧ cost pair.2 ≤ budget.fileCap
  kept : ∀ pair ∈ pairs, cost pair.2 ≤ budget.fileCap → (pair.1, pair.2.path) ∈ s.affordable

theorem Charged.step {pairs : List (String × FileWork)} {s : Costed}
    (h : Charged budget cost pairs s) (pair : String × FileWork) :
    Charged budget cost (pairs ++ [pair]) (costPair budget cost s pair) := by
  rw [costPair]
  by_cases hover : budget.fileCap < cost pair.2
  · rw [if_pos hover]
    refine ⟨h.cap, fun q hq hle => ?_, fun a ha => ?_, fun q hq hle => ?_⟩
    · rcases List.mem_append.mp hq with hq | hq
      · exact h.paid q hq hle
      · rw [List.mem_singleton.mp hq] at hle
        omega
    · obtain ⟨q, hq, heq⟩ := h.affordable a ha
      exact ⟨q, List.mem_append_left _ hq, heq⟩
    · rcases List.mem_append.mp hq with hq | hq
      · exact h.kept q hq hle
      · rw [List.mem_singleton.mp hq] at hle
        omega
  · rw [if_neg hover]
    refine ⟨fun path c hc => ?_, fun q hq hle => ?_, fun a ha => ?_, fun q hq hle => ?_⟩
    · by_cases hpath : path = pair.2.path
      · rw [hpath, IndexMap.get?_insert_self] at hc
        obtain rfl := Option.some.inj hc
        cases hold : s.pathCost.get? pair.2.path with
        | none => simpa using hover
        | some d =>
          have hd := h.cap _ d hold
          simp only [Option.getD_some]
          omega
      · rw [IndexMap.get?_insert_of_ne hpath] at hc
        exact h.cap path c hc
    · by_cases hpath : q.2.path = pair.2.path
      · rw [hpath, IndexMap.get?_insert_self]
        refine ⟨_, rfl, ?_⟩
        rcases List.mem_append.mp hq with hq | hq
        · obtain ⟨d, hd, hled⟩ := h.paid q hq hle
          rw [← hpath, hd, Option.getD_some]
          omega
        · rw [List.mem_singleton.mp hq]
          exact le_max_right _ _
      · rw [IndexMap.get?_insert_of_ne hpath]
        rcases List.mem_append.mp hq with hq | hq
        · exact h.paid q hq hle
        · exact absurd (congrArg (·.2.path) (List.mem_singleton.mp hq)) hpath
    · rcases List.mem_append.mp ha with ha | ha
      · obtain ⟨q, hq, heq⟩ := h.affordable a ha
        exact ⟨q, List.mem_append_left _ hq, heq⟩
      · exact ⟨pair, List.mem_append_right _ List.mem_cons_self, List.mem_singleton.mp ha, by omega⟩
    · rcases List.mem_append.mp hq with hq | hq
      · exact List.mem_append_left _ (h.kept q hq hle)
      · rw [List.mem_singleton.mp hq]
        exact List.mem_append_right _ List.mem_cons_self

theorem Charged.foldl {done : List (String × FileWork)} {s : Costed}
    (h : Charged budget cost done s) (pairs : List (String × FileWork)) :
    Charged budget cost (done ++ pairs) (pairs.foldl (costPair budget cost) s) := by
  induction pairs generalizing done s with
  | nil => rwa [List.append_nil]
  | cons pair pairs ih =>
    have hrest := ih (h.step pair)
    rwa [List.append_assoc, List.singleton_append] at hrest

theorem charged_costPairs (budget : BatchBudget) (cost : FileWork → Nat) (work : WorkList) :
    Charged budget cost work.pairs (costPairs budget cost work) := by
  have hstart : Charged budget cost [] ⟨[], [], .empty⟩ :=
    ⟨fun _ _ hc => absurd hc (by simp [IndexMap.get?, IndexMap.empty, IndexMap.lookup]),
      fun _ hq => absurd hq List.not_mem_nil, fun _ ha => absurd ha List.not_mem_nil,
      fun _ hq => absurd hq List.not_mem_nil⟩
  exact hstart.foldl work.pairs

theorem mem_pairs {pair : String × FileWork} :
    pair ∈ work.pairs ↔ ∃ v ∈ work.validators, pair.1 = v.validatorName ∧ pair.2 ∈ v.files := by
  simp only [WorkList.pairs, List.mem_flatMap, List.mem_map]
  constructor
  · grind
  · grind

/-- What a batch is made of: the charges of its group, and for each validator with a file in it the
files of the validator that are charged there. -/
structure BatchOf (budget : BatchBudget) (cost : FileWork → Nat) (work b : WorkList)
    (group : List (String × Nat)) : Prop where
  purpose : b.changePurpose = work.changePurpose
  subject : b.subject = work.subject
  bytes : (group.map Prod.snd).sum ≤ budget.batchBytes ∨
    (group.map Prod.snd).sum ≤ budget.fileCap
  names : (b.validators.map ValidatorWork.validatorName).Nodup
  paths : ∀ v ∈ b.validators, (v.files.map FileWork.path).Nodup
  origin : ∀ v ∈ b.validators, ∃ w ∈ work.validators, v.validatorName = w.validatorName ∧
    v.sharedProbeResults = w.sharedProbeResults ∧ v.files ⊆ w.files
  charged : ∀ v ∈ b.validators, ∀ file ∈ v.files,
    ∃ c, (file.path, c) ∈ group ∧ cost file ≤ c
  affordable : ∀ v ∈ b.validators, ∀ file ∈ v.files, cost file ≤ budget.fileCap

theorem pathCost_of_mem_charges {x : String × Nat} (h : x ∈ charges budget cost work) :
    (costPairs budget cost work).pathCost.get? x.1 = some x.2 := by
  obtain ⟨file, -, hx⟩ := List.mem_filterMap.mp h
  obtain ⟨size, hsize, rfl⟩ := Option.map_eq_some_iff.mp hx
  exact hsize

theorem mem_projectOntoFiles {paths : List String} {affordable : List (String × String)} :
    v ∈ (projectOntoFiles work paths affordable).validators ↔ ∃ w ∈ work.validators,
      v = { w with files := w.files.filter fun file =>
        file.path ∈ paths ∧ (w.validatorName, file.path) ∈ affordable } ∧ v.files ≠ [] := by
  rw [projectOntoFiles, List.mem_filterMap]
  refine exists_congr fun w => and_congr_right fun _ => ?_
  simp only
  split
  · grind
  · grind

theorem names_projectOntoFiles (paths : List String) (affordable : List (String × String))
    (validators : List ValidatorWork) :
    ((projectOntoFiles { work with validators } paths affordable).validators.map
      ValidatorWork.validatorName).Sublist (validators.map ValidatorWork.validatorName) := by
  induction validators with
  | nil => exact List.Sublist.refl []
  | cons w validators ih =>
    simp only [projectOntoFiles, List.filterMap_cons] at ih ⊢
    split
    · exact ih.cons _
    · grind

theorem batchOf_of_mem (h : work.Assembled) (hb : b ∈ (batchWorkList budget cost work).1) :
    ∃ group, BatchOf budget cost work b group := by
  obtain ⟨group, hgroup, rfl⟩ := List.mem_map.mp hb
  have hcharged := charged_costPairs budget cost work
  have hmem : ∀ x ∈ group, x ∈ charges budget cost work := by
    intro x hx
    rw [← flatten_pack Prod.snd budget.batchBytes (charges budget cost work)]
    exact List.mem_flatten.mpr ⟨group, hgroup, hx⟩
  have hpaid : ∀ v ∈ (projectOntoFiles work (group.map Prod.fst)
      (costPairs budget cost work).affordable).validators, ∀ file ∈ v.files,
      (∃ c, (file.path, c) ∈ group ∧ cost file ≤ c) ∧ cost file ≤ budget.fileCap := by
    intro v hv file hfile
    obtain ⟨w, hw, rfl, -⟩ := mem_projectOntoFiles.mp hv
    obtain ⟨hfile, hkeep⟩ := List.mem_filter.mp hfile
    obtain ⟨hpath, hafford⟩ := of_decide_eq_true hkeep
    obtain ⟨x, hx, hxpath⟩ := List.mem_map.mp hpath
    -- names and paths are unique, so the pair that was affordable is this file
    obtain ⟨pair, hpair, heq, hle⟩ := hcharged.affordable _ hafford
    obtain ⟨w', hw', hname, hin⟩ := mem_pairs.mp hpair
    obtain ⟨hwname, hwpath⟩ := Prod.mk.inj heq
    obtain rfl : w' = w :=
      List.inj_on_of_nodup_map h.validators hw' hw (hname.symm.trans hwname.symm)
    obtain rfl : pair.2 = file := List.inj_on_of_nodup_map (h.files w' hw') hin hfile hwpath.symm
    obtain ⟨c, hc, hcost⟩ := hcharged.paid pair hpair hle
    have hsame : c = x.2 := by
      have hx' := pathCost_of_mem_charges (hmem x hx)
      rw [hxpath, hc] at hx'
      exact Option.some.inj hx'
    exact ⟨⟨x.2, hxpath ▸ hx, hsame ▸ hcost⟩, hle⟩
  refine ⟨group, rfl, rfl, ?_, ?_, fun v hv => ?_, fun v hv => ?_,
    fun v hv file hfile => (hpaid v hv file hfile).1,
    fun v hv file hfile => (hpaid v hv file hfile).2⟩
  · refine (fits_of_mem_pack hgroup).imp_right fun hsingle => ?_
    obtain ⟨x, rfl⟩ := hsingle
    have hcap := hcharged.cap _ _ (pathCost_of_mem_charges (hmem x List.mem_cons_self))
    simpa using hcap
  · exact h.validators.sublist (names_projectOntoFiles _ _ work.validators)
  · obtain ⟨w, hw, rfl, -⟩ := mem_projectOntoFiles.mp hv
    exact (h.files w hw).sublist (List.filter_sublist.map _)
  · obtain ⟨w, hw, rfl, -⟩ := mem_projectOntoFiles.mp hv
    exact ⟨w, hw, rfl, rfl, List.filter_subset_self _⟩

theorem exists_mem_batchWorkList (hv : v ∈ work.validators) (hfile : file ∈ v.files)
    (hcost : cost file ≤ budget.fileCap) :
    ∃ b ∈ (batchWorkList budget cost work).1, ∃ w ∈ b.validators,
      w.validatorName = v.validatorName ∧ file ∈ w.files := by
  have hcharged := charged_costPairs budget cost work
  have hpair : (v.validatorName, file) ∈ work.pairs := mem_pairs.mpr ⟨v, hv, rfl, hfile⟩
  obtain ⟨c, hc, -⟩ := hcharged.paid _ hpair hcost
  have hdistinct : file.path ∈ work.distinctFiles.map FileWork.path :=
    key_mem_dedupByKey (List.mem_flatMap.mpr ⟨v, hv, hfile⟩)
  obtain ⟨other, hother, hpath⟩ := List.mem_map.mp hdistinct
  have hcharge : (file.path, c) ∈ charges budget cost work :=
    List.mem_filterMap.mpr ⟨other, hother, by rw [hpath, hc, Option.map_some]⟩
  rw [← flatten_pack Prod.snd budget.batchBytes (charges budget cost work)] at hcharge
  obtain ⟨group, hgroup, hin⟩ := List.mem_flatten.mp hcharge
  have hkept : file ∈ v.files.filter fun file => file.path ∈ group.map Prod.fst ∧
      (v.validatorName, file.path) ∈ (costPairs budget cost work).affordable := by
    refine List.mem_filter.mpr ⟨hfile, decide_eq_true ⟨?_, hcharged.kept _ hpair hcost⟩⟩
    exact List.mem_map.mpr ⟨_, hin, rfl⟩
  exact ⟨_, List.mem_map.mpr ⟨group, hgroup, rfl⟩, _, mem_projectOntoFiles.mpr
    ⟨v, hv, rfl, List.ne_nil_of_mem hkept⟩, rfl, hkept⟩

end

end SwissArmyHammer.Review
