import SwissArmyHammer.Diagnostics.Diagnose

/-! What a report that is not pending says of the files that were asked for. -/

namespace SwissArmyHammer.Diagnostics

open Lsp

inductive PullAnswer
  | full (items : List Json)
  | unchanged
  | error (notReady : Bool)
  | failed
  deriving DecidableEq

def PullAnswer.Comes : PullAnswer → Option Json → Prop
  | .full items, some response => response.getKey "error" = none ∧
    ∃ result, response.getKey "result" = some result ∧ result.getKey "items" = some (.array items)
  | .unchanged, some response => response.getKey "error" = none ∧
    ∃ result, response.getKey "result" = some result ∧
      result.getKey "kind" = some (.string "unchanged") ∧ result.getKey "items" = none
  | .error notReady, some response => (∃ error, response.getKey "error" = some error) ∧
    response.getKey "result" = none ∧ response.getKey "items" = none ∧
    pullResponseIsNotReady response = notReady
  | .failed, none => True
  | _, _ => False

def PullAnswer.Blank : PullAnswer → Prop
  | .unchanged | .error false => True
  | .full _ | .error true | .failed => False

instance PullAnswer.decidableBlank : ∀ answer : PullAnswer, Decidable answer.Blank
  | .unchanged | .error false => .isTrue trivial
  | .full _ | .error true | .failed => .isFalse id

section

variable (session : Session) (answers : String → PullAnswer) (paths : List String)
  (config : DiagnosticsConfig) (oneHop : String → List String)

def lastFull (path : String) : List Diagnostic :=
  match answers path with
  | .full items => items.filterMap parseSingleDiagnostic
  | .unchanged | .error _ | .failed => session.diagnosticsFor (fileUri path)

def expected : List DiagnosticRecord :=
  let targets := dedupPreservingOrder paths
  (allRecords (fun path => recordsOf config path (lastFull session answers path)) targets
    (dependentFiles oneHop config targets)).take config.perReportCap

def files : List String :=
  let targets := dedupPreservingOrder paths
  targets ++ dependentFiles oneHop config targets

def EndsReady : Prop :=
  ((files paths config oneHop).filter fun path => answers path ≠ .failed).getLast?.elim
    (session.ready = true) fun path => answers path ≠ .error true

def Settles : Prop :=
  files paths config oneHop = [] ∨ config.settleWindow < config.settleHardTimeout

def CleanMeansClean (responses : String → Option Json) : Prop :=
  let outcome := diagnoseWithOutcome session responses paths config oneHop
  outcome.pending = false →
    (∀ path ∈ paths, answers path ≠ .error true) ∧
      outcome.report.diagnostics = expected session answers paths config oneHop

/-- No file that was queried is not ready, and no record of the report belongs to a file whose
answer held no report, when another file is answered at last. -/
def Told : Prop :=
  Settles paths config oneHop → EndsReady session answers paths config oneHop →
    (∀ path ∈ paths, answers path ≠ .error true) ∧
      ∀ record ∈ expected session answers paths config oneHop, ¬ (answers record.path).Blank

end

section

variable {session : Session} {responses : String → Option Json} {answers : String → PullAnswer}
  {path : String} {files : List String}

theorem fileUri_inj {a b : String} (h : fileUri a = fileUri b) : a = b := by
  have hpaths := congrArg filePathFromUri h
  simpa using hpaths

def afterPull (answer : PullAnswer) (earlier : List Diagnostic) : List Diagnostic :=
  match answer with
  | .full items => items.filterMap parseSingleDiagnostic
  | .unchanged | .error false => []
  | .error true | .failed => earlier

theorem asArray_of_getKey {value item : Json} {key : String} (h : value.getKey key = some item) :
    value.asArray = none := by
  cases value with
  | array elems => cases h
  | _ => rfl

theorem pullDiagnostics_spec (path : String) {answer : PullAnswer} {response : Option Json}
    (hrunning : session.running = true) (h : answer.Comes response) :
    (∀ other, (session.pullDiagnostics path response).diagnosticsFor (fileUri other) =
        if other = path then afterPull answer (session.diagnosticsFor (fileUri path))
        else session.diagnosticsFor (fileUri other)) ∧
      (session.pullDiagnostics path response).ready =
        if answer = .failed then session.ready else decide (answer ≠ .error true) := by
  have hstored : ∀ diagnostics other,
      ((session.setReady true).store (fileUri path) diagnostics).diagnosticsFor (fileUri other) =
        if other = path then diagnostics else session.diagnosticsFor (fileUri other) := by
    intro diagnostics other
    rw [Session.diagnosticsFor_store]
    by_cases hother : other = path
    · rw [if_pos hother, if_pos (congrArg fileUri hother)]
    · rw [if_neg hother, if_neg fun h => hother (fileUri_inj h)]
      rfl
  have hkept : ∀ other, session.diagnosticsFor (fileUri other) =
      if other = path then session.diagnosticsFor (fileUri path)
      else session.diagnosticsFor (fileUri other) := by
    intro other
    by_cases hother : other = path
    · rw [if_pos hother, hother]
    · rw [if_neg hother]
  unfold Session.pullDiagnostics
  rw [if_pos hrunning]
  cases response with
  | none =>
    cases answer with
    | failed => exact ⟨hkept, rfl⟩
    | full items => cases h
    | unchanged => cases h
    | error notReady => cases h
  | some response =>
    cases answer with
    | failed => cases h
    | full items =>
      obtain ⟨herror, result, hresult, hitems⟩ := h
      have hready : pullResponseIsNotReady response = false := by
        simp [pullResponseIsNotReady, herror]
      simp only [hready, Bool.false_eq_true, if_false, hresult, Option.getD_some,
        parseDiagnosticsFromResult, hitems, Option.bind_some, Json.asArray]
      exact ⟨fun other => hstored _ other, rfl⟩
    | unchanged =>
      obtain ⟨herror, result, hresult, hkind, hitems⟩ := h
      have hready : pullResponseIsNotReady response = false := by
        simp [pullResponseIsNotReady, herror]
      simp only [hready, Bool.false_eq_true, if_false, hresult, Option.getD_some,
        parseDiagnosticsFromResult, hitems, Option.bind_none, asArray_of_getKey hkind]
      exact ⟨fun other => hstored _ other, rfl⟩
    | error notReady =>
      obtain ⟨⟨error, herror⟩, hresult, hitems, hready⟩ := h
      cases notReady with
      | true =>
        simp only [hready, if_true]
        exact ⟨hkept, rfl⟩
      | false =>
        simp only [hready, Bool.false_eq_true, if_false, hresult, Option.getD_none,
          parseDiagnosticsFromResult, hitems, Option.bind_none, asArray_of_getKey herror]
        exact ⟨fun other => hstored _ other, rfl⟩

theorem afterPull_afterPull (answer : PullAnswer) (earlier : List Diagnostic) :
    afterPull answer (afterPull answer earlier) = afterPull answer earlier := by
  cases answer with
  | error notReady =>
    cases notReady with
    | true => rfl
    | false => rfl
  | _ => rfl

theorem pullAll_diagnosticsFor (hrunning : session.running = true)
    (h : ∀ path, (answers path).Comes (responses path)) (path : String) :
    (pullAll session responses files).diagnosticsFor (fileUri path) =
      if path ∈ files then afterPull (answers path) (session.diagnosticsFor (fileUri path))
      else session.diagnosticsFor (fileUri path) := by
  induction files generalizing session with
  | nil => rfl
  | cons first rest ih =>
    have hfirst := (pullDiagnostics_spec first hrunning (h first)).1
    rw [pullAll, List.foldl_cons, ← pullAll, ih (by simpa using hrunning), hfirst path]
    by_cases hpath : path = first
    · subst hpath
      simp [afterPull_afterPull]
    · simp [hpath]

theorem running_pullAll (responses : String → Option Json) (files : List String)
    (hrunning : session.running = true) : (pullAll session responses files).running = true := by
  induction files generalizing session with
  | nil => exact hrunning
  | cons first rest ih =>
    exact ih (by simpa using hrunning)

theorem pullAll_ready (files : List String) (hrunning : session.running = true)
    (h : ∀ path, (answers path).Comes (responses path)) :
    (pullAll session responses files).ready = true ↔
      (files.filter fun path => answers path ≠ .failed).getLast?.elim (session.ready = true)
        fun path => answers path ≠ .error true := by
  induction files generalizing session with
  | nil => exact Iff.rfl
  | cons first rest ih =>
    have hfirst := (pullDiagnostics_spec first hrunning (h first)).2
    rw [pullAll, List.foldl_cons, ← pullAll, ih (by simpa using hrunning), hfirst]
    by_cases hfailed : answers first = .failed
    · simp [hfailed]
    · grind

end

section

variable {config : DiagnosticsConfig} {byPath byPath' : String → List DiagnosticRecord}
  {targets dependents files : List String}

theorem flatMap_eq_of_single {α β : Type} {l : List α} {f : α → List β} {a : α} (hnodup : l.Nodup)
    (ha : a ∈ l) (h : ∀ b ∈ l, b ≠ a → f b = []) : l.flatMap f = f a := by
  induction l with
  | nil => exact absurd ha List.not_mem_nil
  | cons b l ih =>
    obtain ⟨hb, hl⟩ := List.nodup_cons.mp hnodup
    rw [List.flatMap_cons]
    by_cases hba : b = a
    · subst hba
      have hrest : l.flatMap f = [] := by
        refine List.flatMap_eq_nil_iff.mpr fun c hc => h c (List.mem_cons_of_mem _ hc) ?_
        rintro rfl
        exact hb hc
      rw [hrest, List.append_nil]
    · grind

theorem filter_buildRecords (session : Session) {path : String} (hpath : path ∈ files) :
    (buildRecords config ((((files.map fileUri).insertionSort (· ≤ ·)).dedup).map fun uri =>
        (uri, session.diagnosticsFor uri)) none).filter (fun record => record.path = path) =
      recordsOf config path (session.diagnosticsFor (fileUri path)) := by
  have hmem : fileUri path ∈ ((files.map fileUri).insertionSort (· ≤ ·)).dedup := by
    rw [List.mem_dedup, List.mem_insertionSort]
    exact List.mem_map_of_mem hpath
  have hown : ∀ p, (recordsOf config p (session.diagnosticsFor (fileUri p))).filter
      (fun record => record.path = path) =
        if p = path then recordsOf config p (session.diagnosticsFor (fileUri p)) else [] := by
    intro p
    split
    · rename_i hp
      exact List.filter_eq_self.mpr fun record hrecord => by
        simp [path_of_mem_recordsOf hrecord, hp]
    · rename_i hp
      exact List.filter_eq_nil_iff.mpr fun record hrecord => by
        simp [path_of_mem_recordsOf hrecord, hp]
  rw [buildRecords, List.flatMap_map, List.filter_flatMap,
    flatMap_eq_of_single (List.nodup_dedup _) hmem]
  · simp only [filePathFromUri_fileUri]
    rw [hown path, if_pos rfl]
  · intro uri huri hne
    rw [List.mem_dedup, List.mem_insertionSort] at huri
    obtain ⟨p, -, rfl⟩ := List.mem_map.mp huri
    simp only [filePathFromUri_fileUri]
    rw [hown p, if_neg fun hp => hne (congrArg fileUri hp)]

theorem path_of_brokenDependent {path : String} {dependent : BrokenDependent}
    (h : brokenDependent byPath path = some dependent) : dependent.path = path := by
  rw [brokenDependent] at h
  split at h
  · obtain rfl := Option.some.inj h
    rfl
  · cases h

theorem flatMap_filter_of {α β : Type} {l : List α} {f : α → List β} {p : α → Bool}
    (h : ∀ a, p a = false → f a = []) : (l.filter p).flatMap f = l.flatMap f := by
  induction l with
  | nil => rfl
  | cons a l ih =>
    grind

theorem allRecords_congr (h : ∀ path ∈ targets ++ dependents, byPath path = byPath' path) :
    allRecords byPath targets dependents = allRecords byPath' targets dependents := by
  have htargets : targets.flatMap byPath = targets.flatMap byPath' :=
    List.flatMap_congr fun path hpath => h path (List.mem_append_left _ hpath)
  have hbroken : dependents.filterMap (brokenDependent byPath) =
      dependents.filterMap (brokenDependent byPath') := by
    refine List.filterMap_congr fun path hpath => ?_
    rw [brokenDependent, brokenDependent, h path (List.mem_append_right _ hpath)]
  rw [allRecords, allRecords, worstFirst, worstFirst, hbroken]
  congr 1
  refine List.flatMap_congr fun dependent hdependent => ?_
  obtain ⟨path, hpath, hbroke⟩ := List.mem_filterMap.mp
    ((sortDesc_perm _ _).subset hdependent)
  rw [path_of_brokenDependent hbroke]
  exact h path (List.mem_append_right _ hpath)

theorem allRecords_blank (ok : String → Bool) (hpaths : ∀ path, ∀ record ∈ byPath path, record.path = path) :
    allRecords (fun path => if ok path then byPath path else []) targets dependents =
      (allRecords byPath targets dependents).filter fun record => ok record.path := by
  have hown : ∀ path, (byPath path).filter (fun record => ok record.path) =
      if ok path then byPath path else [] := by
    intro path
    split
    · rename_i hok
      exact List.filter_eq_self.mpr fun record hrecord => by rw [hpaths path record hrecord, hok]
    · rename_i hok
      exact List.filter_eq_nil_iff.mpr fun record hrecord => by rw [hpaths path record hrecord]; exact hok
  have hbroken : worstFirst (fun path => if ok path then byPath path else []) dependents =
      (worstFirst byPath dependents).filter fun dependent => ok dependent.path := by
    rw [worstFirst, worstFirst, filter_sortDesc]
    congr 1
    induction dependents with
    | nil => rfl
    | cons path rest ih =>
      cases hdependent : brokenDependent byPath path with
      | none =>
        have hnone : brokenDependent (fun path => if ok path then byPath path else []) path = none := by
          by_cases hok : ok path = true
          · simpa [brokenDependent, hok] using hdependent
          · simp [brokenDependent, hok, countSeverity]
        rw [List.filterMap_cons_none hdependent, List.filterMap_cons_none hnone, ih]
      | some dependent =>
        have hpath := path_of_brokenDependent hdependent
        rw [List.filterMap_cons_some hdependent, List.filter_cons, hpath, ← ih]
        by_cases hok : ok path = true
        · have hsome : brokenDependent (fun path => if ok path then byPath path else []) path =
              some dependent := by
            simpa [brokenDependent, hok] using hdependent
          rw [List.filterMap_cons_some hsome, if_pos hok]
        · have hnone : brokenDependent (fun path => if ok path then byPath path else []) path =
              none := by
            simp [brokenDependent, hok, countSeverity]
          rw [List.filterMap_cons_none hnone, if_neg hok]
  rw [allRecords, allRecords, List.filter_append, List.filter_flatMap, List.filter_flatMap, hbroken]
  congr 1
  · exact List.flatMap_congr fun path _ => (hown path).symm
  · simp only [hown]
    refine flatMap_filter_of fun dependent hok => ?_
    rw [if_neg (by simpa using hok)]

theorem take_filter_eq_iff {α : Type} {p : α → Bool} {l : List α} {n : Nat} :
    (l.filter p).take n = l.take n ↔ ∀ a ∈ l.take n, p a = true := by
  induction l generalizing n with
  | nil => simp
  | cons a l ih =>
    cases n with
    | zero => simp
    | succ n =>
      by_cases ha : p a = true
      · simp [ih, ha]
      · refine iff_of_false (fun h => ?_) fun h => ha (h a (by simp))
        have hmem : a ∈ (l.filter p).take (n + 1) := by
          rw [List.filter_cons_of_neg ha] at h
          rw [h]
          simp
        exact ha (List.of_mem_filter (List.mem_of_mem_take hmem))

end

section

variable {session : Session} {answers : String → PullAnswer} {responses : String → Option Json}
  {paths : List String} {config : DiagnosticsConfig} {oneHop : String → List String}

theorem outcome_records (hrunning : session.running = true)
    (h : ∀ path, (answers path).Comes (responses path)) :
    (buildReport (buildRecords config
        (((((files paths config oneHop).map fileUri).insertionSort (· ≤ ·)).dedup).map fun uri =>
          (uri, (pullAll session responses (files paths config oneHop)).diagnosticsFor uri)) none)
      (dedupPreservingOrder paths) (dependentFiles oneHop config (dedupPreservingOrder paths))
        config).diagnostics =
      ((allRecords (fun path => recordsOf config path (lastFull session answers path))
        (dedupPreservingOrder paths)
        (dependentFiles oneHop config (dedupPreservingOrder paths))).filter fun record =>
          !decide (answers record.path).Blank).take config.perReportCap := by
  rw [← allRecords_blank (fun path => !decide (answers path).Blank)
    fun path record hrecord => path_of_mem_recordsOf hrecord]
  refine congrArg (List.take config.perReportCap) (allRecords_congr fun path hpath => ?_)
  have hfile : path ∈ files paths config oneHop := hpath
  rw [filter_buildRecords _ hfile, pullAll_diagnosticsFor hrunning h, if_pos hfile, lastFull]
  cases answers path with
  | error notReady =>
    cases notReady with
    | true => rfl
    | false => rfl
  | _ => rfl

theorem diagnose_settled (hrunning : session.running = true) (hsettles : Settles paths config oneHop)
    (h : ∀ path, (answers path).Comes (responses path)) :
    let outcome := diagnoseWithOutcome session responses paths config oneHop
    (outcome.pending = false ↔ EndsReady session answers paths config oneHop) ∧
      outcome.report.diagnostics =
        ((allRecords (fun path => recordsOf config path (lastFull session answers path))
          (dedupPreservingOrder paths)
          (dependentFiles oneHop config (dedupPreservingOrder paths))).filter fun record =>
            !decide (answers record.path).Blank).take config.perReportCap := by
  intro outcome
  have hready := pullAll_ready (files paths config oneHop) hrunning h
  have hstays := running_pullAll responses (files paths config oneHop) hrunning
  have houtcome : outcome = diagnoseWithOutcome session responses paths config oneHop := rfl
  rw [← outcome_records hrunning h, houtcome, diagnoseWithOutcome]
  simp only [hrunning, if_true]
  rw [← files, settle]
  have hclock : (files paths config oneHop).map fileUri ≠ [] →
      ¬ config.settleHardTimeout ≤ config.settleWindow := by
    intro hne
    have hlt := hsettles.resolve_left fun hnil => hne (by rw [hnil]; rfl)
    omega
  split
  · rename_i hsettled
    split at hsettled
    · obtain rfl := SettleOutcome.settled.inj hsettled
      rw [EndsReady, ← hready]
      simp [hstays]
    · rename_i hne
      rw [if_neg (hclock hne)] at hsettled
      obtain rfl := SettleOutcome.settled.inj hsettled
      rw [EndsReady, ← hready]
      simp [hstays]
  · grind

theorem diagnose_pending (hrunning : session.running = true)
    (hsettles : ¬ Settles paths config oneHop) :
    (diagnoseWithOutcome session responses paths config oneHop).pending = true := by
  obtain ⟨hne, hclock⟩ := not_or.mp hsettles
  rw [diagnoseWithOutcome]
  simp only [hrunning, if_true]
  rw [← files, settle, if_neg fun hnil => hne (List.map_eq_nil_iff.mp hnil),
    if_pos (Nat.not_lt.mp hclock)]

end

def sampleConfig : DiagnosticsConfig := ⟨[.error, .warning], 300, 5000, 100, true⟩

def mismatch : Diagnostic :=
  ⟨⟨⟨0, 0⟩, ⟨0, 1⟩⟩, some .error, none, none, "mismatched types"⟩

def pushed : Session :=
  Session.store ⟨.empty, true, true⟩ (fileUri "/a.rs") [mismatch]

def emptyReport : Json :=
  .object [("result", .object [("items", .array []), ("kind", .string "full")])]

def unchangedReport : Json := .object [("result", .object [("kind", .string "unchanged")])]

theorem comes_emptyReport : (PullAnswer.full []).Comes (some emptyReport) :=
  ⟨by decide, _, rfl, rfl⟩

theorem comes_unchangedReport : PullAnswer.unchanged.Comes (some unchangedReport) :=
  ⟨by decide, _, rfl, rfl, by decide⟩

end SwissArmyHammer.Diagnostics
