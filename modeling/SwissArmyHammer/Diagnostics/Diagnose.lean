import Mathlib.Data.List.Dedup
import Mathlib.Data.Prod.Lex
import Mathlib.Order.OrderDual
import SwissArmyHammer.Common.StableSort
import SwissArmyHammer.Lsp.Session

/-! Records of diagnostics, and the configuration that selects them. -/

namespace SwissArmyHammer.Diagnostics

open Lsp

structure DiagnosticRecord where
  path : String
  range : Range
  severity : DiagnosticSeverity
  message : String
  code : Option String
  source : Option String
  deriving DecidableEq

structure DiagnosticsConfig where
  severities : List DiagnosticSeverity
  settleWindow : Nat
  settleHardTimeout : Nat
  perReportCap : Nat
  includeDependents : Bool

def DiagnosticsConfig.includesSeverity (config : DiagnosticsConfig)
    (severity : DiagnosticSeverity) : Bool :=
  severity ∈ config.severities

def map (diagnostic : Diagnostic) (path : String) : DiagnosticRecord where
  path := path
  range := diagnostic.range
  severity := diagnostic.severity.getD .hint
  message := diagnostic.message
  code := diagnostic.code.map fun
    | .number n => toString n
    | .string s => s
  source := diagnostic.source

def recordsOf (config : DiagnosticsConfig) (path : String) (diagnostics : List Diagnostic) :
    List DiagnosticRecord :=
  (diagnostics.map fun diagnostic => map diagnostic path).filter fun record =>
    config.includesSeverity record.severity

def buildRecords (config : DiagnosticsConfig) (state : List (String × List Diagnostic))
    (cap : Option Nat) : List DiagnosticRecord :=
  let records := state.flatMap fun (uri, diagnostics) =>
    recordsOf config (filePathFromUri uri) diagnostics
  match cap with
  | none => records
  | some cap => records.take (max cap 1)

theorem path_of_mem_recordsOf {config : DiagnosticsConfig} {path : String}
    {diagnostics : List Diagnostic} {record : DiagnosticRecord}
    (h : record ∈ recordsOf config path diagnostics) : record.path = path := by
  obtain ⟨diagnostic, -, rfl⟩ := List.mem_map.mp (List.mem_of_mem_filter h)
  rfl

end SwissArmyHammer.Diagnostics

/-! The report on some files, and on those of their dependents that broke. -/

namespace SwissArmyHammer.Diagnostics

open Lsp

inductive SettleOutcome
  | settled (records : List DiagnosticRecord)
  | pending

def settle (session : Session) (uris : List String) (config : DiagnosticsConfig) (cap : Option Nat) :
    SettleOutcome :=
  let state := ((uris.insertionSort (· ≤ ·)).dedup).map fun uri => (uri, session.diagnosticsFor uri)
  if uris = [] then .settled (buildRecords config state cap)
  else if config.settleHardTimeout ≤ config.settleWindow then .pending
  else .settled (buildRecords config state cap)

structure Counts where
  errors : Nat
  warnings : Nat

structure DiagnosticsReport where
  diagnostics : List DiagnosticRecord
  counts : Counts

def countSeverity (records : List DiagnosticRecord) (severity : DiagnosticSeverity) : Nat :=
  records.countP fun record => record.severity = severity

def DiagnosticsReport.new (diagnostics : List DiagnosticRecord) : DiagnosticsReport where
  diagnostics := diagnostics
  counts := ⟨countSeverity diagnostics .error, countSeverity diagnostics .warning⟩

structure BrokenDependent where
  path : String
  errors : Nat
  warnings : Nat

def BrokenDependent.rank (dependent : BrokenDependent) : Nat ×ₗ (Nat ×ₗ Stringᵒᵈ) :=
  toLex (dependent.errors, toLex (dependent.warnings, OrderDual.toDual dependent.path))

def brokenDependent (byPath : String → List DiagnosticRecord) (dep : String) :
    Option BrokenDependent :=
  let errors := countSeverity (byPath dep) .error
  let warnings := countSeverity (byPath dep) .warning
  if errors + warnings > 0 then some ⟨dep, errors, warnings⟩ else none

def worstFirst (byPath : String → List DiagnosticRecord) (dependentFiles : List String) :
    List BrokenDependent :=
  sortDesc BrokenDependent.rank (dependentFiles.filterMap (brokenDependent byPath))

def allRecords (byPath : String → List DiagnosticRecord) (targets dependentFiles : List String) :
    List DiagnosticRecord :=
  targets.flatMap byPath ++
    (worstFirst byPath dependentFiles).flatMap fun dependent => byPath dependent.path

def buildReport (records : List DiagnosticRecord) (targets dependentFiles : List String)
    (config : DiagnosticsConfig) : DiagnosticsReport :=
  let byPath := fun path => records.filter fun record => record.path = path
  .new ((allRecords byPath targets dependentFiles).take config.perReportCap)

def dedupFrom (seen : List String) : List String → List String
  | [] => []
  | path :: rest =>
    if path ∈ seen then dedupFrom seen rest else path :: dedupFrom (path :: seen) rest

def dedupPreservingOrder (paths : List String) : List String := dedupFrom [] paths

def dependentFiles (oneHop : String → List String) (config : DiagnosticsConfig)
    (targets : List String) : List String :=
  if config.includeDependents then
    (((targets.flatMap oneHop).filter fun dep => dep ∉ targets).insertionSort (· ≤ ·)).dedup
  else []

def pullAll (session : Session) (responses : String → Option Json) (files : List String) : Session :=
  files.foldl (fun session path => session.pullDiagnostics path (responses path)) session

structure DiagnoseOutcome where
  report : DiagnosticsReport
  pending : Bool

def diagnoseWithOutcome (session : Session) (responses : String → Option Json)
    (paths : List String) (config : DiagnosticsConfig) (oneHop : String → List String) :
    DiagnoseOutcome :=
  let targets := dedupPreservingOrder paths
  let dependents := dependentFiles oneHop config targets
  let files := targets ++ dependents
  let session := if session.running then pullAll session responses files else session
  let notReady := session.running && !session.ready
  match settle session (files.map fileUri) config none with
  | .settled records => ⟨buildReport records targets dependents config, notReady⟩
  | .pending => ⟨buildReport [] targets dependents config, true⟩

end SwissArmyHammer.Diagnostics
