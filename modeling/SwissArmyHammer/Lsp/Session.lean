import SwissArmyHammer.Common.IndexMap
import SwissArmyHammer.Common.Json

/-! The lenient parser of diagnostics: an item without a range or a message is skipped. -/

namespace SwissArmyHammer.Lsp

structure Position where
  line : Nat
  character : Nat
  deriving DecidableEq

structure Range where
  start : Position
  stop : Position
  deriving DecidableEq

inductive DiagnosticSeverity
  | error | warning | info | hint
  deriving DecidableEq

inductive NumberOrString
  | number (n : Int)
  | string (s : String)
  deriving DecidableEq

structure Diagnostic where
  range : Range
  severity : Option DiagnosticSeverity
  code : Option NumberOrString
  source : Option String
  message : String
  deriving DecidableEq

/-- `Value::as_i64`. -/
def asI64 : Json → Option Int
  | .number text =>
    match text.toList with
    | '-' :: digits =>
      if digits ≠ [] ∧ digits.all Char.isDigit then
        let n := digits.foldl (fun n c => 10 * n + (c.toNat - '0'.toNat)) 0
        if n ≤ 2 ^ 63 then some (-n) else none
      else none
    | _ => (Json.asU64 (.number text)).bind fun n => if n < 2 ^ 63 then some n else none
  | _ => none

def parsePosition (pos : Json) : Option Position := do
  let line ← (← pos.getKey "line").asU64
  let character ← (← pos.getKey "character").asU64
  return ⟨line % 2 ^ 32, character % 2 ^ 32⟩

def parseRange (range : Json) : Option Range := do
  let start ← parsePosition (← range.getKey "start")
  let stop ← parsePosition (← range.getKey "end")
  return ⟨start, stop⟩

def parseCode (value : Json) : Option NumberOrString :=
  match value.asStr with
  | some s => some (.string s)
  | none => (asI64 value).bind fun n =>
    if -2147483648 ≤ n ∧ n < 2147483648 then some (.number n) else none

def severityFromLsp : Nat → DiagnosticSeverity
  | 1 => .error
  | 2 => .warning
  | 3 => .info
  | _ => .hint

def parseSingleDiagnostic (item : Json) : Option Diagnostic := do
  let range ← parseRange (← item.getKey "range")
  let message ← (← item.getKey "message").asStr
  return {
    range := range
    severity := some
      (((item.getKey "severity").bind Json.asU64).elim .hint severityFromLsp)
    code := (item.getKey "code").bind parseCode
    source := (item.getKey "source").bind Json.asStr
    message := message }

def parsePublishDiagnostics (params : Json) : List Diagnostic :=
  match (params.getKey "diagnostics").bind Json.asArray with
  | some items => items.filterMap parseSingleDiagnostic
  | none => []

def parseDiagnosticsFromResult (result : Json) : List Diagnostic :=
  match (result.getKey "items").bind Json.asArray with
  | some items => items.filterMap parseSingleDiagnostic
  | none =>
    match result.asArray with
    | some items => items.filterMap parseSingleDiagnostic
    | none => []

def pullResponseIsNotReady (response : Json) : Bool :=
  match response.getKey "error" with
  | none => false
  | some error =>
    let code := (error.getKey "code").bind asI64
    if code = some (-32802) ∨ code = some (-32801) then true
    else
      (((error.getKey "data").bind fun data => data.getKey "retriggerRequest").bind
        Json.asBool).getD false

def filePrefix : String := "file://"

/-- `file_uri`, and `file_uri_from_path`. -/
def fileUri (path : String) : String := filePrefix ++ path

def filePathFromUri (uri : String) : String :=
  if filePrefix.toList.isPrefixOf uri.toList then String.ofList (uri.toList.drop 7) else uri

@[simp] theorem filePathFromUri_fileUri (path : String) : filePathFromUri (fileUri path) = path := by
  have hlength : filePrefix.toList.length = 7 := by decide
  have hstarts : filePrefix.toList.isPrefixOf (fileUri path).toList = true := by
    simp [fileUri, List.isPrefixOf_iff_prefix]
  rw [filePathFromUri, if_pos hstarts, fileUri, String.toList_append, ← hlength, List.drop_left,
    String.ofList_toList]

end SwissArmyHammer.Lsp

/-! What a session remembers of a server's diagnostics, and the pull of one file. -/

namespace SwissArmyHammer.Lsp

/-- The latest set of each document, and whether the server's last answer was a real one. -/
structure Session where
  diagnostics : IndexMap String (List Diagnostic)
  ready : Bool
  running : Bool

namespace Session

variable (session : Session)

def diagnosticsFor (uri : String) : List Diagnostic := (session.diagnostics.get? uri).getD []

def setReady (ready : Bool) : Session := { session with ready := ready }

/-- The cache's half of `store_and_broadcast`. -/
def store (uri : String) (diagnostics : List Diagnostic) : Session :=
  { session with diagnostics := session.diagnostics.insert uri diagnostics }

def pullDiagnostics (path : String) (response : Option Json) : Session :=
  if session.running then
    match response with
    | none => session
    | some response =>
      if pullResponseIsNotReady response then session.setReady false
      else
        (session.setReady true).store (fileUri path)
          (parseDiagnosticsFromResult ((response.getKey "result").getD response))
  else session

variable {session} {path : String} {response : Option Json}

theorem diagnosticsFor_store (uri other : String) (diagnostics : List Diagnostic) :
    (session.store uri diagnostics).diagnosticsFor other =
      if other = uri then diagnostics else session.diagnosticsFor other := by
  by_cases hother : other = uri
  · subst hother
    simp [store, diagnosticsFor]
  · simp [store, diagnosticsFor, IndexMap.get?_insert_of_ne hother, hother]

@[simp] theorem running_pullDiagnostics :
    (session.pullDiagnostics path response).running = session.running := by
  unfold pullDiagnostics
  split
  · cases response with
    | none => rfl
    | some response =>
      dsimp only
      split
      · rfl
      · rfl
  · rfl

end Session

end SwissArmyHammer.Lsp
