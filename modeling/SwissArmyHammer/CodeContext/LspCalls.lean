import SwissArmyHammer.CodeContext.Callgraph
import SwissArmyHammer.CodeContext.Invalidation
import SwissArmyHammer.Common.Json

/-! The calls of a symbol as the index reports them, with the places they are made at. -/

namespace SwissArmyHammer.CodeContext

structure LspRange where
  startLine : UInt32
  startCharacter : UInt32
  endLine : UInt32
  endCharacter : UInt32
  deriving DecidableEq

namespace LspRange

def position (line character : UInt32) : Json :=
  .object [("character", .number (toString character.toNat)),
    ("line", .number (toString line.toNat))]

/-- The value that `serde_json` writes. -/
def toJson (r : LspRange) : Json :=
  .object [("end", position r.endLine r.endCharacter),
    ("start", position r.startLine r.startCharacter)]

def positionText (line character : UInt32) : String :=
  "\x7b\"line\":" ++ toString line.toNat ++ ",\"character\":" ++ toString character.toNat ++ "\x7d"

/-- `serde_json::to_string`. -/
def text (r : LspRange) : String :=
  "\x7b\"start\":" ++ positionText r.startLine r.startCharacter ++
    ",\"end\":" ++ positionText r.endLine r.endCharacter ++ "\x7d"

end LspRange

def rangesText (ranges : List LspRange) : String :=
  "[" ++ ",".intercalate (ranges.map LspRange.text) ++ "]"

/-- `as_u64()? as u32`. -/
def coordinate (v : Json) (key : String) : Option UInt32 :=
  ((v.getKey key).bind Json.asU64).map UInt32.ofNat

def parseRange (r : Json) : Option LspRange := do
  let start ← r.getKey "start"
  let stop ← r.getKey "end"
  let startLine ← coordinate start "line"
  let startCharacter ← coordinate start "character"
  let endLine ← coordinate stop "line"
  let endCharacter ← coordinate stop "character"
  return ⟨startLine, startCharacter, endLine, endCharacter⟩

/-- `fromStr` is `serde_json::from_str` for a vector of values. -/
def parseFromRanges (fromStr : String → Option (List Json)) (json : String) : List LspRange :=
  match fromStr json with
  | some ranges => ranges.filterMap parseRange
  | none => []

theorem asU64_number (n : UInt32) : (Json.number (toString n.toNat)).asU64 = some n.toNat := by
  have htext : (toString n.toNat).toList = Nat.toDigits 10 n.toNat := by simp [toString, Nat.repr]
  have hall : (Nat.toDigits 10 n.toNat).all Char.isDigit = true :=
    List.all_eq_true.mpr fun _ hc => Nat.isDigit_of_mem_toDigits (by decide) (by decide) hc
  have hvalue : (Nat.toDigits 10 n.toNat).foldl (fun n c => 10 * n + (c.toNat - '0'.toNat)) 0 =
      n.toNat := Nat.ofDigitChars_ten_toDigits
  have hlt := n.toNat_lt
  rw [Json.asU64, htext, if_pos ⟨Nat.toDigits_ne_nil, hall⟩, hvalue]
  exact if_pos (by omega)

theorem coordinate_line (line character : UInt32) :
    coordinate (LspRange.position line character) "line" = some line := by
  show ((Json.number (toString line.toNat)).asU64).map UInt32.ofNat = some line
  rw [asU64_number, Option.map_some, UInt32.ofNat_toNat]

theorem coordinate_character (line character : UInt32) :
    coordinate (LspRange.position line character) "character" = some character := by
  show ((Json.number (toString character.toNat)).asU64).map UInt32.ofNat = some character
  rw [asU64_number, Option.map_some, UInt32.ofNat_toNat]

theorem parseRange_toJson (r : LspRange) : parseRange r.toJson = some r := by
  have hstart : r.toJson.getKey "start" =
      some (LspRange.position r.startLine r.startCharacter) := rfl
  have hend : r.toJson.getKey "end" = some (LspRange.position r.endLine r.endCharacter) := rfl
  simp only [parseRange, hstart, hend, coordinate_line, coordinate_character, Option.bind_eq_bind,
    Option.bind_some, Option.pure_def]

theorem filterMap_parseRange (ranges : List LspRange) :
    (ranges.map LspRange.toJson).filterMap parseRange = ranges := by
  rw [List.filterMap_map]
  have hsome : parseRange ∘ LspRange.toJson = some := funext parseRange_toJson
  rw [hsome, List.filterMap_some]

structure SymbolInfo where
  name : String
  qualifiedPath : Option String
  filePath : String
  range : LspRange
  deriving DecidableEq

structure CallEdgeInfo where
  symbol : SymbolInfo
  callSites : List LspRange
  deriving DecidableEq

def callEdgeInfo (fromStr : String → Option (List Json)) (edge : CallEdge) (id : String)
    (symbol : SymbolRow) : CallEdgeInfo where
  symbol :=
    { name := symbol.name
      qualifiedPath := some id
      filePath := symbol.filePath
      range := ⟨.ofNat symbol.startLine, .ofNat symbol.startChar, .ofNat symbol.endLine,
        .ofNat symbol.endChar⟩ }
  callSites := parseFromRanges fromStr edge.fromRanges

namespace Database

variable (db : Database) (fromStr : String → Option (List Json))

def callersWhere (p : CallEdge → SymbolRow → Bool) : List CallEdgeInfo :=
  db.lspCallEdges.filterMap fun edge =>
    (db.symbol? edge.callerId).bind fun symbol =>
      if p edge symbol then some (callEdgeInfo fromStr edge edge.callerId symbol) else none

def lspCallersOf (symbolId : String) : List CallEdgeInfo :=
  db.callersWhere fromStr fun edge _ => edge.calleeId = symbolId

def tsCallersOf (filePath symbol : String) : List CallEdgeInfo :=
  db.callersWhere fromStr fun edge caller =>
    edge.calleeFile = filePath && like ("%" ++ symbol ++ "%").toList caller.name.toList &&
      edge.source = "treesitter"

end Database

end SwissArmyHammer.CodeContext

/-! The calls that a language server reports, asked for symbol by symbol, and the edges that are
written for them. -/

namespace SwissArmyHammer.CodeContext

abbrev PathName := {name : List Char // name ≠ [] ∧ name ≠ ['.'] ∧ '/' ∉ name}

structure Path where
  rooted : Bool
  names : List PathName

def pathText (names : List PathName) : List Char := ['/'].intercalate (names.map Subtype.val)

def pathNames (text : List Char) : List PathName :=
  (text.splitOn '/').filterMap fun name =>
    if h : name ≠ [] ∧ name ≠ ['.'] ∧ '/' ∉ name then some ⟨name, h⟩ else none

def Path.new (text : List Char) : Path := ⟨text.head? = some '/', pathNames text⟩

/-- The path below the deepest of the ancestors that it is below; an ancestor is given by its
names from the last to the first. -/
def stripAncestor (path : Path) : List PathName → Option (List PathName)
  | [] => if path.rooted then some path.names else none
  | name :: above =>
    if path.rooted ∧ (name :: above).reverse <+: path.names then
      some (path.names.drop (above.length + 1))
    else stripAncestor path above

def fileScheme : List Char := "file://".toList

def uriToRelativePath (uri : List Char) (referencePath : List PathName) : List Char :=
  let pathStr := if fileScheme <+: uri then uri.drop fileScheme.length else uri
  if referencePath = [] then pathStr
  else
    match stripAncestor (.new pathStr) referencePath.dropLast.reverse with
    | some rel => pathText rel
    | none => pathStr

section

structure CallHierarchyOutgoingCall where
  uri : String
  name : String
  fromRanges : List LspRange

inductive LspRequest
  | documentSymbol (uri : String)
  | prepareCallHierarchy (uri : String) (line character : Nat)
  | outgoingCalls (item : Json)

inductive LspError
  | transport
  | response (error : Json)
  | parse
  | unexpected (result : Json)

abbrev LspClient := Nat → LspRequest → Except LspError Json

/-- `serde_json::from_value` for the types of the protocol. -/
structure LspTypes where
  documentSymbols : List Json → Option (List DocumentSymbol)
  items : List Json → Option (List Json)
  outgoingCalls : List Json → Option (List CallHierarchyOutgoingCall)

def parseResult {α : Type} (fromValue : List Json → Option (List α)) (response : Json) :
    Except LspError (List α) :=
  match response.getKey "error" with
  | some error => .error (.response error)
  | none =>
    match response.getKey "result" with
    | some (.array elems) =>
      match fromValue elems with
      | some values => .ok values
      | none => .error .parse
    | some .null | none => .ok []
    | some other => .error (.unexpected other)

variable (T : LspTypes)

def parseDocumentSymbols (response : Json) : Except LspError (List DocumentSymbol) :=
  parseResult (fun elems => if elems = [] then some [] else T.documentSymbols elems) response

def parseCallHierarchyItems (response : Json) : Except LspError (List Json) :=
  parseResult T.items response

def parseOutgoingCalls (response : Json) : Except LspError (List CallHierarchyOutgoingCall) :=
  parseResult T.outgoingCalls response

end

section

def CallHierarchyOutgoingCall.edge (call : CallHierarchyOutgoingCall) (callerId : String)
    (filePath : List PathName) (relativePath : String) : CallEdge :=
  let calleeFile := String.ofList (uriToRelativePath call.uri.toList filePath)
  { callerId := callerId
    calleeId := lspSymbolId calleeFile call.name
    callerFile := relativePath
    calleeFile := calleeFile
    fromRanges := rangesText call.fromRanges
    source := "lsp" }

variable (T : LspTypes) (client : LspClient) (filePath : List PathName) (relativePath : String)

def fileUri : String := String.ofList (fileScheme ++ '/' :: pathText filePath)

def collectEdgesForSymbol (n : Nat) (sym : FlatSymbol) : Except LspError (List CallEdge) × Nat :=
  match client n (.prepareCallHierarchy (fileUri filePath) sym.2.startLine sym.2.startChar) with
  | .error _ => (.ok [], n + 1)
  | .ok prepared =>
    match parseCallHierarchyItems T prepared with
    | .error e => (.error e, n + 1)
    | .ok [] => (.ok [], n + 1)
    | .ok (item :: _) =>
      match client (n + 1) (.outgoingCalls item) with
      | .error _ => (.ok [], n + 2)
      | .ok outgoing =>
        ((parseOutgoingCalls T outgoing).map fun calls =>
          calls.map fun call => call.edge sym.1 filePath relativePath, n + 2)

def collectEdgesForSymbols (n : Nat) : List FlatSymbol → Except LspError (List CallEdge)
  | [] => .ok []
  | sym :: symbols =>
    match collectEdgesForSymbol T client filePath relativePath n sym with
    | (.error e, _) => .error e
    | (.ok edges, m) =>
      match collectEdgesForSymbols m symbols with
      | .error e => .error e
      | .ok rest => .ok (edges ++ rest)

theorem of_mem_collectEdgesForSymbol {n : Nat} {sym : FlatSymbol} {edges : List CallEdge}
    {edge : CallEdge}
    (h : (collectEdgesForSymbol T client filePath relativePath n sym).1 = .ok edges)
    (hmem : edge ∈ edges) :
    ∃ call : CallHierarchyOutgoingCall, edge = call.edge sym.1 filePath relativePath := by
  have hnil : ∀ edges : List CallEdge, (.ok [] : Except LspError (List CallEdge)) = .ok edges →
      edge ∉ edges := by
    rintro edges heq
    rw [← Except.ok.inj heq]
    exact List.not_mem_nil
  rw [collectEdgesForSymbol] at h
  split at h
  · exact absurd hmem (hnil edges h)
  · split at h
    · simp at h
    · exact absurd hmem (hnil edges h)
    · split at h
      · exact absurd hmem (hnil edges h)
      · rename_i outgoing _
        cases hcalls : parseOutgoingCalls T outgoing with
        | error e => simp [hcalls, Except.map] at h
        | ok calls =>
          simp only [hcalls, Except.map, Except.ok.injEq] at h
          rw [← h] at hmem
          obtain ⟨call, -, rfl⟩ := List.mem_map.mp hmem
          exact ⟨call, rfl⟩

def FlatSymbol.callable (sym : FlatSymbol) : Bool :=
  sym.2.kind = 12 || sym.2.kind = 6 || sym.2.kind = 9

def collectCallEdges : Except LspError (List CallEdge) :=
  match client 0 (.documentSymbol (fileUri filePath)) with
  | .error e => .error e
  | .ok response =>
    match parseDocumentSymbols T response with
    | .error e => .error e
    | .ok symbols =>
      collectEdgesForSymbols T client filePath relativePath 1
        ((flattenSymbols relativePath symbols).filter FlatSymbol.callable)

end

inductive PersistError
  | lsp (e : LspError)
  | database

/-- `write_edges` with its outcome; what has been written before a failure stays. -/
def Database.writeEdgesResult (db : Database) (callerFile : String) (edges : List CallEdge) :
    Database × Except PersistError Nat :=
  let written := executeEach insertEdge
    (db.deleteEdges fun edge => edge.callerFile = callerFile) edges
  (written.1, if written.2 then .ok edges.length else .error .database)

def collectAndPersist (T : LspTypes) (client : LspClient) (db : Database)
    (filePath : List PathName) (relativePath : String) : Database × Except PersistError Nat :=
  match collectCallEdges T client filePath relativePath with
  | .error e => (db, .error (.lsp e))
  | .ok edges => if edges = [] then (db, .ok 0) else db.writeEdgesResult relativePath edges

end SwissArmyHammer.CodeContext
