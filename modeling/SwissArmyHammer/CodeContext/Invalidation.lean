import SwissArmyHammer.CodeContext.Database

/-! The symbols and call edges that a language server reports, and the files whose edges have to be
asked for again. -/

namespace SwissArmyHammer.CodeContext

inductive DocumentSymbol where
  | mk (name : String) (kind : Nat) (start stop : Nat × Nat) (detail : Option String)
      (children : List DocumentSymbol)

abbrev FlatSymbol := String × SymbolRow

structure OutgoingCall where
  callerId : String
  calleeFile : String
  calleeName : String
  fromRanges : String
  deriving DecidableEq

def lspSymbolId (filePath qualifiedPath : String) : String :=
  "lsp:" ++ filePath ++ ":" ++ qualifiedPath

def OutgoingCall.edge (call : OutgoingCall) (callerFile : String) : CallEdge where
  callerId := call.callerId
  calleeId := lspSymbolId call.calleeFile call.calleeName
  callerFile := callerFile
  calleeFile := call.calleeFile
  fromRanges := call.fromRanges
  source := "lsp"

def qualifiedPath (parents : List String) (name : String) : String :=
  if parents = [] then name else "::".intercalate parents ++ "::" ++ name

mutual

def flattenSymbol (filePath : String) (parents : List String) : DocumentSymbol → List FlatSymbol
  | .mk name kind start stop detail children =>
    (lspSymbolId filePath (qualifiedPath parents name),
      { name := name
        kind := kind
        filePath := filePath
        startLine := start.1
        startChar := start.2
        endLine := stop.1
        endChar := stop.2
        detail := detail }) ::
      flattenRecursive filePath (parents ++ [name]) children

def flattenRecursive (filePath : String) (parents : List String) :
    List DocumentSymbol → List FlatSymbol
  | [] => []
  | symbol :: symbols =>
    flattenSymbol filePath parents symbol ++ flattenRecursive filePath parents symbols

end

def flattenSymbols (filePath : String) (symbols : List DocumentSymbol) : List FlatSymbol :=
  flattenRecursive filePath [] symbols

mutual

theorem of_mem_flattenSymbol {filePath : String} {flat : FlatSymbol} (parents : List String)
    (symbol : DocumentSymbol) (h : flat ∈ flattenSymbol filePath parents symbol) :
    flat.2.filePath = filePath ∧ ∃ path, flat.1 = lspSymbolId filePath path := by
  cases symbol with
  | mk name kind start stop detail children =>
    rcases List.mem_cons.mp h with rfl | h
    · exact ⟨rfl, _, rfl⟩
    · exact of_mem_flattenRecursive (parents ++ [name]) children h

theorem of_mem_flattenRecursive {filePath : String} {flat : FlatSymbol} (parents : List String)
    (symbols : List DocumentSymbol) (h : flat ∈ flattenRecursive filePath parents symbols) :
    flat.2.filePath = filePath ∧ ∃ path, flat.1 = lspSymbolId filePath path := by
  cases symbols with
  | nil => simp [flattenRecursive] at h
  | cons symbol symbols =>
    rcases List.mem_append.mp h with h | h
    · exact of_mem_flattenSymbol parents symbol h
    · exact of_mem_flattenRecursive parents symbols h

end

theorem of_mem_flattenSymbols {filePath : String} {flat : FlatSymbol}
    {symbols : List DocumentSymbol} (h : flat ∈ flattenSymbols filePath symbols) :
    flat.2.filePath = filePath ∧ ∃ path, flat.1 = lspSymbolId filePath path :=
  of_mem_flattenRecursive [] symbols h

namespace Database

def symbolIds (db : Database) (filePath : String) : List String :=
  (db.lspSymbols.entries.filter fun entry => entry.2.filePath = filePath).map Prod.fst

def reverseEdgeFiles (db : Database) (calleeIds : List String) (excludeFile : String) :
    List String :=
  ((db.lspCallEdges.filter fun edge =>
    edge.calleeId ∈ calleeIds && edge.callerFile ≠ excludeFile).map CallEdge.callerFile).dedup

def reextractSymbols (db : Database) (filePath : String) (newSymbols : List FlatSymbol) :
    Database × Option (List String) :=
  let newIds := newSymbols.map Prod.fst
  let deletedIds := (db.symbolIds filePath).filter fun id => id ∉ newIds
  let affectedFiles := db.reverseEdgeFiles deletedIds filePath
  let kept := db.deleteSymbols fun id _ => id ∈ deletedIds
  let written := executeEach (fun db symbol => db.upsertSymbol symbol.1 symbol.2) kept newSymbols
  (written.1, if written.2 then some affectedFiles else none)

def markLspIndexed (db : Database) (filePath : String) : Database :=
  db.updateFile filePath fun row => { row with lspIndexed := true }

def collectAndPersistSymbols (db : Database) (filePath : String)
    (symbols : List DocumentSymbol) : Database × Option (List String) :=
  let extracted := db.reextractSymbols filePath (flattenSymbols filePath symbols)
  match extracted.2 with
  | none => extracted
  | some actions => (extracted.1.markLspIndexed filePath, some actions)

def writeEdges (db : Database) (callerFile : String) (edges : List CallEdge) : Database :=
  (executeEach insertEdge (db.deleteEdges fun edge => edge.callerFile = callerFile) edges).1

def collectAndPersistCallEdges (db : Database) (filePath : String) (calls : List OutgoingCall) :
    Database :=
  if calls = [] then db else db.writeEdges filePath (calls.map fun call => call.edge filePath)

def applyInvalidationActions (db : Database) (files : List String) : Database :=
  files.foldl (fun db filePath =>
    db.updateFile filePath fun row => { row with lspIndexed := false }) db

theorem sameIndex_reextractSymbols (db : Database) (filePath : String)
    (newSymbols : List FlatSymbol) : SameIndex db (db.reextractSymbols filePath newSymbols).1 :=
  (sameIndex_deleteSymbols db _).trans
    (sameIndex_executeEach (fun _ _ _ h => sameIndex_upsertSymbol h) _ newSymbols)

theorem collectAndPersistSymbols_cases (db : Database) (filePath : String)
    (symbols : List DocumentSymbol) :
    ∃ mid, SameIndex db mid ∧ ((db.collectAndPersistSymbols filePath symbols).1 = mid ∨
      (db.collectAndPersistSymbols filePath symbols).1 = mid.markLspIndexed filePath) := by
  refine ⟨_, sameIndex_reextractSymbols db filePath (flattenSymbols filePath symbols), ?_⟩
  simp only [collectAndPersistSymbols]
  split
  · exact .inl rfl
  · exact .inr rfl

theorem sameIndex_collectAndPersistCallEdges (db : Database) (filePath : String)
    (calls : List OutgoingCall) : SameIndex db (db.collectAndPersistCallEdges filePath calls) := by
  rw [collectAndPersistCallEdges]
  split
  · exact .refl db
  · exact (sameIndex_deleteEdges db _).trans
      (sameIndex_executeEach (fun _ _ _ h => sameIndex_insertEdge h) _ _)

theorem collectAndPersistSymbols_of_row {db : Database} {filePath : String} {row : FileRow}
    (symbols : List DocumentSymbol) (h : db.file? filePath = some row) :
    (db.collectAndPersistSymbols filePath symbols).1.file? filePath =
      some { row with lspIndexed := true } := by
  have hsome : (db.reextractSymbols filePath (flattenSymbols filePath symbols)).2.isSome := by
    have hwritten : (executeEach (fun db (symbol : FlatSymbol) => db.upsertSymbol symbol.1 symbol.2)
        (db.deleteSymbols fun id _ => id ∈ (db.symbolIds filePath).filter fun id =>
          id ∉ (flattenSymbols filePath symbols).map Prod.fst)
        (flattenSymbols filePath symbols)).2 = true := by
      refine executeEach_succeeds (I := fun mid => mid.file? filePath = some row)
        (fun mid symbol hmem hmid => ?_) h
      have hfile : (mid.file? symbol.2.filePath).isSome := by
        rw [(of_mem_flattenSymbols hmem).1, hmid]
        rfl
      refine ⟨mid.putSymbol symbol.1 symbol.2 hfile, ?_, hmid⟩
      rw [upsertSymbol, dif_pos hfile]
    rw [reextractSymbols]
    simp only [hwritten, if_true, Option.isSome_some]
  obtain ⟨actions, hactions⟩ := Option.isSome_iff_exists.mp hsome
  have hsame := sameIndex_reextractSymbols db filePath (flattenSymbols filePath symbols)
  rw [collectAndPersistSymbols]
  simp only [hactions]
  rw [markLspIndexed, file?_updateFile_self, hsame.file?, h]
  rfl

theorem file?_collectAndPersistSymbols_self (db : Database) (filePath : String)
    (symbols : List DocumentSymbol) :
    (db.collectAndPersistSymbols filePath symbols).1.file? filePath =
      (db.file? filePath).map fun row => { row with lspIndexed := true } := by
  cases hrow : db.file? filePath with
  | none =>
    obtain ⟨mid, hsame, hmid | hmid⟩ := collectAndPersistSymbols_cases db filePath symbols
    · rw [hmid, hsame.file?, hrow]
      rfl
    · rw [hmid, markLspIndexed, file?_updateFile_self, hsame.file?, hrow]
  | some row => exact collectAndPersistSymbols_of_row symbols hrow

theorem file?_collectAndPersistSymbols_of_ne {db : Database} {filePath x : String}
    (h : x ≠ filePath) (symbols : List DocumentSymbol) :
    (db.collectAndPersistSymbols filePath symbols).1.file? x = db.file? x := by
  obtain ⟨mid, hsame, hmid | hmid⟩ := collectAndPersistSymbols_cases db filePath symbols
  · rw [hmid, hsame.file?]
  · rw [hmid, markLspIndexed, file?_updateFile_of_ne h, hsame.file?]

theorem chunksOf_collectAndPersistSymbols (db : Database) (filePath : String)
    (symbols : List DocumentSymbol) (x : String) :
    (db.collectAndPersistSymbols filePath symbols).1.chunksOf x = db.chunksOf x := by
  obtain ⟨mid, hsame, hmid | hmid⟩ := collectAndPersistSymbols_cases db filePath symbols
  · rw [hmid, hsame.chunksOf]
  · rw [hmid, markLspIndexed, chunksOf_updateFile, hsame.chunksOf]

end Database

end SwissArmyHammer.CodeContext
