import SwissArmyHammer.Common.IndexMap

/-! The database of the code context index: its tables with their keys, and the statements that
run on them. -/

namespace SwissArmyHammer.CodeContext

abbrev Bytes := List UInt8

structure FileRow where
  contentHash : Bytes
  tsIndexed : Bool
  lspIndexed : Bool
  embedded : Bool
  deriving DecidableEq

structure ChunkRow where
  filePath : String
  startByte : Nat
  endByte : Nat
  startLine : Nat
  endLine : Nat
  text : Bytes
  symbolPath : Option String
  embedding : Option Bytes
  deriving DecidableEq

structure SymbolRow where
  name : String
  kind : Nat
  filePath : String
  startLine : Nat
  startChar : Nat
  endLine : Nat
  endChar : Nat
  detail : Option String
  deriving DecidableEq

structure CallEdge where
  callerId : String
  calleeId : String
  callerFile : String
  calleeFile : String
  fromRanges : String
  source : String
  deriving DecidableEq

/-- The rows of the four tables, with what the foreign keys promise of them. -/
structure Database where
  indexedFiles : IndexMap String FileRow
  tsChunks : List ChunkRow
  lspSymbols : IndexMap String SymbolRow
  lspCallEdges : List CallEdge
  file_of_chunk : ∀ chunk ∈ tsChunks, (indexedFiles.get? chunk.filePath).isSome
  file_of_symbol : ∀ id symbol, lspSymbols.get? id = some symbol →
    (indexedFiles.get? symbol.filePath).isSome
  ends_of_edge : ∀ edge ∈ lspCallEdges,
    (lspSymbols.get? edge.callerId).isSome ∧ (lspSymbols.get? edge.calleeId).isSome

namespace Database

def empty : Database where
  indexedFiles := .empty
  tsChunks := []
  lspSymbols := .empty
  lspCallEdges := []
  file_of_chunk := by simp
  file_of_symbol := by simp [IndexMap.get?, IndexMap.empty, IndexMap.lookup]
  ends_of_edge := by simp

def file? (db : Database) (path : String) : Option FileRow := db.indexedFiles.get? path

def symbol? (db : Database) (id : String) : Option SymbolRow := db.lspSymbols.get? id

def chunksOf (db : Database) (path : String) : List ChunkRow :=
  db.tsChunks.filter fun chunk => chunk.filePath = path

def updateFiles (db : Database) (set : String → FileRow → FileRow) : Database :=
  { db with
    indexedFiles := db.indexedFiles.mapValues set
    file_of_chunk := fun chunk hmem => by
      rw [IndexMap.get?_mapValues, Option.isSome_map]
      exact db.file_of_chunk chunk hmem
    file_of_symbol := fun id symbol hsymbol => by
      rw [IndexMap.get?_mapValues, Option.isSome_map]
      exact db.file_of_symbol id symbol hsymbol }

def updateFile (db : Database) (path : String) (set : FileRow → FileRow) : Database :=
  db.updateFiles fun x row => if x = path then set row else row

def putFile (db : Database) (path : String) (row : FileRow) : Database :=
  { db with
    indexedFiles := db.indexedFiles.insert path row
    file_of_chunk := fun chunk hmem => IndexMap.isSome_get?_insert (db.file_of_chunk chunk hmem)
    file_of_symbol := fun id symbol hsymbol =>
      IndexMap.isSome_get?_insert (db.file_of_symbol id symbol hsymbol) }

def upsertFile (db : Database) (path : String) (row : FileRow) (set : FileRow → FileRow) :
    Database :=
  match db.file? path with
  | none => db.putFile path row
  | some _ => db.updateFile path set

def deleteSymbols (db : Database) (gone : String → SymbolRow → Bool) : Database :=
  let kept := db.lspSymbols.filter fun id symbol => !gone id symbol
  { db with
    lspSymbols := kept
    lspCallEdges := db.lspCallEdges.filter fun edge =>
      (kept.get? edge.callerId).isSome && (kept.get? edge.calleeId).isSome
    file_of_symbol := fun id symbol hsymbol =>
      db.file_of_symbol id symbol (IndexMap.get?_filter_eq_some.mp hsymbol).1
    ends_of_edge := fun edge hmem => by
      simpa using (List.mem_filter.mp hmem).2 }

def deleteFile (db : Database) (path : String) : Database :=
  let rest := db.deleteSymbols fun _ symbol => symbol.filePath = path
  { rest with
    indexedFiles := db.indexedFiles.shiftRemove path
    tsChunks := db.tsChunks.filter fun chunk => chunk.filePath ≠ path
    file_of_chunk := fun chunk hmem => by
      obtain ⟨hmem, hne⟩ := List.mem_filter.mp hmem
      rw [IndexMap.get?_shiftRemove_of_ne (by simpa using hne)]
      exact db.file_of_chunk chunk hmem
    file_of_symbol := fun id symbol hsymbol => by
      obtain ⟨hsymbol, hne⟩ := IndexMap.get?_filter_eq_some.mp hsymbol
      rw [IndexMap.get?_shiftRemove_of_ne (by simpa using hne)]
      exact db.file_of_symbol id symbol hsymbol }

def putSymbol (db : Database) (id : String) (symbol : SymbolRow)
    (hfile : (db.file? symbol.filePath).isSome) : Database :=
  { db with
    lspSymbols := db.lspSymbols.insert id symbol
    file_of_symbol := fun x other hother => by
      by_cases hx : x = id
      · rw [hx, IndexMap.get?_insert_self, Option.some.injEq] at hother
        rw [← hother]
        exact hfile
      · rw [IndexMap.get?_insert_of_ne hx] at hother
        exact db.file_of_symbol x other hother
    ends_of_edge := fun edge hmem =>
      (db.ends_of_edge edge hmem).imp IndexMap.isSome_get?_insert IndexMap.isSome_get?_insert }

def upsertSymbol (db : Database) (id : String) (symbol : SymbolRow) : Option Database :=
  if hfile : (db.file? symbol.filePath).isSome then some (db.putSymbol id symbol hfile) else none

def insertSymbolOrIgnore (db : Database) (id : String) (symbol : SymbolRow) : Option Database :=
  if (db.symbol? id).isSome then some db else db.upsertSymbol id symbol

def deleteChunks (db : Database) (path : String) : Database :=
  { db with
    tsChunks := db.tsChunks.filter fun chunk => chunk.filePath ≠ path
    file_of_chunk := fun chunk hmem => db.file_of_chunk chunk (List.mem_filter.mp hmem).1 }

def insertChunk (db : Database) (chunk : ChunkRow) : Option Database :=
  if hfile : (db.file? chunk.filePath).isSome then
    some { db with
      tsChunks := db.tsChunks ++ [chunk]
      file_of_chunk := fun other hmem => by
        rcases List.mem_append.mp hmem with hmem | hmem
        · exact db.file_of_chunk other hmem
        · rw [List.mem_singleton.mp hmem]
          exact hfile }
  else none

def deleteEdges (db : Database) (gone : CallEdge → Bool) : Database :=
  { db with
    lspCallEdges := db.lspCallEdges.filter fun edge => !gone edge
    ends_of_edge := fun edge hmem => db.ends_of_edge edge (List.mem_filter.mp hmem).1 }

def insertEdge (db : Database) (edge : CallEdge) : Option Database :=
  if hends : (db.symbol? edge.callerId).isSome ∧ (db.symbol? edge.calleeId).isSome then
    some { db with
      lspCallEdges := db.lspCallEdges ++ [edge]
      ends_of_edge := fun other hmem => by
        rcases List.mem_append.mp hmem with hmem | hmem
        · exact db.ends_of_edge other hmem
        · rw [List.mem_singleton.mp hmem]
          exact hends }
  else none

def executeEach {α : Type} (statement : Database → α → Option Database) (db : Database) :
    List α → Database × Bool
  | [] => (db, true)
  | x :: xs =>
    match statement db x with
    | none => (db, false)
    | some next => executeEach statement next xs

variable {db db' : Database} {path x : String} {chunk : ChunkRow}

@[simp] theorem file?_empty (path : String) : Database.empty.file? path = none := rfl

@[simp] theorem file?_updateFiles (db : Database) (set : String → FileRow → FileRow)
    (path : String) : (db.updateFiles set).file? path = (db.file? path).map (set path) :=
  IndexMap.get?_mapValues set db.indexedFiles path

@[simp] theorem file?_updateFile_self (db : Database) (path : String) (set : FileRow → FileRow) :
    (db.updateFile path set).file? path = (db.file? path).map set := by
  rw [updateFile]
  simp

theorem file?_updateFile_of_ne (h : x ≠ path) (db : Database) (set : FileRow → FileRow) :
    (db.updateFile path set).file? x = db.file? x := by
  rw [updateFile]
  simp [h]

theorem isSome_file?_updateFile (db : Database) (path x : String) (set : FileRow → FileRow) :
    ((db.updateFile path set).file? x).isSome = (db.file? x).isSome := by
  rw [updateFile, file?_updateFiles, Option.isSome_map]

@[simp] theorem file?_putFile_self (db : Database) (path : String) (row : FileRow) :
    (db.putFile path row).file? path = some row :=
  IndexMap.get?_insert_self db.indexedFiles path row

theorem file?_putFile_of_ne (h : x ≠ path) (db : Database) (row : FileRow) :
    (db.putFile path row).file? x = db.file? x :=
  IndexMap.get?_insert_of_ne h db.indexedFiles row

theorem file?_upsertFile_self (db : Database) (path : String) (row : FileRow)
    (set : FileRow → FileRow) :
    (db.upsertFile path row set).file? path = some ((db.file? path).elim row set) := by
  rw [upsertFile]
  split <;> rename_i hrow <;> simp [hrow]

theorem file?_upsertFile_of_ne (h : x ≠ path) (db : Database) (row : FileRow)
    (set : FileRow → FileRow) : (db.upsertFile path row set).file? x = db.file? x := by
  rw [upsertFile]
  split
  · exact file?_putFile_of_ne h db row
  · exact file?_updateFile_of_ne h db set

@[simp] theorem file?_deleteFile_self (db : Database) (path : String) :
    (db.deleteFile path).file? path = none :=
  IndexMap.get?_shiftRemove_self db.indexedFiles path

theorem file?_deleteFile_of_ne (h : x ≠ path) (db : Database) :
    (db.deleteFile path).file? x = db.file? x :=
  IndexMap.get?_shiftRemove_of_ne h db.indexedFiles

theorem chunksOf_eq_nil (h : db.file? path = none) : db.chunksOf path = [] := by
  refine List.filter_eq_nil_iff.mpr fun chunk hmem hpath => ?_
  have hrow := db.file_of_chunk chunk hmem
  rw [of_decide_eq_true hpath, show db.indexedFiles.get? path = none from h] at hrow
  simp at hrow

@[simp] theorem chunksOf_updateFiles (db : Database) (set : String → FileRow → FileRow)
    (path : String) : (db.updateFiles set).chunksOf path = db.chunksOf path := rfl

@[simp] theorem chunksOf_updateFile (db : Database) (x : String) (set : FileRow → FileRow)
    (path : String) : (db.updateFile x set).chunksOf path = db.chunksOf path := rfl

@[simp] theorem chunksOf_putFile (db : Database) (x : String) (row : FileRow) (path : String) :
    (db.putFile x row).chunksOf path = db.chunksOf path := rfl

@[simp] theorem chunksOf_upsertFile (db : Database) (x : String) (row : FileRow)
    (set : FileRow → FileRow) (path : String) :
    (db.upsertFile x row set).chunksOf path = db.chunksOf path := by
  rw [upsertFile]
  split <;> rfl

theorem chunksOf_deleteFile_of_ne (h : x ≠ path) (db : Database) :
    (db.deleteFile path).chunksOf x = db.chunksOf x := by
  show (db.tsChunks.filter _).filter _ = db.tsChunks.filter _
  rw [List.filter_filter]
  refine List.filter_congr fun chunk _ => ?_
  by_cases hx : chunk.filePath = x
  · simp [hx, h]
  · simp [hx]

@[simp] theorem chunksOf_deleteChunks_self (db : Database) (path : String) :
    (db.deleteChunks path).chunksOf path = [] := by
  show (db.tsChunks.filter _).filter _ = []
  rw [List.filter_filter]
  exact List.filter_eq_nil_iff.mpr fun chunk _ => by simp

theorem chunksOf_deleteChunks_of_ne (h : x ≠ path) (db : Database) :
    (db.deleteChunks path).chunksOf x = db.chunksOf x :=
  chunksOf_deleteFile_of_ne h db

theorem insertChunk_eq_none (h : db.file? chunk.filePath = none) : db.insertChunk chunk = none := by
  rw [insertChunk]
  simp [h]

theorem of_insertChunk (h : db.insertChunk chunk = some db') :
    db'.indexedFiles = db.indexedFiles ∧ db'.lspSymbols = db.lspSymbols ∧
      db'.lspCallEdges = db.lspCallEdges ∧
        ∀ x, db'.chunksOf x = db.chunksOf x ++ if chunk.filePath = x then [chunk] else [] := by
  rw [insertChunk] at h
  split_ifs at h with hfile
  obtain rfl := Option.some.inj h
  refine ⟨rfl, rfl, rfl, fun x => ?_⟩
  show (db.tsChunks ++ [chunk]).filter _ = db.tsChunks.filter _ ++ _
  by_cases hx : chunk.filePath = x
  · simp [hx]
  · simp [hx]

section

variable {id y : String} {symbol other : SymbolRow}

@[simp] theorem symbol?_empty (id : String) : Database.empty.symbol? id = none := rfl

theorem file?_of_symbol? (h : db.symbol? id = some symbol) : (db.file? symbol.filePath).isSome :=
  db.file_of_symbol id symbol h

theorem of_symbol?_deleteSymbols {gone : String → SymbolRow → Bool}
    (h : (db.deleteSymbols gone).symbol? id = some symbol) : db.symbol? id = some symbol :=
  (IndexMap.get?_filter_eq_some.mp h).1

theorem of_symbol?_deleteFile (h : (db.deleteFile path).symbol? id = some symbol) :
    db.symbol? id = some symbol :=
  (IndexMap.get?_filter_eq_some.mp h).1

theorem of_upsertSymbol (h : db.upsertSymbol id symbol = some db') (y : String) :
    db'.symbol? y = if y = id then some symbol else db.symbol? y := by
  rw [upsertSymbol] at h
  split_ifs at h with hfile
  obtain rfl := Option.some.inj h
  by_cases hy : y = id
  · rw [if_pos hy, hy]
    exact IndexMap.get?_insert_self db.lspSymbols id symbol
  · rw [if_neg hy]
    exact IndexMap.get?_insert_of_ne hy db.lspSymbols symbol

theorem of_insertSymbolOrIgnore (h : db.insertSymbolOrIgnore id symbol = some db') (y : String) :
    db'.symbol? y = if y = id then some ((db.symbol? id).getD symbol) else db.symbol? y := by
  rw [insertSymbolOrIgnore] at h
  cases hid : db.symbol? id with
  | none =>
    rw [hid] at h
    exact of_upsertSymbol h y
  | some row =>
    grind

theorem insertSymbolOrIgnore_isSome (h : (db.file? symbol.filePath).isSome) :
    (db.insertSymbolOrIgnore id symbol).isSome := by
  rw [insertSymbolOrIgnore]
  split
  · rfl
  · rw [upsertSymbol, dif_pos h]
    rfl

theorem of_insertEdge {edge : CallEdge} (h : db.insertEdge edge = some db') :
    db'.lspSymbols = db.lspSymbols := by
  rw [insertEdge] at h
  split_ifs at h
  obtain rfl := Option.some.inj h
  rfl

end

structure SameIndex (db db' : Database) : Prop where
  files : db'.indexedFiles = db.indexedFiles
  chunks : db'.tsChunks = db.tsChunks

theorem SameIndex.refl (db : Database) : SameIndex db db := ⟨rfl, rfl⟩

theorem SameIndex.trans {a b c : Database} (h : SameIndex a b) (h' : SameIndex b c) :
    SameIndex a c := ⟨h'.files.trans h.files, h'.chunks.trans h.chunks⟩

theorem SameIndex.file? (h : SameIndex db db') (path : String) :
    db'.file? path = db.file? path := by
  rw [Database.file?, h.files]
  rfl

theorem SameIndex.chunksOf (h : SameIndex db db') (path : String) :
    db'.chunksOf path = db.chunksOf path := by
  rw [Database.chunksOf, h.chunks]
  rfl

theorem sameIndex_deleteSymbols (db : Database) (gone : String → SymbolRow → Bool) :
    SameIndex db (db.deleteSymbols gone) := ⟨rfl, rfl⟩

theorem sameIndex_deleteEdges (db : Database) (gone : CallEdge → Bool) :
    SameIndex db (db.deleteEdges gone) := ⟨rfl, rfl⟩

theorem sameIndex_upsertSymbol {id : String} {symbol : SymbolRow}
    (h : db.upsertSymbol id symbol = some db') : SameIndex db db' := by
  rw [upsertSymbol] at h
  split_ifs at h
  obtain rfl := Option.some.inj h
  exact ⟨rfl, rfl⟩

theorem sameIndex_insertSymbolOrIgnore {id : String} {symbol : SymbolRow}
    (h : db.insertSymbolOrIgnore id symbol = some db') : SameIndex db db' := by
  rw [insertSymbolOrIgnore] at h
  split_ifs at h
  · obtain rfl := Option.some.inj h
    exact .refl db
  · exact sameIndex_upsertSymbol h

theorem sameIndex_insertEdge {edge : CallEdge} (h : db.insertEdge edge = some db') :
    SameIndex db db' := by
  rw [insertEdge] at h
  split_ifs at h
  obtain rfl := Option.some.inj h
  exact ⟨rfl, rfl⟩

theorem executeEach_keeps {α : Type} {statement : Database → α → Option Database}
    {I : Database → Prop} {xs : List α}
    (hstep : ∀ db db' x, x ∈ xs → statement db x = some db' → I db → I db') (h : I db) :
    I (executeEach statement db xs).1 := by
  induction xs generalizing db with
  | nil => exact h
  | cons x xs ih =>
    rw [executeEach]
    split
    · exact h
    · grind

theorem lspSymbols_executeEach_insertEdge (db : Database) (edges : List CallEdge) :
    (executeEach insertEdge db edges).1.lspSymbols = db.lspSymbols :=
  executeEach_keeps (I := fun mid => mid.lspSymbols = db.lspSymbols)
    (fun _ _ _ _ hnext hmid => (of_insertEdge hnext).trans hmid) rfl

section

variable {edge : CallEdge}

def hasEnds (db : Database) (edge : CallEdge) : Bool :=
  (db.symbol? edge.callerId).isSome && (db.symbol? edge.calleeId).isSome

theorem insertEdge_of_hasEnds (h : db.hasEnds edge = true) :
    ∃ next, db.insertEdge edge = some next ∧
      next.lspCallEdges = db.lspCallEdges ++ [edge] ∧ next.hasEnds = db.hasEnds := by
  have hends : (db.symbol? edge.callerId).isSome ∧ (db.symbol? edge.calleeId).isSome := by
    simpa [hasEnds] using h
  rw [insertEdge, dif_pos hends]
  exact ⟨_, rfl, rfl, rfl⟩

theorem insertEdge_eq_none_of_hasEnds (h : db.hasEnds edge = false) :
    db.insertEdge edge = none := by
  rw [insertEdge]
  simpa [hasEnds] using h

theorem executeEach_insertEdge (db : Database) (edges : List CallEdge) :
    (executeEach insertEdge db edges).1.lspCallEdges =
        db.lspCallEdges ++ edges.takeWhile db.hasEnds ∧
      (executeEach insertEdge db edges).2 = edges.all db.hasEnds := by
  induction edges generalizing db with
  | nil => simp [executeEach]
  | cons edge edges ih =>
    rw [executeEach, List.takeWhile_cons, List.all_cons]
    cases hends : db.hasEnds edge with
    | false =>
      rw [insertEdge_eq_none_of_hasEnds hends]
      simp
    | true =>
      obtain ⟨next, hnext, hrows, hsame⟩ := insertEdge_of_hasEnds hends
      rw [hnext]
      obtain ⟨hedges, hall⟩ := ih next
      refine ⟨?_, ?_⟩
      · simp only [hedges, hrows, hsame, if_true, List.append_assoc, List.singleton_append]
      · simp only [hall, hsame, Bool.true_and]

end

theorem sameIndex_executeEach {α : Type} {statement : Database → α → Option Database}
    (hstep : ∀ db db' x, statement db x = some db' → SameIndex db db') (db : Database)
    (xs : List α) : SameIndex db (executeEach statement db xs).1 :=
  executeEach_keeps (fun mid next x _ hnext h => h.trans (hstep mid next x hnext)) (.refl db)

theorem executeEach_establishes {α : Type} {statement : Database → α → Option Database}
    {xs : List α} {I : Database → Prop} (G : α → Database → Prop)
    (hstep : ∀ db x, x ∈ xs → I db → ∃ next, statement db x = some next ∧ I next ∧ G x next)
    (hkept : ∀ db db' x y, y ∈ xs → statement db y = some db' → G x db → G x db') (h : I db) :
    ∀ x ∈ xs, G x (executeEach statement db xs).1 := by
  induction xs generalizing db with
  | nil => simp
  | cons y xs ih =>
    obtain ⟨next, hnext, hI, hG⟩ := hstep db y List.mem_cons_self h
    rw [executeEach, hnext]
    intro x hx
    rcases List.mem_cons.mp hx with rfl | hx
    · exact executeEach_keeps (fun db db' z hz =>
        hkept db db' x z (List.mem_cons_of_mem x hz)) hG
    · exact ih (fun db z hz => hstep db z (List.mem_cons_of_mem y hz))
        (fun db db' x z hz => hkept db db' x z (List.mem_cons_of_mem y hz)) hI x hx

theorem executeEach_succeeds {α : Type} {statement : Database → α → Option Database}
    {I : Database → Prop} {xs : List α}
    (hstep : ∀ db x, x ∈ xs → I db → ∃ next, statement db x = some next ∧ I next) (h : I db) :
    (executeEach statement db xs).2 = true := by
  induction xs generalizing db with
  | nil => rfl
  | cons x xs ih =>
    obtain ⟨next, hnext, hI⟩ := hstep db x List.mem_cons_self h
    rw [executeEach, hnext]
    exact ih (fun db y hy => hstep db y (List.mem_cons_of_mem x hy)) hI

end Database

end SwissArmyHammer.CodeContext
