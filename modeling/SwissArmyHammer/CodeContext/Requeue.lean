import Mathlib.Data.List.Dedup
import SwissArmyHammer.CodeContext.Workspace

/-! The callers of symbols that go: which files lose call edges, and which are put back in the
queue of the language server workers. -/

namespace SwissArmyHammer.CodeContext

attribute [ext] IndexMap Database

/-- `SQLITE_IN_CHUNK_SIZE` is one more. -/
def sqliteInChunkSize : Nat := 899

namespace Database

def findReverseEdgeFiles (db : Database) (calleeIds : List String) (excludeFile : String) :
    List String :=
  (chunks sqliteInChunkSize calleeIds).foldl
    (fun found chunk => found ∪ db.reverseEdgeFiles chunk excludeFile) []

def deleteSymbolsById (db : Database) (ids : List String) : Database :=
  (chunks sqliteInChunkSize ids).foldl (fun db chunk => db.deleteSymbols fun id _ => id ∈ chunk) db

def upsertSymbols (db : Database) (symbols : List FlatSymbol) : Database × Bool :=
  executeEach (fun db symbol => db.upsertSymbol symbol.1 symbol.2) db symbols

/-- `reextract_symbols` with its statements as they are, for chunks of ids. -/
def reextractInChunks (db : Database) (filePath : String) (newSymbols : List FlatSymbol) :
    Database × Option (List String) :=
  let newIds := newSymbols.map Prod.fst
  let deletedIds := (db.symbolIds filePath).filter fun id => id ∉ newIds
  let affectedFiles := db.findReverseEdgeFiles deletedIds filePath
  let written := (db.deleteSymbolsById deletedIds).upsertSymbols newSymbols
  (written.1, if written.2 then some affectedFiles else none)

section

variable {db : Database}

theorem deleteSymbols_deleteSymbols (db : Database) (p q : String → SymbolRow → Bool) :
    (db.deleteSymbols p).deleteSymbols q = db.deleteSymbols fun id row => p id row || q id row := by
  have hsymbols : (db.lspSymbols.filter fun id row => !p id row).filter (fun id row => !q id row) =
      db.lspSymbols.filter fun id row => !(p id row || q id row) := by
    ext1
    show (db.lspSymbols.entries.filter _).filter _ = db.lspSymbols.entries.filter _
    rw [List.filter_filter]
    exact List.filter_congr fun e _ => by simp [Bool.and_comm]
  ext1
  · rfl
  · rfl
  · exact hsymbols
  · show (db.lspCallEdges.filter _).filter _ = db.lspCallEdges.filter _
    rw [List.filter_filter, ← hsymbols]
    refine List.filter_congr fun edge _ => ?_
    have hkept : ∀ id, (((db.lspSymbols.filter fun id row => !p id row).filter
        fun id row => !q id row).get? id).isSome = true →
          ((db.lspSymbols.filter fun id row => !p id row).get? id).isSome = true := by
      intro id hid
      obtain ⟨row, hrow⟩ := Option.isSome_iff_exists.mp hid
      exact Option.isSome_of_eq_some (IndexMap.get?_filter_eq_some.mp hrow).1
    rw [Bool.eq_iff_iff]
    simp only [Bool.and_eq_true]
    constructor
    · exact fun h => h.1
    · exact fun h => ⟨h, hkept _ h.1, hkept _ h.2⟩

theorem deleteSymbols_none (db : Database) : (db.deleteSymbols fun _ _ => false) = db := by
  have hsymbols : (db.lspSymbols.filter fun _ _ => !false) = db.lspSymbols := by
    ext1
    exact List.filter_eq_self.mpr fun _ _ => rfl
  ext1
  · rfl
  · rfl
  · exact hsymbols
  · show db.lspCallEdges.filter _ = db.lspCallEdges
    rw [hsymbols]
    refine List.filter_eq_self.mpr fun edge hmem => ?_
    obtain ⟨hcaller, hcallee⟩ := db.ends_of_edge edge hmem
    rw [hcaller, hcallee]
    rfl

theorem foldl_deleteSymbols (db : Database) (parts : List (List String)) :
    parts.foldl (fun db part => db.deleteSymbols fun id _ => id ∈ part) db =
      db.deleteSymbols fun id _ => id ∈ parts.flatten := by
  induction parts generalizing db with
  | nil => simpa using (deleteSymbols_none db).symm
  | cons part parts ih =>
    rw [List.foldl_cons, ih, deleteSymbols_deleteSymbols]
    congr 1
    simp

theorem deleteSymbolsById_eq (db : Database) (ids : List String) :
    db.deleteSymbolsById ids = db.deleteSymbols fun id _ => id ∈ ids := by
  rw [deleteSymbolsById, foldl_deleteSymbols, flatten_chunks]

theorem mem_reverseEdgeFiles {ids : List String} {excludeFile file : String} :
    file ∈ db.reverseEdgeFiles ids excludeFile ↔
      file ≠ excludeFile ∧ ∃ edge ∈ db.lspCallEdges, edge.callerFile = file ∧ edge.calleeId ∈ ids := by
  rw [reverseEdgeFiles, List.mem_dedup, List.mem_map]
  constructor
  · grind
  · rintro ⟨hne, edge, hmem, rfl, hid⟩
    exact ⟨edge, List.mem_filter.mpr ⟨hmem, by simp [hid, hne]⟩, rfl⟩

theorem mem_findReverseEdgeFiles {ids : List String} {excludeFile file : String} :
    file ∈ db.findReverseEdgeFiles ids excludeFile ↔ file ∈ db.reverseEdgeFiles ids excludeFile := by
  rw [findReverseEdgeFiles, mem_foldl_union]
  simp only [List.not_mem_nil, false_or, mem_reverseEdgeFiles]
  constructor
  · rintro ⟨part, hpart, hne, edge, hmem, hfile, hid⟩
    refine ⟨hne, edge, hmem, hfile, ?_⟩
    rw [← flatten_chunks sqliteInChunkSize ids]
    exact List.mem_flatten.mpr ⟨part, hpart, hid⟩
  · rintro ⟨hne, edge, hmem, hfile, hid⟩
    rw [← flatten_chunks sqliteInChunkSize ids] at hid
    obtain ⟨part, hpart, hid⟩ := List.mem_flatten.mp hid
    exact ⟨part, hpart, hne, edge, hmem, hfile, hid⟩

theorem nodup_findReverseEdgeFiles (db : Database) (ids : List String) (excludeFile : String) :
    (db.findReverseEdgeFiles ids excludeFile).Nodup :=
  nodup_foldl_union (fun _ => List.nodup_dedup _) _ List.nodup_nil

theorem reextractInChunks_fst (db : Database) (filePath : String) (newSymbols : List FlatSymbol) :
    (db.reextractInChunks filePath newSymbols).1 = (db.reextractSymbols filePath newSymbols).1 := by
  rw [reextractInChunks, reextractSymbols]
  rw [deleteSymbolsById_eq, upsertSymbols]

end

def EndsAt (db : Database) (P : String → SymbolRow → Prop) (edge : CallEdge) : Prop :=
  ∃ id row, (edge.callerId = id ∨ edge.calleeId = id) ∧ db.symbol? id = some row ∧ P id row

section

variable {db db' : Database} {edge : CallEdge}

theorem mem_edges_deleteSymbols {gone : String → SymbolRow → Bool} :
    edge ∈ (db.deleteSymbols gone).lspCallEdges ↔
      edge ∈ db.lspCallEdges ∧ ¬db.EndsAt (fun id row => gone id row = true) edge := by
  have hend : ∀ id, (db.symbol? id).isSome →
      (((db.lspSymbols.filter fun id row => !gone id row).get? id).isSome = true ↔
        ∀ row, db.symbol? id = some row → ¬gone id row = true) := by
    intro id hsome
    obtain ⟨row, hrow⟩ := Option.isSome_iff_exists.mp hsome
    rw [Option.isSome_iff_exists]
    constructor
    · rintro ⟨kept, hkept⟩ other hother
      obtain ⟨hkept, hnot⟩ := IndexMap.get?_filter_eq_some.mp hkept
      rw [show db.lspSymbols.get? id = some other from hother, Option.some.injEq] at hkept
      rw [hkept]
      simpa using hnot
    · intro hall
      exact ⟨row, IndexMap.get?_filter_eq_some.mpr ⟨hrow, by simpa using hall row hrow⟩⟩
  show edge ∈ db.lspCallEdges.filter _ ↔ _
  rw [List.mem_filter]
  refine and_congr_right fun hmem => ?_
  obtain ⟨hcaller, hcallee⟩ := db.ends_of_edge edge hmem
  rw [Bool.and_eq_true, hend _ hcaller, hend _ hcallee]
  constructor
  · rintro ⟨hcaller, hcallee⟩ ⟨id, row, rfl | rfl, hrow, hgone⟩
    · exact hcaller row hrow hgone
    · exact hcallee row hrow hgone
  · intro hnot
    exact ⟨fun row hrow hgone => hnot ⟨_, row, .inl rfl, hrow, hgone⟩,
      fun row hrow hgone => hnot ⟨_, row, .inr rfl, hrow, hgone⟩⟩

theorem symbol?_deleteSymbols_iff {gone : String → SymbolRow → Bool} {id : String}
    {row : SymbolRow} : (db.deleteSymbols gone).symbol? id = some row ↔
      db.symbol? id = some row ∧ gone id row = false := by
  rw [symbol?, deleteSymbols]
  rw [IndexMap.get?_filter_eq_some, Bool.not_eq_true']
  rfl

theorem mem_symbolIds {filePath id : String} :
    id ∈ db.symbolIds filePath ↔ ∃ row, db.symbol? id = some row ∧ row.filePath = filePath := by
  rw [symbolIds, List.mem_map]
  constructor
  · rintro ⟨⟨x, row⟩, hmem, rfl⟩
    obtain ⟨hmem, hfile⟩ := List.mem_filter.mp hmem
    exact ⟨row, IndexMap.get?_eq_some_iff.mpr hmem, of_decide_eq_true hfile⟩
  · rintro ⟨row, hrow, hfile⟩
    exact ⟨(id, row), List.mem_filter.mpr ⟨IndexMap.get?_eq_some_iff.mp hrow, by simpa using hfile⟩,
      rfl⟩

theorem endsAt_deleteSymbols {gone : String → SymbolRow → Bool} {P : String → SymbolRow → Prop} :
    (db.deleteSymbols gone).EndsAt P edge ↔
      db.EndsAt (fun id row => gone id row = false ∧ P id row) edge := by
  constructor
  · rintro ⟨id, row, hend, hrow, hP⟩
    obtain ⟨hrow, hkept⟩ := symbol?_deleteSymbols_iff.mp hrow
    exact ⟨id, row, hend, hrow, hkept, hP⟩
  · rintro ⟨id, row, hend, hrow, hkept, hP⟩
    exact ⟨id, row, hend, symbol?_deleteSymbols_iff.mpr ⟨hrow, hkept⟩, hP⟩

theorem EndsAt.mono {P Q : String → SymbolRow → Prop} (h : db.EndsAt P edge)
    (hPQ : ∀ id row, db.symbol? id = some row → P id row → Q id row) : db.EndsAt Q edge := by
  obtain ⟨id, row, hend, hrow, hP⟩ := h
  exact ⟨id, row, hend, hrow, hPQ id row hrow hP⟩

theorem lspCallEdges_upsertSymbols (db : Database) (symbols : List FlatSymbol) :
    (db.upsertSymbols symbols).1.lspCallEdges = db.lspCallEdges := by
  refine executeEach_keeps (I := fun mid => mid.lspCallEdges = db.lspCallEdges)
    (fun mid next symbol _ hnext hmid => ?_) rfl
  rw [upsertSymbol] at hnext
  split_ifs at hnext
  obtain rfl := Option.some.inj hnext
  exact hmid

theorem upsertSymbols_succeeds_iff (db : Database) (symbols : List FlatSymbol) :
    (db.upsertSymbols symbols).2 = true ↔
      ∀ symbol ∈ symbols, (db.file? symbol.2.filePath).isSome := by
  rw [upsertSymbols]
  induction symbols generalizing db with
  | nil => simp [executeEach]
  | cons symbol symbols ih =>
    rw [executeEach, upsertSymbol, List.forall_mem_cons]
    split
    · rename_i hnone
      split_ifs at hnone with hfile
      simp [hfile]
    · rename_i next hnext
      split_ifs at hnext with hfile
      obtain rfl := Option.some.inj hnext
      rw [ih]
      simp only [hfile, true_and]
      rfl

end

section

variable {db : Database} {filePath : String} {newSymbols : List FlatSymbol} {edge : CallEdge}
  {file : String}

def Dropped (filePath : String) (newSymbols : List FlatSymbol) (id : String) (row : SymbolRow) :
    Prop :=
  row.filePath = filePath ∧ id ∉ newSymbols.map Prod.fst

theorem mem_deletedIds {id : String} {row : SymbolRow} (h : db.symbol? id = some row) :
    id ∈ (db.symbolIds filePath).filter (fun id => id ∉ newSymbols.map Prod.fst) ↔
      Dropped filePath newSymbols id row := by
  rw [List.mem_filter, mem_symbolIds, decide_eq_true_eq]
  refine and_congr_left fun _ => ⟨?_, fun hfile => ⟨row, h, hfile⟩⟩
  rintro ⟨other, hother, hfile⟩
  rw [h, Option.some.injEq] at hother
  rw [hother]
  exact hfile

theorem mem_edges_reextractInChunks :
    edge ∈ (db.reextractInChunks filePath newSymbols).1.lspCallEdges ↔
      edge ∈ db.lspCallEdges ∧ ¬db.EndsAt (Dropped filePath newSymbols) edge := by
  rw [reextractInChunks]
  rw [lspCallEdges_upsertSymbols, deleteSymbolsById_eq, mem_edges_deleteSymbols]
  refine and_congr_right fun _ => not_congr ?_
  constructor
  · exact fun h => h.mono fun id row hrow hid => (mem_deletedIds hrow).mp (by simpa using hid)
  · exact fun h => h.mono fun id row hrow hid => by simpa using (mem_deletedIds hrow).mpr hid

def CallsDropped (db : Database) (filePath : String) (newSymbols : List FlatSymbol)
    (file : String) : Prop :=
  ∃ edge ∈ db.lspCallEdges, edge.callerFile = file ∧
    ∃ row, db.symbol? edge.calleeId = some row ∧ Dropped filePath newSymbols edge.calleeId row

theorem mem_affectedFiles :
    file ∈ db.findReverseEdgeFiles
        ((db.symbolIds filePath).filter fun id => id ∉ newSymbols.map Prod.fst) filePath ↔
      file ≠ filePath ∧ db.CallsDropped filePath newSymbols file := by
  rw [mem_findReverseEdgeFiles, mem_reverseEdgeFiles]
  refine and_congr_right fun _ => exists_congr fun edge => and_congr_right fun hmem =>
    and_congr_right fun _ => ?_
  obtain ⟨row, hrow⟩ := Option.isSome_iff_exists.mp (db.ends_of_edge edge hmem).2
  have hrow' : db.symbol? edge.calleeId = some row := hrow
  rw [mem_deletedIds hrow']
  constructor
  · exact fun hdropped => ⟨row, hrow', hdropped⟩
  · grind

end

section

variable {db : Database} {found : List (String × Bytes)} {edge : CallEdge}

theorem mem_edges_foldl_reconcileDbEntry (entries : List (String × Bytes)) :
    edge ∈ (entries.foldl (reconcileDbEntry found) db).lspCallEdges ↔
      edge ∈ db.lspCallEdges ∧ ¬db.EndsAt (fun _ row =>
        row.filePath ∈ entries.map Prod.fst ∧ found.lookup row.filePath = none) edge := by
  induction entries generalizing db with
  | nil =>
    refine (and_iff_left ?_).symm
    rintro ⟨id, row, -, -, hmem, -⟩
    simp at hmem
  | cons entry entries ih =>
    rw [List.foldl_cons, ih, reconcileDbEntry]
    cases hlookup : found.lookup entry.1 with
    | none =>
      have hedges : edge ∈ (db.deleteFile entry.1).lspCallEdges ↔ edge ∈ db.lspCallEdges ∧
          ¬db.EndsAt (fun _ row => decide (row.filePath = entry.1) = true) edge :=
        mem_edges_deleteSymbols
      have hends : ∀ P, (db.deleteFile entry.1).EndsAt P edge ↔
          db.EndsAt (fun id row => decide (row.filePath = entry.1) = false ∧ P id row) edge :=
        fun P => endsAt_deleteSymbols
      rw [hedges, hends, and_assoc, ← not_or]
      refine and_congr_right fun _ => not_congr ?_
      constructor
      · rintro (h | h)
        · refine h.mono fun id row _ hfile => ?_
          have hfile' := of_decide_eq_true hfile
          exact ⟨by simp [hfile'], by rw [hfile', hlookup]⟩
        · exact h.mono fun id row _ hvanished =>
            ⟨List.mem_cons_of_mem _ hvanished.2.1, hvanished.2.2⟩
      · rintro ⟨id, row, hend, hrow, hmem, hnone⟩
        by_cases hfile : row.filePath = entry.1
        · exact .inl ⟨id, row, hend, hrow, by simpa using hfile⟩
        · rw [List.map_cons, List.mem_cons] at hmem
          exact .inr ⟨id, row, hend, hrow, by simpa using hfile, hmem.resolve_left hfile, hnone⟩
    | some hash =>
      have hsame : ∀ mid : Database, mid = db ∨ mid = db.updateFile entry.1 (FileRow.changed hash) →
          (edge ∈ mid.lspCallEdges ↔ edge ∈ db.lspCallEdges) ∧
            ∀ P, mid.EndsAt P edge ↔ db.EndsAt P edge := by
        rintro mid (rfl | rfl)
        · exact ⟨.rfl, fun _ => .rfl⟩
        · exact ⟨.rfl, fun _ => .rfl⟩
      obtain ⟨hedges, hends⟩ := hsame (if hash = entry.2 then db
        else db.updateFile entry.1 (FileRow.changed hash)) (by split <;> simp)
      rw [hedges, hends]
      refine and_congr_right fun _ => not_congr ⟨fun h => h.mono ?_, fun h => h.mono ?_⟩
      · exact fun id row _ hvanished => ⟨List.mem_cons_of_mem _ hvanished.1, hvanished.2⟩
      · grind

theorem mem_edges_reconcile (w : Walker) :
    edge ∈ (db.reconcile w found).lspCallEdges ↔ edge ∈ db.lspCallEdges ∧
      ¬db.EndsAt (fun _ row => found.lookup row.filePath = none) edge := by
  have hinsert : ∀ (files : List (String × Bytes)) (mid : Database),
      (files.foldl (insertNewDiskFile w) mid).lspCallEdges = mid.lspCallEdges := by
    intro files mid
    refine foldl_keeps (I := fun next : Database => next.lspCallEdges = mid.lspCallEdges)
      (fun next file _ hnext => ?_) rfl
    exact hnext
  have hnew : (db.reconcile w found).lspCallEdges =
      ((db.indexedFiles.entries.map fun entry => (entry.1, entry.2.contentHash)).foldl
        (reconcileDbEntry found) db).lspCallEdges := hinsert _ _
  rw [hnew, mem_edges_foldl_reconcileDbEntry]
  refine and_congr_right fun _ => not_congr ⟨fun h => h.mono fun _ _ _ hrow => hrow.2, fun h => ?_⟩
  refine h.mono fun id row hrow hnone => ⟨?_, hnone⟩
  rw [keys_dbEntries, mem_keys_iff]
  exact file?_of_symbol? hrow

end

def LosesCall (db db' : Database) (file : String) : Prop :=
  ∃ edge ∈ db.lspCallEdges, edge.callerFile = file ∧ edge.source = "lsp" ∧
    edge ∉ db'.lspCallEdges

def Queued (db : Database) (file : String) : Prop :=
  ∀ row, db.file? file = some row → row.lspIndexed = false

def CallsAt (db : Database) (P : String → SymbolRow → Prop) (file : String) : Prop :=
  ∃ edge ∈ db.lspCallEdges, edge.callerFile = file ∧ edge.source = "lsp" ∧ db.EndsAt P edge

theorem losesCall_iff {db db' : Database} {P : String → SymbolRow → Prop}
    (h : ∀ edge, edge ∈ db'.lspCallEdges ↔ edge ∈ db.lspCallEdges ∧ ¬db.EndsAt P edge)
    (file : String) : LosesCall db db' file ↔ db.CallsAt P file := by
  refine exists_congr fun edge => and_congr_right fun hmem => and_congr_right fun _ =>
    and_congr_right fun _ => ?_
  rw [h, not_and, not_not]
  exact ⟨fun hends => hends hmem, fun hends _ => hends⟩

end Database

inductive SymbolRemoval
  | reextract (filePath : String) (newSymbols : List FlatSymbol)
  | deleted (filePath : String)
  | startupCleanup (w : Walker) (disk : Disk)

namespace SymbolRemoval

open Database

/-- The files that lose a call are queued; the new extraction of the symbols of a file lists those
of the other files that do, each once, and none besides. -/
def Requeues (db : Database) : SymbolRemoval → Prop
  | .reextract filePath newSymbols =>
    match db.reextractInChunks filePath newSymbols with
    | (db', none) => ∀ file, file ≠ filePath → LosesCall db db' file → Queued db' file
    | (db', some files) =>
      (∀ file, file ≠ filePath → LosesCall db (db'.applyInvalidationActions files) file →
        Queued (db'.applyInvalidationActions files) file) ∧
        files.Nodup ∧ ∀ file, file ∈ files ↔ file ≠ filePath ∧ LosesCall db db' file
  | .deleted filePath => ∀ file, LosesCall db (db.notify (.deleted filePath)) file →
      Queued (db.notify (.deleted filePath)) file
  | .startupCleanup w disk => ∀ file, LosesCall db (db.startupCleanup w disk) file →
      Queued (db.startupCleanup w disk) file

def DirtyAfter (w : Walker) (disk : Disk) (db : Database) (file : String) : Prop :=
  ∀ hash, (w.walkAndHash disk).lookup file = some hash →
    (w.lspExtensions.any fun ext => like ("%." ++ ext).toList file.toList) = true ∧
      match db.file? file with
      | none => w.isLspCapable file = true
      | some row => hash ≠ row.contentHash ∨ row.lspIndexed = false

/-- No call is lost behind the back of its file: another file that calls a dropped symbol at all
has a call of the server at one, and the other way round; the files that call a symbol of a
vanished file are dirty anyhow. -/
def Propagates (db : Database) : SymbolRemoval → Prop
  | .reextract filePath newSymbols =>
    if ∀ symbol ∈ newSymbols, (db.file? symbol.2.filePath).isSome then
      ∀ file, file ≠ filePath → (db.CallsDropped filePath newSymbols file ↔
        db.CallsAt (Dropped filePath newSymbols) file)
    else ∀ file, file ≠ filePath → db.CallsAt (Dropped filePath newSymbols) file → Queued db file
  | .deleted filePath => ∀ file, file ≠ filePath →
      db.CallsAt (fun _ row => row.filePath = filePath) file → Queued db file
  | .startupCleanup w disk => ∀ file,
      db.CallsAt (fun _ row => (w.walkAndHash disk).lookup row.filePath = none) file →
        DirtyAfter w disk db file

section

variable {db : Database}

theorem queued_of_files {db' : Database} (h : db'.indexedFiles = db.indexedFiles) (file : String) :
    Queued db' file ↔ Queued db file := by
  rw [Queued, Queued, Database.file?, Database.file?, h]

theorem queued_applyInvalidationActions {files : List String} {file : String} (h : file ∈ files) :
    Queued (db.applyInvalidationActions files) file := by
  rw [applyInvalidationActions]
  induction files generalizing db with
  | nil => simp at h
  | cons x files ih =>
    rw [List.foldl_cons]
    by_cases hmem : file ∈ files
    · exact ih hmem
    · obtain rfl := (List.mem_cons.mp h).resolve_right hmem
      refine foldl_keeps (I := fun mid => Queued mid file) (fun mid x hx hmid row hrow => ?_) ?_
      · have hne : file ≠ x := fun heq => hmem (by rw [heq]; exact hx)
        rw [file?_updateFile_of_ne hne] at hrow
        exact hmid row hrow
      · intro row hrow
        rw [file?_updateFile_self] at hrow
        obtain ⟨old, -, rfl⟩ := Option.map_eq_some_iff.mp hrow
        rfl

theorem lspCallEdges_applyInvalidationActions (db : Database) (files : List String) :
    (db.applyInvalidationActions files).lspCallEdges = db.lspCallEdges := by
  refine foldl_keeps (I := fun mid : Database => mid.lspCallEdges = db.lspCallEdges)
    (fun mid x _ hmid => ?_) rfl
  exact hmid

theorem requeues_reextract_iff (db : Database) (filePath : String) (newSymbols : List FlatSymbol) :
    Requeues db (.reextract filePath newSymbols) ↔
      Propagates db (.reextract filePath newSymbols) := by
  obtain ⟨db', hdb'⟩ : ∃ db', (db.reextractInChunks filePath newSymbols).1 = db' := ⟨_, rfl⟩
  have hloses : ∀ file, LosesCall db db' file ↔ db.CallsAt (Dropped filePath newSymbols) file :=
    losesCall_iff fun edge => by rw [← hdb']; exact mem_edges_reextractInChunks
  have hfiles : db'.indexedFiles = db.indexedFiles := by
    rw [← hdb', reextractInChunks_fst]
    exact (sameIndex_reextractSymbols db filePath newSymbols).files
  have hsucceeds : ((db.deleteSymbolsById ((db.symbolIds filePath).filter fun id =>
      id ∉ newSymbols.map Prod.fst)).upsertSymbols newSymbols).2 = true ↔
        ∀ symbol ∈ newSymbols, (db.file? symbol.2.filePath).isSome := by
    rw [upsertSymbols_succeeds_iff, deleteSymbolsById_eq]
    rfl
  by_cases hrows : ∀ symbol ∈ newSymbols, (db.file? symbol.2.filePath).isSome
  · have hresult : db.reextractInChunks filePath newSymbols =
        (db', some (db.findReverseEdgeFiles ((db.symbolIds filePath).filter fun id =>
          id ∉ newSymbols.map Prod.fst) filePath)) := by
      refine Prod.ext hdb' ?_
      rw [reextractInChunks]
      dsimp only
      rw [if_pos (hsucceeds.mpr hrows)]
    rw [Requeues, hresult, Propagates, if_pos hrows]
    have hlisted : ∀ file, (file ∈ db.findReverseEdgeFiles ((db.symbolIds filePath).filter fun id =>
        id ∉ newSymbols.map Prod.fst) filePath ↔ file ≠ filePath ∧ LosesCall db db' file) ↔
          (file ≠ filePath → (db.CallsDropped filePath newSymbols file ↔
            db.CallsAt (Dropped filePath newSymbols) file)) := by
      intro file
      rw [mem_affectedFiles, hloses]
      exact and_congr_right_iff
    constructor
    · rintro ⟨-, -, hexact⟩ file
      exact (hlisted file).mp (hexact file)
    · intro hcalls
      have hexact := fun file => (hlisted file).mpr (hcalls file)
      refine ⟨fun file hne hlost => ?_, nodup_findReverseEdgeFiles db _ filePath, hexact⟩
      refine queued_applyInvalidationActions ((hexact file).mpr ⟨hne, ?_⟩)
      rw [LosesCall, lspCallEdges_applyInvalidationActions] at hlost
      exact hlost
  · have hresult : db.reextractInChunks filePath newSymbols = (db', none) := by
      refine Prod.ext hdb' ?_
      rw [reextractInChunks]
      dsimp only
      rw [if_neg fun hdone => hrows (hsucceeds.mp hdone)]
    rw [Requeues, hresult, Propagates, if_neg hrows]
    refine forall_congr' fun file => forall_congr' fun _ => ?_
    rw [hloses, queued_of_files hfiles]

theorem requeues_deleted_iff (db : Database) (filePath : String) :
    Requeues db (.deleted filePath) ↔ Propagates db (.deleted filePath) := by
  have hloses : ∀ file, LosesCall db (db.notify (.deleted filePath)) file ↔
      db.CallsAt (fun _ row => row.filePath = filePath) file := by
    refine losesCall_iff fun edge => ?_
    have hedges : edge ∈ (db.deleteFile filePath).lspCallEdges ↔ edge ∈ db.lspCallEdges ∧
        ¬db.EndsAt (fun _ row => decide (row.filePath = filePath) = true) edge :=
      mem_edges_deleteSymbols
    simp only [decide_eq_true_eq] at hedges
    exact hedges
  refine forall_congr' fun file => ?_
  rw [hloses]
  by_cases hfile : file = filePath
  · have hgone : Queued (db.notify (.deleted filePath)) file := by
      intro row hrow
      rw [hfile, Database.notify, file?_deleteFile_self] at hrow
      simp at hrow
    exact iff_of_true (fun _ => hgone) (fun hne => absurd hfile hne)
  · have hkept : (db.notify (.deleted filePath)).file? file = db.file? file :=
      file?_deleteFile_of_ne hfile db
    rw [Queued, hkept]
    exact ⟨fun h _ => h, fun h => h hfile⟩

theorem requeues_startupCleanup_iff (db : Database) (w : Walker) (disk : Disk) :
    Requeues db (.startupCleanup w disk) ↔ Propagates db (.startupCleanup w disk) := by
  have hloses : ∀ file, LosesCall db (db.startupCleanup w disk) file ↔
      db.CallsAt (fun _ row => (w.walkAndHash disk).lookup row.filePath = none) file :=
    losesCall_iff fun edge => mem_edges_reconcile w
  refine forall_congr' fun file => ?_
  rw [hloses]
  refine imp_congr_right fun _ => ?_
  rw [Queued, Database.startupCleanup, file?_reconcile (nodup_walkAndHash w disk)]
  cases hlookup : (w.walkAndHash disk).lookup file with
  | none => simp [DirtyAfter, hlookup]
  | some hash =>
    simp only [DirtyAfter, hlookup, Option.map_some, Option.some.injEq, forall_eq']
    rw [Walker.markNonLspCapable]
    split_ifs with hlike
    · rw [and_iff_right hlike]
      cases hrow : db.file? file with
      | none => simp [Walker.newRow]
      | some row =>
        simp only [Option.map_some, Option.getD_some, FileRow.reconciled]
        split_ifs with hsame
        · simp [hsame]
        · simp [hsame, FileRow.changed]
    · exact iff_of_false (by simp) fun h => hlike h.1

end

theorem requeues_iff (db : Database) (op : SymbolRemoval) : Requeues db op ↔ Propagates db op := by
  cases op with
  | reextract filePath newSymbols => exact requeues_reextract_iff db filePath newSymbols
  | deleted filePath => exact requeues_deleted_iff db filePath
  | startupCleanup w disk => exact requeues_startupCleanup_iff db w disk

end SymbolRemoval

def calledAcross : Database :=
  let files := (Database.empty.putFile "a.rs" ⟨[], true, true, false⟩).putFile "b.rs"
    ⟨[], true, true, false⟩
  let symbols := (files.upsertSymbols [("lsp:a.rs:f", ⟨"f", 12, "a.rs", 0, 0, 1, 0, none⟩),
    ("lsp:b.rs:g", ⟨"g", 12, "b.rs", 0, 0, 1, 0, none⟩)]).1
  (Database.executeEach Database.insertEdge symbols
    [⟨"lsp:a.rs:f", "lsp:b.rs:g", "a.rs", "b.rs", "[]", "lsp"⟩]).1

theorem caller_of_deleted_not_requeued :
    ¬SymbolRemoval.Requeues calledAcross (.deleted "b.rs") := by
  intro hrequeues
  have hlost : Database.LosesCall calledAcross (calledAcross.notify (.deleted "b.rs")) "a.rs" :=
    ⟨⟨"lsp:a.rs:f", "lsp:b.rs:g", "a.rs", "b.rs", "[]", "lsp"⟩, by decide, rfl, rfl,
      by decide⟩
  have hmark := hrequeues "a.rs" hlost ⟨[], true, true, false⟩ (by decide)
  exact absurd hmark (by simp)

end SwissArmyHammer.CodeContext
