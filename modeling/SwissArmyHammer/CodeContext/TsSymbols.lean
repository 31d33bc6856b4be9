import SwissArmyHammer.CodeContext.Workspace

/-! The synthetic symbols of a file against its chunks, right after a pass has written both. -/

namespace SwissArmyHammer.CodeContext

open Concurrency Database

def isTsId (id : String) : Bool := "ts:".toList.isPrefixOf id.toList

@[simp] theorem isTsId_tsSymbolId (filePath symbolPath : String) :
    isTsId (tsSymbolId filePath symbolPath) = true := by
  simp [isTsId, tsSymbolId]

@[simp] theorem isTsId_lspSymbolId (filePath qualifiedPath : String) :
    isTsId (lspSymbolId filePath qualifiedPath) = false := by
  simp [isTsId, lspSymbolId, List.isPrefixOf]

theorem tsSymbolId_inj {filePath q q' : String}
    (h : tsSymbolId filePath q = tsSymbolId filePath q') : q = q' := by
  have hlist := congrArg String.toList h
  simp only [tsSymbolId, String.toList_append] at hlist
  exact String.toList_inj.mp (List.append_cancel_left hlist)

section

variable {db db' : Database} {chunks : List ChunkRow} {chunk : ChunkRow} {filePath : String}

structure Extends (chunks : List ChunkRow) (db db' : Database) : Prop where
  kept : ∀ id row, db.symbol? id = some row → db'.symbol? id = some row
  new : ∀ id row, db'.symbol? id = some row → db.symbol? id = some row ∨
    db.symbol? id = none ∧ ∃ chunk ∈ chunks, ∃ path, chunk.symbolPath = some path ∧
      id = tsSymbolId chunk.filePath path ∧ row = tsSymbol chunk path

theorem Extends.refl (chunks : List ChunkRow) (db : Database) : Extends chunks db db :=
  ⟨fun _ _ h => h, fun _ _ h => .inl h⟩

theorem Extends.trans {a b c : Database} (h : Extends chunks a b) (h' : Extends chunks b c) :
    Extends chunks a c := by
  refine ⟨fun id row hrow => h'.kept id row (h.kept id row hrow), fun id row hrow => ?_⟩
  rcases h'.new id row hrow with hold | ⟨hnone, hnew⟩
  · exact h.new id row hold
  · refine .inr ⟨?_, hnew⟩
    rw [Option.eq_none_iff_forall_ne_some]
    intro old hold
    rw [h.kept id old hold] at hnone
    exact absurd hnone (by simp)

theorem extends_ensureTsSymbol (hmem : chunk ∈ chunks) (h : db.ensureTsSymbol chunk = some db') :
    Extends chunks db db' := by
  rw [ensureTsSymbol] at h
  split at h
  · obtain rfl := Option.some.inj h
    exact .refl chunks db
  · rename_i path hpath
    have hafter := of_insertSymbolOrIgnore h
    refine ⟨fun id row hrow => ?_, fun id row hrow => ?_⟩
    · grind
    · rw [hafter id] at hrow
      by_cases hid : id = tsSymbolId chunk.filePath path
      · rw [if_pos hid, ← hid] at hrow
        cases hold : db.symbol? id with
        | none =>
          rw [hold, Option.some.injEq] at hrow
          exact .inr ⟨rfl, chunk, hmem, path, hpath, hid, hrow.symm⟩
        | some old =>
          rw [hold] at hrow
          exact .inl hrow
      · rw [if_neg hid] at hrow
        exact .inl hrow

theorem Extends.mono {more : List ChunkRow} (h : Extends chunks db db') (hsub : chunks ⊆ more) :
    Extends more db db' := by
  refine ⟨h.kept, fun id row hrow => (h.new id row hrow).imp_right fun hnew => ?_⟩
  obtain ⟨hnone, chunk, hmem, hchunk⟩ := hnew
  exact ⟨hnone, chunk, hsub hmem, hchunk⟩

theorem extends_ensureTsSymbols (db : Database) (filePath : String) :
    Extends (db.chunksOf filePath) db (db.ensureTsSymbols filePath) :=
  executeEach_keeps (fun _ _ _ hmem hnext h => h.trans (extends_ensureTsSymbol hmem hnext))
    (.refl _ db)

theorem extends_generateTsCallEdges (db : Database) (filePath : String)
    (callSites : List CallSite) :
    Extends db.tsChunks db (db.generateTsCallEdges filePath callSites).1 := by
  have hboth := generateTsCallEdges_keeps
    (I := fun mid => SameIndex db mid ∧ Extends db.tsChunks db mid)
    (fun mid path h => ⟨h.1.trans (sameIndex_ensureTsSymbols mid path), h.2.trans (by
      refine (extends_ensureTsSymbols mid path).mono ?_
      rw [chunksOf, h.1.chunks]
      exact List.filter_subset_self _)⟩)
    filePath callSites ⟨.refl db, .refl db.tsChunks db⟩
  exact hboth.2

theorem symbol?_ensureTsSymbols (db : Database) (filePath : String) :
    ∀ chunk ∈ db.chunksOf filePath, ∀ path, chunk.symbolPath = some path →
      ((db.ensureTsSymbols filePath).symbol? (tsSymbolId chunk.filePath path)).isSome := by
  refine executeEach_establishes (I := SameIndex db) (fun (chunk : ChunkRow) mid => ∀ path,
    chunk.symbolPath = some path → (mid.symbol? (tsSymbolId chunk.filePath path)).isSome)
    (fun mid chunk hmem hmid => ?_) (fun mid next x y hy hnext hx path hpath => ?_) (.refl db)
  · have hrow : (mid.file? chunk.filePath).isSome := by
      rw [hmid.file?]
      exact db.file_of_chunk chunk (List.mem_filter.mp hmem).1
    have hsome : (mid.ensureTsSymbol chunk).isSome := by
      rw [ensureTsSymbol]
      split
      · rfl
      · exact insertSymbolOrIgnore_isSome hrow
    obtain ⟨next, hnext⟩ := Option.isSome_iff_exists.mp hsome
    refine ⟨next, hnext, hmid.trans (sameIndex_ensureTsSymbol hnext), fun path hpath => ?_⟩
    rw [ensureTsSymbol, hpath] at hnext
    rw [of_insertSymbolOrIgnore hnext, if_pos rfl]
    rfl
  · obtain ⟨row, hrow⟩ := Option.isSome_iff_exists.mp (hx path hpath)
    exact Option.isSome_of_eq_some ((extends_ensureTsSymbol hy hnext).kept _ row hrow)

end

section

variable {db : Database} {embedder : Option Embedder} {filePath : String} {parsed : ParsedFile}

theorem symbol?_of_lspSymbols {db db' : Database} (h : db'.lspSymbols = db.lspSymbols)
    (id : String) : db'.symbol? id = db.symbol? id := congrArg (IndexMap.get? · id) h

theorem symbol?_writeTsEdges (db : Database) (callerFile : String) (edges : List CallEdge)
    (id : String) : (db.writeTsEdges callerFile edges).symbol? id = db.symbol? id :=
  symbol?_of_lspSymbols (lspSymbols_executeEach_insertEdge _ edges) id

def OwnSymbol (db db' : Database) (filePath path : String) : Prop :=
  ∃ row, db'.symbol? (tsSymbolId filePath path) = some row ∧
    (db.symbol? (tsSymbolId filePath path) = some row ∨
      ∃ same ∈ db'.chunksOf filePath, same.symbolPath = some path ∧ row = tsSymbol same path)

theorem symbol?_writeParsedFile (embedder : Option Embedder) (db : Database) (filePath : String)
    (parsed : ParsedFile) :
    Extends (db.writeParsedFile embedder filePath parsed).tsChunks db
        (db.writeParsedFile embedder filePath parsed) ∧
      ∀ chunk ∈ (db.writeParsedFile embedder filePath parsed).chunksOf filePath, ∀ path,
        chunk.symbolPath = some path →
          OwnSymbol db (db.writeParsedFile embedder filePath parsed) filePath path := by
  obtain ⟨-, hsymbols, -, -⟩ := insertChunks_spec (db.deleteChunks filePath)
    fun chunk => filePath_of_mem_embedFileChunks embedder filePath parsed
  obtain ⟨written, hwritten⟩ : ∃ written, written = (db.deleteChunks filePath).insertChunks
    (embedFileChunks embedder filePath parsed) := ⟨_, rfl⟩
  rw [← hwritten] at hsymbols
  have hsame := sameIndex_edges_of_writeParsedFile written filePath parsed.callSites
  have hensured := extends_ensureTsSymbols written filePath
  have hgenerated := extends_generateTsCallEdges (written.ensureTsSymbols filePath) filePath
    parsed.callSites
  rw [(sameIndex_ensureTsSymbols written filePath).chunks] at hgenerated
  have hall := (hensured.mono (List.filter_subset_self _)).trans hgenerated
  have hafter : ∀ id, (db.writeParsedFile embedder filePath parsed).symbol? id =
      ((written.ensureTsSymbols filePath).generateTsCallEdges filePath
        parsed.callSites).1.symbol? id := by
    intro id
    rw [hwritten]
    exact symbol?_writeTsEdges _ filePath _ id
  have hbefore : ∀ id, written.symbol? id = db.symbol? id :=
    fun id => symbol?_of_lspSymbols hsymbols id
  have hchunks : (db.writeParsedFile embedder filePath parsed).tsChunks = written.tsChunks := by
    rw [hwritten] at hsame ⊢
    exact hsame.chunks
  constructor
  · rw [hchunks]
    refine ⟨fun id row hrow => ?_, fun id row hrow => ?_⟩
    · rw [hafter]
      exact hall.kept id row ((hbefore id).trans hrow)
    · rw [hafter] at hrow
      have hnew := hall.new id row hrow
      rw [hbefore] at hnew
      exact hnew
  · intro chunk hmem path hpath
    rw [chunksOf, hchunks] at hmem
    have hfile : chunk.filePath = filePath := of_decide_eq_true (List.mem_filter.mp hmem).2
    have hsome := symbol?_ensureTsSymbols written filePath chunk hmem path hpath
    rw [hfile] at hsome
    obtain ⟨row, hrow⟩ := Option.isSome_iff_exists.mp hsome
    refine ⟨row, (hafter _).trans (hgenerated.kept _ row hrow), ?_⟩
    rcases hensured.new _ row hrow with hold | ⟨-, same, hsamemem, other, hother, hid, rfl⟩
    · exact .inl ((hbefore _).symm.trans hold)
    · have hsamefile : same.filePath = filePath := of_decide_eq_true (List.mem_filter.mp hsamemem).2
      rw [hsamefile] at hid
      obtain rfl := tsSymbolId_inj hid
      refine .inr ⟨same, ?_, hother, rfl⟩
      rw [chunksOf, hchunks]
      exact hsamemem

end

section

def TsNamed (db : Database) : Prop :=
  ∀ id row, db.symbol? id = some row → isTsId id = true → ∃ path,
    id = tsSymbolId row.filePath path ∧ row.name = String.ofList (symbolName path.toList)

variable {db db' : Database}

theorem TsNamed.of_kept (h : TsNamed db)
    (hkept : ∀ id row, db'.symbol? id = some row → isTsId id = true → db.symbol? id = some row) :
    TsNamed db' :=
  fun id row hrow hts => h id row (hkept id row hrow hts) hts

theorem TsNamed.extends {chunks : List ChunkRow} (h : TsNamed db) (hnew : Extends chunks db db') :
    TsNamed db' := by
  intro id row hrow hts
  rcases hnew.new id row hrow with hold | ⟨-, chunk, -, path, -, hid, rfl⟩
  · exact h id row hold hts
  · exact ⟨path, hid, rfl⟩

theorem tsNamed_notify (h : TsNamed db) (event : FileEvent) : TsNamed (db.notify event) := by
  have hdirty : ∀ path, TsNamed (db.markDirty path) := by
    intro path
    rw [markDirty, upsertFile]
    split <;> exact h
  cases event with
  | created path => exact hdirty path
  | modified path => exact hdirty path
  | deleted path => exact h.of_kept fun id row hrow _ => of_symbol?_deleteFile hrow

theorem tsNamed_reconcile (h : TsNamed db) (w : Walker) (found : List (String × Bytes)) :
    TsNamed (db.reconcile w found) :=
  reconcile_keeps (fun _ _ h => h.of_kept fun _ _ hrow _ => of_symbol?_deleteFile hrow)
    (fun _ _ _ h => h) (fun _ _ _ _ h => h) (fun _ h => h) h

theorem tsNamed_indexFile (h : TsNamed db) (grammar : Grammar) (embedder : Option Embedder)
    (path : String) (content : Option Bytes) :
    TsNamed (db.indexFile grammar embedder path content) := by
  rw [indexFile]
  split
  · exact h
  · exact h.extends (symbol?_writeParsedFile embedder db path _).1

theorem tsNamed_collectAndPersistSymbols (h : TsNamed db) (path : String)
    (symbols : List DocumentSymbol) : TsNamed (db.collectAndPersistSymbols path symbols).1 := by
  have hreextract : TsNamed (db.reextractSymbols path (flattenSymbols path symbols)).1 := by
    refine executeEach_keeps (fun mid next flat hmem hnext hmid => ?_)
      (h.of_kept fun id row hrow _ => of_symbol?_deleteSymbols hrow)
    refine hmid.of_kept fun id row hrow hts => ?_
    obtain ⟨-, qualified, hid⟩ := of_mem_flattenSymbols hmem
    rw [of_upsertSymbol hnext, if_neg] at hrow
    · exact hrow
    · rintro rfl
      rw [hid] at hts
      exact absurd hts (by simp)
  simp only [collectAndPersistSymbols]
  split <;> exact hreextract

theorem tsNamed_advance {t : Tools} {s : Workspace} {r : Call} (h : TsNamed s.db) :
    TsNamed (Call.advance t s r).1.db := by
  cases r with
  | edit path file => exact h
  | notify event => exact tsNamed_notify h event
  | startupCleanup => exact h
  | hashFiles todo found =>
    cases todo with
    | nil => exact tsNamed_reconcile h t.toWalker found
    | cons path todo => exact h
  | queryDirty embedder => exact h
  | readFile embedder todo => cases todo <;> exact h
  | writeFile embedder path content todo =>
    exact tsNamed_indexFile h t.grammar embedder path content
  | lspRead path answer =>
    rw [Call.advance_lspRead]
    exact h
  | lspSymbols path content calls => exact tsNamed_collectAndPersistSymbols h path _
  | lspEdges path calls actions =>
    show TsNamed (s.db.collectAndPersistCallEdges path calls)
    rw [collectAndPersistCallEdges]
    split
    · exact h
    · refine h.of_kept fun id row hrow _ => ?_
      rw [writeEdges, symbol?_of_lspSymbols (lspSymbols_executeEach_insertEdge _ _)] at hrow
      exact hrow
  | lspRefresh actions =>
    refine foldl_keeps (I := TsNamed) (fun mid path _ hmid => ?_) h
    exact hmid.of_kept fun _ _ hrow _ => hrow
  | lspMarkFailed path => exact h

theorem tsNamed_run {t : Tools} {disk : Disk} {s : Workspace} {calls : List Call}
    {ok : Workspace → Call → List Call → Prop}
    (h : Run (indexProtocol t) ok (.empty disk, []) (s, calls)) : TsNamed s.db :=
  Run.invariant_state (I := fun s : Workspace => TsNamed s.db)
    (fun _ _ _ _ hI => tsNamed_advance hI) h
    fun id _ hrow => absurd ((symbol?_empty id).symm.trans hrow) (by simp)

end

/-- The synthetic symbols of a file are one for each symbol path of its chunks, with the lines of
a chunk and the last component for a name, and no edge of the heuristic is at another. -/
structure Mirrors (db : Database) (filePath : String) : Prop where
  symbol_of_chunk : ∀ chunk ∈ db.chunksOf filePath, ∀ path, chunk.symbolPath = some path →
    ∃ row, db.symbol? (tsSymbolId filePath path) = some row ∧ row.filePath = filePath ∧
      row.name = String.ofList (lastComponent path.toList) ∧
        ∃ same ∈ db.chunksOf filePath, same.symbolPath = some path ∧
          row.startLine = same.startLine ∧ row.endLine = same.endLine
  chunk_of_symbol : ∀ id row, db.symbol? id = some row → row.filePath = filePath →
    isTsId id = true → ∃ chunk ∈ db.chunksOf filePath, ∃ path,
      chunk.symbolPath = some path ∧ id = tsSymbolId filePath path
  chunk_of_edge : ∀ edge ∈ db.lspCallEdges, edge.source = "treesitter" → ∀ path,
    edge.callerId = tsSymbolId filePath path ∨ edge.calleeId = tsSymbolId filePath path →
      (∃ chunk ∈ db.chunksOf filePath, chunk.symbolPath = some path) ∨
        ∃ row, db.symbol? (tsSymbolId filePath path) = some row ∧ row.filePath ≠ filePath

/-- The arithmetic of the statement finds the name: there is one component, or those before the
last have one character in all, or none has any. -/
def NameFound (path : String) : Prop :=
  (components path.toList).length = 1 ∨ (components path.toList).dropLast.flatten.length = 1 ∨
    (components path.toList).flatten = []

/-- The symbol paths of the chunks have names that are found and ids that are not of another file,
and the synthetic symbols that the file has are of the chunks, at their lines. -/
structure KeepsSymbols (db : Database) (filePath : String) (chunks : List ChunkRow) : Prop where
  names : ∀ chunk ∈ chunks, ∀ path, chunk.symbolPath = some path → NameFound path
  rows : ∀ id row, db.symbol? id = some row → row.filePath = filePath → isTsId id = true →
    ∃ chunk ∈ chunks, ∃ path, chunk.symbolPath = some path ∧ id = tsSymbolId filePath path ∧
      row.startLine = chunk.startLine ∧ row.endLine = chunk.endLine
  free : ∀ chunk ∈ chunks, ∀ path, chunk.symbolPath = some path → ∀ row,
    db.symbol? (tsSymbolId filePath path) = some row → row.filePath = filePath

section

variable {db db' : Database} {filePath : String}

theorem name_iff (path : String) :
    String.ofList (symbolName path.toList) = String.ofList (lastComponent path.toList) ↔
      NameFound path := by
  rw [String.ofList_inj]
  exact symbolName_eq_lastComponent path.toList

theorem Mirrors.of_symbols
    (hchunk : ∀ chunk ∈ db.chunksOf filePath, ∀ path, chunk.symbolPath = some path →
      ∃ row, db.symbol? (tsSymbolId filePath path) = some row ∧ row.filePath = filePath ∧
        row.name = String.ofList (lastComponent path.toList) ∧
          ∃ same ∈ db.chunksOf filePath, same.symbolPath = some path ∧
            row.startLine = same.startLine ∧ row.endLine = same.endLine)
    (hsymbol : ∀ id row, db.symbol? id = some row → row.filePath = filePath →
      isTsId id = true → ∃ chunk ∈ db.chunksOf filePath, ∃ path,
        chunk.symbolPath = some path ∧ id = tsSymbolId filePath path) : Mirrors db filePath := by
  refine ⟨hchunk, hsymbol, fun edge hedge _ path hend => ?_⟩
  have hends := db.ends_of_edge edge hedge
  have hsome : (db.symbol? (tsSymbolId filePath path)).isSome := by
    rcases hend with hcaller | hcallee
    · rw [← hcaller]
      exact hends.1
    · rw [← hcallee]
      exact hends.2
  obtain ⟨row, hrow⟩ := Option.isSome_iff_exists.mp hsome
  by_cases hfile : row.filePath = filePath
  · obtain ⟨chunk, hmem, other, hother, hid⟩ :=
      hsymbol _ row hrow hfile (isTsId_tsSymbolId filePath path)
    rw [← tsSymbolId_inj hid] at hother
    exact .inl ⟨chunk, hmem, hother⟩
  · exact .inr ⟨row, hrow, hfile⟩

theorem Mirrors.name (h : Mirrors db filePath) (chunk : ChunkRow) {path : String}
    (hmem : chunk ∈ db.chunksOf filePath) (hpath : chunk.symbolPath = some path) :
    (db.symbol? (tsSymbolId filePath path)).map SymbolRow.name =
      some (String.ofList (lastComponent path.toList)) := by
  obtain ⟨row, hrow, -, hname, -⟩ := h.symbol_of_chunk chunk hmem path hpath
  rw [hrow, Option.map_some, hname]

theorem mirrors_iff_keepsSymbols (hnamed : TsNamed db) (hextends : Extends db'.tsChunks db db')
    (hown : ∀ chunk ∈ db'.chunksOf filePath, ∀ path, chunk.symbolPath = some path →
      OwnSymbol db db' filePath path) :
    Mirrors db' filePath ↔ KeepsSymbols db filePath (db'.chunksOf filePath) := by
  have hnamed' : TsNamed db' := hnamed.extends hextends
  constructor
  · intro hmirror
    refine ⟨fun chunk hmem path hpath => ?_, fun id row hrow hfile hts => ?_,
      fun chunk hmem path hpath row hrow => ?_⟩
    · obtain ⟨row, hrow, hfile, hname, -⟩ := hmirror.symbol_of_chunk chunk hmem path hpath
      obtain ⟨other, hid, hnamed⟩ := hnamed' _ row hrow (isTsId_tsSymbolId filePath path)
      rw [hfile] at hid
      rw [← tsSymbolId_inj hid, hname] at hnamed
      exact (name_iff path).mp hnamed.symm
    · have hrow' := hextends.kept id row hrow
      obtain ⟨chunk, hmem, path, hpath, hid⟩ := hmirror.chunk_of_symbol id row hrow' hfile hts
      obtain ⟨row', hsame, -, -, same, hsamemem, hsamepath, hstart, hend⟩ :=
        hmirror.symbol_of_chunk chunk hmem path hpath
      rw [← hid, hrow', Option.some.injEq] at hsame
      rw [← hsame] at hstart hend
      exact ⟨same, hsamemem, path, hsamepath, hid, hstart, hend⟩
    · obtain ⟨row', hrow', hfile, -⟩ := hmirror.symbol_of_chunk chunk hmem path hpath
      rw [hextends.kept _ row hrow, Option.some.injEq] at hrow'
      rw [hrow']
      exact hfile
  · intro hkeeps
    refine Mirrors.of_symbols (fun chunk hmem path hpath => ?_) (fun id row hrow hfile hts => ?_)
    · obtain ⟨row, hrow, hcases⟩ := hown chunk hmem path hpath
      have hnamefound := (name_iff path).mpr (hkeeps.names chunk hmem path hpath)
      rcases hcases with hold | ⟨same, hsamemem, hsamepath, rfl⟩
      · have hfile := hkeeps.free chunk hmem path hpath row hold
        obtain ⟨same, hsamemem, other, hother, hid, hlines⟩ :=
          hkeeps.rows _ row hold hfile (isTsId_tsSymbolId filePath path)
        obtain ⟨named, hid', hname⟩ := hnamed _ row hold (isTsId_tsSymbolId filePath path)
        rw [hfile] at hid'
        rw [← tsSymbolId_inj hid'] at hname
        rw [← tsSymbolId_inj hid] at hother
        exact ⟨row, hrow, hfile, hname.trans hnamefound, same, hsamemem, hother, hlines⟩
      · have hfile : same.filePath = filePath :=
          of_decide_eq_true (List.mem_filter.mp hsamemem).2
        exact ⟨_, hrow, hfile, hnamefound, same, hsamemem, hsamepath, rfl, rfl⟩
    · rcases hextends.new id row hrow with hold | ⟨-, chunk, hmem, path, hpath, hid, rfl⟩
      · obtain ⟨chunk, hmem, path, hpath, hid, -⟩ := hkeeps.rows id row hold hfile hts
        exact ⟨chunk, hmem, path, hpath, hid⟩
      · have hchunk : chunk.filePath = filePath := hfile
        rw [hchunk] at hid
        exact ⟨chunk, List.mem_filter.mpr ⟨hmem, by simpa using hchunk⟩, path, hpath, hid⟩

theorem keepsSymbols_unembedded {chunks : List ChunkRow} :
    KeepsSymbols db filePath (chunks.map ChunkRow.unembedded) ↔
      KeepsSymbols db filePath chunks := by
  constructor
  · intro h
    refine ⟨fun chunk hmem => h.names chunk.unembedded (List.mem_map_of_mem hmem),
      fun id row hrow hfile hts => ?_,
      fun chunk hmem => h.free chunk.unembedded (List.mem_map_of_mem hmem)⟩
    obtain ⟨_, hmem, path, hpath, hlines⟩ := h.rows id row hrow hfile hts
    obtain ⟨plain, hplain, rfl⟩ := List.mem_map.mp hmem
    exact ⟨plain, hplain, path, hpath, hlines⟩
  · intro h
    refine ⟨fun chunk hmem => ?_, fun id row hrow hfile hts => ?_, fun chunk hmem => ?_⟩
    · obtain ⟨plain, hplain, rfl⟩ := List.mem_map.mp hmem
      exact h.names plain hplain
    · obtain ⟨chunk, hmem, path, hpath, hlines⟩ := h.rows id row hrow hfile hts
      exact ⟨_, List.mem_map_of_mem hmem, path, hpath, hlines⟩
    · obtain ⟨plain, hplain, rfl⟩ := List.mem_map.mp hmem
      exact h.free plain hplain

theorem mirrors_of_none (h : db.file? filePath = none) : Mirrors db filePath := by
  refine Mirrors.of_symbols (fun chunk hmem => ?_) (fun id row hrow hfile _ => ?_)
  · rw [chunksOf_eq_nil h] at hmem
    exact absurd hmem (by simp)
  · have hsome := file?_of_symbol? hrow
    rw [hfile, h] at hsome
    exact absurd hsome (by simp)

end

theorem ts_symbols_mirror_iff {t : Tools} {disk : Disk} {s : Workspace} {calls : List Call}
    {content : Option Bytes} {path : String} {parsed : ParsedFile}
    (h : Run (indexProtocol t) (fun _ _ _ => True) (.empty disk, []) (s, calls))
    (hparsed : parseDirtyFile t.grammar path content = some parsed) (embedder : Option Embedder) :
    Mirrors (s.indexFile t embedder path content).db path ↔
      s.db.file? path = none ∨ KeepsSymbols s.db path (parsed.prepared path) := by
  have hafter : (s.indexFile t embedder path content).db =
      s.db.writeParsedFile embedder path parsed := by
    rw [Workspace.indexFile, Workspace.db_setDb, Database.indexFile, hparsed]
  cases hrow : s.db.file? path with
  | none =>
    have hnone : (s.db.writeParsedFile embedder path parsed).file? path = none := by
      rw [(writeParsedFile_spec embedder s.db path parsed).1, if_pos rfl, hrow]
      rfl
    rw [hafter]
    exact iff_of_true (mirrors_of_none hnone) (.inl rfl)
  | some row =>
    have hchunks : (s.db.writeParsedFile embedder path parsed).chunksOf path =
        embedFileChunks embedder path parsed := by
      rw [(writeParsedFile_spec embedder s.db path parsed).2, if_pos rfl, hrow]
      rfl
    obtain ⟨hextends, hown⟩ := symbol?_writeParsedFile embedder s.db path parsed
    rw [hafter, mirrors_iff_keepsSymbols (tsNamed_run h) hextends hown, hchunks,
      ← unembedded_embedFileChunks embedder path parsed, keepsSymbols_unembedded]
    simp

def plainName : Tools :=
  { oneChunk with grammar := fun _ source => some ([⟨0, source.length, "f"⟩], []) }

theorem ts_symbols_mirror_plain :
    Mirrors (createdFile.indexFile plainName none "a.rs" (some [1])).db "a.rs" := by
  have hrun : Run (indexProtocol plainName) (fun _ _ _ => True) (.empty .empty, [])
      (createdFile, []) :=
    run_of_play [.start (.edit "a.rs" (some (some [1]))), .advance 0,
      .start (.notify (.created "a.rs")), .advance 0] rfl
  have hparsed : parseDirtyFile plainName.grammar "a.rs" (some [1]) =
      some ⟨[1], [⟨0, 1, "f"⟩], []⟩ := rfl
  have hnone : ∀ id row, createdFile.db.symbol? id ≠ some row := by
    intro id row hrow
    exact absurd (hrow.symm.trans (symbol?_empty id)) (by simp)
  refine (ts_symbols_mirror_iff hrun hparsed none).mpr (.inr ⟨?_, ?_, ?_⟩)
  · intro chunk hmem path hpath
    obtain rfl := List.mem_singleton.mp hmem
    obtain rfl := Option.some.inj hpath
    exact .inl (by decide)
  · exact fun id row hrow => absurd hrow (hnone id row)
  · exact fun _ _ path _ row hrow => absurd hrow (hnone _ row)

def renamed : Tools :=
  { oneChunk with
    grammar := fun _ source =>
      some ([⟨0, source.length, if source = [1] then "a.rs::f" else "a.rs::g"⟩], []) }

def renamedSymbol : List (Move Call) :=
  [.start (.edit "a.rs" (some (some [1]))), .advance 0, .start (.notify (.created "a.rs")),
    .advance 0, .start (.queryDirty none), .advance 0, .advance 0, .advance 0, .advance 0,
    .start (.edit "a.rs" (some (some [2]))), .advance 0, .start (.notify (.modified "a.rs")),
    .advance 0, .start (.queryDirty none), .advance 0, .advance 0, .advance 0]

theorem renamed_symbol_stays :
    ∃ s calls, play (indexProtocol renamed) (.empty .empty, []) renamedSymbol = some (s, calls) ∧
      (s.db.chunksOf "a.rs").map ChunkRow.symbolPath = [some "a.rs::g"] ∧
        (s.db.symbol? "ts:a.rs:a.rs::f").isSome ∧
          (s.db.symbol? "ts:a.rs:a.rs::g").map SymbolRow.name = some "s::g" ∧
            ¬Mirrors s.db "a.rs" := by
  have hplay : (play (indexProtocol renamed) (.empty .empty, []) renamedSymbol).isSome = true := by
    decide
  refine ⟨_, _, (Option.some_get hplay).symm, by decide, by decide,
    by decide, ?_⟩
  intro hmirror
  have hname := hmirror.name ⟨"a.rs", 0, 1, 0, 0, [2], some "a.rs::g", none⟩ (by decide) rfl
  exact absurd hname (by decide)

end SwissArmyHammer.CodeContext
