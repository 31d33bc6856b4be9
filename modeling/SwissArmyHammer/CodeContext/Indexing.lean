import SwissArmyHammer.CodeContext.Callgraph

/-! The tree-sitter indexing pass: what it reads of a file, and what it writes. -/

namespace SwissArmyHammer.CodeContext

structure SemanticChunk where
  startByte : Nat
  endByte : Nat
  symbolPath : String
  deriving DecidableEq

structure ParsedFile where
  source : Bytes
  chunks : List SemanticChunk
  callSites : List CallSite
  deriving DecidableEq

/-- What tree-sitter makes of the content of a file: its chunks and its call sites, none where
there is no grammar for the path or the content is no text. -/
abbrev Grammar := String → Bytes → Option (List SemanticChunk × List CallSite)

/-- The embedding of a text, for a file and the place of the chunk in it; none is a failure. -/
abbrev Embedder := String → Nat → Bytes → Option Bytes

def parseDirtyFile (grammar : Grammar) (filePath : String) (content : Option Bytes) :
    Option ParsedFile :=
  content.bind fun source =>
    (grammar filePath source).map fun parsed => ⟨source, parsed.1, parsed.2⟩

def prepareChunk (filePath : String) (source : Bytes) (chunk : SemanticChunk) : ChunkRow where
  filePath := filePath
  startByte := chunk.startByte
  endByte := chunk.endByte
  startLine := (source.take chunk.startByte).count 10
  endLine := (source.take chunk.endByte).count 10
  text := (source.take chunk.endByte).drop chunk.startByte
  symbolPath := some chunk.symbolPath
  embedding := none

def ParsedFile.prepared (parsed : ParsedFile) (filePath : String) : List ChunkRow :=
  parsed.chunks.map (prepareChunk filePath parsed.source)

def embedFileChunks (embedder : Option Embedder) (filePath : String) (parsed : ParsedFile) :
    List ChunkRow :=
  (parsed.prepared filePath).mapIdx fun i chunk =>
    { chunk with embedding := embedder.bind fun embed => embed filePath i chunk.text }

def allChunksEmbedded (embedder : Option Embedder) (chunks : List ChunkRow) : Bool :=
  embedder.isSome && chunks.all fun chunk => chunk.embedding.isSome

def FileRow.markTsIndexed (embedded : Bool) (row : FileRow) : FileRow :=
  { row with tsIndexed := true, embedded := embedded || row.embedded }

namespace Database

def dirtyFiles (db : Database) : List String :=
  (db.indexedFiles.entries.filter fun entry => !entry.2.tsIndexed).map Prod.fst

def markFileTsIndexed (db : Database) (filePath : String) : Database :=
  db.updateFile filePath (FileRow.markTsIndexed false)

def insertChunks (db : Database) (chunks : List ChunkRow) : Database :=
  chunks.foldl (fun db chunk => (db.insertChunk chunk).getD db) db

def writeParsedFile (embedder : Option Embedder) (db : Database) (filePath : String)
    (parsed : ParsedFile) : Database :=
  let chunks := embedFileChunks embedder filePath parsed
  let written := (db.deleteChunks filePath).insertChunks chunks
  let generated := (written.ensureTsSymbols filePath).generateTsCallEdges filePath parsed.callSites
  (generated.1.writeTsEdges filePath generated.2).updateFile filePath
    (FileRow.markTsIndexed (allChunksEmbedded embedder chunks))

def indexFile (grammar : Grammar) (embedder : Option Embedder) (db : Database)
    (filePath : String) (content : Option Bytes) : Database :=
  match parseDirtyFile grammar filePath content with
  | none => db.markFileTsIndexed filePath
  | some parsed => db.writeParsedFile embedder filePath parsed

end Database

def ChunkRow.unembedded (chunk : ChunkRow) : ChunkRow := { chunk with embedding := none }

section

variable {embedder : Option Embedder} {filePath : String} {parsed : ParsedFile} {chunk : ChunkRow}

theorem filePath_of_mem_embedFileChunks (embedder : Option Embedder) (filePath : String)
    (parsed : ParsedFile) (h : chunk ∈ embedFileChunks embedder filePath parsed) :
    chunk.filePath = filePath := by
  obtain ⟨i, hi, rfl⟩ := List.mem_mapIdx.mp h
  simp [ParsedFile.prepared, prepareChunk]

theorem unembedded_embedFileChunks (embedder : Option Embedder) (filePath : String)
    (parsed : ParsedFile) :
    (embedFileChunks embedder filePath parsed).map ChunkRow.unembedded =
      parsed.prepared filePath := by
  refine List.ext_getElem (by simp [embedFileChunks]) fun i hi hi' => ?_
  simp [embedFileChunks, ChunkRow.unembedded, ParsedFile.prepared, prepareChunk]

end

namespace Database

variable {db : Database} {x filePath : String} {chunks : List ChunkRow}

theorem insertChunk_getD (db : Database) (chunk : ChunkRow) :
    ((db.insertChunk chunk).getD db).indexedFiles = db.indexedFiles ∧
      ((db.insertChunk chunk).getD db).lspSymbols = db.lspSymbols ∧
        ((db.insertChunk chunk).getD db).lspCallEdges = db.lspCallEdges ∧
          ∀ x, ((db.insertChunk chunk).getD db).chunksOf x = db.chunksOf x ++
            if chunk.filePath = x ∧ (db.file? x).isSome then [chunk] else [] := by
  cases hrow : db.file? chunk.filePath with
  | none =>
    rw [insertChunk_eq_none hrow]
    refine ⟨rfl, rfl, rfl, fun x => ?_⟩
    have hno : ¬(chunk.filePath = x ∧ (db.file? x).isSome) := by
      rintro ⟨rfl, hsome⟩
      simp [hrow] at hsome
    rw [if_neg hno, List.append_nil]
    rfl
  | some row =>
    have hsome : (db.insertChunk chunk).isSome := by simp [insertChunk, hrow]
    obtain ⟨next, hnext⟩ := Option.isSome_iff_exists.mp hsome
    obtain ⟨hfiles, hsymbols, hedges, hchunks⟩ := of_insertChunk hnext
    rw [hnext]
    refine ⟨hfiles, hsymbols, hedges, fun x => ?_⟩
    rw [Option.getD_some, hchunks x]
    by_cases hx : chunk.filePath = x
    · rw [hx] at hrow
      simp [hx, hrow]
    · simp [hx]

theorem insertChunks_spec (db : Database) (h : ∀ chunk ∈ chunks, chunk.filePath = filePath) :
    (db.insertChunks chunks).indexedFiles = db.indexedFiles ∧
      (db.insertChunks chunks).lspSymbols = db.lspSymbols ∧
        (db.insertChunks chunks).lspCallEdges = db.lspCallEdges ∧
          ∀ x, (db.insertChunks chunks).chunksOf x = db.chunksOf x ++
            if filePath = x ∧ (db.file? x).isSome then chunks else [] := by
  induction chunks generalizing db with
  | nil => exact ⟨rfl, rfl, rfl, fun x => by simp [insertChunks]⟩
  | cons chunk chunks ih =>
    obtain ⟨hfiles, hsymbols, hedges, hchunks⟩ := insertChunk_getD db chunk
    obtain ⟨ihfiles, ihsymbols, ihedges, ihchunks⟩ :=
      ih ((db.insertChunk chunk).getD db) fun c hc => h c (List.mem_cons_of_mem chunk hc)
    refine ⟨ihfiles.trans hfiles, ihsymbols.trans hsymbols, ihedges.trans hedges, fun x => ?_⟩
    have hfile : ((db.insertChunk chunk).getD db).file? x = db.file? x := by
      rw [file?, hfiles]
      rfl
    have hpath := h chunk List.mem_cons_self
    show (((db.insertChunk chunk).getD db).insertChunks chunks).chunksOf x = _
    rw [ihchunks x, hchunks x, hfile, hpath]
    by_cases hx : filePath = x ∧ (db.file? x).isSome
    · simp [hx]
    · simp [hx]

section

variable {embedder : Option Embedder} {parsed : ParsedFile}

theorem writeParsedFile_written (embedder : Option Embedder) (db : Database) (filePath : String)
    (parsed : ParsedFile) :
    ((db.deleteChunks filePath).insertChunks
      (embedFileChunks embedder filePath parsed)).indexedFiles = db.indexedFiles ∧
      ∀ x, ((db.deleteChunks filePath).insertChunks
        (embedFileChunks embedder filePath parsed)).chunksOf x =
          if x = filePath then
            if (db.file? filePath).isSome then embedFileChunks embedder filePath parsed else []
          else db.chunksOf x := by
  obtain ⟨hfiles, -, -, hchunks⟩ := insertChunks_spec (db.deleteChunks filePath)
    fun chunk => filePath_of_mem_embedFileChunks embedder filePath parsed
  refine ⟨hfiles, fun x => ?_⟩
  rw [hchunks x]
  by_cases hx : x = filePath
  · rw [hx, chunksOf_deleteChunks_self, List.nil_append]
    simp only [true_and]
    rfl
  · rw [if_neg hx, chunksOf_deleteChunks_of_ne hx, if_neg (fun h => hx h.1.symm), List.append_nil]

theorem sameIndex_edges_of_writeParsedFile (db : Database) (filePath : String)
    (callSites : List CallSite) :
    let generated := (db.ensureTsSymbols filePath).generateTsCallEdges filePath callSites
    SameIndex db (generated.1.writeTsEdges filePath generated.2) :=
  ((sameIndex_ensureTsSymbols db filePath).trans
    (sameIndex_generateTsCallEdges _ filePath callSites)).trans (sameIndex_writeTsEdges _ _ _)

theorem writeParsedFile_spec (embedder : Option Embedder) (db : Database) (filePath : String)
    (parsed : ParsedFile) :
    (∀ x, (db.writeParsedFile embedder filePath parsed).file? x =
      if x = filePath then
        (db.file? filePath).map (FileRow.markTsIndexed
          (allChunksEmbedded embedder (embedFileChunks embedder filePath parsed)))
      else db.file? x) ∧
      ∀ x, (db.writeParsedFile embedder filePath parsed).chunksOf x =
        if x = filePath then
          if (db.file? filePath).isSome then embedFileChunks embedder filePath parsed else []
        else db.chunksOf x := by
  obtain ⟨hfiles, hchunks⟩ := writeParsedFile_written embedder db filePath parsed
  have hsame := sameIndex_edges_of_writeParsedFile
    ((db.deleteChunks filePath).insertChunks (embedFileChunks embedder filePath parsed)) filePath
    parsed.callSites
  refine ⟨fun x => ?_, fun x => ?_⟩
  · have hfile := hsame.file? x
    rw [file?, file?, hfiles] at hfile
    by_cases hx : x = filePath
    · rw [if_pos hx, hx, writeParsedFile, file?_updateFile_self]
      rw [hx] at hfile
      exact congrArg _ hfile
    · rw [if_neg hx, writeParsedFile, file?_updateFile_of_ne hx]
      exact hfile
  · exact (hsame.chunksOf x).trans (hchunks x)

end

section

variable {grammar : Grammar} {embedder : Option Embedder} {content : Option Bytes}
  {parsed : ParsedFile}

def marksEmbedded (grammar : Grammar) (embedder : Option Embedder) (filePath : String)
    (content : Option Bytes) : Bool :=
  (parseDirtyFile grammar filePath content).any fun parsed =>
    allChunksEmbedded embedder (embedFileChunks embedder filePath parsed)

theorem file?_indexFile_self (grammar : Grammar) (embedder : Option Embedder) (db : Database)
    (filePath : String) (content : Option Bytes) :
    (db.indexFile grammar embedder filePath content).file? filePath =
      (db.file? filePath).map
        (FileRow.markTsIndexed (marksEmbedded grammar embedder filePath content)) := by
  rw [indexFile, marksEmbedded]
  cases parseDirtyFile grammar filePath content with
  | none => exact file?_updateFile_self db filePath _
  | some parsed =>
    have hfile := (writeParsedFile_spec embedder db filePath parsed).1 filePath
    rw [if_pos rfl] at hfile
    exact hfile

theorem file?_indexFile_of_ne (h : x ≠ filePath) :
    (db.indexFile grammar embedder filePath content).file? x = db.file? x := by
  rw [indexFile]
  cases parseDirtyFile grammar filePath content with
  | none => exact file?_updateFile_of_ne h db _
  | some parsed =>
    have hfile := (writeParsedFile_spec embedder db filePath parsed).1 x
    rw [if_neg h] at hfile
    exact hfile

theorem chunksOf_indexFile_of_ne (h : x ≠ filePath) :
    (db.indexFile grammar embedder filePath content).chunksOf x = db.chunksOf x := by
  rw [indexFile]
  cases parseDirtyFile grammar filePath content with
  | none => rfl
  | some parsed =>
    have hchunks := (writeParsedFile_spec embedder db filePath parsed).2 x
    rw [if_neg h] at hchunks
    exact hchunks

theorem chunksOf_indexFile_of_parsed
    (hparsed : parseDirtyFile grammar filePath content = some parsed)
    (hrow : (db.file? filePath).isSome) :
    (db.indexFile grammar embedder filePath content).chunksOf filePath =
      embedFileChunks embedder filePath parsed := by
  have hchunks := (writeParsedFile_spec embedder db filePath parsed).2 filePath
  rw [if_pos rfl, if_pos hrow] at hchunks
  rw [indexFile, hparsed]
  exact hchunks

theorem chunksOf_indexFile_of_unparsed (hparsed : parseDirtyFile grammar filePath content = none)
    (x : String) :
    (db.indexFile grammar embedder filePath content).chunksOf x = db.chunksOf x := by
  rw [indexFile, hparsed]
  rfl

end

end Database

end SwissArmyHammer.CodeContext
