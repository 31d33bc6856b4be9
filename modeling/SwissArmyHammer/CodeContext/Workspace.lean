import SwissArmyHammer.CodeContext.Cleanup
import SwissArmyHammer.CodeContext.Indexing
import SwissArmyHammer.CodeContext.Invalidation
import SwissArmyHammer.Concurrency.Interleaving

/-! The index beside the disk: the watcher, the cleanup, the indexing passes and the language
server workers, cut into their reads of the disk and their locks of the database. -/

namespace SwissArmyHammer.CodeContext

open Concurrency

structure Tools extends Walker where
  grammar : Grammar
  documentSymbols : String → Bytes → List DocumentSymbol

def chunkFile (t : Tools) (path : String) (content : Bytes) : Option (List ChunkRow) :=
  (parseDirtyFile t.grammar path (some content)).map fun parsed => parsed.prepared path

def chunkRows (t : Tools) (path : String) (content : Option Bytes) : List ChunkRow :=
  (content.bind (chunkFile t path)).getD []

/-- What a pass leaves of a file: the chunks of the content that it has read, or, where it cannot
parse it, those that were there. -/
def chunksLeft (t : Tools) (db : Database) (path : String) (content : Option Bytes) :
    List ChunkRow :=
  (content.bind (chunkFile t path)).getD ((db.chunksOf path).map ChunkRow.unembedded)

namespace Database

variable {t : Tools} {db : Database} {embedder : Option Embedder} {path : String}
  {content : Option Bytes}

theorem bind_chunkFile (t : Tools) (path : String) (content : Option Bytes) :
    content.bind (chunkFile t path) =
      (parseDirtyFile t.grammar path content).map fun parsed => parsed.prepared path := by
  cases content <;> rfl

theorem unembedded_chunksOf_indexFile (h : (db.file? path).isSome) :
    ((db.indexFile t.grammar embedder path content).chunksOf path).map ChunkRow.unembedded =
      chunksLeft t db path content := by
  rw [chunksLeft, bind_chunkFile]
  cases hparsed : parseDirtyFile t.grammar path content with
  | none =>
    rw [chunksOf_indexFile_of_unparsed hparsed]
    rfl
  | some parsed =>
    rw [chunksOf_indexFile_of_parsed hparsed h, unembedded_embedFileChunks]
    rfl

end Database

inductive FileEvent where
  | created (path : String)
  | modified (path : String)
  | deleted (path : String)
  deriving DecidableEq

def FileEvent.path : FileEvent → String
  | .created path | .modified path | .deleted path => path

namespace Database

def markDirty (db : Database) (path : String) : Database :=
  db.upsertFile path ⟨[], false, false, false⟩ fun row =>
    { row with tsIndexed := false, lspIndexed := false }

def notify (db : Database) : FileEvent → Database
  | .deleted path => db.deleteFile path
  | .created path | .modified path => db.markDirty path

end Database

/-- The history of a file, which the index does not keep: how many of its edits are still to be
notified, the contents that its chunks and its symbols were computed from (none where it has no
such rows), and what the pass read that marked it last. -/
structure Provenance where
  unnotified : Nat
  chunksFrom : Option Bytes
  symbolsFrom : Option Bytes
  marked : Option Bytes
  deriving DecidableEq

structure Workspace where
  disk : Disk
  db : Database
  provenance : String → Provenance

namespace Workspace

def empty (disk : Disk) : Workspace := ⟨disk, .empty, fun _ => ⟨0, none, none, none⟩⟩

/-- The rows of a file go with its row in `indexed_files`. -/
def setDb (s : Workspace) (db : Database) : Workspace where
  disk := s.disk
  db := db
  provenance := fun path =>
    if (db.file? path).isSome then s.provenance path
    else { s.provenance path with chunksFrom := none, symbolsFrom := none }

def note (s : Workspace) (path : String) (f : Provenance → Provenance) : Workspace :=
  { s with provenance := Function.update s.provenance path (f (s.provenance path)) }

def edit (s : Workspace) (path : String) (file : Option (Option Bytes)) : Workspace :=
  let disk := match file with
    | none => s.disk.shiftRemove path
    | some content => s.disk.insert path content
  ({ s with disk := disk }).note path fun p => { p with unnotified := p.unnotified + 1 }

def notify (s : Workspace) (event : FileEvent) : Workspace :=
  (s.setDb (s.db.notify event)).note event.path fun p => { p with unnotified := p.unnotified - 1 }

def indexFile (t : Tools) (embedder : Option Embedder) (s : Workspace) (path : String)
    (content : Option Bytes) : Workspace :=
  let wrote := (parseDirtyFile t.grammar path content).isSome
  (s.note path fun p =>
    { p with marked := content, chunksFrom := if wrote then content else p.chunksFrom }).setDb
      (s.db.indexFile t.grammar embedder path content)

def persistSymbols (t : Tools) (s : Workspace) (path : String) (content : Bytes) : Workspace :=
  (s.note path fun p => { p with symbolsFrom := some content }).setDb
    (s.db.collectAndPersistSymbols path (t.documentSymbols path content)).1

section

variable {s : Workspace} {path x : String} {db : Database}

@[simp] theorem db_setDb (s : Workspace) (db : Database) : (s.setDb db).db = db := rfl

theorem provenance_setDb (h : (db.file? path).isSome) :
    (s.setDb db).provenance path = s.provenance path := if_pos h

@[simp] theorem provenance_note_self (s : Workspace) (path : String) (f : Provenance → Provenance) :
    (s.note path f).provenance path = f (s.provenance path) := Function.update_self ..

theorem provenance_note_of_ne (h : x ≠ path) (f : Provenance → Provenance) :
    (s.note path f).provenance x = s.provenance x := Function.update_of_ne h ..

theorem provenance_edit_self (s : Workspace) (path : String) (file : Option (Option Bytes)) :
    (s.edit path file).provenance path =
      { s.provenance path with unnotified := (s.provenance path).unnotified + 1 } :=
  Function.update_self ..

theorem provenance_edit_of_ne (h : x ≠ path) (file : Option (Option Bytes)) :
    (s.edit path file).provenance x = s.provenance x := Function.update_of_ne h ..

theorem read_edit_of_ne (h : x ≠ path) (file : Option (Option Bytes)) :
    (s.edit path file).disk.read x = s.disk.read x := by
  cases file with
  | none => exact congrArg Option.join (IndexMap.get?_shiftRemove_of_ne h s.disk)
  | some content => exact congrArg Option.join (IndexMap.get?_insert_of_ne h s.disk content)

end

end Workspace

/-- How the language server answers for a file: there is no client, a request fails, the symbols
are answered or not; with the calls that are reported after that. -/
inductive LspAnswer
  | vanished
  | failed
  | unanswered (calls : List OutgoingCall)
  | symbols (calls : List OutgoingCall)

inductive Call
  | edit (path : String) (file : Option (Option Bytes))
  | notify (event : FileEvent)
  | startupCleanup
  | hashFiles (todo : List String) (found : List (String × Bytes))
  | queryDirty (embedder : Option Embedder)
  | readFile (embedder : Option Embedder) (todo : List String)
  | writeFile (embedder : Option Embedder) (path : String) (content : Option Bytes)
      (todo : List String)
  | lspRead (path : String) (answer : LspAnswer)
  | lspSymbols (path : String) (content : Bytes) (calls : List OutgoingCall)
  | lspEdges (path : String) (calls : List OutgoingCall) (actions : List String)
  | lspRefresh (actions : List String)
  | lspMarkFailed (path : String)

def Call.starts (t : Tools) (s : Workspace) : Call → Bool
  | .edit _ _ | .notify _ | .startupCleanup | .queryDirty _ => true
  | .lspRead path _ => t.isLspCapable path && (s.db.file? path).any fun row => !row.lspIndexed
  | _ => false

def Call.advance (t : Tools) (s : Workspace) : Call → Workspace × Option Call
  | .edit path file => (s.edit path file, none)
  | .notify event => (s.notify event, none)
  | .startupCleanup => (s, some (.hashFiles (t.walk s.disk) []))
  | .hashFiles (path :: todo) found =>
    (s, some (.hashFiles todo (found ++ (t.hashFile s.disk path).toList)))
  | .hashFiles [] found => (s.setDb (s.db.reconcile t.toWalker found), none)
  | .queryDirty embedder => (s, some (.readFile embedder s.db.dirtyFiles))
  | .readFile embedder (path :: todo) =>
    (s, some (.writeFile embedder path (s.disk.read path) todo))
  | .readFile _ [] => (s, none)
  | .writeFile embedder path content todo =>
    (s.indexFile t embedder path content, some (.readFile embedder todo))
  | .lspRead path answer =>
    match s.disk.read path, answer with
    | none, _ | some _, .failed => (s, some (.lspMarkFailed path))
    | some _, .vanished => (s, none)
    | some _, .unanswered calls => (s, some (.lspEdges path calls []))
    | some content, .symbols calls => (s, some (.lspSymbols path content calls))
  | .lspSymbols path content calls =>
    let persisted := s.db.collectAndPersistSymbols path (t.documentSymbols path content)
    (s.persistSymbols t path content, some (match persisted.2 with
      | none => .lspMarkFailed path
      | some actions => .lspEdges path calls actions))
  | .lspEdges path calls actions =>
    (s.setDb (s.db.collectAndPersistCallEdges path calls), some (.lspRefresh actions))
  | .lspRefresh actions => (s.setDb (s.db.applyInvalidationActions actions), none)
  | .lspMarkFailed path => (s.setDb (s.db.markLspIndexed path), none)

@[simp] theorem Call.advance_lspRead (t : Tools) (s : Workspace) (path : String)
    (answer : LspAnswer) : (Call.advance t s (.lspRead path answer)).1 = s := by
  cases hread : s.disk.read path with
  | none => simp [Call.advance, hread]
  | some content => cases answer <;> simp [Call.advance, hread]

def indexProtocol (t : Tools) : Protocol Workspace Call where
  starts := Call.starts t
  advance := Call.advance t

def oneChunk : Tools where
  digest := fun content => 0 :: content
  ignored := fun _ _ => false
  lspExtensions := []
  grammar := fun _ source => some ([⟨0, source.length, "a.rs::f"⟩], [])
  documentSymbols := fun _ _ => []

def createdFile : Workspace :=
  ((Workspace.empty .empty).edit "a.rs" (some (some [1]))).notify (.created "a.rs")

theorem run_createdFile {ok : Workspace → Call → List Call → Prop} {embedder : Option Embedder}
    (hedit : ok (.empty .empty) (.edit "a.rs" (some (some [1]))) [])
    (hnotify : ok ((Workspace.empty .empty).edit "a.rs" (some (some [1])))
      (.notify (.created "a.rs")) [])
    (hquery : ok createdFile (.queryDirty embedder) [])
    (hread : ok createdFile (.readFile embedder ["a.rs"]) [])
    (hwrite : ok createdFile (.writeFile embedder "a.rs" (some [1]) []) []) :
    Run (indexProtocol oneChunk) ok (.empty .empty, [])
      (createdFile.indexFile oneChunk embedder "a.rs" (some [1]), [.readFile embedder []]) := by
  have hcreated : Run (indexProtocol oneChunk) ok (.empty .empty, []) (createdFile, []) := by
    refine .head (.start [] (r := .edit "a.rs" (some (some [1]))) rfl) ?_
    refine .head (.advance [] [] hedit) ?_
    refine .head (.start [] (r := .notify (.created "a.rs")) rfl) ?_
    exact .single (.advance [] [] hnotify)
  have hdirty : createdFile.db.dirtyFiles = ["a.rs"] := by decide
  have hqueried : Run (indexProtocol oneChunk) ok (createdFile, [])
      (createdFile, [.readFile embedder ["a.rs"]]) := by
    rw [← hdirty]
    refine .head (.start [] (r := .queryDirty embedder) rfl) ?_
    exact .single (.advance [] [] hquery)
  have hindexed : Run (indexProtocol oneChunk) ok (createdFile, [.readFile embedder ["a.rs"]])
      (createdFile.indexFile oneChunk embedder "a.rs" (some [1]), [.readFile embedder []]) := by
    refine .head (.advance [] [] hread) ?_
    exact .single (.advance [] [] hwrite)
  exact (hcreated.trans hqueried).trans hindexed

end SwissArmyHammer.CodeContext

/-! What holds of the files that are marked as indexed holds on, whatever step is taken other than
the mark of an indexing pass. -/

namespace SwissArmyHammer.CodeContext

/-- `P` holds of each file with `ts_indexed` set: of its hash, its embedded flag and its chunks. -/
def Indexed (P : String → Bytes → Bool → List ChunkRow → Prop) (db : Database) : Prop :=
  ∀ path row, db.file? path = some row → row.tsIndexed = true →
    P path row.contentHash row.embedded (db.chunksOf path)

namespace Indexed

open Database

variable {P : String → Bytes → Bool → List ChunkRow → Prop} {db db' : Database} {path : String}

theorem empty : Indexed P .empty :=
  fun path _ hrow => absurd (hrow.symm.trans (file?_empty path)) (by simp)

theorem sameIndex (h : Indexed P db) (hsame : SameIndex db db') : Indexed P db' := by
  intro path row hrow hts
  rw [hsame.file?] at hrow
  rw [hsame.chunksOf]
  exact h path row hrow hts

theorem updateFiles (h : Indexed P db) {set : String → FileRow → FileRow}
    (hset : ∀ x row, (set x row).tsIndexed = true → row.tsIndexed = true ∧
      (set x row).contentHash = row.contentHash ∧ (set x row).embedded = row.embedded) :
    Indexed P (db.updateFiles set) := by
  intro path row hrow hts
  rw [file?_updateFiles] at hrow
  obtain ⟨old, hold, rfl⟩ := Option.map_eq_some_iff.mp hrow
  obtain ⟨hts, hhash, hembedded⟩ := hset path old hts
  rw [hhash, hembedded]
  exact h path old hold hts

theorem updateFile (h : Indexed P db) (path : String) {set : FileRow → FileRow}
    (hset : ∀ row, (set row).tsIndexed = true → row.tsIndexed = true ∧
      (set row).contentHash = row.contentHash ∧ (set row).embedded = row.embedded) :
    Indexed P (db.updateFile path set) := by
  refine h.updateFiles fun x row hts => ?_
  by_cases hx : x = path
  · rw [if_pos hx] at hts ⊢
    exact hset row hts
  · rw [if_neg hx] at hts ⊢
    exact ⟨hts, rfl, rfl⟩

theorem putFile (h : Indexed P db) (path : String) {row : FileRow} (hrow : row.tsIndexed = false) :
    Indexed P (db.putFile path row) := by
  intro x other hother hts
  by_cases hx : x = path
  · rw [hx, file?_putFile_self, Option.some.injEq] at hother
    rw [← hother, hrow] at hts
    exact absurd hts (by simp)
  · rw [file?_putFile_of_ne hx] at hother
    exact h x other hother hts

theorem deleteFile (h : Indexed P db) (path : String) : Indexed P (db.deleteFile path) := by
  intro x row hrow hts
  by_cases hx : x = path
  · rw [hx] at hrow
    exact absurd hrow (by simp)
  · rw [file?_deleteFile_of_ne hx] at hrow
    rw [chunksOf_deleteFile_of_ne hx]
    exact h x row hrow hts

theorem notify (h : Indexed P db) (event : FileEvent) : Indexed P (db.notify event) := by
  have hdirty : ∀ path, Indexed P (db.markDirty path) := by
    intro path
    rw [markDirty, upsertFile]
    split
    · exact h.putFile path rfl
    · exact h.updateFile path fun row hts => absurd hts (by simp)
  cases event with
  | created path => exact hdirty path
  | modified path => exact hdirty path
  | deleted path => exact h.deleteFile path

theorem reconcile (h : Indexed P db) (w : Walker) (found : List (String × Bytes)) :
    Indexed P (db.reconcile w found) := by
  refine reconcile_keeps (fun db path h => h.deleteFile path) (fun db path hash h => ?_)
    (fun db path hash _ h => h.putFile path rfl) (fun db h => ?_) h
  · exact h.updateFile path fun row hts => absurd hts (by simp [FileRow.changed])
  · refine h.updateFiles fun x row hts => ?_
    rw [Walker.tsIndexed_markNonLspCapable] at hts
    exact ⟨hts, by simp, by simp⟩

theorem markLspIndexed (h : Indexed P db) (path : String) : Indexed P (db.markLspIndexed path) :=
  h.updateFile path fun _ hts => ⟨hts, rfl, rfl⟩

theorem applyInvalidationActions (h : Indexed P db) (files : List String) :
    Indexed P (db.applyInvalidationActions files) :=
  foldl_keeps (fun _ path _ h => h.updateFile path fun _ hts => ⟨hts, rfl, rfl⟩) h

theorem collectAndPersistSymbols (h : Indexed P db) (path : String)
    (symbols : List DocumentSymbol) :
    Indexed P (db.collectAndPersistSymbols path symbols).1 := by
  obtain ⟨mid, hsame, hmid | hmid⟩ := collectAndPersistSymbols_cases db path symbols
  · rw [hmid]
    exact h.sameIndex hsame
  · rw [hmid]
    exact (h.sameIndex hsame).markLspIndexed path

theorem indexFile (h : Indexed P db) {grammar : Grammar} {embedder : Option Embedder}
    {content : Option Bytes}
    (hmark : ∀ row, db.file? path = some row →
      P path row.contentHash (marksEmbedded grammar embedder path content || row.embedded)
        ((db.indexFile grammar embedder path content).chunksOf path)) :
    Indexed P (db.indexFile grammar embedder path content) := by
  intro x row hrow hts
  by_cases hx : x = path
  · rw [hx, file?_indexFile_self] at hrow
    obtain ⟨old, hold, rfl⟩ := Option.map_eq_some_iff.mp hrow
    rw [hx]
    exact hmark old hold
  · rw [file?_indexFile_of_ne hx] at hrow
    rw [chunksOf_indexFile_of_ne hx]
    exact h x row hrow hts

theorem advance {t : Tools} {s : Workspace} {r : Call} (h : Indexed P s.db)
    (hwrite : ∀ embedder path content todo, r = .writeFile embedder path content todo →
      Indexed P (s.db.indexFile t.grammar embedder path content)) :
    Indexed P (Call.advance t s r).1.db := by
  cases r with
  | edit path file => exact h
  | notify event => exact h.notify event
  | startupCleanup => exact h
  | hashFiles todo found =>
    cases todo with
    | nil => exact h.reconcile t.toWalker found
    | cons path todo => exact h
  | queryDirty embedder => exact h
  | readFile embedder todo => cases todo <;> exact h
  | writeFile embedder path content todo => exact hwrite embedder path content todo rfl
  | lspRead path answer =>
    rw [Call.advance_lspRead]
    exact h
  | lspSymbols path content calls => exact h.collectAndPersistSymbols path _
  | lspEdges path calls actions =>
    exact h.sameIndex (sameIndex_collectAndPersistCallEdges s.db path calls)
  | lspRefresh actions => exact h.applyInvalidationActions actions
  | lspMarkFailed path => exact h.markLspIndexed path

end Indexed

end SwissArmyHammer.CodeContext
