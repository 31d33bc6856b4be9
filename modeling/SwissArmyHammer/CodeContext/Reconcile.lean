import SwissArmyHammer.CodeContext.Workspace

/-! The periodic reconcile: a cleanup and an indexing pass, which bring the index to the content of
the disk where no pass has left a file the chunks of one content under the hash of another. -/

namespace SwissArmyHammer.CodeContext

open Concurrency Database

namespace Database

def indexDiscoveredFiles (t : Tools) (embedder : Option Embedder) (disk : Disk) (db : Database) :
    Database :=
  db.dirtyFiles.foldl
    (fun db path => db.indexFile t.grammar embedder path (disk.read path)) db

/-- `reconcile_workspace_with_embedder` on a disk that does not change. -/
def reconcileWorkspace (t : Tools) (embedder : Option Embedder) (disk : Disk) (db : Database) :
    Database :=
  (db.startupCleanup t.toWalker disk).indexDiscoveredFiles t embedder disk

end Database

/-- Each tracked file that can be parsed has the chunks of its content, and each file with a row is
on the disk. -/
def AtDisk (t : Tools) (disk : Disk) (db : Database) : Prop :=
  (∀ path content chunks, t.tracks disk path = true → disk.read path = some content →
    chunkFile t path content = some chunks →
      (db.chunksOf path).map ChunkRow.unembedded = chunks) ∧
    ∀ path, (db.file? path).isSome → (disk.get? path).isSome

def OfHash (t : Tools) (path : String) (hash : Bytes) (chunks : List ChunkRow) : Prop :=
  ∀ content expected, t.digest content = hash → chunkFile t path content = some expected →
    chunks = expected

/-- A pass that marks a file leaves it the chunks of the content whose hash its row carries. -/
def MarksAtHash (t : Tools) (s : Workspace) (r : Call) (_ : List Call) : Prop :=
  ∀ embedder path content todo row, r = .writeFile embedder path content todo →
    s.db.file? path = some row → OfHash t path row.contentHash (chunksLeft t s.db path content)

variable {t : Tools} {disk : Disk} {db : Database} {embedder : Option Embedder} {path : String}
  {content : Option Bytes}

abbrev IndexedOfHash (t : Tools) : Database → Prop :=
  Indexed fun path hash _ chunks => OfHash t path hash (chunks.map ChunkRow.unembedded)

theorem indexedOfHash_run {s s' : Workspace} {calls calls' : List Call}
    (h : Run (indexProtocol t) (MarksAtHash t) (s, calls) (s', calls'))
    (hs : IndexedOfHash t s.db) : IndexedOfHash t s'.db := by
  refine Run.invariant_state (I := fun s : Workspace => IndexedOfHash t s.db)
    (fun s r others hok hI => ?_) h hs
  refine hI.advance fun embedder path content todo hr => hI.indexFile fun row hrow => ?_
  rw [unembedded_chunksOf_indexFile (by simp [hrow])]
  exact hok embedder path content todo row hr hrow

theorem mem_dirtyFiles {row : FileRow} (h : db.file? path = some row) :
    path ∈ db.dirtyFiles ↔ row.tsIndexed = false := by
  rw [dirtyFiles, List.mem_map]
  constructor
  · rintro ⟨⟨x, other⟩, hmem, rfl⟩
    obtain ⟨hmem, hdirty⟩ := List.mem_filter.mp hmem
    have hother : db.file? x = some other := IndexMap.get?_eq_some_iff.mpr hmem
    rw [h, Option.some.injEq] at hother
    rw [hother]
    simpa using hdirty
  · intro hdirty
    exact ⟨(path, row), List.mem_filter.mpr ⟨IndexMap.get?_eq_some_iff.mp h, by simp [hdirty]⟩, rfl⟩

theorem nodup_dirtyFiles (db : Database) : db.dirtyFiles.Nodup :=
  db.indexedFiles.nodup.sublist (List.filter_sublist.map _)

theorem entryOf_indexFile (db : Database) (x path : String) (h : path ≠ x) :
    entryOf x (db.indexFile t.grammar embedder path content) = entryOf x db := by
  rw [entryOf, file?_indexFile_of_ne h.symm, chunksOf_indexFile_of_ne h.symm]
  rfl

theorem chunksOf_indexDiscoveredFiles {row : FileRow} (hrow : db.file? path = some row) :
    ((db.indexDiscoveredFiles t embedder disk).chunksOf path).map ChunkRow.unembedded =
      if row.tsIndexed then (db.chunksOf path).map ChunkRow.unembedded
      else chunksLeft t db path (disk.read path) := by
  have hframe : ∀ db x, id x ≠ path →
      entryOf path (db.indexFile t.grammar embedder x (disk.read x)) = entryOf path db :=
    fun db x hx => entryOf_indexFile db path x hx
  cases hdirty : row.tsIndexed with
  | true =>
    have hnot : path ∉ db.dirtyFiles.map id := by
      rw [List.map_id, mem_dirtyFiles hrow, hdirty]
      simp
    have hentry := foldl_of_notMem (entryOf path) hframe hnot db
    exact congrArg (List.map ChunkRow.unembedded) (Prod.mk.inj hentry).2
  | false =>
    have hnodup : (db.dirtyFiles.map id).Nodup := by
      rw [List.map_id]
      exact nodup_dirtyFiles db
    obtain ⟨mid, hmid, hlast⟩ := foldl_of_mem (entryOf path) hframe hnodup
      ((mem_dirtyFiles hrow).mpr hdirty) rfl db
    obtain ⟨hfile, hchunks⟩ := Prod.mk.inj hmid
    have hleft : ∀ content, chunksLeft t mid path content = chunksLeft t db path content := by
      intro content
      rw [chunksLeft, chunksLeft, hchunks]
    have hfinal := congrArg (List.map ChunkRow.unembedded) (Prod.mk.inj hlast).2
    rw [unembedded_chunksOf_indexFile (by rw [hfile, hrow]; rfl), hleft] at hfinal
    exact hfinal

theorem isSome_file?_indexDiscoveredFiles (db : Database) (path : String) :
    ((db.indexDiscoveredFiles t embedder disk).file? path).isSome = (db.file? path).isSome := by
  refine foldl_keeps (I := fun mid : Database => (mid.file? path).isSome = (db.file? path).isSome)
    (fun mid x _ hmid => ?_) rfl
  rw [← hmid]
  by_cases hx : path = x
  · rw [hx, file?_indexFile_self, Option.isSome_map]
  · rw [file?_indexFile_of_ne hx]

theorem of_tsIndexed_reconciled {w : Walker} {hash : Bytes}
    (h : (w.markNonLspCapable path (((db.file? path).map (FileRow.reconciled hash)).getD
      (w.newRow path hash))).tsIndexed = true) :
    ∃ row, db.file? path = some row ∧ hash = row.contentHash ∧ row.tsIndexed = true := by
  rw [Walker.tsIndexed_markNonLspCapable] at h
  cases hrow : db.file? path with
  | none => simp [hrow, Walker.newRow] at h
  | some row =>
    rw [hrow, Option.map_some, FileRow.reconciled] at h
    split at h
    · exact ⟨row, rfl, ‹_›, h⟩
    · simp [FileRow.changed] at h

theorem atDisk_reconcileWorkspace (h : IndexedOfHash t db) (embedder : Option Embedder)
    (disk : Disk) : AtDisk t disk (db.reconcileWorkspace t embedder disk) := by
  have hnodup := nodup_walkAndHash t.toWalker disk
  constructor
  · intro path content chunks htracks hread hchunks
    have hlookup : (t.walkAndHash disk).lookup path = some (t.digest content) := by
      rw [lookup_walkAndHash, if_pos htracks, hread]
      rfl
    have hfile := file?_reconcile (w := t.toWalker) hnodup db path
    have hkept := chunksOf_reconcile (w := t.toWalker) hnodup db path
    rw [hlookup] at hfile
    rw [hlookup, Option.isSome_some] at hkept
    rw [reconcileWorkspace, startupCleanup, chunksOf_indexDiscoveredFiles hfile]
    split
    · rename_i hts
      obtain ⟨row, hrow, hhash, hts⟩ := of_tsIndexed_reconciled hts
      rw [hkept]
      exact h path row hrow hts content chunks hhash hchunks
    · rw [chunksLeft, hread]
      simp [hchunks]
  · intro path hsome
    rw [reconcileWorkspace, isSome_file?_indexDiscoveredFiles, startupCleanup,
      file?_reconcile hnodup, Option.isSome_map, lookup_walkAndHash] at hsome
    split at hsome
    · rw [Option.isSome_map] at hsome
      obtain ⟨content, hread⟩ := Option.isSome_iff_exists.mp hsome
      rw [Option.join_eq_some_iff.mp hread]
      rfl
    · simp at hsome

theorem reconcile_is_floor {s : Workspace} {calls : List Call}
    (h : Run (indexProtocol t) (MarksAtHash t) (.empty disk, []) (s, calls))
    (embedder : Option Embedder) :
    AtDisk t s.disk (s.db.reconcileWorkspace t embedder s.disk) :=
  atDisk_reconcileWorkspace (indexedOfHash_run h Indexed.empty) embedder s.disk

theorem reconcile_is_floor_created :
    AtDisk oneChunk createdFile.disk
      ((createdFile.indexFile oneChunk none "a.rs" (some [1])).db.reconcileWorkspace oneChunk none
        createdFile.disk) := by
  have hnowrite : ∀ s r calls, (∀ embedder path content todo,
      r ≠ Call.writeFile embedder path content todo) → MarksAtHash oneChunk s r calls :=
    fun s r calls h embedder path content todo row hr => absurd hr (h embedder path content todo)
  have hwrite : MarksAtHash oneChunk createdFile (.writeFile none "a.rs" (some [1]) []) [] := by
    intro embedder path content todo row hr hrow hashed expected hhash
    obtain ⟨-, rfl, -, -⟩ := Call.writeFile.inj hr
    have hplaceholder : row.contentHash = [] := by
      rw [show createdFile.db.file? "a.rs" = some ⟨[], false, false, false⟩ by decide,
        Option.some.injEq] at hrow
      rw [← hrow]
    rw [hplaceholder] at hhash
    exact absurd hhash (List.cons_ne_nil 0 hashed)
  have hrun := run_createdFile (hnowrite _ _ _ (by simp)) (hnowrite _ _ _ (by simp))
    (hnowrite _ _ _ (by simp)) (hnowrite _ _ _ (by simp)) hwrite
  exact reconcile_is_floor hrun none

def missedEdit : List (Move Call) :=
  [.start (.edit "a.rs" (some (some [1]))), .advance 0, .start .startupCleanup, .advance 0,
    .advance 0, .advance 0, .start (.queryDirty none), .advance 0, .advance 0, .advance 0,
    .advance 0, .start (.edit "a.rs" (some (some [2]))), .advance 0,
    .start (.notify (.modified "a.rs")), .advance 0, .start (.queryDirty none), .advance 0,
    .advance 0, .advance 0, .advance 0, .start (.edit "a.rs" (some (some [1]))), .advance 0]

theorem reconcile_misses_edit :
    Function.Injective oneChunk.digest ∧
      ∃ s calls, Run (indexProtocol oneChunk) (fun _ _ _ => True) (.empty .empty, []) (s, calls) ∧
        ¬AtDisk oneChunk s.disk (s.db.reconcileWorkspace oneChunk none s.disk) := by
  refine ⟨List.cons_injective, ?_⟩
  have hplay : (play (indexProtocol oneChunk) (.empty .empty, []) missedEdit).isSome = true := by
    decide
  refine ⟨_, _, run_of_play missedEdit (Option.some_get hplay).symm, fun hfloor => ?_⟩
  have hchunks := hfloor.1 "a.rs" [1] [⟨"a.rs", 0, 1, 0, 0, [1], some "a.rs::f", none⟩]
    (by decide) (by decide) (by decide)
  exact absurd hchunks (by decide)

end SwissArmyHammer.CodeContext
