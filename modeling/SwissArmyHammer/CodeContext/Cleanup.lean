import SwissArmyHammer.CodeContext.Callgraph

/-! The startup cleanup: the walk over the files, and the reconciliation of the index with what it
found. -/

namespace SwissArmyHammer.CodeContext

/-- The files below the workspace root; the content is none where a file cannot be read. -/
abbrev Disk := IndexMap String (Option Bytes)

def Disk.read (disk : Disk) (path : String) : Option Bytes := (disk.get? path).join

/-- What the cleanup takes from elsewhere: the first 16 bytes of the SHA-256 digest, the ignore
rules, and the extensions that the language servers are registered for. -/
structure Walker where
  digest : Bytes → Bytes
  ignored : Disk → String → Bool
  lspExtensions : List String

def extension (path : String) : Option String :=
  let name := (path.toList.splitOn '/').getLastD []
  let pieces := name.splitOn '.'
  if name = ['.', '.'] ∨ pieces.length = 1 ∨ pieces.length = 2 ∧ pieces.head? = some [] then none
  else some (String.ofList (pieces.getLastD []))

def parseableExtensions : List String :=
  ["rs", "py", "pyi", "pyw", "ts", "mts", "cts", "tsx", "js", "mjs", "cjs", "jsx", "go", "java",
    "kt", "kts", "scala", "sc", "c", "h", "cpp", "cc", "cxx", "hpp", "hxx", "hh", "cs", "rb",
    "rake", "gemspec", "php", "phtml", "swift", "dart", "lua", "sh", "bash", "zsh", "toml", "yaml",
    "yml"]

def isParseable (path : String) : Bool := (extension path).any (· ∈ parseableExtensions)

namespace Walker

def isLspCapable (w : Walker) (path : String) : Bool := (extension path).any (· ∈ w.lspExtensions)

def tracks (w : Walker) (disk : Disk) (path : String) : Bool :=
  isParseable path && !w.ignored disk path

def walk (w : Walker) (disk : Disk) : List String :=
  (disk.entries.map Prod.fst).filter (w.tracks disk)

def hashFile (w : Walker) (disk : Disk) (path : String) : Option (String × Bytes) :=
  (disk.read path).map fun content => (path, w.digest content)

def walkAndHash (w : Walker) (disk : Disk) : List (String × Bytes) :=
  (w.walk disk).filterMap (w.hashFile disk)

end Walker

def FileRow.changed (hash : Bytes) (row : FileRow) : FileRow :=
  { row with contentHash := hash, tsIndexed := false, lspIndexed := false }

def FileRow.reconciled (hash : Bytes) (row : FileRow) : FileRow :=
  if hash = row.contentHash then row else row.changed hash

def Walker.newRow (w : Walker) (path : String) (hash : Bytes) : FileRow where
  contentHash := hash
  tsIndexed := false
  lspIndexed := !w.isLspCapable path
  embedded := false

def Walker.markNonLspCapable (w : Walker) (path : String) (row : FileRow) : FileRow :=
  if w.lspExtensions.any fun ext => like ("%." ++ ext).toList path.toList then row
  else { row with lspIndexed := true }

section

variable (w : Walker) (path : String) (row : FileRow)

@[simp] theorem Walker.contentHash_markNonLspCapable :
    (w.markNonLspCapable path row).contentHash = row.contentHash := by
  rw [markNonLspCapable]
  split <;> rfl

@[simp] theorem Walker.tsIndexed_markNonLspCapable :
    (w.markNonLspCapable path row).tsIndexed = row.tsIndexed := by
  rw [markNonLspCapable]
  split <;> rfl

@[simp] theorem Walker.embedded_markNonLspCapable :
    (w.markNonLspCapable path row).embedded = row.embedded := by
  rw [markNonLspCapable]
  split <;> rfl

end

namespace Database

def reconcileDbEntry (found : List (String × Bytes)) (db : Database) (entry : String × Bytes) :
    Database :=
  match found.lookup entry.1 with
  | none => db.deleteFile entry.1
  | some hash => if hash = entry.2 then db else db.updateFile entry.1 (FileRow.changed hash)

def insertNewDiskFile (w : Walker) (db : Database) (file : String × Bytes) : Database :=
  db.putFile file.1 (w.newRow file.1 file.2)

def markNonLspCapableFiles (w : Walker) (db : Database) : Database :=
  db.updateFiles w.markNonLspCapable

def reconcile (w : Walker) (found : List (String × Bytes)) (db : Database) : Database :=
  let dbEntries := db.indexedFiles.entries.map fun entry => (entry.1, entry.2.contentHash)
  let reconciled := dbEntries.foldl (reconcileDbEntry found) db
  let new := found.filter fun file => file.1 ∉ dbEntries.map Prod.fst
  markNonLspCapableFiles w (new.foldl (insertNewDiskFile w) reconciled)

def startupCleanup (w : Walker) (disk : Disk) (db : Database) : Database :=
  db.reconcile w (w.walkAndHash disk)

section

variable {w : Walker} {found : List (String × Bytes)} {db : Database} {x : String} {hash : Bytes}

def entryOf (x : String) (db : Database) : Option FileRow × List ChunkRow :=
  (db.file? x, db.chunksOf x)

theorem entryOf_reconcileDbEntry (db : Database) (entry : String × Bytes) (h : entry.1 ≠ x) :
    entryOf x (reconcileDbEntry found db entry) = entryOf x db := by
  rw [reconcileDbEntry]
  split
  · rw [entryOf, file?_deleteFile_of_ne h.symm, chunksOf_deleteFile_of_ne h.symm]
    rfl
  · split
    · rfl
    · rw [entryOf, file?_updateFile_of_ne h.symm]
      rfl

theorem entryOf_insertNewDiskFile (db : Database) (file : String × Bytes) (h : file.1 ≠ x) :
    entryOf x (insertNewDiskFile w db file) = entryOf x db := by
  rw [entryOf, insertNewDiskFile, file?_putFile_of_ne h.symm]
  rfl

theorem mem_dbEntries {row : FileRow} (h : db.file? x = some row) :
    (x, row.contentHash) ∈
      db.indexedFiles.entries.map fun entry => (entry.1, entry.2.contentHash) :=
  List.mem_map.mpr ⟨(x, row), IndexMap.get?_eq_some_iff.mp h, rfl⟩

theorem keys_dbEntries (db : Database) :
    (db.indexedFiles.entries.map fun entry => (entry.1, entry.2.contentHash)).map Prod.fst =
      db.indexedFiles.entries.map Prod.fst := by
  rw [List.map_map]
  rfl

theorem mem_keys_iff (db : Database) (x : String) :
    x ∈ db.indexedFiles.entries.map Prod.fst ↔ (db.file? x).isSome := by
  rw [List.mem_map, Option.isSome_iff_exists]
  constructor
  · rintro ⟨⟨path, row⟩, hmem, rfl⟩
    exact ⟨row, IndexMap.get?_eq_some_iff.mpr hmem⟩
  · rintro ⟨row, hrow⟩
    exact ⟨(x, row), IndexMap.get?_eq_some_iff.mp hrow, rfl⟩

theorem reconcile_keeps {I : Database → Prop} (hdelete : ∀ db path, I db → I (db.deleteFile path))
    (hchanged : ∀ db path hash, I db → I (db.updateFile path (FileRow.changed hash)))
    (hnew : ∀ mid path hash, db.file? path = none → I mid →
      I (mid.putFile path (w.newRow path hash)))
    (hmark : ∀ db, I db → I (markNonLspCapableFiles w db)) (h : I db) :
    I (db.reconcile w found) := by
  refine hmark _ (foldl_keeps (fun mid file hfile hmid => ?_) ?_)
  · have hnew' := (List.mem_filter.mp hfile).2
    rw [decide_eq_true_eq, keys_dbEntries, mem_keys_iff, Option.not_isSome_iff_eq_none] at hnew'
    exact hnew mid file.1 file.2 hnew' hmid
  refine foldl_keeps (fun mid entry _ hmid => ?_) h
  rw [reconcileDbEntry]
  split
  · exact hdelete mid entry.1 hmid
  · split
    · exact hmid
    · exact hchanged mid entry.1 _ hmid

theorem entryOf_reconcileDbEntries (db : Database) (found : List (String × Bytes)) (x : String) :
    entryOf x ((db.indexedFiles.entries.map fun entry => (entry.1, entry.2.contentHash)).foldl
      (reconcileDbEntry found) db) =
        ((found.lookup x).bind fun hash => (db.file? x).map (FileRow.reconciled hash),
          if (found.lookup x).isSome then db.chunksOf x else []) := by
  cases hrow : db.file? x with
  | none =>
    have hnot : x ∉ (db.indexedFiles.entries.map fun entry =>
        (entry.1, entry.2.contentHash)).map Prod.fst := by
      rw [keys_dbEntries, mem_keys_iff, hrow]
      simp
    rw [foldl_of_notMem (entryOf x) entryOf_reconcileDbEntry hnot, entryOf, hrow,
      chunksOf_eq_nil hrow]
    simp
  | some row =>
    have hnodup : ((db.indexedFiles.entries.map fun entry =>
        (entry.1, entry.2.contentHash)).map Prod.fst).Nodup := by
      rw [keys_dbEntries]
      exact db.indexedFiles.nodup
    obtain ⟨mid, hmid, hlast⟩ := foldl_of_mem (entryOf x) (f := reconcileDbEntry found)
      entryOf_reconcileDbEntry hnodup (mem_dbEntries hrow) rfl db
    obtain ⟨hfile, hchunks⟩ := Prod.mk.inj hmid
    rw [hlast, reconcileDbEntry]
    cases hlookup : found.lookup x with
    | none =>
      have hgone := file?_deleteFile_self mid x
      rw [entryOf, hgone, chunksOf_eq_nil hgone]
      rfl
    | some hash =>
      simp only [Option.bind_some, Option.map_some, Option.isSome_some, if_true]
      rw [FileRow.reconciled]
      by_cases hsame : hash = row.contentHash
      · rw [if_pos hsame, if_pos hsame, entryOf, hfile, hchunks, hrow]
      · rw [if_neg hsame, if_neg hsame, entryOf, file?_updateFile_self, chunksOf_updateFile, hfile,
          hchunks, hrow]
        rfl

theorem mem_of_lookup (h : found.lookup x = some hash) : (x, hash) ∈ found := by
  obtain ⟨l, l', rfl, -⟩ := List.lookup_eq_some_iff.mp h
  simp

theorem notMem_of_lookup (h : found.lookup x = none) : x ∉ found.map Prod.fst := by grind

theorem entryOf_insertNewDiskFiles (hfound : (found.map Prod.fst).Nodup) (db : Database)
    (known : List String) (x : String) :
    entryOf x ((found.filter fun file => file.1 ∉ known).foldl (insertNewDiskFile w) db) =
      ((if x ∈ known then none else (found.lookup x).map (w.newRow x)).or (db.file? x),
        db.chunksOf x) := by
  by_cases hnew : x ∉ known ∧ (found.lookup x).isSome
  · obtain ⟨hknown, hsome⟩ := hnew
    obtain ⟨hash, hlookup⟩ := Option.isSome_iff_exists.mp hsome
    have hmem : (x, hash) ∈ found.filter fun file => file.1 ∉ known :=
      List.mem_filter.mpr ⟨mem_of_lookup hlookup, by simpa using hknown⟩
    have hnodup : ((found.filter fun file => file.1 ∉ known).map Prod.fst).Nodup :=
      hfound.sublist (List.filter_sublist.map _)
    obtain ⟨mid, hmid, hlast⟩ := foldl_of_mem (entryOf x) (f := insertNewDiskFile w)
      entryOf_insertNewDiskFile hnodup hmem rfl db
    rw [hlast, insertNewDiskFile, entryOf, file?_putFile_self, chunksOf_putFile,
      (Prod.mk.inj hmid).2, hlookup, if_neg hknown]
    rfl
  · have hnot : x ∉ (found.filter fun file => file.1 ∉ known).map Prod.fst := by
      intro hmem
      obtain ⟨file, hfile, rfl⟩ := List.mem_map.mp hmem
      obtain ⟨hfile, hknown⟩ := List.mem_filter.mp hfile
      refine hnew ⟨by simpa using hknown, ?_⟩
      rw [Option.isSome_iff_ne_none]
      exact fun hnone => notMem_of_lookup hnone (List.mem_map.mpr ⟨file, hfile, rfl⟩)
    have hnone : (if x ∈ known then none else (found.lookup x).map (w.newRow x)) = none := by
      by_cases hknown : x ∈ known
      · rw [if_pos hknown]
      · rw [if_neg hknown, Option.map_eq_none_iff]
        rw [← Option.not_isSome_iff_eq_none]
        exact fun hsome => hnew ⟨hknown, hsome⟩
    rw [foldl_of_notMem (entryOf x) entryOf_insertNewDiskFile hnot, hnone]
    rfl

theorem entryOf_reconcile (hfound : (found.map Prod.fst).Nodup) (db : Database) (x : String) :
    entryOf x (db.reconcile w found) =
      ((found.lookup x).map fun hash => w.markNonLspCapable x
          (((db.file? x).map (FileRow.reconciled hash)).getD (w.newRow x hash)),
        if (found.lookup x).isSome then db.chunksOf x else []) := by
  obtain ⟨hfile, hchunks⟩ := Prod.mk.inj (entryOf_reconcileDbEntries db found x)
  obtain ⟨hfile', hchunks'⟩ := Prod.mk.inj (entryOf_insertNewDiskFiles (w := w) hfound
    ((db.indexedFiles.entries.map fun entry => (entry.1, entry.2.contentHash)).foldl
      (reconcileDbEntry found) db)
    ((db.indexedFiles.entries.map fun entry => (entry.1, entry.2.contentHash)).map Prod.fst) x)
  rw [entryOf, reconcile, markNonLspCapableFiles, file?_updateFiles, chunksOf_updateFiles, hfile',
    hchunks', hfile, hchunks]
  simp only [keys_dbEntries, mem_keys_iff]
  cases hlookup : found.lookup x with
  | none => simp
  | some hash => cases hrow : db.file? x <;> simp

theorem file?_reconcile (hfound : (found.map Prod.fst).Nodup) (db : Database) (x : String) :
    (db.reconcile w found).file? x = (found.lookup x).map fun hash => w.markNonLspCapable x
      (((db.file? x).map (FileRow.reconciled hash)).getD (w.newRow x hash)) :=
  (Prod.mk.inj (entryOf_reconcile hfound db x)).1

theorem chunksOf_reconcile (hfound : (found.map Prod.fst).Nodup) (db : Database) (x : String) :
    (db.reconcile w found).chunksOf x = if (found.lookup x).isSome then db.chunksOf x else [] :=
  (Prod.mk.inj (entryOf_reconcile hfound db x)).2

end

section

variable {w : Walker} {disk : Disk} {x : String}

theorem walkAndHash_keys (w : Walker) (disk : Disk) :
    ((w.walkAndHash disk).map Prod.fst).Sublist (w.walk disk) := by
  rw [Walker.walkAndHash]
  induction w.walk disk with
  | nil => exact .slnil
  | cons path paths ih =>
    rw [List.filterMap_cons, Walker.hashFile]
    cases disk.read path with
    | none => exact ih.cons path
    | some content => exact ih.cons_cons path

theorem nodup_walkAndHash (w : Walker) (disk : Disk) :
    ((w.walkAndHash disk).map Prod.fst).Nodup :=
  (disk.nodup.sublist List.filter_sublist).sublist (walkAndHash_keys w disk)

theorem lookup_filterMap_hashFile (w : Walker) (disk : Disk) (x : String) (paths : List String) :
    (paths.filterMap (w.hashFile disk)).lookup x =
      if x ∈ paths then (disk.read x).map w.digest else none := by
  induction paths with
  | nil => rfl
  | cons path paths ih =>
    rw [List.filterMap_cons, Walker.hashFile]
    by_cases hx : x = path
    · rw [hx] at ih ⊢
      cases hread : disk.read path with
      | none => simpa [hread] using ih
      | some content => simp
    · cases hread : disk.read path with
      | none => simpa [hx] using ih
      | some content =>
        have hbeq : (x == path) = false := by simpa using hx
        simpa [List.lookup_cons, hbeq, hx] using ih

theorem lookup_walkAndHash (w : Walker) (disk : Disk) (x : String) :
    (w.walkAndHash disk).lookup x =
      if w.tracks disk x then (disk.read x).map w.digest else none := by
  rw [Walker.walkAndHash, lookup_filterMap_hashFile, Walker.walk]
  cases hread : disk.read x with
  | none => simp
  | some content =>
    have hkey : x ∈ disk.entries.map Prod.fst := by
      have hfile := Option.join_eq_some_iff.mp hread
      exact List.mem_map.mpr ⟨_, IndexMap.get?_eq_some_iff.mp hfile, rfl⟩
    by_cases htracks : w.tracks disk x
    · rw [if_pos htracks, if_pos (List.mem_filter.mpr ⟨hkey, htracks⟩)]
    · rw [if_neg htracks, if_neg fun hmem => htracks (List.mem_filter.mp hmem).2]

end

end Database

end SwissArmyHammer.CodeContext
