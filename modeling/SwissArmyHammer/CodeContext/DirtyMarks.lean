import SwissArmyHammer.CodeContext.Workspace

/-! The dirty marks of the watcher against the marks of the indexers, which read a file before they
lock the database. -/

namespace SwissArmyHammer.CodeContext

open Concurrency Database

def Workspace.Latest (s : Workspace) (path : String) (rowsFrom : Option Bytes) : Prop :=
  rowsFrom = none ∨ rowsFrom = s.disk.read path

def CurrentAt (s : Workspace) (path : String) : Prop :=
  ∀ row, s.db.file? path = some row → (s.provenance path).unnotified = 0 →
    (row.tsIndexed = true → s.Latest path (s.provenance path).chunksFrom) ∧
      (row.lspIndexed = true → s.Latest path (s.provenance path).symbolsFrom)

def Current (s : Workspace) : Prop := ∀ path, CurrentAt s path

/-- A mark is set while an edit of the file is to be notified, or the rows that it vouches for are
of the latest content: those written with it, or, where none are written, those that are there. -/
def MarksLatest (t : Tools) (s : Workspace) : Call → Prop
  | .writeFile _ path content _ =>
    (s.db.file? path).isSome → (s.provenance path).unnotified = 0 →
      s.Latest path (if (parseDirtyFile t.grammar path content).isSome then content
        else (s.provenance path).chunksFrom)
  | .lspSymbols path content _ =>
    (s.db.file? path).isSome → (s.provenance path).unnotified = 0 → s.Latest path (some content)
  | .lspMarkFailed path =>
    (s.db.file? path).isSome → (s.provenance path).unnotified = 0 →
      s.Latest path (s.provenance path).symbolsFrom
  | _ => True

def Call.isIndexing : Call → Prop
  | .startupCleanup | .hashFiles _ _ => False
  | _ => True

variable {t : Tools} {s s' : Workspace} {r : Call} {path : String}

theorem CurrentAt.of_cleared (h : CurrentAt s path)
    (hrow : ∀ row', s'.db.file? path = some row' → ∃ row, s.db.file? path = some row ∧
      (row'.tsIndexed = true → row.tsIndexed = true) ∧
        (row'.lspIndexed = true → row.lspIndexed = true))
    (hprovenance : (s'.db.file? path).isSome → s'.provenance path = s.provenance path)
    (hread : s'.disk.read path = s.disk.read path) : CurrentAt s' path := by
  intro row' hrow' hnotified
  obtain ⟨row, hold, hts, hlsp⟩ := hrow row' hrow'
  rw [hprovenance (by simp [hrow'])] at hnotified ⊢
  rw [Workspace.Latest, Workspace.Latest, hread]
  obtain ⟨hchunks, hsymbols⟩ := h row hold hnotified
  exact ⟨fun h => hchunks (hts h), fun h => hsymbols (hlsp h)⟩

theorem CurrentAt.of_same (h : CurrentAt s path) (hrow : s'.db.file? path = s.db.file? path)
    (hprovenance : (s'.db.file? path).isSome → s'.provenance path = s.provenance path)
    (hread : s'.disk.read path = s.disk.read path) : CurrentAt s' path := by
  refine h.of_cleared (fun row' hrow' => ?_) hprovenance hread
  rw [hrow] at hrow'
  exact ⟨row', hrow', id, id⟩

theorem current_edit (h : Current s) (path : String) (file : Option (Option Bytes)) :
    Current (s.edit path file) := by
  intro x
  by_cases hx : x = path
  · intro row hrow hnotified
    rw [hx, Workspace.provenance_edit_self] at hnotified
    exact absurd hnotified (Nat.succ_ne_zero _)
  · exact (h x).of_same rfl (fun _ => Workspace.provenance_edit_of_ne hx file)
      (Workspace.read_edit_of_ne hx file)

theorem file?_notify_of_ne (db : Database) {event : FileEvent} (h : path ≠ event.path) :
    (db.notify event).file? path = db.file? path := by
  cases event with
  | created x => exact file?_upsertFile_of_ne h db _ _
  | modified x => exact file?_upsertFile_of_ne h db _ _
  | deleted x => exact file?_deleteFile_of_ne h db

theorem cleared_of_notify {db : Database} {event : FileEvent} {row : FileRow}
    (h : (db.notify event).file? event.path = some row) :
    row.tsIndexed = false ∧ row.lspIndexed = false := by
  have hdirty : ∀ path, (db.markDirty path).file? path = some row →
      row.tsIndexed = false ∧ row.lspIndexed = false := by
    intro path hrow
    rw [markDirty, file?_upsertFile_self, Option.some.injEq] at hrow
    rw [← hrow]
    cases db.file? path <;> exact ⟨rfl, rfl⟩
  cases event with
  | created path => exact hdirty path h
  | modified path => exact hdirty path h
  | deleted path => exact absurd ((file?_deleteFile_self db path).symm.trans h) (by simp)

theorem current_notify (h : Current s) (event : FileEvent) : Current (s.notify event) := by
  intro x
  by_cases hx : x = event.path
  · intro row hrow hnotified
    rw [hx] at hrow
    obtain ⟨hts, hlsp⟩ := cleared_of_notify hrow
    simp [hts, hlsp]
  · have hrow := file?_notify_of_ne s.db hx
    exact (h x).of_same hrow (fun hsome => (Workspace.provenance_note_of_ne hx _).trans
      (Workspace.provenance_setDb hsome)) rfl

theorem current_setDb {db : Database} (h : Current s)
    (hrow : ∀ x row', db.file? x = some row' → ∃ row, s.db.file? x = some row ∧
      (row'.tsIndexed = true → row.tsIndexed = true) ∧
        (row'.lspIndexed = true → row.lspIndexed = true)) : Current (s.setDb db) :=
  fun x => (h x).of_cleared (hrow x) (fun hsome => Workspace.provenance_setDb hsome) rfl

theorem current_iff_of_others (hother : ∀ x, x ≠ path → CurrentAt s' x) :
    Current s' ↔ CurrentAt s' path := by
  refine ⟨fun h => h path, fun h x => ?_⟩
  by_cases hx : x = path
  · rw [hx]
    exact h
  · exact hother x hx

theorem currentAt_mark_iff {mark : FileRow → FileRow} {P : Prop}
    (hrow : s'.db.file? path = (s.db.file? path).map mark)
    (hnotified : (s.db.file? path).isSome →
      (s'.provenance path).unnotified = (s.provenance path).unnotified)
    (hmark : ∀ row, s.db.file? path = some row → (s.provenance path).unnotified = 0 →
      (((mark row).tsIndexed = true → s'.Latest path (s'.provenance path).chunksFrom) ∧
        ((mark row).lspIndexed = true → s'.Latest path (s'.provenance path).symbolsFrom) ↔ P)) :
    CurrentAt s' path ↔ ((s.db.file? path).isSome → (s.provenance path).unnotified = 0 → P) := by
  constructor
  · intro hcurrent hsome hzero
    obtain ⟨row, hold⟩ := Option.isSome_iff_exists.mp hsome
    rw [hold] at hrow
    have hvouched := hcurrent (mark row) hrow ((hnotified hsome).trans hzero)
    exact (hmark row hold hzero).mp hvouched
  · intro hright row' hrow' hzero
    rw [hrow] at hrow'
    obtain ⟨row, hold, rfl⟩ := Option.map_eq_some_iff.mp hrow'
    have hsome : (s.db.file? path).isSome := Option.isSome_of_eq_some hold
    have hzero' : (s.provenance path).unnotified = 0 := (hnotified hsome).symm.trans hzero
    exact (hmark row hold hzero').mpr (hright hsome hzero')

theorem current_indexFile_iff (h : Current s) (embedder : Option Embedder) (path : String)
    (content : Option Bytes) (todo : List String) :
    Current (s.indexFile t embedder path content) ↔
      MarksLatest t s (.writeFile embedder path content todo) := by
  have hother : ∀ x, x ≠ path → CurrentAt (s.indexFile t embedder path content) x := by
    intro x hx
    have hrow : (s.indexFile t embedder path content).db.file? x = s.db.file? x :=
      file?_indexFile_of_ne hx
    exact (h x).of_same hrow (fun hsome => (Workspace.provenance_setDb hsome).trans
      (Workspace.provenance_note_of_ne hx _)) rfl
  have hprovenance : (s.db.file? path).isSome →
      (s.indexFile t embedder path content).provenance path =
        { s.provenance path with
          marked := content
          chunksFrom := if (parseDirtyFile t.grammar path content).isSome then content
            else (s.provenance path).chunksFrom } := by
    intro hsome
    refine (Workspace.provenance_setDb ?_).trans (Workspace.provenance_note_self s path _)
    rw [file?_indexFile_self, Option.isSome_map]
    exact hsome
  rw [current_iff_of_others hother]
  refine currentAt_mark_iff (file?_indexFile_self t.grammar embedder s.db path content)
    (fun hsome => by rw [hprovenance hsome]) fun row hrow hzero => ?_
  rw [hprovenance (Option.isSome_of_eq_some hrow)]
  constructor
  · exact fun hvouched => hvouched.1 rfl
  · exact fun hlatest => ⟨fun _ => hlatest, (h path row hrow hzero).2⟩

theorem current_persistSymbols_iff (h : Current s) (path : String) (content : Bytes)
    (calls : List OutgoingCall) :
    Current (s.persistSymbols t path content) ↔
      MarksLatest t s (.lspSymbols path content calls) := by
  have hother : ∀ x, x ≠ path → CurrentAt (s.persistSymbols t path content) x := by
    intro x hx
    have hrow : (s.persistSymbols t path content).db.file? x = s.db.file? x :=
      file?_collectAndPersistSymbols_of_ne hx _
    exact (h x).of_same hrow (fun hsome => (Workspace.provenance_setDb hsome).trans
      (Workspace.provenance_note_of_ne hx _)) rfl
  have hself := file?_collectAndPersistSymbols_self s.db path (t.documentSymbols path content)
  have hprovenance : (s.db.file? path).isSome →
      (s.persistSymbols t path content).provenance path =
        { s.provenance path with symbolsFrom := some content } := by
    intro hsome
    refine (Workspace.provenance_setDb ?_).trans (Workspace.provenance_note_self s path _)
    rw [hself, Option.isSome_map]
    exact hsome
  rw [current_iff_of_others hother]
  refine currentAt_mark_iff hself (fun hsome => by rw [hprovenance hsome]) fun row hrow hzero => ?_
  rw [hprovenance (Option.isSome_of_eq_some hrow)]
  constructor
  · exact fun hvouched => hvouched.2 rfl
  · exact fun hlatest => ⟨(h path row hrow hzero).1, fun _ => hlatest⟩

theorem current_markFailed_iff (h : Current s) (path : String) :
    Current (s.setDb (s.db.markLspIndexed path)) ↔ MarksLatest t s (.lspMarkFailed path) := by
  have hother : ∀ x, x ≠ path → CurrentAt (s.setDb (s.db.markLspIndexed path)) x := by
    intro x hx
    have hrow : (s.db.markLspIndexed path).file? x = s.db.file? x :=
      file?_updateFile_of_ne hx s.db _
    exact (h x).of_same hrow (fun hsome => Workspace.provenance_setDb hsome) rfl
  have hprovenance : (s.db.file? path).isSome →
      (s.setDb (s.db.markLspIndexed path)).provenance path = s.provenance path := by
    intro hsome
    refine Workspace.provenance_setDb ?_
    rw [markLspIndexed, isSome_file?_updateFile]
    exact hsome
  rw [current_iff_of_others hother]
  refine currentAt_mark_iff (file?_updateFile_self s.db path _)
    (fun hsome => by rw [hprovenance hsome]) fun row hrow hzero => ?_
  rw [hprovenance (Option.isSome_of_eq_some hrow)]
  constructor
  · exact fun hvouched => hvouched.2 rfl
  · exact fun hlatest => ⟨(h path row hrow hzero).1, fun _ => hlatest⟩

theorem current_refresh (h : Current s) (actions : List String) :
    Current (s.setDb (s.db.applyInvalidationActions actions)) := by
  refine current_setDb h fun x => foldl_keeps (I := fun db : Database =>
    ∀ row', db.file? x = some row' → ∃ row, s.db.file? x = some row ∧
      (row'.tsIndexed = true → row.tsIndexed = true) ∧
        (row'.lspIndexed = true → row.lspIndexed = true))
    (fun db path _ hdb row' hrow' => ?_) fun row hrow => ⟨row, hrow, id, id⟩
  by_cases hx : x = path
  · rw [hx, file?_updateFile_self] at hrow'
    obtain ⟨mid, hmid, rfl⟩ := Option.map_eq_some_iff.mp hrow'
    obtain ⟨row, hrow, hts, -⟩ := hdb mid (hx ▸ hmid)
    exact ⟨row, hrow, hts, fun hlsp => absurd hlsp (by simp)⟩
  · rw [file?_updateFile_of_ne hx] at hrow'
    exact hdb row' hrow'

theorem current_advance_iff (h : Current s) (hindexing : r.isIndexing) :
    Current (Call.advance t s r).1 ↔ MarksLatest t s r := by
  cases r with
  | edit path file => exact iff_of_true (current_edit h path file) trivial
  | notify event => exact iff_of_true (current_notify h event) trivial
  | startupCleanup => exact hindexing.elim
  | hashFiles todo found => exact hindexing.elim
  | queryDirty embedder => exact iff_of_true h trivial
  | readFile embedder todo => cases todo <;> exact iff_of_true h trivial
  | writeFile embedder path content todo => exact current_indexFile_iff h embedder path content todo
  | lspRead path answer =>
    rw [Call.advance_lspRead]
    exact iff_of_true h trivial
  | lspSymbols path content calls => exact current_persistSymbols_iff h path content calls
  | lspEdges path calls actions =>
    have hsame := sameIndex_collectAndPersistCallEdges s.db path calls
    refine iff_of_true (current_setDb h fun x row hrow => ⟨row, ?_, id, id⟩) trivial
    rw [← hsame.file?]
    exact hrow
  | lspRefresh actions => exact iff_of_true (current_refresh h actions) trivial
  | lspMarkFailed path => exact current_markFailed_iff h path

def Sourced (t : Tools) (s : Workspace) : Prop :=
  ∀ path, (s.db.chunksOf path).map ChunkRow.unembedded =
    chunkRows t path (s.provenance path).chunksFrom

theorem sourced_setDb {db : Database}
    (h : ∀ path, (db.file? path).isSome → (db.chunksOf path).map ChunkRow.unembedded =
      chunkRows t path (s.provenance path).chunksFrom) : Sourced t (s.setDb db) := by
  intro path
  cases hrow : db.file? path with
  | none =>
    have hnone : ((s.setDb db).provenance path).chunksFrom = none := by
      simp [Workspace.setDb, hrow]
    rw [hnone, Workspace.db_setDb, chunksOf_eq_nil hrow]
    rfl
  | some row =>
    have hsome : (db.file? path).isSome := Option.isSome_of_eq_some hrow
    rw [Workspace.provenance_setDb hsome]
    exact h path hsome

theorem sourced_kept (h : Sourced t s) {db : Database}
    (hkept : ∀ path, (db.file? path).isSome → db.chunksOf path = s.db.chunksOf path) :
    Sourced t (s.setDb db) := by
  refine sourced_setDb fun path hsome => ?_
  rw [hkept path hsome]
  exact h path

theorem sourced_note (h : Sourced t s) (path : String) {f : Provenance → Provenance}
    (hf : ∀ p, (f p).chunksFrom = p.chunksFrom) : Sourced t (s.note path f) := by
  intro x
  by_cases hx : x = path
  · rw [hx, Workspace.provenance_note_self, hf]
    exact h path
  · rw [Workspace.provenance_note_of_ne hx]
    exact h x

theorem sourced_notify (h : Sourced t s) (event : FileEvent) : Sourced t (s.notify event) := by
  have hkept : ∀ path, ((s.db.notify event).file? path).isSome →
      (s.db.notify event).chunksOf path = s.db.chunksOf path := by
    intro path hsome
    cases event with
    | created x => exact chunksOf_upsertFile s.db x _ _ path
    | modified x => exact chunksOf_upsertFile s.db x _ _ path
    | deleted x =>
      have hx : path ≠ x := by
        rintro rfl
        rw [Database.notify, file?_deleteFile_self] at hsome
        exact absurd hsome (by simp)
      exact chunksOf_deleteFile_of_ne hx s.db
  exact sourced_note (sourced_kept h hkept) event.path fun _ => rfl

theorem sourced_reconcile (h : Sourced t s) (w : Walker) (found : List (String × Bytes)) :
    Sourced t (s.setDb (s.db.reconcile w found)) := by
  refine sourced_kept h ?_
  refine reconcile_keeps
    (I := fun mid : Database => ∀ path, (mid.file? path).isSome →
      mid.chunksOf path = s.db.chunksOf path)
    (fun mid x hmid path hsome => ?_) (fun mid x hash hmid path hsome => ?_)
    (fun mid x hash hnew hmid path hsome => ?_) (fun mid hmid path hsome => ?_) fun _ _ => rfl
  · by_cases hx : path = x
    · rw [hx] at hsome
      exact absurd hsome (by simp)
    · rw [file?_deleteFile_of_ne hx] at hsome
      rw [chunksOf_deleteFile_of_ne hx]
      exact hmid path hsome
  · rw [isSome_file?_updateFile] at hsome
    exact hmid path hsome
  · by_cases hrow : (mid.file? path).isSome
    · exact hmid path hrow
    · have hx : path = x := by
        by_contra hne
        rw [file?_putFile_of_ne hne] at hsome
        exact hrow hsome
      rw [Option.not_isSome_iff_eq_none] at hrow
      rw [chunksOf_putFile, chunksOf_eq_nil hrow, chunksOf_eq_nil (hx ▸ hnew)]
  · rw [markNonLspCapableFiles, file?_updateFiles, Option.isSome_map] at hsome
    exact hmid path hsome

theorem sourced_edit (h : Sourced t s) (path : String) (file : Option (Option Bytes)) :
    Sourced t (s.edit path file) := by
  intro x
  have hfrom : ((s.edit path file).provenance x).chunksFrom = (s.provenance x).chunksFrom := by
    by_cases hx : x = path
    · rw [hx, Workspace.provenance_edit_self]
    · rw [Workspace.provenance_edit_of_ne hx]
  rw [hfrom]
  exact h x

theorem sourced_indexFile (h : Sourced t s) (embedder : Option Embedder) (path : String)
    (content : Option Bytes) : Sourced t (s.indexFile t embedder path content) := by
  refine sourced_setDb fun x hsome => ?_
  by_cases hx : x = path
  · rw [hx, file?_indexFile_self, Option.isSome_map] at hsome
    rw [hx, Workspace.provenance_note_self, unembedded_chunksOf_indexFile hsome, chunksLeft,
      bind_chunkFile]
    cases hparsed : parseDirtyFile t.grammar path content with
    | none => exact h path
    | some parsed =>
      rw [Option.isSome_some, if_pos rfl, chunkRows, bind_chunkFile, hparsed]
      rfl
  · rw [Workspace.provenance_note_of_ne hx, chunksOf_indexFile_of_ne hx]
    exact h x

theorem sourced_advance (h : Sourced t s) : Sourced t (Call.advance t s r).1 := by
  cases r with
  | edit path file => exact sourced_edit h path file
  | notify event => exact sourced_notify h event
  | startupCleanup => exact h
  | hashFiles todo found =>
    cases todo with
    | nil => exact sourced_reconcile h t.toWalker found
    | cons path todo => exact h
  | queryDirty embedder => exact h
  | readFile embedder todo => cases todo <;> exact h
  | writeFile embedder path content todo => exact sourced_indexFile h embedder path content
  | lspRead path answer =>
    rw [Call.advance_lspRead]
    exact h
  | lspSymbols path content calls =>
    exact sourced_kept (sourced_note h path (f := fun p => { p with symbolsFrom := some content })
      fun _ => rfl) fun x _ => chunksOf_collectAndPersistSymbols s.db path _ x
  | lspEdges path calls actions =>
    have hsame := sameIndex_collectAndPersistCallEdges s.db path calls
    exact sourced_kept h fun x _ => hsame.chunksOf x
  | lspRefresh actions =>
    refine sourced_kept h fun x _ => ?_
    refine foldl_keeps (I := fun mid : Database => mid.chunksOf x = s.db.chunksOf x)
      (fun mid path _ hmid => ?_) rfl
    exact (chunksOf_updateFile mid path _ x).trans hmid
  | lspMarkFailed path => exact sourced_kept h fun _ _ => rfl

def IndexesLatest (t : Tools) (s : Workspace) (r : Call) (_ : List Call) : Prop :=
  r.isIndexing ∧ MarksLatest t s r

section

variable {disk : Disk} {calls : List Call}

theorem current_run (h : Run (indexProtocol t) (IndexesLatest t) (.empty disk, []) (s, calls)) :
    Current s := by
  refine Run.invariant_state (fun s r others hok hI => ?_) h ?_
  · exact (current_advance_iff hI hok.1).mpr hok.2
  · exact fun path row hrow => absurd (hrow.symm.trans (file?_empty path)) (by simp)

theorem sourced_run {ok : Workspace → Call → List Call → Prop}
    (h : Run (indexProtocol t) ok (.empty disk, []) (s, calls)) : Sourced t s :=
  Run.invariant_state (I := Sourced t) (fun _ _ _ _ hI => sourced_advance hI) h fun _ => rfl

end

theorem dirty_marks_kept {disk : Disk} {calls : List Call}
    (h : Run (indexProtocol t) (IndexesLatest t) (.empty disk, []) (s, calls)) :
    Current s ∧
      (∀ path row, s.db.file? path = some row → (s.provenance path).unnotified = 0 →
        row.tsIndexed = true → s.db.chunksOf path = [] ∨
          (s.db.chunksOf path).map ChunkRow.unembedded = chunkRows t path (s.disk.read path)) ∧
        ∀ r ∈ calls, r.isIndexing → (Current (Call.advance t s r).1 ↔ MarksLatest t s r) := by
  have hcurrent := current_run h
  refine ⟨hcurrent, fun path row hrow hnotified hts => ?_, fun r _ hindexing =>
    current_advance_iff hcurrent hindexing⟩
  have hsourced := sourced_run h path
  rcases (hcurrent path row hrow hnotified).1 hts with hnone | hlatest
  · rw [hnone] at hsourced
    exact .inl (List.map_eq_nil_iff.mp hsourced)
  · rw [hlatest] at hsourced
    exact .inr hsourced

theorem dirty_marks_kept_created :
    Current (createdFile.indexFile oneChunk none "a.rs" (some [1])) := by
  have hrun := @run_createdFile (IndexesLatest oneChunk) none
    ⟨trivial, trivial⟩ ⟨trivial, trivial⟩ ⟨trivial, trivial⟩ ⟨trivial, trivial⟩
    ⟨trivial, fun _ _ => .inr (by decide)⟩
  exact (dirty_marks_kept hrun).1

def lateMark : List (Move Call) :=
  [.start (.edit "a.rs" (some (some [1]))), .advance 0, .start (.notify (.created "a.rs")),
    .advance 0, .start (.queryDirty none), .advance 0, .advance 0,
    .start (.edit "a.rs" (some (some [2]))), .advance 0,
    .start (.notify (.modified "a.rs")), .advance 0, .advance 0]

theorem late_mark_is_lost :
    ∃ s calls, play (indexProtocol oneChunk) (.empty .empty, []) lateMark = some (s, calls) ∧
      s.disk.read "a.rs" = some [2] ∧ (s.db.chunksOf "a.rs").map ChunkRow.text = [[1]] ∧
        ¬Current s := by
  have hplay : (play (indexProtocol oneChunk) (.empty .empty, []) lateMark).isSome = true := by
    decide
  refine ⟨_, _, (Option.some_get hplay).symm, by decide, by decide, ?_⟩
  intro hcurrent
  have hlatest := hcurrent "a.rs" ⟨[], true, false, false⟩ (by decide) (by decide)
  rcases hlatest.1 rfl with hnone | hread
  · exact absurd hnone (by decide)
  · exact absurd hread (by decide)

end SwissArmyHammer.CodeContext
