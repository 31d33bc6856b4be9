import SwissArmyHammer.CodeContext.Workspace

/-! The embedded flag of a file, against its chunks and the pass that marked it last. -/

namespace SwissArmyHammer.CodeContext

open Concurrency Database

def FullyEmbedded (t : Tools) (path : String) (content : Option Bytes) (chunks : List ChunkRow) :
    Prop :=
  (∀ chunk ∈ chunks, chunk.embedding.isSome) ∧
    chunks.map ChunkRow.unembedded = chunkRows t path content

/-- The embedded flag of an indexed file is true of what its last mark has read. -/
def EmbeddedTrue (t : Tools) (s : Workspace) : Prop :=
  Indexed (fun path _ embedded chunks =>
    embedded = true → FullyEmbedded t path (s.provenance path).marked chunks) s.db

/-- A pass that marks a file whose embedded flag is set embeds every chunk of it, or, where it
cannot parse it, finds no chunks. -/
def MarksEmbedded (t : Tools) (s : Workspace) : Call → Prop
  | .writeFile embedder path content _ =>
    ∀ row, s.db.file? path = some row → row.embedded = true →
      match parseDirtyFile t.grammar path content with
      | none => s.db.chunksOf path = []
      | some parsed => ∀ chunk ∈ embedFileChunks embedder path parsed, chunk.embedding.isSome
  | _ => True

variable {t : Tools} {s : Workspace} {r : Call}

theorem marked_advance (path : String)
    (h : ∀ embedder x content todo, r ≠ .writeFile embedder x content todo) :
    ((Call.advance t s r).1.provenance path).marked = (s.provenance path).marked := by
  have hset : ∀ (s : Workspace) (db : Database),
      ((s.setDb db).provenance path).marked = (s.provenance path).marked := by
    intro s db
    show (if (db.file? path).isSome then _ else _ : Provenance).marked = _
    split <;> rfl
  have hnote : ∀ (s : Workspace) (x : String) (f : Provenance → Provenance),
      (∀ p, (f p).marked = p.marked) →
        ((s.note x f).provenance path).marked = (s.provenance path).marked := by
    intro s x f hf
    by_cases hx : path = x
    · rw [hx, Workspace.provenance_note_self, hf]
    · rw [Workspace.provenance_note_of_ne hx]
  cases r with
  | edit x file =>
    show ((s.edit x file).provenance path).marked = _
    by_cases hx : path = x
    · rw [hx, Workspace.provenance_edit_self]
    · rw [Workspace.provenance_edit_of_ne hx]
  | notify event =>
    exact (hnote (s.setDb _) event.path (fun p => { p with unnotified := p.unnotified - 1 })
      fun _ => rfl).trans (hset s _)
  | startupCleanup => rfl
  | hashFiles todo found =>
    cases todo with
    | nil => exact hset s _
    | cons x todo => rfl
  | queryDirty embedder => rfl
  | readFile embedder todo => cases todo <;> rfl
  | writeFile embedder x content todo => exact absurd rfl (h embedder x content todo)
  | lspRead x answer => rw [Call.advance_lspRead]
  | lspSymbols x content calls =>
    exact (hset (s.note x _) _).trans
      (hnote s x (fun p => { p with symbolsFrom := some content }) fun _ => rfl)
  | lspEdges x calls actions => exact hset s _
  | lspRefresh actions => exact hset s _
  | lspMarkFailed x => exact hset s _

theorem fullyEmbedded_indexFile_iff {row : FileRow} {embedder : Option Embedder} {path : String}
    {content : Option Bytes} (hrow : s.db.file? path = some row)
    (hafter : (marksEmbedded t.grammar embedder path content || row.embedded) = true) :
    FullyEmbedded t path content
        ((s.db.indexFile t.grammar embedder path content).chunksOf path) ↔
      (row.embedded = true →
        match parseDirtyFile t.grammar path content with
        | none => s.db.chunksOf path = []
        | some parsed =>
          ∀ chunk ∈ embedFileChunks embedder path parsed, chunk.embedding.isSome) := by
  have hsome : (s.db.file? path).isSome := Option.isSome_of_eq_some hrow
  rw [marksEmbedded] at hafter
  cases hparsed : parseDirtyFile t.grammar path content with
  | none =>
    have hembedded : row.embedded = true := by simpa [hparsed] using hafter
    have hrows : chunkRows t path content = [] := by
      rw [chunkRows, bind_chunkFile, hparsed]
      rfl
    rw [chunksOf_indexFile_of_unparsed hparsed, FullyEmbedded, hrows, List.map_eq_nil_iff]
    constructor
    · exact fun h _ => h.2
    · grind
  | some parsed =>
    have hrows : chunkRows t path content = parsed.prepared path := by
      rw [chunkRows, bind_chunkFile, hparsed]
      rfl
    rw [chunksOf_indexFile_of_parsed hparsed hsome, FullyEmbedded, hrows,
      unembedded_embedFileChunks]
    constructor
    · exact fun h _ => h.1
    · intro h
      refine ⟨?_, rfl⟩
      rw [hparsed, Bool.or_eq_true] at hafter
      rcases hafter with hall | hembedded
      · exact List.all_eq_true.mp (Bool.and_eq_true_iff.mp hall).2
      · exact h hembedded

theorem embeddedTrue_indexFile_iff (h : EmbeddedTrue t s) (embedder : Option Embedder)
    (path : String) (content : Option Bytes) (todo : List String) :
    EmbeddedTrue t (s.indexFile t embedder path content) ↔
      MarksEmbedded t s (.writeFile embedder path content todo) := by
  have hmarked : ((s.indexFile t embedder path content).provenance path).marked = content := by
    show (if _ then _ else _ : Provenance).marked = content
    rw [Workspace.provenance_note_self]
    split <;> rfl
  have hother : ∀ x, x ≠ path → ((s.indexFile t embedder path content).provenance x).marked =
      (s.provenance x).marked := by
    intro x hx
    show (if _ then _ else _ : Provenance).marked = _
    rw [Workspace.provenance_note_of_ne hx]
    split <;> rfl
  have hself : (s.indexFile t embedder path content).db.file? path =
      (s.db.file? path).map
        (FileRow.markTsIndexed (marksEmbedded t.grammar embedder path content)) :=
    file?_indexFile_self t.grammar embedder s.db path content
  constructor
  · intro htrue row hrow hembedded
    have hafter : (marksEmbedded t.grammar embedder path content || row.embedded) = true := by
      rw [hembedded, Bool.or_true]
    rw [hrow] at hself
    have hfull := htrue path _ hself rfl hafter
    rw [hmarked] at hfull
    exact (fullyEmbedded_indexFile_iff hrow hafter).mp hfull hembedded
  · intro hmarks x row' hrow' hts hembedded
    by_cases hx : x = path
    · subst hx
      rw [hself] at hrow'
      obtain ⟨row, hrow, rfl⟩ := Option.map_eq_some_iff.mp hrow'
      rw [hmarked]
      exact (fullyEmbedded_indexFile_iff hrow hembedded).mpr (hmarks row hrow)
    · have hfile : (s.indexFile t embedder path content).db.file? x = s.db.file? x :=
        file?_indexFile_of_ne hx
      have hchunks : (s.indexFile t embedder path content).db.chunksOf x = s.db.chunksOf x :=
        chunksOf_indexFile_of_ne hx
      rw [hfile] at hrow'
      rw [hother x hx, hchunks]
      exact h x row' hrow' hts hembedded

theorem embeddedTrue_advance_iff (h : EmbeddedTrue t s) :
    EmbeddedTrue t (Call.advance t s r).1 ↔ MarksEmbedded t s r := by
  have hkept : (∀ embedder path content todo, r ≠ .writeFile embedder path content todo) →
      EmbeddedTrue t (Call.advance t s r).1 := by
    intro hr path row hrow hts hembedded
    have hsame := Indexed.advance (t := t) (r := r) h fun embedder path content todo heq =>
      absurd heq (hr embedder path content todo)
    rw [marked_advance path hr]
    exact hsame path row hrow hts hembedded
  cases r with
  | writeFile embedder path content todo =>
    exact embeddedTrue_indexFile_iff h embedder path content todo
  | _ => exact iff_of_true (hkept (by simp)) trivial

theorem embedded_flag_true {disk : Disk} {calls : List Call}
    (h : Run (indexProtocol t) (fun s r _ => MarksEmbedded t s r) (.empty disk, []) (s, calls)) :
    EmbeddedTrue t s ∧
      ∀ r ∈ calls, (EmbeddedTrue t (Call.advance t s r).1 ↔ MarksEmbedded t s r) := by
  have htrue : EmbeddedTrue t s := by
    refine Run.invariant_state (I := EmbeddedTrue t) (fun s r others hok hI => ?_) h Indexed.empty
    exact (embeddedTrue_advance_iff hI).mpr hok
  exact ⟨htrue, fun r _ => embeddedTrue_advance_iff htrue⟩

def verbatim : Embedder := fun _ _ text => some text

theorem embedded_flag_true_created :
    EmbeddedTrue oneChunk (createdFile.indexFile oneChunk (some verbatim) "a.rs" (some [1])) := by
  have hwrite : MarksEmbedded oneChunk createdFile
      (.writeFile (some verbatim) "a.rs" (some [1]) []) := by
    intro row hrow hembedded
    rw [show createdFile.db.file? "a.rs" = some ⟨[], false, false, false⟩ by decide,
      Option.some.injEq] at hrow
    rw [← hrow] at hembedded
    exact absurd hembedded (by simp)
  exact (embedded_flag_true (run_createdFile trivial trivial trivial trivial hwrite)).1

def secondPass : List (Move Call) :=
  [.start (.edit "a.rs" (some (some [1]))), .advance 0, .start (.notify (.created "a.rs")),
    .advance 0, .start (.queryDirty (some verbatim)), .advance 0, .advance 0, .advance 0,
    .advance 0, .start (.edit "a.rs" (some (some [2]))), .advance 0,
    .start (.notify (.modified "a.rs")), .advance 0, .start (.queryDirty none), .advance 0,
    .advance 0, .advance 0, .advance 0]

theorem embedded_flag_lies :
    ∃ s calls, play (indexProtocol oneChunk) (.empty .empty, []) secondPass = some (s, calls) ∧
      s.db.file? "a.rs" = some ⟨[], true, false, true⟩ ∧
        (s.db.chunksOf "a.rs").map ChunkRow.embedding = [none] ∧ ¬EmbeddedTrue oneChunk s := by
  have hplay : (play (indexProtocol oneChunk) (.empty .empty, []) secondPass).isSome = true := by
    decide
  refine ⟨_, _, (Option.some_get hplay).symm, by decide, by decide, ?_⟩
  intro htrue
  have hfull := htrue "a.rs" ⟨[], true, false, true⟩ (by decide) rfl rfl
  exact absurd hfull.1 (by decide)

end SwissArmyHammer.CodeContext
