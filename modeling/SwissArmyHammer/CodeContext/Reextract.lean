import SwissArmyHammer.CodeContext.Requeue

/-! What reading the symbols of a file again replaces, and what it leaves alone. -/

namespace SwissArmyHammer.CodeContext

namespace Database

def lastEntry (symbols : List FlatSymbol) (id : String) : Option SymbolRow :=
  (symbols.reverse.find? fun symbol => symbol.1 = id).map Prod.snd

section

variable {symbols : List FlatSymbol} {symbol : FlatSymbol} {id : String} {row : SymbolRow}

theorem lastEntry_cons : lastEntry (symbol :: symbols) id =
    (lastEntry symbols id).or (if symbol.1 = id then some symbol.2 else none) := by
  rw [lastEntry, lastEntry, List.reverse_cons, List.find?_append]
  cases symbols.reverse.find? fun symbol => symbol.1 = id with
  | some other => rfl
  | none =>
    by_cases h : symbol.1 = id
    · simp [h]
    · simp [h]

theorem mem_of_lastEntry (h : lastEntry symbols id = some row) : (id, row) ∈ symbols := by
  obtain ⟨symbol, hfind, rfl⟩ := Option.map_eq_some_iff.mp h
  have hid : symbol.1 = id := by simpa using List.find?_some hfind
  rw [← hid]
  exact List.mem_reverse.mp (List.mem_of_find?_eq_some hfind)

theorem lastEntry_eq_none : lastEntry symbols id = none ↔ id ∉ symbols.map Prod.fst := by
  rw [lastEntry, Option.map_eq_none_iff, List.find?_eq_none]
  simp only [List.mem_reverse, decide_eq_true_eq, List.mem_map, not_exists, not_and]

end

section

variable {db db' : Database} {symbols : List FlatSymbol}

theorem symbol?_upsertSymbols (h : (db.upsertSymbols symbols).2 = true) (id : String) :
    (db.upsertSymbols symbols).1.symbol? id = (lastEntry symbols id).or (db.symbol? id) := by
  rw [upsertSymbols] at h ⊢
  induction symbols generalizing db with
  | nil => rfl
  | cons symbol symbols ih =>
    rw [executeEach] at h ⊢
    cases hnext : db.upsertSymbol symbol.1 symbol.2 with
    | none => simp [hnext] at h
    | some next =>
      simp only [hnext] at h ⊢
      rw [ih h, of_upsertSymbol hnext, lastEntry_cons]
      by_cases hid : id = symbol.1
      · simp [hid]
      · simp [hid, Ne.symm hid]

end

section

variable {db : Database} {filePath : String} {newSymbols : List FlatSymbol} {id : String}

def deletedIds (db : Database) (filePath : String) (newSymbols : List FlatSymbol) : List String :=
  (db.symbolIds filePath).filter fun id => id ∉ newSymbols.map Prod.fst

theorem mem_deletedIds_iff : id ∈ db.deletedIds filePath newSymbols ↔
    lastEntry newSymbols id = none ∧ ∃ row, db.symbol? id = some row ∧ row.filePath = filePath := by
  rw [deletedIds, List.mem_filter, mem_symbolIds, lastEntry_eq_none, decide_eq_true_eq, and_comm]

theorem reextractInChunks_eq (db : Database) (filePath : String) (newSymbols : List FlatSymbol) :
    db.reextractInChunks filePath newSymbols =
      let gone := db.deletedIds filePath newSymbols
      let written := (db.deleteSymbols fun id _ => id ∈ gone).upsertSymbols newSymbols
      (written.1, if written.2 then some (db.findReverseEdgeFiles gone filePath) else none) := by
  dsimp only
  rw [← deleteSymbolsById_eq]
  rfl

theorem reextractSymbols_eq (db : Database) (filePath : String) (newSymbols : List FlatSymbol) :
    db.reextractSymbols filePath newSymbols =
      let gone := db.deletedIds filePath newSymbols
      let written := (db.deleteSymbols fun id _ => id ∈ gone).upsertSymbols newSymbols
      (written.1, if written.2 then some (db.reverseEdgeFiles gone filePath) else none) := rfl

theorem symbol?_kept (gone : List String) (id : String) :
    (db.deleteSymbols fun id _ => id ∈ gone).symbol? id =
      if id ∈ gone then none else db.symbol? id := by
  ext row
  show (db.lspSymbols.filter _).get? id = some row ↔ _
  rw [IndexMap.get?_filter_eq_some]
  by_cases h : id ∈ gone
  · simp [h]
  · simp [h, Database.symbol?]

/-- The rows of the file are the last entries, the calls whose ends are there stay as they are, and
other files lose at most symbols whose ids are in the list. -/
structure Replaced (db : Database) (filePath : String) (newSymbols : List FlatSymbol)
    (after : Database) : Prop where
  rows : ∀ id row, after.symbol? id = some row ∧ row.filePath = filePath ↔
    lastEntry newSymbols id = some row
  edges : after.lspCallEdges = db.lspCallEdges.filter after.hasEnds
  others : ∀ id row, row.filePath ≠ filePath →
    (after.symbol? id = some row ↔ db.symbol? id = some row ∧ lastEntry newSymbols id = none)

theorem symbol?_reextractInChunks (h : (db.reextractInChunks filePath newSymbols).2.isSome)
    (id : String) :
    (db.reextractInChunks filePath newSymbols).1.symbol? id = (lastEntry newSymbols id).or
      (if id ∈ db.deletedIds filePath newSymbols then none else db.symbol? id) := by
  rw [reextractInChunks_eq] at h ⊢
  dsimp only at h ⊢
  split_ifs at h with hwritten
  · rw [symbol?_upsertSymbols hwritten, symbol?_kept]
  · simp at h

theorem edges_reextractInChunks (h : (db.reextractInChunks filePath newSymbols).2.isSome) :
    (db.reextractInChunks filePath newSymbols).1.lspCallEdges =
      db.lspCallEdges.filter (db.reextractInChunks filePath newSymbols).1.hasEnds := by
  have hsurvives : ∀ id, (db.symbol? id).isSome →
      ((db.deleteSymbols fun id _ => id ∈ db.deletedIds filePath newSymbols).symbol? id).isSome =
        ((db.reextractInChunks filePath newSymbols).1.symbol? id).isSome := by
    intro id hid
    rw [symbol?_kept, symbol?_reextractInChunks h]
    cases hlast : lastEntry newSymbols id with
    | none => rfl
    | some row =>
      have hnot : id ∉ db.deletedIds filePath newSymbols := fun hdeleted => by
        have hnone := (mem_deletedIds_iff.mp hdeleted).1
        simp [hlast] at hnone
      rw [if_neg hnot, hid]
      rfl
  have hedges : (db.reextractInChunks filePath newSymbols).1.lspCallEdges =
      db.lspCallEdges.filter
        (db.deleteSymbols fun id _ => id ∈ db.deletedIds filePath newSymbols).hasEnds := by
    rw [reextractInChunks_eq]
    exact lspCallEdges_upsertSymbols _ newSymbols
  rw [hedges]
  refine List.filter_congr fun edge hmem => ?_
  obtain ⟨hcaller, hcallee⟩ := db.ends_of_edge edge hmem
  rw [hasEnds, hasEnds, hsurvives _ hcaller, hsurvives _ hcallee]

theorem replaced_reextractInChunks (hfile : ∀ symbol ∈ newSymbols, symbol.2.filePath = filePath)
    (h : (db.reextractInChunks filePath newSymbols).2.isSome) :
    Replaced db filePath newSymbols (db.reextractInChunks filePath newSymbols).1 := by
  have hown : ∀ {id row}, lastEntry newSymbols id = some row → row.filePath = filePath :=
    fun hlast => hfile _ (mem_of_lastEntry hlast)
  refine ⟨fun id row => ?_, edges_reextractInChunks h, fun id row hne => ?_⟩
  · rw [symbol?_reextractInChunks h]
    cases hlast : lastEntry newSymbols id with
    | some last =>
      exact ⟨fun hrow => hrow.1, fun hrow => ⟨hrow, Option.some.inj hrow ▸ hown hlast⟩⟩
    | none =>
      refine iff_of_false ?_ (by simp)
      rintro ⟨hrow, hrowFile⟩
      by_cases hdeleted : id ∈ db.deletedIds filePath newSymbols
      · simp [hdeleted] at hrow
      · rw [if_neg hdeleted] at hrow
        exact hdeleted (mem_deletedIds_iff.mpr ⟨hlast, row, hrow, hrowFile⟩)
  · rw [symbol?_reextractInChunks h]
    cases hlast : lastEntry newSymbols id with
    | some last =>
      refine iff_of_false (fun hrow => hne ?_) (by simp)
      rw [← Option.some.inj hrow]
      exact hown hlast
    | none =>
      by_cases hdeleted : id ∈ db.deletedIds filePath newSymbols
      · rw [if_pos hdeleted]
        obtain ⟨-, old, hold, holdFile⟩ := mem_deletedIds_iff.mp hdeleted
        refine iff_of_false (by simp) fun hrow => hne ?_
        rw [hold, Option.some.injEq] at hrow
        rw [← hrow.1]
        exact holdFile
      · rw [if_neg hdeleted]
        simp

theorem reextractInChunks_same (db : Database) (filePath : String) (newSymbols : List FlatSymbol) :
    let inChunks := db.reextractInChunks filePath newSymbols
    let atOnce := db.reextractSymbols filePath newSymbols
    inChunks.1 = atOnce.1 ∧ inChunks.2.isSome = atOnce.2.isSome ∧
      ∀ files files', inChunks.2 = some files → atOnce.2 = some files' → files.Perm files' := by
  rw [reextractInChunks_eq, reextractSymbols_eq]
  refine ⟨rfl, ?_, fun files files' hfiles hfiles' => ?_⟩
  · dsimp only
    split <;> rfl
  · dsimp only at hfiles hfiles'
    split_ifs at hfiles hfiles'
    rw [← Option.some.inj hfiles, ← Option.some.inj hfiles']
    exact (List.perm_ext_iff_of_nodup (nodup_findReverseEdgeFiles db _ _) (List.nodup_dedup _)).mpr
      fun file => mem_findReverseEdgeFiles

theorem reextractInChunks_succeeds_iff (db : Database) (filePath : String)
    (newSymbols : List FlatSymbol) : (db.reextractInChunks filePath newSymbols).2.isSome ↔
      ∀ symbol ∈ newSymbols, (db.file? symbol.2.filePath).isSome := by
  have hiff := upsertSymbols_succeeds_iff
    (db.deleteSymbols fun id _ => id ∈ db.deletedIds filePath newSymbols) newSymbols
  rw [reextractInChunks_eq]
  dsimp only
  split
  · rename_i hwritten
    exact iff_of_true rfl (hiff.mp hwritten)
  · rename_i hwritten
    exact iff_of_false (by simp) fun h => hwritten (hiff.mpr h)

def innerSymbol : SymbolRow := ⟨"c", 12, "a:b", 0, 0, 1, 0, none⟩

def namesakes : Database :=
  ((empty.putFile "a" ⟨[], true, true, true⟩).putFile "a:b" ⟨[], true, true, true⟩).putSymbol
    (lspSymbolId "a:b" "c") innerSymbol rfl

def outerSymbols : List FlatSymbol := flattenSymbols "a" [.mk "b:c" 12 (4, 0) (5, 0) none []]

theorem namesakes_succeed : (namesakes.reextractInChunks "a" outerSymbols).2.isSome :=
  (reextractInChunks_succeeds_iff _ _ _).mpr (by decide)

end

end Database

end SwissArmyHammer.CodeContext
