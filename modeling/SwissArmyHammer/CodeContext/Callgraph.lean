import Mathlib.Data.List.Flatten
import Mathlib.Data.List.MinMax
import SwissArmyHammer.CodeContext.Database
import SwissArmyHammer.Common.Folds
import SwissArmyHammer.Text.Search

/-! Symbol paths, and the name that the statement for synthetic symbols cuts out of one. -/

namespace SwissArmyHammer.CodeContext

open Text

def components : List Char → List (List Char)
  | [] => [[]]
  | ':' :: ':' :: s => [] :: components s
  | c :: s =>
    match components s with
    | [] => [[c]]
    | piece :: pieces => (c :: piece) :: pieces

def withoutSeparators : List Char → List Char
  | [] => []
  | ':' :: ':' :: s => withoutSeparators s
  | c :: s => c :: withoutSeparators s

def lastComponent (path : List Char) : List Char := (components path).getLastD []

def symbolName (path : List Char) : List Char :=
  if (findFirst [':', ':'] path).isSome then
    path.drop (path.length - (withoutSeparators path).length + 2 - 1)
  else path

theorem components_ne_nil (path : List Char) : components path ≠ [] := by
  fun_cases components path <;> simp_all

theorem components_cons {c : Char} {s : List Char}
    (h : ∀ rest, c = ':' → s = ':' :: rest → False) :
    ∃ piece pieces, components s = piece :: pieces ∧
      components (c :: s) = (c :: piece) :: pieces := by
  obtain ⟨piece, pieces, hs⟩ := List.exists_cons_of_ne_nil (components_ne_nil s)
  refine ⟨piece, pieces, hs, ?_⟩
  rw [components.eq_3 _ _ h, hs]

theorem withoutSeparators_eq (path : List Char) :
    withoutSeparators path = (components path).flatten := by
  fun_induction withoutSeparators path with
  | case1 => rfl
  | case2 s ih => simpa [components] using ih
  | case3 c s h ih =>
    obtain ⟨piece, pieces, hs, hcons⟩ := components_cons h
    rw [hcons, ih, hs]
    rfl

theorem components_eq_append (path : List Char) :
    components path = (components path).dropLast ++ [lastComponent path] := by
  have hne := components_ne_nil path
  rw [lastComponent, List.getLastD_eq_getLast?, List.getLast?_eq_some_getLast hne]
  exact (List.dropLast_append_getLast hne).symm

theorem join_components (path : List Char) :
    (components path).dropLast.flatMap (· ++ [':', ':']) ++ lastComponent path = path := by
  rw [lastComponent]
  fun_induction components path with
  | case1 => rfl
  | case2 s ih =>
    obtain ⟨piece, pieces, hs⟩ := List.exists_cons_of_ne_nil (components_ne_nil s)
    rw [hs] at ih ⊢
    simpa using ih
  | case3 c s h hs => exact absurd hs (components_ne_nil s)
  | case4 c s h piece pieces hs ih =>
    rw [hs] at ih
    cases pieces with
    | nil => simpa using ih
    | cons other pieces => simpa using ih

theorem length_flatMap_separator (pieces : List (List Char)) :
    (pieces.flatMap (· ++ [':', ':'])).length = pieces.flatten.length + 2 * pieces.length := by
  induction pieces with
  | nil => rfl
  | cons piece pieces ih =>
    grind

theorem length_path (path : List Char) :
    path.length = (components path).dropLast.flatten.length +
      2 * ((components path).length - 1) + (lastComponent path).length := by
  have hlen := congrArg List.length (join_components path)
  rw [List.length_append, length_flatMap_separator, List.length_dropLast] at hlen
  exact hlen.symm

theorem length_withoutSeparators (path : List Char) :
    (withoutSeparators path).length =
      (components path).dropLast.flatten.length + (lastComponent path).length := by
  rw [withoutSeparators_eq, components_eq_append path]
  simp

theorem findFirst_separator_eq_none (path : List Char) :
    findFirst [':', ':'] path = none ↔ (components path).length = 1 := by
  fun_induction components path with
  | case1 => simp [findFirst]
  | case2 s ih => simp [findFirst, components_ne_nil s]
  | case3 c s h hs => exact absurd hs (components_ne_nil s)
  | case4 c s h piece pieces hs ih =>
    have hnot : ([':', ':'] : List Char).isPrefixOf (c :: s) = false := by
      rw [Bool.eq_false_iff]
      intro hstarts
      obtain ⟨rest, hrest⟩ := List.isPrefixOf_iff_prefix.mp hstarts
      obtain ⟨hc, hs⟩ := List.cons.inj hrest
      exact h rest hc.symm hs.symm
    rw [hs] at ih
    rw [findFirst, hnot, if_neg (by simp), Option.map_eq_none_iff, ih]
    simp

theorem symbolName_eq_lastComponent (path : List Char) :
    symbolName path = lastComponent path ↔
      (components path).length = 1 ∨ (components path).dropLast.flatten.length = 1 ∨
        (components path).flatten = [] := by
  have hsuffix : lastComponent path <:+ path :=
    ⟨_, join_components path⟩
  have hlen := length_path path
  have hwithout := length_withoutSeparators path
  by_cases hone : (components path).length = 1
  · have hnone := (findFirst_separator_eq_none path).mpr hone
    have hall : components path = [lastComponent path] := by
      have happend := components_eq_append path
      have hinit : (components path).dropLast = [] := by
        rw [← List.length_eq_zero_iff, List.length_dropLast]
        omega
      rw [happend, hinit]
      rfl
    have hpath : lastComponent path = path := by
      have hjoin := join_components path
      rw [hall] at hjoin
      simpa using hjoin
    rw [symbolName, hnone]
    simp [hone, hpath]
  · have hsome : (findFirst [':', ':'] path).isSome := by
      rw [Option.isSome_iff_ne_none]
      exact fun hnone => hone ((findFirst_separator_eq_none path).mp hnone)
    have hname : symbolName path = path.drop (2 * ((components path).length - 1) + 1) := by
      rw [symbolName, if_pos hsome]
      congr 1
      omega
    have hdrop : lastComponent path = path.drop (path.length - (lastComponent path).length) :=
      List.suffix_iff_eq_drop.mp hsuffix
    have hflat : (components path).flatten = [] ↔ (withoutSeparators path).length = 0 := by
      rw [withoutSeparators_eq, List.length_eq_zero_iff]
    rw [hname, hflat]
    constructor
    · grind
    · intro hcases
      have hsame : 2 * ((components path).length - 1) + 1 =
          path.length - (lastComponent path).length ∨
          path.length ≤ 2 * ((components path).length - 1) + 1 ∧
            path.length ≤ path.length - (lastComponent path).length := by omega
      rcases hsame with hsame | ⟨hname, hlast⟩
      · rw [hsame, ← hdrop]
      · rw [hdrop, List.drop_eq_nil_of_le hname, List.drop_eq_nil_of_le hlast]

end SwissArmyHammer.CodeContext

/-! The symbols that stand in for chunks, and the call edges that are guessed between them. -/

namespace SwissArmyHammer.CodeContext

structure CallSite where
  calleeName : String
  startByte : Nat
  endByte : Nat
  startLine : Nat
  endLine : Nat
  deriving DecidableEq

structure ResolvedCallee where
  calleeName : String
  filePath : String
  symbolPath : String
  deriving DecidableEq

/-- `LIKE`: `%` is any text, `_` any character, and the case of a letter does not matter. -/
def like : List Char → List Char → Bool
  | [], s => s.isEmpty
  | c :: pattern, s =>
    if c = '%' then s.tails.any (like pattern)
    else
      match s with
      | [] => false
      | d :: s => (c = '_' || c.toLower = d.toLower) && like pattern s

def tsSymbolId (filePath symbolPath : String) : String := "ts:" ++ filePath ++ ":" ++ symbolPath

def tsSymbol (chunk : ChunkRow) (symbolPath : String) : SymbolRow where
  name := String.ofList (symbolName symbolPath.toList)
  kind := 12
  filePath := chunk.filePath
  startLine := chunk.startLine
  startChar := 0
  endLine := chunk.endLine
  endChar := 0
  detail := none

namespace Database

def resolveCallee (db : Database) (name : String) : List ResolvedCallee :=
  let rows := db.tsChunks.filterMap fun chunk =>
    chunk.symbolPath.bind fun path =>
      if path = name ∨ like ("%::" ++ name).toList path.toList then
        some ⟨name, chunk.filePath, path⟩
      else none
  rows.eraseDups

def resolveCallees (db : Database) (names : List String) : List ResolvedCallee :=
  names.flatMap db.resolveCallee

def ensureTsSymbol (db : Database) (chunk : ChunkRow) : Option Database :=
  match chunk.symbolPath with
  | none => some db
  | some path => db.insertSymbolOrIgnore (tsSymbolId chunk.filePath path) (tsSymbol chunk path)

def ensureTsSymbols (db : Database) (filePath : String) : Database :=
  (executeEach ensureTsSymbol db (db.chunksOf filePath)).1

def buildEdgeForSite (db : Database) (filePath : String) (resolved : List ResolvedCallee)
    (site : CallSite) : Option CallEdge :=
  let around := (db.chunksOf filePath).filter fun chunk =>
    chunk.symbolPath.isSome && chunk.startByte ≤ site.startByte && site.endByte ≤ chunk.endByte
  match (around.argmin fun chunk => chunk.endByte - chunk.startByte).bind ChunkRow.symbolPath with
  | none => none
  | some callerSymbol =>
    let callerId := tsSymbolId filePath callerSymbol
    let callees := resolved.filter fun r => r.calleeName = site.calleeName
    (callees.find? fun r => callerId ≠ tsSymbolId r.filePath r.symbolPath).map fun r =>
      { callerId := callerId
        calleeId := tsSymbolId r.filePath r.symbolPath
        callerFile := filePath
        calleeFile := r.filePath
        fromRanges := s!"[[{site.startLine},0,{site.endLine},0]]"
        source := "treesitter" }

def generateTsCallEdges (db : Database) (filePath : String) (callSites : List CallSite) :
    Database × List CallEdge :=
  if callSites = [] then (db, [])
  else
    let uniqueNames := ((callSites.map CallSite.calleeName).mergeSort).dedup
    let resolved := db.resolveCallees uniqueNames
    if resolved = [] then (db, [])
    else
      let calleeFiles := ((resolved.map ResolvedCallee.filePath).mergeSort).dedup
      let ensured := calleeFiles.foldl ensureTsSymbols (db.ensureTsSymbols filePath)
      (ensured, callSites.filterMap (ensured.buildEdgeForSite filePath resolved))

def writeTsEdges (db : Database) (callerFile : String) (edges : List CallEdge) : Database :=
  let cleared := db.deleteEdges fun edge =>
    edge.callerFile = callerFile && edge.source = "treesitter"
  (executeEach insertEdge cleared edges).1

section

variable {db db' : Database}

theorem sameIndex_ensureTsSymbol {chunk : ChunkRow} (h : db.ensureTsSymbol chunk = some db') :
    SameIndex db db' := by
  rw [ensureTsSymbol] at h
  split at h
  · obtain rfl := Option.some.inj h
    exact .refl db
  · exact sameIndex_insertSymbolOrIgnore h

theorem sameIndex_ensureTsSymbols (db : Database) (filePath : String) :
    SameIndex db (db.ensureTsSymbols filePath) :=
  sameIndex_executeEach (fun _ _ _ h => sameIndex_ensureTsSymbol h) db _

theorem generateTsCallEdges_keeps {I : Database → Prop}
    (hstep : ∀ db filePath, I db → I (db.ensureTsSymbols filePath)) (filePath : String)
    (callSites : List CallSite) (h : I db) : I (db.generateTsCallEdges filePath callSites).1 := by
  rw [generateTsCallEdges]
  by_cases hsites : callSites = []
  · rw [if_pos hsites]
    exact h
  · rw [if_neg hsites]
    dsimp only
    split
    · exact h
    · exact foldl_keeps (fun mid file _ hmid => hstep mid file hmid) (hstep db filePath h)

theorem sameIndex_generateTsCallEdges (db : Database) (filePath : String)
    (callSites : List CallSite) : SameIndex db (db.generateTsCallEdges filePath callSites).1 :=
  generateTsCallEdges_keeps
    (fun mid path h => h.trans (sameIndex_ensureTsSymbols mid path)) filePath callSites (.refl db)

theorem sameIndex_writeTsEdges (db : Database) (callerFile : String) (edges : List CallEdge) :
    SameIndex db (db.writeTsEdges callerFile edges) :=
  (sameIndex_deleteEdges db _).trans
    (sameIndex_executeEach (fun _ _ _ h => sameIndex_insertEdge h) _ edges)

end

end Database

end SwissArmyHammer.CodeContext
