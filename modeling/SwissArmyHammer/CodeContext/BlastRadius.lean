import Mathlib.Algebra.Order.Ring.Nat
import Mathlib.Data.Finset.Dedup
import Mathlib.Data.Finset.Card
import SwissArmyHammer.CodeContext.Database
import SwissArmyHammer.Common.Walks

/-! The symbols that a change affects, hop by hop along the calls. -/

namespace SwissArmyHammer.CodeContext

open Walks

structure BlastRadiusOptions where
  filePath : String
  symbol : Option String
  maxHops : Nat

structure AffectedSymbol where
  symbolId : String
  name : String
  filePath : String
  source : String
  deriving DecidableEq

structure HopLevel where
  hop : Nat
  symbols : List AffectedSymbol
  affectedFiles : Nat
  deriving DecidableEq

structure BlastRadius where
  roots : List String
  hops : List HopLevel
  totalAffectedSymbols : Nat
  totalAffectedFiles : Nat
  deriving DecidableEq

structure BlastState where
  visited : List String
  frontier : List String
  hops : List HopLevel
  allAffectedFiles : Finset String
  totalSymbols : Nat

structure HopState where
  visited : List String
  nextFrontier : List String
  hopSymbols : List AffectedSymbol
  hopFiles : Finset String
  allAffectedFiles : Finset String

def HopState.meet (s : HopState) (caller : AffectedSymbol) : HopState :=
  if caller.symbolId ∈ s.visited then s
  else
    { visited := s.visited ++ [caller.symbolId]
      nextFrontier := s.nextFrontier ++ [caller.symbolId]
      hopSymbols := s.hopSymbols ++ [caller]
      hopFiles := insert caller.filePath s.hopFiles
      allAffectedFiles := insert caller.filePath s.allAffectedFiles }

def stripText (before text : List Char) : List Char :=
  if before <+: text then text.drop before.length else text

structure NotFound where
  message : String
  deriving DecidableEq

def clampHops (maxHops : Nat) : Nat := max 1 (min maxHops 10)

namespace Database

variable (db : Database)

def isRoot (filePath filter id name : String) : Bool :=
  let qpath := stripText ("lsp:" ++ filePath ++ ":").toList id.toList
  name = filter || qpath = filter.toList || ("::" ++ filter).toList <:+ qpath

def findRoots (filePath : String) (symbolName : Option String) : List String :=
  (db.lspSymbols.entries.filter fun entry =>
    entry.2.filePath = filePath &&
      symbolName.all fun filter => isRoot filePath filter entry.1 entry.2.name).map Prod.fst

def findInboundCallers (calleeId : String) : List AffectedSymbol :=
  db.lspCallEdges.filterMap fun edge =>
    if edge.calleeId = calleeId then
      (db.symbol? edge.callerId).map fun symbol =>
        ⟨edge.callerId, symbol.name, edge.callerFile, edge.source⟩
    else none

def scanHop (s : BlastState) : HopState :=
  s.frontier.foldl (fun h symbolId => (db.findInboundCallers symbolId).foldl HopState.meet h)
    ⟨s.visited, [], [], ∅, s.allAffectedFiles⟩

def hopLoop : Nat → Nat → BlastState → BlastState
  | 0, _, s => s
  | left + 1, hop, s =>
    let h := db.scanHop s
    if h.hopSymbols = [] then s
    else
      hopLoop left (hop + 1)
        { visited := h.visited
          frontier := h.nextFrontier
          hops := s.hops ++ [⟨hop, h.hopSymbols, h.hopFiles.card⟩]
          allAffectedFiles := h.allAffectedFiles
          totalSymbols := s.totalSymbols + h.hopSymbols.length }

def radiusFrom (roots : List String) (limit : Nat) : BlastRadius :=
  let s := db.hopLoop limit 1 ⟨roots, roots, [], ∅, 0⟩
  ⟨roots, s.hops, s.totalSymbols, s.allAffectedFiles.card⟩

def getBlastradius (options : BlastRadiusOptions) : Except NotFound BlastRadius :=
  let roots := db.findRoots options.filePath options.symbol
  if roots = [] then
    match options.symbol with
    | some symbol => .error ⟨s!"symbol '{symbol}' not found in file '{options.filePath}'"⟩
    | none => .ok ⟨[], [], 0, 0⟩
  else .ok (db.radiusFrom roots (clampHops options.maxHops))

def callersOf (calleeId : String) : List String :=
  (db.findInboundCallers calleeId).map AffectedSymbol.symbolId

end Database

section

variable {db : Database} {visited frontier : List String}

theorem foldl_meet (callers : List AffectedSymbol) (h : HopState) :
    let new := newOnes AffectedSymbol.symbolId callers h.visited
    callers.foldl HopState.meet h =
      { visited := h.visited ++ new.map AffectedSymbol.symbolId
        nextFrontier := h.nextFrontier ++ new.map AffectedSymbol.symbolId
        hopSymbols := h.hopSymbols ++ new
        hopFiles := h.hopFiles ∪ (new.map AffectedSymbol.filePath).toFinset
        allAffectedFiles := h.allAffectedFiles ∪ (new.map AffectedSymbol.filePath).toFinset } := by
  induction callers generalizing h with
  | nil => simp [newOnes]
  | cons caller callers ih =>
    rw [List.foldl_cons, ih, newOnes, HopState.meet]
    split
    · rfl
    · simp only [List.map_cons, List.append_assoc, List.singleton_append, List.toFinset_cons,
        Finset.insert_union, Finset.union_insert]

theorem scanHop_eq (db : Database) (s : BlastState) :
    let new := newOnes AffectedSymbol.symbolId (s.frontier.flatMap db.findInboundCallers) s.visited
    db.scanHop s =
      { visited := s.visited ++ new.map AffectedSymbol.symbolId
        nextFrontier := new.map AffectedSymbol.symbolId
        hopSymbols := new
        hopFiles := (new.map AffectedSymbol.filePath).toFinset
        allAffectedFiles :=
          s.allAffectedFiles ∪ (new.map AffectedSymbol.filePath).toFinset } := by
  rw [Database.scanHop, ← List.foldl_flatMap, foldl_meet]
  simp only [List.nil_append, Finset.empty_union]

def hopLevel (hop : Nat) (symbols : List AffectedSymbol) : HopLevel :=
  ⟨hop, symbols, (symbols.map AffectedSymbol.filePath).toFinset.card⟩

def hopsOf (hop : Nat) : List (List AffectedSymbol) → List HopLevel
  | [] => []
  | level :: levels => hopLevel hop level :: hopsOf (hop + 1) levels

theorem hopLoop_spec (db : Database) (left hop : Nat) (s : BlastState) :
    let found := levels db.findInboundCallers AffectedSymbol.symbolId left s.frontier s.visited
    (db.hopLoop left hop s).hops = s.hops ++ hopsOf hop found ∧
      (db.hopLoop left hop s).totalSymbols = s.totalSymbols + found.flatten.length ∧
      (db.hopLoop left hop s).allAffectedFiles =
        s.allAffectedFiles ∪ (found.flatten.map AffectedSymbol.filePath).toFinset := by
  induction left generalizing hop s with
  | zero => simp [Database.hopLoop, levels, hopsOf]
  | succ left ih =>
    rw [Database.hopLoop, levels, scanHop_eq]
    split
    · simp [hopsOf]
    · obtain ⟨hhops, htotal, hfiles⟩ := ih (hop + 1) _
      refine ⟨hhops.trans ?_, htotal.trans ?_, hfiles.trans ?_⟩
      · rw [List.append_assoc]
        rfl
      · rw [List.flatten_cons, List.length_append, Nat.add_assoc]
      · rw [List.flatten_cons, List.map_append, List.toFinset_append, Finset.union_assoc]

theorem length_hopsOf (hop : Nat) (found : List (List AffectedSymbol)) :
    (hopsOf hop found).length = found.length := by
  induction found generalizing hop with
  | nil => rfl
  | cons level found ih => rw [hopsOf, List.length_cons, ih, List.length_cons]

theorem getElem?_hopsOf (hop i : Nat) (found : List (List AffectedSymbol)) :
    (hopsOf hop found)[i]? = found[i]?.map (hopLevel (hop + i)) := by
  induction found generalizing hop i with
  | nil => rfl
  | cons level found ih =>
    cases i with
    | zero => rfl
    | succ i =>
      rw [hopsOf, List.getElem?_cons_succ, List.getElem?_cons_succ, ih, Nat.add_assoc,
        Nat.add_comm 1 i]

theorem hopsOf_append (hop : Nat) (found more : List (List AffectedSymbol)) :
    hopsOf hop (found ++ more) = hopsOf hop found ++ hopsOf (hop + found.length) more := by
  induction found generalizing hop with
  | nil => rfl
  | cons level found ih =>
    rw [List.cons_append, hopsOf, ih, hopsOf, List.cons_append, List.length_cons, Nat.add_assoc,
      Nat.add_comm 1 found.length]

end

section

def Database.directCallers (db : Database) (calleeId : String) : List String :=
  (db.lspCallEdges.filter fun edge => edge.calleeId = calleeId).map CallEdge.callerId

structure ExactByHop (db : Database) (roots : List String) (limit : Nat) (radius : BlastRadius) :
    Prop where
  same_roots : radius.roots = roots
  hop : ∀ k x, (∃ level ∈ radius.hops, level.hop = k ∧ ∃ s ∈ level.symbols, s.symbolId = x) ↔
    1 ≤ k ∧ k ≤ limit ∧ AtDistance db.directCallers roots k x
  once : ((radius.hops.flatMap HopLevel.symbols).map AffectedSymbol.symbolId).Nodup
  no_root : ∀ level ∈ radius.hops, ∀ s ∈ level.symbols, s.symbolId ∉ roots
  rows : ∀ level ∈ radius.hops, ∀ s ∈ level.symbols, ∃ edge ∈ db.lspCallEdges,
    edge.callerId = s.symbolId ∧ edge.callerFile = s.filePath ∧ edge.source = s.source
  consecutive : ∀ i level, radius.hops[i]? = some level → level.hop = i + 1
  filled : ∀ level ∈ radius.hops, level.symbols ≠ []
  stops : radius.hops.length ≤ limit ∧ (radius.hops.length < limit →
    ∀ x, ¬ AtDistance db.directCallers roots (radius.hops.length + 1) x)
  affected_files : ∀ level ∈ radius.hops,
    level.affectedFiles = (level.symbols.map AffectedSymbol.filePath).toFinset.card
  total_symbols :
    radius.totalAffectedSymbols = (radius.hops.map fun level => level.symbols.length).sum
  total_files : radius.totalAffectedFiles =
    ((radius.hops.flatMap HopLevel.symbols).map AffectedSymbol.filePath).toFinset.card

variable (db : Database) (roots : List String) (limit : Nat)

theorem directCallers_eq (calleeId : String) :
    db.directCallers calleeId =
      (db.findInboundCallers calleeId).map AffectedSymbol.symbolId := by
  have hends := db.ends_of_edge
  rw [Database.directCallers, Database.findInboundCallers]
  generalize db.lspCallEdges = edges at hends
  induction edges with
  | nil => rfl
  | cons edge edges ih =>
    have htail := ih fun edge hmem => hends edge (List.mem_cons_of_mem _ hmem)
    obtain ⟨symbol, hsymbol⟩ := Option.isSome_iff_exists.mp (hends edge List.mem_cons_self).1
    have hrow : db.symbol? edge.callerId = some symbol := hsymbol
    rw [List.filterMap_cons, List.filter_cons]
    by_cases hcallee : edge.calleeId = calleeId
    · rw [if_pos (by simpa using hcallee), List.map_cons, htail, if_pos hcallee, hrow]
      rfl
    · rw [if_neg (by simpa using hcallee), if_neg hcallee]
      exact htail

theorem mem_hopsOf {hop : Nat} {found : List (List AffectedSymbol)} {level : HopLevel} :
    level ∈ hopsOf hop found ↔ ∃ i symbols, found[i]? = some symbols ∧
      level = hopLevel (hop + i) symbols := by
  rw [List.mem_iff_getElem?]
  refine exists_congr fun i => ?_
  rw [getElem?_hopsOf]
  cases found[i]? with
  | none => simp
  | some symbols => simp [eq_comm]

theorem flatMap_symbols_hopsOf (hop : Nat) (found : List (List AffectedSymbol)) :
    (hopsOf hop found).flatMap HopLevel.symbols = found.flatten := by
  induction found generalizing hop with
  | nil => rfl
  | cons level found ih =>
    rw [hopsOf, List.flatMap_cons, ih]
    rfl

theorem sum_length_hopsOf (hop : Nat) (found : List (List AffectedSymbol)) :
    ((hopsOf hop found).map fun level => level.symbols.length).sum = found.flatten.length := by
  induction found generalizing hop with
  | nil => rfl
  | cons level found ih =>
    rw [hopsOf, List.map_cons, List.sum_cons, ih, List.flatten_cons, List.length_append]
    rfl

def Database.foundFrom : List (List AffectedSymbol) :=
  levels db.findInboundCallers AffectedSymbol.symbolId limit roots roots

theorem radiusFrom_eq :
    let found := db.foundFrom roots limit
    db.radiusFrom roots limit = ⟨roots, hopsOf 1 found, found.flatten.length,
      (found.flatten.map AffectedSymbol.filePath).toFinset.card⟩ := by
  obtain ⟨hhops, htotal, hfiles⟩ := hopLoop_spec db limit 1 ⟨roots, roots, [], ∅, 0⟩
  rw [Nat.zero_add] at htotal
  rw [Database.radiusFrom, hhops, htotal, hfiles]
  rfl

theorem mem_foundFrom (i : Nat) (x : String) :
    (∃ level, (db.foundFrom roots limit)[i]? = some level ∧
        x ∈ level.map AffectedSymbol.symbolId) ↔
      i < limit ∧ AtDistance db.directCallers roots (i + 1) x :=
  mem_levels (directCallers_eq db) i x

theorem rows_foundFrom {level : List AffectedSymbol} {s : AffectedSymbol}
    (h : level ∈ db.foundFrom roots limit) (hs : s ∈ level) :
    ∃ edge ∈ db.lspCallEdges,
      edge.callerId = s.symbolId ∧ edge.callerFile = s.filePath ∧ edge.source = s.source := by
  obtain ⟨symbolId, hfound⟩ := of_mem_levels h hs
  obtain ⟨edge, hedge, hsome⟩ := List.mem_filterMap.mp hfound
  split_ifs at hsome
  obtain ⟨symbol, -, rfl⟩ := Option.map_eq_some_iff.mp hsome
  exact ⟨edge, hedge, rfl, rfl, rfl⟩

theorem radiusFrom_exact : ExactByHop db roots limit (db.radiusFrom roots limit) := by
  have hlevel : ∀ level ∈ (db.radiusFrom roots limit).hops, ∃ i symbols,
      (db.foundFrom roots limit)[i]? = some symbols ∧ level = hopLevel (1 + i) symbols := by
    intro level hmem
    rw [radiusFrom_eq] at hmem
    exact mem_hopsOf.mp hmem
  have hmem : ∀ {i symbols}, (db.foundFrom roots limit)[i]? = some symbols →
      symbols ∈ db.foundFrom roots limit := List.mem_of_getElem?
  constructor
  case same_roots => rfl
  case hop =>
    intro k x
    rw [radiusFrom_eq]
    constructor
    · rintro ⟨level, hmem, rfl, s, hs, rfl⟩
      obtain ⟨i, symbols, hsymbols, rfl⟩ := mem_hopsOf.mp hmem
      obtain ⟨hlt, hat⟩ := (mem_foundFrom db roots limit i s.symbolId).mp
        ⟨symbols, hsymbols, List.mem_map_of_mem hs⟩
      rw [Nat.add_comm] at hat
      exact ⟨Nat.le_add_right 1 i, by show 1 + i ≤ limit; omega, hat⟩
    · rintro ⟨hpos, hle, hat⟩
      obtain ⟨i, rfl⟩ := Nat.exists_eq_add_of_le' hpos
      obtain ⟨symbols, hsymbols, hx⟩ := (mem_foundFrom db roots limit i x).mpr ⟨hle, hat⟩
      obtain ⟨s, hs, rfl⟩ := List.mem_map.mp hx
      exact ⟨_, mem_hopsOf.mpr ⟨i, symbols, hsymbols, rfl⟩, Nat.add_comm 1 i, s, hs, rfl⟩
  case once =>
    rw [radiusFrom_eq, flatMap_symbols_hopsOf]
    exact nodup_levels
  case no_root =>
    intro level hl s hs
    obtain ⟨i, symbols, hsymbols, rfl⟩ := hlevel level hl
    exact not_mem_visited_of_levels (hmem hsymbols) hs
  case rows =>
    intro level hl s hs
    obtain ⟨i, symbols, hsymbols, rfl⟩ := hlevel level hl
    exact rows_foundFrom db roots limit (hmem hsymbols) hs
  case consecutive =>
    intro i level hget
    rw [radiusFrom_eq, getElem?_hopsOf] at hget
    obtain ⟨symbols, -, rfl⟩ := Option.map_eq_some_iff.mp hget
    exact Nat.add_comm 1 i
  case filled =>
    intro level hl
    obtain ⟨i, symbols, hsymbols, rfl⟩ := hlevel level hl
    exact levels_ne_nil (hmem hsymbols)
  case stops =>
    rw [radiusFrom_eq]
    rw [length_hopsOf]
    refine ⟨length_levels_le, fun hlt x hat => ?_⟩
    obtain ⟨symbols, hsymbols, -⟩ := (mem_foundFrom db roots limit _ x).mpr ⟨hlt, hat⟩
    simp at hsymbols
  case affected_files =>
    intro level hl
    obtain ⟨i, symbols, -, rfl⟩ := hlevel level hl
    rfl
  case total_symbols =>
    rw [radiusFrom_eq, sum_length_hopsOf]
  case total_files =>
    rw [radiusFrom_eq, flatMap_symbols_hopsOf]

theorem radiusFrom_initial {m : Nat} (h : m ≤ limit) :
    (db.radiusFrom roots m).hops <+: (db.radiusFrom roots limit).hops := by
  rw [radiusFrom_eq, radiusFrom_eq]
  obtain ⟨more, hmore⟩ : db.foundFrom roots m <+: db.foundFrom roots limit := levels_initial h
  exact ⟨_, by rw [← hmore, hopsOf_append]⟩

theorem clampHops_mono {m n : Nat} (h : m ≤ n) : clampHops m ≤ clampHops n := by
  rw [clampHops, clampHops]
  omega

theorem radiusFrom_no_roots (maxHops : Nat) :
    db.radiusFrom [] (clampHops maxHops) = ⟨[], [], 0, 0⟩ := by
  obtain ⟨n, hn⟩ : ∃ n, clampHops maxHops = n + 1 :=
    Nat.exists_eq_add_of_le' (Nat.le_max_left 1 _)
  rw [hn]
  rfl

theorem getBlastradius_eq (options : BlastRadiusOptions) :
    let roots := db.findRoots options.filePath options.symbol
    (∃ e, db.getBlastradius options = .error e) ∧ roots = [] ∧ options.symbol.isSome ∨
      db.getBlastradius options = .ok (db.radiusFrom roots (clampHops options.maxHops)) ∧
        ¬(roots = [] ∧ options.symbol.isSome) := by
  intro roots
  rw [Database.getBlastradius]
  by_cases hroots : db.findRoots options.filePath options.symbol = []
  · rw [if_pos hroots]
    cases hsymbol : options.symbol with
    | some symbol => exact .inl ⟨⟨_, rfl⟩, hroots, rfl⟩
    | none =>
      refine .inr ⟨?_, fun h => by simp at h⟩
      rw [show roots = [] from hroots, radiusFrom_no_roots]
  · rw [if_neg hroots]
    exact .inr ⟨rfl, fun h => hroots h.1⟩

end

end SwissArmyHammer.CodeContext
