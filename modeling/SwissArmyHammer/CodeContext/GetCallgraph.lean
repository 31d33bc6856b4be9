import Mathlib.Algebra.Order.BigOperators.Group.List
import Mathlib.Data.List.Perm.Subperm
import Mathlib.Data.Prod.Lex
import SwissArmyHammer.CodeContext.InboundCalls

/-! The call graph around a symbol: how the symbol is found, and the search along the edges. -/

namespace SwissArmyHammer.CodeContext

open Walks

inductive CallGraphDirection
  | inbound
  | outbound
  | both
  deriving DecidableEq

structure CallGraphOptions where
  symbol : String
  direction : CallGraphDirection
  maxDepth : Nat

structure CallGraphNode where
  symbolId : String
  name : String
  filePath : String
  deriving DecidableEq

structure CallGraphEdge where
  caller : CallGraphNode
  callee : CallGraphNode
  source : String
  depth : Nat
  deriving DecidableEq

structure CallGraph where
  root : CallGraphNode
  edges : List CallGraphEdge
  nodes : List CallGraphNode
  deriving DecidableEq

inductive EdgeSide
  | caller
  | callee
  deriving DecidableEq

def EdgeSide.id : EdgeSide → CallEdge → String
  | caller, e => e.callerId
  | callee, e => e.calleeId

def EdgeSide.other : EdgeSide → EdgeSide
  | caller => callee
  | callee => caller

/-- The sides that `fetch_edges` asks for, in its order. -/
def CallGraphDirection.sides : CallGraphDirection → List EdgeSide
  | inbound => [.callee]
  | outbound => [.caller]
  | both => [.caller, .callee]

def parseU32 (s : List Char) : Option Nat :=
  let digits := if s.head? = some '+' then s.tail else s
  if digits ≠ [] ∧ digits.all Char.isDigit then
    let n := Nat.ofDigitChars 10 digits 0
    if n < 2 ^ 32 then some n else none
  else none

def splitLocator (symbol : List Char) : Option (List Char × List Char × List Char) :=
  let r := symbol.reverse
  match r.dropWhile (· ≠ ':') with
  | [] => none
  | _ :: r' =>
    match r'.dropWhile (· ≠ ':') with
    | [] => none
    | _ :: file =>
      some (file.reverse, (r'.takeWhile (· ≠ ':')).reverse, (r.takeWhile (· ≠ ':')).reverse)

def parseLocator (symbol : String) : Option (String × Nat × Nat) :=
  (splitLocator symbol.toList).bind fun parts =>
    (parseU32 parts.2.1).bind fun line =>
      (parseU32 parts.2.2).map fun char => (String.ofList parts.1, line, char)

def SymbolRow.lineSpan (row : SymbolRow) : Int := (row.endLine : Int) - row.startLine

def SymbolRow.charSpan (row : SymbolRow) : Int := (row.endChar : Int) - row.startChar

local instance spanOrder : Preorder Int := Int.instLinearOrder.toPreorder

namespace Database

variable (db : Database)

/-- The rows that the statement of `try_resolve_by_location` admits. -/
def coversLocation (filePath : String) (line char : Nat) (row : SymbolRow) : Bool :=
  row.filePath = filePath && row.startLine ≤ line && line ≤ row.endLine && row.startChar ≤ char

def locate (filePath : String) (line char : Nat) : Option CallGraphNode :=
  ((db.lspSymbols.entries.filter fun entry => coversLocation filePath line char entry.2).argmin
    fun entry => toLex (entry.2.lineSpan, entry.2.charSpan)).map fun entry =>
      ⟨entry.1, entry.2.name, entry.2.filePath⟩

def tryResolveByLocation (symbol : String) : Option CallGraphNode :=
  (parseLocator symbol).bind fun place => db.locate place.1 place.2.1 place.2.2

def resolveByName (name : String) : Except NotFound CallGraphNode :=
  match db.lspSymbols.entries.find? fun entry =>
      isRoot entry.2.filePath name entry.1 entry.2.name with
  | some entry => .ok ⟨entry.1, entry.2.name, entry.2.filePath⟩
  | none => .error ⟨"symbol not found: " ++ name⟩

def resolveSymbol (symbol : String) : Except NotFound CallGraphNode :=
  match db.tryResolveByLocation symbol with
  | some node => .ok node
  | none => db.resolveByName symbol

def edgeOf (e : CallEdge) (depth : Nat) : Option CallGraphEdge :=
  (db.symbol? e.callerId).bind fun caller =>
    (db.symbol? e.calleeId).map fun callee =>
      { caller := ⟨e.callerId, caller.name, e.callerFile⟩
        callee := ⟨e.calleeId, callee.name, e.calleeFile⟩
        source := e.source
        depth := depth }

def queryEdgesBySide (side : EdgeSide) (symbolId : String) (depth : Nat) : List CallGraphEdge :=
  (db.lspCallEdges.filter fun e => side.id e = symbolId).filterMap fun e => db.edgeOf e depth

def fetchEdges (symbolId : String) (direction : CallGraphDirection) (depth : Nat) :
    List CallGraphEdge :=
  (if direction = .outbound ∨ direction = .both then db.queryEdgesBySide .caller symbolId depth
    else []) ++
  (if direction = .inbound ∨ direction = .both then db.queryEdgesBySide .callee symbolId depth
    else [])

end Database

structure Traversal where
  visited : List String
  nodes : List CallGraphNode
  queue : List (String × Nat)
  edges : List CallGraphEdge

def nextId (direction : CallGraphDirection) (visited : List String) (edge : CallGraphEdge) :
    String :=
  match direction with
  | .inbound => edge.caller.symbolId
  | .outbound => edge.callee.symbolId
  | .both =>
    if edge.callee.symbolId ∉ visited then edge.callee.symbolId else edge.caller.symbolId

def nodeNamed (edge : CallGraphEdge) (id : String) : CallGraphNode :=
  if id = edge.caller.symbolId then edge.caller else edge.callee

def expandEdge (direction : CallGraphDirection) (depth : Nat) (t : Traversal)
    (edge : CallGraphEdge) : Traversal :=
  let next := nextId direction t.visited edge
  if next ∈ t.visited then t
  else
    { t with
      visited := t.visited ++ [next]
      nodes := t.nodes ++ [nodeNamed edge next]
      queue := t.queue ++ [(next, depth + 1)] }

def takeEdge (direction : CallGraphDirection) (depth : Nat) (t : Traversal)
    (edge : CallGraphEdge) : Traversal :=
  let t' := expandEdge direction depth t edge
  { t' with edges := t'.edges ++ [edge] }

namespace Database

variable (db : Database) (direction : CallGraphDirection) (maxDepth : Nat)

def traverse : Nat → Traversal → Option Traversal
  | 0, _ => none
  | fuel + 1, t =>
    match t.queue with
    | [] => some t
    | (currentId, depth) :: queue =>
      if maxDepth ≤ depth then traverse fuel { t with queue }
      else
        traverse fuel ((db.fetchEdges currentId direction (depth + 1)).foldl
          (takeEdge direction depth) { t with queue })

def graphFrom (fuel : Nat) (root : CallGraphNode) : Option CallGraph :=
  (db.traverse direction maxDepth fuel ⟨[root.symbolId], [root], [(root.symbolId, 0)], []⟩).map
    fun t => ⟨root, t.edges, t.nodes⟩

end Database

def clampDepth (maxDepth : Nat) : Nat := max 1 (min maxDepth 5)

def Database.getCallgraph (db : Database) (fuel : Nat) (options : CallGraphOptions) :
    Except NotFound (Option CallGraph) :=
  (db.resolveSymbol options.symbol).map
    (db.graphFrom options.direction (clampDepth options.maxDepth) fuel)

namespace Database

section

variable {db : Database} {direction : CallGraphDirection} {maxDepth depth k n : Nat} {e : CallEdge}
  {x y : String}

def found (db : Database) (direction : CallGraphDirection) (x : String) :
    List (EdgeSide × CallEdge) :=
  direction.sides.flatMap fun side =>
    (db.lspCallEdges.filter fun e => side.id e = x).map fun e => (side, e)

def farEnd (b : EdgeSide × CallEdge) : String := b.1.other.id b.2

def next (db : Database) (direction : CallGraphDirection) (x : String) : List String :=
  (db.found direction x).map farEnd

def nameOf (db : Database) (id : String) : String := (db.symbol? id).elim "" SymbolRow.name

def labelled (db : Database) (depth : Nat) (e : CallEdge) : CallGraphEdge where
  caller := ⟨e.callerId, db.nameOf e.callerId, e.callerFile⟩
  callee := ⟨e.calleeId, db.nameOf e.calleeId, e.calleeFile⟩
  source := e.source
  depth := depth

theorem edgeOf_eq (h : e ∈ db.lspCallEdges) (depth : Nat) :
    db.edgeOf e depth = some (db.labelled depth e) := by
  obtain ⟨hcaller, hcallee⟩ := db.ends_of_edge e h
  obtain ⟨caller, hcaller⟩ := Option.isSome_iff_exists.mp hcaller
  obtain ⟨callee, hcallee⟩ := Option.isSome_iff_exists.mp hcallee
  simp [edgeOf, labelled, nameOf, symbol?, hcaller, hcallee]

theorem mem_found {b : EdgeSide × CallEdge} :
    b ∈ db.found direction x ↔
      b.1 ∈ direction.sides ∧ b.2 ∈ db.lspCallEdges ∧ b.1.id b.2 = x := by
  obtain ⟨side, e⟩ := b
  simp only [found, List.mem_flatMap, List.mem_map, List.mem_filter, decide_eq_true_eq]
  constructor
  · simp
  · rintro ⟨hside, he, hid⟩
    exact ⟨side, hside, e, ⟨he, hid⟩, rfl⟩

theorem queryEdgesBySide_eq (side : EdgeSide) :
    db.queryEdgesBySide side x depth =
      ((db.lspCallEdges.filter fun e => side.id e = x).map fun e => (side, e)).map
        fun b => db.labelled depth b.2 := by
  rw [List.map_map, ← List.filterMap_eq_map]
  refine List.filterMap_congr fun e he => ?_
  exact edgeOf_eq (List.mem_filter.mp he).1 depth

theorem fetchEdges_eq :
    db.fetchEdges x direction depth =
      (db.found direction x).map fun b => db.labelled depth b.2 := by
  rw [fetchEdges, queryEdgesBySide_eq, queryEdgesBySide_eq]
  cases direction <;> simp [found, CallGraphDirection.sides]

theorem mem_visited_nextId {b : EdgeSide × CallEdge} {visited : List String}
    (hb : b ∈ db.found direction x) (hx : x ∈ visited) (depth : Nat) :
    nextId direction visited (db.labelled depth b.2) = farEnd b ∨
      nextId direction visited (db.labelled depth b.2) ∈ visited ∧ farEnd b ∈ visited := by
  obtain ⟨side, e⟩ := b
  obtain ⟨hside, -, hid⟩ := mem_found.mp hb
  cases direction with
  | inbound =>
    obtain rfl := List.mem_singleton.mp hside
    exact .inl rfl
  | outbound =>
    obtain rfl := List.mem_singleton.mp hside
    exact .inl rfl
  | both =>
    have hnext : nextId .both visited (db.labelled depth e) =
        if e.calleeId ∉ visited then e.calleeId else e.callerId := rfl
    rw [hnext]
    cases side with
    | caller =>
      by_cases hold : e.calleeId ∈ visited
      · rw [if_neg (not_not.mpr hold)]
        have hhere : e.callerId ∈ visited := by rwa [show e.callerId = x from hid]
        exact .inr ⟨hhere, hold⟩
      · rw [if_pos hold]
        exact .inl rfl
    | callee =>
      have hold : e.calleeId ∈ visited := by rwa [show e.calleeId = x from hid]
      rw [if_neg (not_not.mpr hold)]
      exact .inl rfl

def nodeOf (db : Database) (depth : Nat) (b : EdgeSide × CallEdge) : CallGraphNode :=
  nodeNamed (db.labelled depth b.2) (farEnd b)

theorem symbolId_nodeOf (b : EdgeSide × CallEdge) : (db.nodeOf depth b).symbolId = farEnd b := by
  obtain ⟨side, e⟩ := b
  rw [nodeOf, nodeNamed]
  split
  · rename_i heq
    exact heq.symm
  · rename_i hne
    cases side with
    | caller => rfl
    | callee => exact absurd rfl hne

theorem takeEdge_labelled {b : EdgeSide × CallEdge} {t : Traversal}
    (hb : b ∈ db.found direction x) (hx : x ∈ t.visited) :
    takeEdge direction depth t (db.labelled (depth + 1) b.2) =
      if farEnd b ∈ t.visited then
        { t with edges := t.edges ++ [db.labelled (depth + 1) b.2] }
      else
        { visited := t.visited ++ [farEnd b]
          nodes := t.nodes ++ [db.nodeOf (depth + 1) b]
          queue := t.queue ++ [(farEnd b, depth + 1)]
          edges := t.edges ++ [db.labelled (depth + 1) b.2] } := by
  rw [takeEdge, expandEdge]
  rcases mem_visited_nextId hb hx (depth + 1) with hnext | ⟨hnext, hfar⟩
  · rw [hnext]
    by_cases hold : farEnd b ∈ t.visited
    · rw [if_pos hold, if_pos hold]
    · rw [if_neg hold, if_neg hold]
      rfl
  · rw [if_pos hnext, if_pos hfar]

theorem foldl_takeEdge {bs : List (EdgeSide × CallEdge)} {t : Traversal}
    (hbs : ∀ b ∈ bs, b ∈ db.found direction x) (hx : x ∈ t.visited) :
    (bs.map fun b => db.labelled (depth + 1) b.2).foldl (takeEdge direction depth) t =
      { visited := t.visited ++ (newOnes farEnd bs t.visited).map farEnd
        nodes := t.nodes ++ (newOnes farEnd bs t.visited).map (db.nodeOf (depth + 1))
        queue := t.queue ++ (newOnes farEnd bs t.visited).map fun b => (farEnd b, depth + 1)
        edges := t.edges ++ bs.map fun b => db.labelled (depth + 1) b.2 } := by
  induction bs generalizing t with
  | nil => simp [newOnes]
  | cons b bs ih =>
    have hrest : ∀ c ∈ bs, c ∈ db.found direction x := fun c hc =>
      hbs c (List.mem_cons_of_mem b hc)
    rw [List.map_cons, List.foldl_cons, takeEdge_labelled (hbs b List.mem_cons_self) hx]
    by_cases hold : farEnd b ∈ t.visited
    · rw [if_pos hold, newOnes, if_pos hold]
      have hkept : x ∈ ({ t with
          edges := t.edges ++ [db.labelled (depth + 1) b.2] } : Traversal).visited := hx
      refine (ih hrest hkept).trans ?_
      simp
    · rw [if_neg hold, newOnes, if_neg hold]
      refine (ih hrest (List.mem_append_left _ hx)).trans ?_
      simp

variable {visited frontier : List String} {nodes : List CallGraphNode}
  {edges : List CallGraphEdge} {m j : Nat}

theorem traverse_level (hdepth : depth < maxDepth) (hvisited : ∀ x ∈ frontier, x ∈ visited)
    (rest : List (String × Nat)) :
    let new := newOnes farEnd (frontier.flatMap (db.found direction)) visited
    db.traverse direction maxDepth (frontier.length + n)
        ⟨visited, nodes, (frontier.map fun x => (x, depth)) ++ rest, edges⟩ =
      db.traverse direction maxDepth n
        { visited := visited ++ new.map farEnd
          nodes := nodes ++ new.map (db.nodeOf (depth + 1))
          queue := rest ++ new.map fun b => (farEnd b, depth + 1)
          edges := edges ++ (frontier.flatMap (db.found direction)).map fun b =>
            db.labelled (depth + 1) b.2 } := by
  induction frontier generalizing visited nodes rest edges with
  | nil => simp [newOnes]
  | cons x frontier ih =>
    have hturns : (x :: frontier).length + n = (frontier.length + n) + 1 := by
      rw [List.length_cons]
      omega
    have hx : x ∈ visited := hvisited x List.mem_cons_self
    have hrest : ∀ y ∈ frontier, y ∈ visited ++
        (newOnes farEnd (db.found direction x) visited).map farEnd := fun y hy =>
      List.mem_append_left _ (hvisited y (List.mem_cons_of_mem x hy))
    simp only [hturns, List.map_cons, List.cons_append, traverse, if_neg (Nat.not_le.mpr hdepth)]
    rw [fetchEdges_eq, foldl_takeEdge (fun b hb => hb) (by exact hx), List.append_assoc, ih hrest]
    simp [newOnes_append]

theorem traverse_limit (hdepth : maxDepth ≤ depth) :
    db.traverse direction maxDepth (frontier.length + (n + 1))
        ⟨visited, nodes, frontier.map fun x => (x, depth), edges⟩ =
      some ⟨visited, nodes, [], edges⟩ := by
  induction frontier with
  | nil => simp [traverse]
  | cons x frontier ih =>
    have hturns : (x :: frontier).length + (n + 1) = (frontier.length + (n + 1)) + 1 := by
      rw [List.length_cons]
      omega
    rw [hturns]
    simp only [List.map_cons, traverse, if_pos hdepth]
    exact ih

structure Gathered (db : Database) (direction : CallGraphDirection) (root : String) (m k : Nat)
    (asked : List (String × Nat)) (t : Traversal) : Prop where
  nodup : t.visited.Nodup
  visited : ∀ x, x ∈ t.visited ↔ ∃ i ≤ m, AtDistance (db.next direction) [root] i x
  nodes : t.nodes.map CallGraphNode.symbolId = t.visited
  askedOnce : (asked.map Prod.fst).Nodup
  asked : ∀ x i, (x, i) ∈ asked ↔ k ≤ i ∧ i < m ∧ AtDistance (db.next direction) [root] i x

def askedEdges (db : Database) (direction : CallGraphDirection) (asked : List (String × Nat)) :
    List CallGraphEdge :=
  asked.flatMap fun p => (db.found direction p.1).map fun b => db.labelled (p.2 + 1) b.2

theorem askedEdges_level (frontier : List String) (asked : List (String × Nat)) :
    db.askedEdges direction ((frontier.map fun x => (x, depth)) ++ asked) =
      (frontier.flatMap (db.found direction)).map (fun b => db.labelled (depth + 1) b.2) ++
        db.askedEdges direction asked := by
  simp [askedEdges, List.flatMap_map, List.map_flatMap]

theorem traverse_gathers {root : String}
    (h : Front (db.next direction) [root] k frontier visited) (hfrontier : frontier.Nodup)
    (hnodup : visited.Nodup) (hnodes : nodes.map CallGraphNode.symbolId = visited)
    (hk : k + j = m) : ∃ asked t, Gathered db direction root m k asked t ∧
      t.edges = edges ++ db.askedEdges direction asked ∧ visited.length ≤ t.visited.length ∧
      ∀ fuel, frontier.length + (t.visited.length - visited.length) < fuel →
        db.traverse direction m fuel ⟨visited, nodes, frontier.map fun x => (x, k), edges⟩ =
          some t := by
  induction j generalizing k frontier visited nodes edges with
  | zero =>
    obtain rfl : k = m := hk
    refine ⟨[], ⟨visited, nodes, [], edges⟩, ⟨hnodup, h.visited, hnodes, List.nodup_nil, ?_⟩, ?_,
      Nat.le_refl _, fun fuel hfuel => ?_⟩
    · intro x i
      constructor
      · simp
      · omega
    · simp [askedEdges]
    · obtain ⟨n, rfl⟩ := Nat.exists_eq_add_of_le (Nat.lt_of_le_of_lt (Nat.le_add_right _ _) hfuel)
      rw [Nat.succ_eq_add_one, Nat.add_assoc, Nat.add_comm 1 n]
      exact traverse_limit (Nat.le_refl k)
  | succ j ih =>
    have hlevel : Front (db.next direction) [root] (k + 1)
        ((newOnes farEnd (frontier.flatMap (db.found direction)) visited).map farEnd)
        (visited ++ (newOnes farEnd (frontier.flatMap (db.found direction)) visited).map farEnd) :=
      h.step fun y => rfl
    have hin : ∀ x ∈ frontier, x ∈ visited := fun x hx =>
      (h.visited x).mpr ⟨k, Nat.le_refl k, (h.frontier x).mp hx⟩
    have hnew : (visited ++ (newOnes farEnd (frontier.flatMap (db.found direction)) visited).map
        farEnd).Nodup :=
      List.nodup_append.mpr ⟨hnodup, nodup_map_newOnes, fun x hx y hy hxy =>
        (mem_map_newOnes.mp hy).2 (hxy ▸ hx)⟩
    have hnodes' : (nodes ++ (newOnes farEnd (frontier.flatMap (db.found direction)) visited).map
        (db.nodeOf (k + 1))).map CallGraphNode.symbolId =
          visited ++ (newOnes farEnd (frontier.flatMap (db.found direction)) visited).map farEnd := by
      rw [List.map_append, hnodes, List.map_map]
      congr 1
      exact List.map_congr_left fun b _ => symbolId_nodeOf b
    obtain ⟨asked, t, hgathered, hedges, hlength, hrun⟩ := @ih (k + 1) _ _ _
      (edges ++ (frontier.flatMap (db.found direction)).map fun b => db.labelled (k + 1) b.2)
      hlevel nodup_map_newOnes hnew hnodes' (by omega)
    refine ⟨(frontier.map fun x => (x, k)) ++ asked, t,
      ⟨hgathered.nodup, hgathered.visited, hgathered.nodes, ?_, ?_⟩, ?_, ?_, fun fuel hfuel => ?_⟩
    · rw [List.map_append, List.map_map]
      refine List.nodup_append.mpr ⟨?_, hgathered.askedOnce, fun x hx y hy hxy => ?_⟩
      · have hids : (Prod.fst ∘ fun x : String => (x, k)) = id := rfl
        rwa [hids, List.map_id]
      · subst hxy
        obtain ⟨z, hz, rfl⟩ := List.mem_map.mp hx
        obtain ⟨p, hp, hpz⟩ := List.mem_map.mp hy
        obtain ⟨hle, -, hat⟩ := (hgathered.asked p.1 p.2).mp hp
        have heq := ((h.frontier z).mp hz).unique (hpz ▸ hat)
        omega
    · intro x i
      rw [List.mem_append, hgathered.asked]
      constructor
      · rintro (hmem | ⟨hle, hlt, hat⟩)
        · obtain ⟨y, hy, heq⟩ := List.mem_map.mp hmem
          obtain ⟨rfl, rfl⟩ := Prod.mk.inj heq
          exact ⟨Nat.le_refl _, by omega, (h.frontier y).mp hy⟩
        · exact ⟨by omega, hlt, hat⟩
      · rintro ⟨hle, hlt, hat⟩
        by_cases hlast : i = k
        · subst hlast
          exact .inl (List.mem_map.mpr ⟨x, (h.frontier x).mpr hat, rfl⟩)
        · exact .inr ⟨by omega, hlt, hat⟩
    · rw [askedEdges_level, ← List.append_assoc]
      exact hedges
    · rw [List.length_append] at hlength
      omega
    · obtain ⟨n, rfl⟩ := Nat.exists_eq_add_of_le (Nat.le_of_lt (Nat.lt_of_le_of_lt
        (Nat.le_add_right _ _) hfuel))
      have hturns := @traverse_level db direction m k n _ _ nodes edges (by omega) hin []
      rw [List.append_nil] at hturns
      have hdone := hrun n (by
        simp only [List.length_append, List.length_map] at hlength ⊢
        omega)
      rw [hturns, ← hdone, List.map_map]
      rfl

end

/-! The table of edges against what the search has asked for. -/

section

variable {db : Database} {direction : CallGraphDirection} {root : String} {m i : Nat}
  {asked : List (String × Nat)} {e : CallEdge} {side : EdgeSide}

def copiesFrom (db : Database) (asked : List (String × Nat)) (e : CallEdge) (side : EdgeSide) :
    List CallGraphEdge :=
  asked.flatMap fun p => if side.id e = p.1 then [db.labelled (p.2 + 1) e] else []

def copies (db : Database) (direction : CallGraphDirection) (asked : List (String × Nat))
    (e : CallEdge) : List CallGraphEdge :=
  direction.sides.flatMap (db.copiesFrom asked e)

theorem flatMap_swap {α β γ : Type} (as : List α) (bs : List β) (f : α → β → List γ) :
    (as.flatMap fun a => bs.flatMap (f a)).Perm (bs.flatMap fun b => as.flatMap fun a => f a b) := by
  induction bs with
  | nil => simp
  | cons b bs ih =>
    exact (List.flatMap_append_perm as _ _).symm.trans (ih.append_left _)

theorem filter_map_eq_flatMap {α β : Type} (p : α → Prop) [DecidablePred p] (f : α → β)
    (xs : List α) :
    (xs.filter p).map f = xs.flatMap fun x => if p x then [f x] else [] := by
  induction xs with
  | nil => rfl
  | cons x xs ih =>
    rw [List.flatMap_cons, ← ih]
    by_cases hp : p x <;> simp [hp]

theorem askedEdges_perm :
    (db.askedEdges direction asked).Perm (db.lspCallEdges.flatMap (db.copies direction asked)) := by
  have hrows : db.askedEdges direction asked = asked.flatMap fun p => direction.sides.flatMap
      fun side => db.lspCallEdges.flatMap fun e =>
        if side.id e = p.1 then [db.labelled (p.2 + 1) e] else [] := by
    refine List.flatMap_congr fun p _ => ?_
    rw [found, List.map_flatMap]
    refine List.flatMap_congr fun side _ => ?_
    rw [List.map_map, ← filter_map_eq_flatMap]
    rfl
  rw [hrows]
  refine (flatMap_swap asked direction.sides _).trans ?_
  refine (List.Perm.flatMap_left _ fun side _ => flatMap_swap asked db.lspCallEdges _).trans ?_
  exact flatMap_swap direction.sides db.lspCallEdges _

theorem copiesFrom_of_not_mem (h : side.id e ∉ asked.map Prod.fst) :
    db.copiesFrom asked e side = [] := by
  refine List.flatMap_eq_nil_iff.mpr fun p hp => if_neg fun heq => h ?_
  rw [heq]
  exact List.mem_map_of_mem hp

theorem copiesFrom_of_mem (hnodup : (asked.map Prod.fst).Nodup) (h : (side.id e, i) ∈ asked) :
    db.copiesFrom asked e side = [db.labelled (i + 1) e] := by
  induction asked with
  | nil => simp at h
  | cons p asked ih =>
    obtain ⟨hnot, hrest⟩ := List.nodup_cons.mp hnodup
    have hcons : db.copiesFrom (p :: asked) e side =
        (if side.id e = p.1 then [db.labelled (p.2 + 1) e] else []) ++
          db.copiesFrom asked e side := List.flatMap_cons
    rcases List.mem_cons.mp h with rfl | h
    · rw [hcons, if_pos rfl, copiesFrom_of_not_mem hnot, List.append_nil]
    · have hother : side.id e ≠ p.1 := fun heq => hnot (heq ▸ List.mem_map_of_mem h)
      rw [hcons, if_neg hother, List.nil_append, ih hrest h]

def LeastEnd (db : Database) (direction : CallGraphDirection) (root : String) (m i : Nat)
    (e : CallEdge) : Prop :=
  i < m ∧ (∃ side ∈ direction.sides, AtDistance (db.next direction) [root] i (side.id e)) ∧
    ∀ side ∈ direction.sides, ∀ j < i, ¬ AtDistance (db.next direction) [root] j (side.id e)

def Asked (db : Database) (direction : CallGraphDirection) (root : String) (m : Nat) (x : String) :
    Prop :=
  ∃ i < m, AtDistance (db.next direction) [root] i x

theorem LeastEnd.unique {j : Nat} (h : LeastEnd db direction root m i e)
    (h' : LeastEnd db direction root m j e) : i = j := by
  obtain ⟨-, ⟨side, hside, hat⟩, hleast⟩ := h
  obtain ⟨-, ⟨side', hside', hat'⟩, hleast'⟩ := h'
  rcases Nat.lt_trichotomy i j with hlt | heq | hlt
  · exact absurd hat (hleast' side hside i hlt)
  · exact heq
  · exact absurd hat' (hleast side' hside' j hlt)

def DepthOf (db : Database) (direction : CallGraphDirection) (root : String) (m : Nat)
    (depthOf : CallEdge → Option Nat) : Prop :=
  ∀ e d, depthOf e = some d ↔ ∃ i, d = i + 1 ∧ LeastEnd db direction root m i e

theorem exists_depthOf (db : Database) (direction : CallGraphDirection) (root : String) (m : Nat) :
    ∃ depthOf, DepthOf db direction root m depthOf := by
  classical
  refine ⟨fun e => if h : ∃ i, LeastEnd db direction root m i e then some (h.choose + 1) else none,
    fun e d => ?_⟩
  dsimp only
  by_cases h : ∃ i, LeastEnd db direction root m i e
  · rw [dif_pos h, Option.some_inj]
    constructor
    · rintro rfl
      exact ⟨_, rfl, h.choose_spec⟩
    · rintro ⟨i, rfl, hi⟩
      rw [hi.unique h.choose_spec]
  · grind

variable {t : Traversal} {depthOf : CallEdge → Option Nat}

theorem copiesFrom_eq (h : Gathered db direction root m 0 asked t) (e : CallEdge)
    (side : EdgeSide) :
    (∃ i < m, AtDistance (db.next direction) [root] i (side.id e) ∧
      db.copiesFrom asked e side = [db.labelled (i + 1) e]) ∨
    (¬ Asked db direction root m (side.id e) ∧ db.copiesFrom asked e side = []) := by
  by_cases hasked : Asked db direction root m (side.id e)
  · obtain ⟨i, hi, hat⟩ := hasked
    have hmem := (h.asked (side.id e) i).mpr ⟨Nat.zero_le i, hi, hat⟩
    exact .inl ⟨i, hi, hat, copiesFrom_of_mem h.askedOnce hmem⟩
  · refine .inr ⟨hasked, copiesFrom_of_not_mem fun hmem => hasked ?_⟩
    obtain ⟨p, hp, heq⟩ := List.mem_map.mp hmem
    obtain ⟨-, hlt, hat⟩ := (h.asked p.1 p.2).mp hp
    exact ⟨p.2, hlt, heq ▸ hat⟩

def AskedTwice (db : Database) (direction : CallGraphDirection) (root : String) (m : Nat)
    (e : CallEdge) : Prop :=
  direction = .both ∧ Asked db direction root m e.callerId ∧ Asked db direction root m e.calleeId

def labelOf (db : Database) (depthOf : CallEdge → Option Nat) (e : CallEdge) :
    Option CallGraphEdge :=
  (depthOf e).map fun d => db.labelled d e

theorem labelOf_of_none (hdepth : DepthOf db direction root m depthOf)
    (h : ∀ side ∈ direction.sides, ¬ Asked db direction root m (side.id e)) :
    db.labelOf depthOf e = none := by
  rw [labelOf, Option.map_eq_none_iff]
  by_contra hsome
  obtain ⟨d, hd⟩ := Option.ne_none_iff_exists'.mp hsome
  obtain ⟨i, -, hlt, ⟨side, hside, hat⟩, -⟩ := (hdepth e d).mp hd
  exact h side hside ⟨i, hlt, hat⟩

theorem labelOf_of_leastEnd (hdepth : DepthOf db direction root m depthOf)
    (h : LeastEnd db direction root m i e) :
    db.labelOf depthOf e = some (db.labelled (i + 1) e) := by
  rw [labelOf, (hdepth e (i + 1)).mpr ⟨i, rfl, h⟩]
  rfl

theorem labelOf_of_only (hdepth : DepthOf db direction root m depthOf)
    (hside : side ∈ direction.sides) (hlt : i < m)
    (hat : AtDistance (db.next direction) [root] i (side.id e))
    (honly : ∀ side' ∈ direction.sides, side' ≠ side → ¬ Asked db direction root m (side'.id e)) :
    db.labelOf depthOf e = some (db.labelled (i + 1) e) := by
  refine labelOf_of_leastEnd hdepth ⟨hlt, ⟨side, hside, hat⟩, fun side' hside' j hj hat' => ?_⟩
  by_cases hsame : side' = side
  · subst hsame
    have heq := hat.unique hat'
    omega
  · exact honly side' hside' hsame ⟨j, by omega, hat'⟩

theorem copies_of_not_twice (h : Gathered db direction root m 0 asked t)
    (hdepth : DepthOf db direction root m depthOf) (htwice : ¬ AskedTwice db direction root m e) :
    db.copies direction asked e = (db.labelOf depthOf e).toList := by
  have hone : ∀ side, direction.sides = [side] →
      db.copies direction asked e = (db.labelOf depthOf e).toList := by
    intro side hsides
    rw [copies, hsides, List.flatMap_singleton]
    rcases copiesFrom_eq h e side with ⟨i, hlt, hat, hcopies⟩ | ⟨hnot, hcopies⟩
    · rw [hcopies, labelOf_of_only hdepth (hsides ▸ List.mem_singleton_self side) hlt hat]
      · rfl
      · grind
    · rw [hcopies, labelOf_of_none hdepth]
      · rfl
      · grind
  cases direction with
  | inbound => exact hone .callee rfl
  | outbound => exact hone .caller rfl
  | both =>
    have hcopies : db.copies .both asked e =
        db.copiesFrom asked e .caller ++ db.copiesFrom asked e .callee := by
      simp [copies, CallGraphDirection.sides]
    rw [hcopies]
    rcases copiesFrom_eq h e .caller with ⟨i, hlt, hat, hcaller⟩ | ⟨hnot, hcaller⟩
    · rcases copiesFrom_eq h e .callee with ⟨j, hlt', hat', hcallee⟩ | ⟨hnot', hcallee⟩
      · exact absurd ⟨rfl, ⟨i, hlt, hat⟩, ⟨j, hlt', hat'⟩⟩ htwice
      · rw [hcaller, hcallee, labelOf_of_only hdepth (by simp [CallGraphDirection.sides]) hlt hat]
        · rfl
        · intro side' hside' hne
          cases side' with
          | caller => exact absurd rfl hne
          | callee => exact hnot'
    · rcases copiesFrom_eq h e .callee with ⟨j, hlt', hat', hcallee⟩ | ⟨hnot', hcallee⟩
      · rw [hcaller, hcallee, labelOf_of_only hdepth (by simp [CallGraphDirection.sides]) hlt' hat']
        · rfl
        · intro side' hside' hne
          cases side' with
          | caller => exact hnot
          | callee => exact absurd rfl hne
      · rw [hcaller, hcallee, labelOf_of_none hdepth]
        · rfl
        · intro side' hside'
          cases side' with
          | caller => exact hnot
          | callee => exact hnot'

theorem length_copies_of_twice (h : Gathered db direction root m 0 asked t)
    (htwice : AskedTwice db direction root m e) : (db.copies direction asked e).length = 2 := by
  obtain ⟨rfl, hcaller, hcallee⟩ := htwice
  have hcopies : db.copies .both asked e =
      db.copiesFrom asked e .caller ++ db.copiesFrom asked e .callee := by
    simp [copies, CallGraphDirection.sides]
  rw [hcopies]
  rcases copiesFrom_eq h e .caller with ⟨i, -, -, hfirst⟩ | ⟨hnot, -⟩
  · rcases copiesFrom_eq h e .callee with ⟨j, -, -, hsecond⟩ | ⟨hnot, -⟩
    · rw [hfirst, hsecond]
      rfl
    · exact absurd hcallee hnot
  · exact absurd hcaller hnot

theorem length_labelOf_le (h : Gathered db direction root m 0 asked t)
    (hdepth : DepthOf db direction root m depthOf) (e : CallEdge) :
    (db.labelOf depthOf e).toList.length ≤ (db.copies direction asked e).length := by
  by_cases htwice : AskedTwice db direction root m e
  · rw [length_copies_of_twice h htwice]
    cases db.labelOf depthOf e <;> simp
  · rw [copies_of_not_twice h hdepth htwice]

theorem edges_perm_iff (h : Gathered db direction root m 0 asked t)
    (hdepth : DepthOf db direction root m depthOf) :
    (db.askedEdges direction asked).Perm (db.lspCallEdges.filterMap (db.labelOf depthOf)) ↔
      ∀ e ∈ db.lspCallEdges, ¬ AskedTwice db direction root m e := by
  have hfilterMap : db.lspCallEdges.filterMap (db.labelOf depthOf) =
      db.lspCallEdges.flatMap fun e => (db.labelOf depthOf e).toList :=
    List.filterMap_eq_flatMap_toList ..
  constructor
  · intro hperm e he htwice
    have hlength := (askedEdges_perm.symm.trans hperm).length_eq
    rw [hfilterMap, List.length_flatMap, List.length_flatMap] at hlength
    have hless : (db.lspCallEdges.map fun e => (db.labelOf depthOf e).toList.length).sum <
        (db.lspCallEdges.map fun e => (db.copies direction asked e).length).sum := by
      refine List.sum_lt_sum _ _ (fun e _ => length_labelOf_le h hdepth e) ⟨e, he, ?_⟩
      rw [length_copies_of_twice h htwice]
      cases db.labelOf depthOf e <;> simp
    omega
  · intro hone
    refine askedEdges_perm.trans (.of_eq ?_)
    rw [hfilterMap]
    exact List.flatMap_congr fun e he => copies_of_not_twice h hdepth (hone e he)

/-- The symbols near the root, each once, and the rows around them that are asked for, each once
and with the depth of its nearest end. -/
structure ListsOnce (db : Database) (direction : CallGraphDirection) (m : Nat) (g : CallGraph) :
    Prop where
  nodup : (g.nodes.map CallGraphNode.symbolId).Nodup
  nodes : ∀ x, x ∈ g.nodes.map CallGraphNode.symbolId ↔
    ∃ i ≤ m, AtDistance (db.next direction) [g.root.symbolId] i x
  edges : ∃ depthOf, DepthOf db direction g.root.symbolId m depthOf ∧
    g.edges.Perm (db.lspCallEdges.filterMap (db.labelOf depthOf))

theorem mem_keys_of_symbol {x : String} (h : (db.symbol? x).isSome) :
    x ∈ db.lspSymbols.entries.map Prod.fst := by
  obtain ⟨row, hrow⟩ := Option.isSome_iff_exists.mp h
  exact List.mem_map_of_mem (IndexMap.get?_eq_some_iff.mp hrow)

theorem mem_keys_of_atDistance {x : String}
    (hroot : root ∈ db.lspSymbols.entries.map Prod.fst)
    (h : AtDistance (db.next direction) [root] i x) : x ∈ db.lspSymbols.entries.map Prod.fst := by
  cases i with
  | zero =>
    rw [List.mem_singleton.mp (atDistance_zero.mp h)]
    exact hroot
  | succ i =>
    obtain ⟨y, -, hstep⟩ := h.pred
    obtain ⟨⟨side, e⟩, hb, rfl⟩ := List.mem_map.mp hstep
    obtain ⟨-, he, -⟩ := mem_found.mp hb
    obtain ⟨hcaller, hcallee⟩ := db.ends_of_edge e he
    cases side with
    | caller => exact mem_keys_of_symbol hcallee
    | callee => exact mem_keys_of_symbol hcaller

theorem graphFrom_spec {root : CallGraphNode} {fuel : Nat}
    (hroot : root.symbolId ∈ db.lspSymbols.entries.map Prod.fst)
    (hfuel : db.lspSymbols.entries.length < fuel) :
    ∃ g, db.graphFrom direction m fuel root = some g ∧ g.root = root ∧
      (ListsOnce db direction m g ↔
        ∀ e ∈ db.lspCallEdges, ¬ AskedTwice db direction root.symbolId m e) := by
  obtain ⟨asked, t, hgathered, hedges, hstarted, hrun⟩ := @traverse_gathers db direction 0 _ _
    [root] [] m m _ Front.start (List.nodup_singleton root.symbolId)
    (List.nodup_singleton root.symbolId) rfl (Nat.zero_add m)
  have hin : ∀ x ∈ t.visited, x ∈ db.lspSymbols.entries.map Prod.fst := fun x hx => by
    obtain ⟨i, -, hat⟩ := (hgathered.visited x).mp hx
    exact mem_keys_of_atDistance hroot hat
  have hlength := (hgathered.nodup.subperm hin).length_le
  rw [List.length_map] at hlength
  have hturns := hrun fuel (by
    omega)
  refine ⟨⟨root, t.edges, t.nodes⟩, ?_, rfl, ?_⟩
  · rw [graphFrom]
    have hstart : [root.symbolId].map (fun x => (x, 0)) = [(root.symbolId, 0)] := rfl
    rw [← hstart, hturns]
    rfl
  · constructor
    · rintro ⟨-, -, depthOf, hdepth, hperm⟩
      rw [hedges] at hperm
      exact (edges_perm_iff hgathered hdepth).mp hperm
    · intro hone
      obtain ⟨depthOf, hdepth⟩ := exists_depthOf db direction root.symbolId m
      refine ⟨?_, fun x => ?_, depthOf, hdepth, ?_⟩
      · rw [hgathered.nodes]
        exact hgathered.nodup
      · rw [hgathered.nodes]
        exact hgathered.visited x
      · rw [hedges]
        exact (edges_perm_iff hgathered hdepth).mpr hone

theorem mem_keys_of_resolveSymbol {symbol : String} {root : CallGraphNode}
    (h : db.resolveSymbol symbol = .ok root) :
    root.symbolId ∈ db.lspSymbols.entries.map Prod.fst := by
  rw [resolveSymbol] at h
  split at h
  · rename_i node hplace
    obtain rfl := Except.ok.inj h
    obtain ⟨place, -, hplace⟩ := Option.bind_eq_some_iff.mp hplace
    obtain ⟨entry, hentry, rfl⟩ := Option.map_eq_some_iff.mp hplace
    exact List.mem_map_of_mem (List.mem_of_mem_filter (List.argmin_mem hentry))
  · rw [resolveByName] at h
    split at h
    · grind
    · cases h

/-- The graph lists everything once exactly when no row is asked for from both of its ends. -/
theorem getCallgraph_listsOnce_iff {options : CallGraphOptions} {root : CallGraphNode}
    {fuel : Nat} (hm : 1 ≤ options.maxDepth ∧ options.maxDepth ≤ 5)
    (hroot : db.resolveSymbol options.symbol = .ok root)
    (hfuel : db.lspSymbols.entries.length < fuel) :
    ∃ g, db.getCallgraph fuel options = .ok (some g) ∧ g.root = root ∧
      (ListsOnce db options.direction options.maxDepth g ↔
        ¬ ∃ e ∈ db.lspCallEdges, options.direction = .both ∧
          Asked db .both root.symbolId options.maxDepth e.callerId ∧
          Asked db .both root.symbolId options.maxDepth e.calleeId) := by
  have hclamp : clampDepth options.maxDepth = options.maxDepth := by
    rw [clampDepth]
    omega
  obtain ⟨g, hrun, hg, hiff⟩ := @graphFrom_spec _ options.direction options.maxDepth _ _
    (mem_keys_of_resolveSymbol hroot) hfuel
  refine ⟨g, ?_, hg, hiff.trans ?_⟩
  · rw [getCallgraph, hroot, hclamp, ← hrun]
    rfl
  · constructor
    · rintro hone ⟨e, he, hboth, hcaller, hcallee⟩
      exact hone e he ⟨hboth, hboth ▸ hcaller, hboth ▸ hcallee⟩
    · rintro hone e he ⟨hboth, hcaller, hcallee⟩
      exact hone ⟨e, he, hboth, hboth ▸ hcaller, hboth ▸ hcallee⟩

end

def oneCall : Database :=
  let file := Database.empty.putFile "m.rs" ⟨[], true, true, true⟩
  let symbols := (file.putSymbol "a" (symbolNamed "a") rfl).putSymbol "b" (symbolNamed "b") rfl
  { symbols with
    lspCallEdges := [callBetween "a" "b"]
    ends_of_edge := by decide }

def nodeIn (name : String) : CallGraphNode := ⟨name, name, "m.rs"⟩

def twiceListed : CallGraph where
  root := nodeIn "a"
  edges := [⟨nodeIn "a", nodeIn "b", "lsp", 1⟩, ⟨nodeIn "a", nodeIn "b", "lsp", 2⟩]
  nodes := [nodeIn "a", nodeIn "b"]

theorem getCallgraph_listsOnce_iff_outbound :
    ∃ g, oneCall.getCallgraph 3 ⟨"a", .outbound, 2⟩ = .ok (some g) ∧ g.root = nodeIn "a" ∧
      (ListsOnce oneCall .outbound 2 g ↔
        ¬ ∃ e ∈ oneCall.lspCallEdges, CallGraphDirection.outbound = .both ∧
          Asked oneCall .both "a" 2 e.callerId ∧ Asked oneCall .both "a" 2 e.calleeId) :=
  getCallgraph_listsOnce_iff (by decide) (by rfl) (by decide)

theorem both_lists_a_call_twice :
    ∃ g, oneCall.getCallgraph 3 ⟨"a", .both, 2⟩ = .ok (some g) ∧ ¬ ListsOnce oneCall .both 2 g := by
  refine ⟨twiceListed, by rfl, ?_⟩
  rintro ⟨-, -, depthOf, -, hperm⟩
  have hlength := hperm.length_eq
  have hle := List.length_filterMap_le (oneCall.labelOf depthOf) oneCall.lspCallEdges
  have hrows : oneCall.lspCallEdges.length = 1 := rfl
  have htwo : twiceListed.edges.length = 2 := rfl
  omega

end Database

end SwissArmyHammer.CodeContext
