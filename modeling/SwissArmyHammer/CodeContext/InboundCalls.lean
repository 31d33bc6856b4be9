import SwissArmyHammer.CodeContext.BlastRadius
import SwissArmyHammer.CodeContext.LspCalls
import SwissArmyHammer.Common.DepthFirst

/-! The tree of the callers of a symbol, against the hops of its blast radius. -/

namespace SwissArmyHammer.CodeContext

open Walks DepthFirst

inductive InboundCallEntry where
  | mk (symbolId symbolName filePath : String) (range : LspRange) (callSites : List LspRange)
    (depth : Nat) (callers : List InboundCallEntry)

namespace InboundCallEntry

def symbolId : InboundCallEntry → String
  | .mk symbolId _ _ _ _ _ _ => symbolId

def callSites : InboundCallEntry → List LspRange
  | .mk _ _ _ _ callSites _ _ => callSites

def depth : InboundCallEntry → Nat
  | .mk _ _ _ _ _ depth _ => depth

end InboundCallEntry

def CallEdgeInfo.callerId (edge : CallEdgeInfo) : String :=
  edge.symbol.qualifiedPath.getD edge.symbol.name

def collectEntries (below : String → List String → List InboundCallEntry × List String)
    (depth : Nat) : List CallEdgeInfo → List String → List InboundCallEntry × List String
  | [], visited => ([], visited)
  | edge :: edges, visited =>
    if edge.callerId ∈ visited then collectEntries below depth edges visited
    else
      let sub := below edge.callerId (visited ++ [edge.callerId])
      let rest := collectEntries below depth edges sub.2
      (.mk edge.callerId edge.symbol.name edge.symbol.filePath edge.symbol.range edge.callSites
        depth sub.1 :: rest.1, rest.2)

namespace Database

variable (db : Database) (fromStr : String → Option (List Json))

def collectCallers : Nat → Nat → String → List String → List InboundCallEntry × List String
  | 0, _, _, visited => ([], visited)
  | left + 1, depth, symbolId, visited =>
    collectEntries (collectCallers left (depth + 1)) depth (db.lspCallersOf fromStr symbolId)
      visited

def collectLspIndexCallers (symbolId : String) (maxDepth currentDepth : Nat)
    (visited : List String) : List InboundCallEntry × List String :=
  db.collectCallers fromStr (maxDepth + 1 - currentDepth) currentDepth symbolId visited

def callerTree (symbolId : String) (maxDepth : Nat) : List InboundCallEntry :=
  (db.collectLspIndexCallers fromStr symbolId maxDepth 1 [symbolId]).1

end Database

section

mutual

def InboundCallEntry.entries : InboundCallEntry → List InboundCallEntry
  | .mk symbolId symbolName filePath range callSites depth callers =>
    .mk symbolId symbolName filePath range callSites depth callers :: allEntries callers

def allEntries : List InboundCallEntry → List InboundCallEntry
  | [] => []
  | entry :: entries => entry.entries ++ allEntries entries

end

abbrev Shown := Nat × String × List LspRange

def InboundCallEntry.shown (e : InboundCallEntry) : Shown := (e.depth, e.symbolId, e.callSites)

def shownAt (e : Nat × CallEdgeInfo) : Shown := (e.1, e.2.callerId, e.2.callSites)

variable {db : Database} {fromStr : String → Option (List Json)}

theorem collectEntries_eq {below : String → List String → List InboundCallEntry × List String}
    {search : String → List String → List (Nat × CallEdgeInfo) × List String}
    (h : ∀ id visited, (allEntries (below id visited).1).map InboundCallEntry.shown =
      (search id visited).1.map shownAt ∧ (below id visited).2 = (search id visited).2)
    (depth : Nat) (edges : List CallEdgeInfo) (visited : List String) :
    (allEntries (collectEntries below depth edges visited).1).map InboundCallEntry.shown =
        (exploreEach search CallEdgeInfo.callerId depth edges visited).1.map shownAt ∧
      (collectEntries below depth edges visited).2 =
        (exploreEach search CallEdgeInfo.callerId depth edges visited).2 := by
  induction edges generalizing visited with
  | nil => exact ⟨rfl, rfl⟩
  | cons edge edges ih =>
    rw [collectEntries, exploreEach]
    split
    · exact ih visited
    · obtain ⟨hsub, hvisited⟩ := h edge.callerId (visited ++ [edge.callerId])
      obtain ⟨hrest, hend⟩ := ih (search edge.callerId (visited ++ [edge.callerId])).2
      dsimp only
      rw [hvisited]
      refine ⟨?_, hend⟩
      rw [allEntries, InboundCallEntry.entries, List.cons_append, List.map_cons, List.map_append,
        hsub, hrest, List.map_cons, List.map_append]
      rfl

theorem collectCallers_eq (left depth : Nat) (symbolId : String) (visited : List String) :
    (allEntries (db.collectCallers fromStr left depth symbolId visited).1).map
          InboundCallEntry.shown =
        (explore (db.lspCallersOf fromStr) CallEdgeInfo.callerId left depth symbolId
          visited).1.map shownAt ∧
      (db.collectCallers fromStr left depth symbolId visited).2 =
        (explore (db.lspCallersOf fromStr) CallEdgeInfo.callerId left depth symbolId
          visited).2 := by
  induction left generalizing depth symbolId visited with
  | zero => exact ⟨rfl, rfl⟩
  | succ left ih => exact collectEntries_eq (fun id visited => ih (depth + 1) id visited) _ _ _

theorem mem_callerTree (symbolId : String) (maxDepth : Nat) (shown : Shown) :
    (∃ e ∈ allEntries (db.callerTree fromStr symbolId maxDepth), e.shown = shown) ↔
      ∃ e ∈ (explore (db.lspCallersOf fromStr) CallEdgeInfo.callerId maxDepth 1 symbolId
        [symbolId]).1, shownAt e = shown := by
  rw [← List.mem_map, ← List.mem_map]
  have hshown : (allEntries (db.callerTree fromStr symbolId maxDepth)).map InboundCallEntry.shown =
      (explore (db.lspCallersOf fromStr) CallEdgeInfo.callerId maxDepth 1 symbolId
        [symbolId]).1.map shownAt := (collectCallers_eq maxDepth 1 symbolId [symbolId]).1
  rw [hshown]

end

section

variable {db : Database} {fromStr : String → Option (List Json)} {s : String}

def callerRow (db : Database) (fromStr : String → Option (List Json)) (s : String)
    (edge : CallEdge) : Option CallEdgeInfo :=
  (db.symbol? edge.callerId).bind fun symbol =>
    if decide (edge.calleeId = s) then some (callEdgeInfo fromStr edge edge.callerId symbol)
    else none

theorem callerRow_of_callee (fromStr : String → Option (List Json)) {edge : CallEdge}
    (hmem : edge ∈ db.lspCallEdges)
    (h : edge.calleeId = s) :
    ∃ symbol, callerRow db fromStr s edge =
      some (callEdgeInfo fromStr edge edge.callerId symbol) := by
  obtain ⟨symbol, hsymbol⟩ := Option.isSome_iff_exists.mp (db.ends_of_edge edge hmem).1
  have hrow : db.symbol? edge.callerId = some symbol := hsymbol
  exact ⟨symbol, by rw [callerRow, hrow, Option.bind_some, if_pos (by simpa using h)]⟩

theorem callerRow_of_ne {edge : CallEdge} (h : edge.calleeId ≠ s) :
    callerRow db fromStr s edge = none := by
  rw [callerRow]
  simp [h]

theorem map_callerRow {edges : List CallEdge} (h : ∀ edge ∈ edges, edge ∈ db.lspCallEdges) :
    (edges.filterMap (callerRow db fromStr s)).map CallEdgeInfo.callerId =
      (edges.filter fun edge => edge.calleeId = s).map CallEdge.callerId := by
  induction edges with
  | nil => rfl
  | cons edge edges ih =>
    have htail := ih fun other hmem => h other (List.mem_cons_of_mem _ hmem)
    by_cases hcallee : edge.calleeId = s
    · obtain ⟨symbol, hrow⟩ := callerRow_of_callee fromStr (h edge List.mem_cons_self) hcallee
      rw [List.filterMap_cons_some hrow, List.filter_cons_of_pos (by simpa using hcallee),
        List.map_cons, htail]
      rfl
    · rw [List.filterMap_cons_none (callerRow_of_ne hcallee),
        List.filter_cons_of_neg (by simpa using hcallee), htail]

theorem map_lspCallersOf (db : Database) (fromStr : String → Option (List Json)) (s : String) :
    db.directCallers s = (db.lspCallersOf fromStr s).map CallEdgeInfo.callerId :=
  (map_callerRow fun _ h => h).symm

def firstCall (edges : List CallEdge) (callerId s : String) : Option CallEdge :=
  edges.find? fun edge => edge.calleeId = s && edge.callerId = callerId

theorem firstCall_of_split {edges : List CallEdge} {pre post : List CallEdgeInfo}
    {b : CallEdgeInfo} (h : ∀ edge ∈ edges, edge ∈ db.lspCallEdges)
    (hsplit : edges.filterMap (callerRow db fromStr s) = pre ++ b :: post)
    (hpre : ∀ c ∈ pre, c.callerId ≠ b.callerId) :
    ∃ edge, firstCall edges b.callerId s = some edge ∧
      b.callSites = parseFromRanges fromStr edge.fromRanges := by
  induction edges generalizing pre with
  | nil => simp at hsplit
  | cons edge edges ih =>
    have htail : ∀ other ∈ edges, other ∈ db.lspCallEdges :=
      fun other hmem => h other (List.mem_cons_of_mem _ hmem)
    by_cases hcallee : edge.calleeId = s
    · obtain ⟨symbol, hrow⟩ := callerRow_of_callee fromStr (h edge List.mem_cons_self) hcallee
      rw [List.filterMap_cons_some hrow] at hsplit
      cases pre with
      | nil =>
        obtain ⟨rfl, -⟩ := List.cons.inj hsplit
        refine ⟨edge, List.find?_cons_of_pos ?_, rfl⟩
        rw [decide_eq_true hcallee]
        exact decide_eq_true rfl
      | cons c pre =>
        obtain ⟨rfl, hrest⟩ := List.cons.inj hsplit
        obtain ⟨first, hfirst, hsites⟩ :=
          ih htail hrest fun c hc => hpre c (List.mem_cons_of_mem _ hc)
        refine ⟨first, ?_, hsites⟩
        have hother : edge.callerId ≠ b.callerId := hpre _ List.mem_cons_self
        rw [firstCall, List.find?_cons_of_neg (by simp [hother])]
        exact hfirst
    · rw [List.filterMap_cons_none (callerRow_of_ne hcallee)] at hsplit
      obtain ⟨first, hfirst, hsites⟩ := ih htail hsplit hpre
      refine ⟨first, ?_, hsites⟩
      rw [firstCall, List.find?_cons_of_neg (by simp [hcallee])]
      exact hfirst

end

section

variable (db : Database) (fromStr : String → Option (List Json)) (s : String) (d : Nat)

/-- The tree shows what the hops do, and each direct caller at the top with the places of all its
calls. -/
structure Agree : Prop where
  symbols : ∀ x, (∃ e ∈ allEntries (db.callerTree fromStr s d), e.symbolId = x) ↔
    ∃ level ∈ (db.radiusFrom [s] d).hops, ∃ a ∈ level.symbols, a.symbolId = x
  distances : ∀ x, (∃ e ∈ allEntries (db.callerTree fromStr s d), e.symbolId = x) ↔
    ∃ k, 1 ≤ k ∧ k ≤ d ∧ AtDistance db.directCallers [s] k x
  direct : ∀ edge ∈ db.lspCallEdges, edge.calleeId = s → edge.callerId ≠ s →
    ∃ e ∈ allEntries (db.callerTree fromStr s d), e.symbolId = edge.callerId ∧ e.depth = 1 ∧
      ∀ site ∈ parseFromRanges fromStr edge.fromRanges, site ∈ e.callSites

/-- Of several calls from one symbol the first in the table has the places of all. -/
def FirstHasSites : Prop :=
  ∀ edge ∈ db.lspCallEdges, edge.calleeId = s → edge.callerId ≠ s →
    ∀ first, firstCall db.lspCallEdges edge.callerId s = some first →
      ∀ site ∈ parseFromRanges fromStr edge.fromRanges,
        site ∈ parseFromRanges fromStr first.fromRanges

variable {db fromStr s d}

theorem atDistance_one {x : String} :
    AtDistance db.directCallers [s] 1 x ↔ x ≠ s ∧ x ∈ db.directCallers s := by
  constructor
  · intro h
    obtain ⟨y, hy, hstep⟩ := h.pred
    rw [List.mem_singleton.mp (atDistance_zero.mp hy)] at hstep
    exact ⟨fun heq => h.2 0 Nat.zero_lt_one (near_zero.mpr (by simp [heq])), hstep⟩
  · rintro ⟨hne, hstep⟩
    refine ⟨near_succ.mpr ⟨s, near_zero.mpr (by simp), hstep⟩, fun j hj hnear => hne ?_⟩
    obtain rfl : j = 0 := by omega
    exact List.mem_singleton.mp (near_zero.mp hnear)

theorem mem_directCallers {edge : CallEdge} (hmem : edge ∈ db.lspCallEdges)
    (h : edge.calleeId = s) : edge.callerId ∈ db.directCallers s :=
  List.mem_map_of_mem (List.mem_filter.mpr ⟨hmem, by simpa using h⟩)

theorem top_sites {e : InboundCallEntry} (h : e ∈ allEntries (db.callerTree fromStr s d))
    (htop : e.depth = 1) :
    ∃ first, firstCall db.lspCallEdges e.symbolId s = some first ∧
      e.callSites = parseFromRanges fromStr first.fromRanges := by
  obtain ⟨⟨k, b⟩, hb, heq⟩ := (mem_callerTree s d e.shown).mp ⟨e, h, rfl⟩
  obtain ⟨hdepth, hid, hsites⟩ :
      k = e.depth ∧ b.callerId = e.symbolId ∧ b.callSites = e.callSites := by
    simpa [shownAt, InboundCallEntry.shown] using heq
  obtain rfl : k = 1 := hdepth.trans htop
  cases d with
  | zero => simp [explore] at hb
  | succ d =>
    have hcounts : ∀ x visited, DepthFirst.Counts CallEdgeInfo.callerId visited
        (explore (db.lspCallersOf fromStr) CallEdgeInfo.callerId d 2 x visited) :=
      counts_explore d 2
    obtain ⟨-, pre, post, hsplit, hpre⟩ := first_of_mem_exploreEach hcounts
      (fun x visited e he => (le_of_mem_explore he).1) hb
    obtain ⟨first, hfirst, hfirstSites⟩ := firstCall_of_split (fun _ h => h) hsplit hpre
    exact ⟨first, hid ▸ hfirst, hsites ▸ hfirstSites⟩

theorem orderly_iff_depths :
    Orderly db.directCallers s d ↔ ∀ e ∈ allEntries (db.callerTree fromStr s d),
      AtDistance db.directCallers [s] e.depth e.symbolId := by
  rw [← timely_iff_orderly (map_lspCallersOf db fromStr)]
  constructor
  · intro h e he
    obtain ⟨⟨k, b⟩, hb, heq⟩ := (mem_callerTree s d e.shown).mp ⟨e, he, rfl⟩
    obtain ⟨w, hw, hlen⟩ := h _ hb
    obtain ⟨hdepth, hid, -⟩ := (show k = e.depth ∧ b.callerId = e.symbolId ∧ _ by
      simpa [shownAt, InboundCallEntry.shown] using heq)
    rw [← hdepth, ← hid, ← (show w.length = k from hlen)]
    exact hw.atDistance
  · rintro h ⟨k, b⟩ hb
    obtain ⟨e, he, heq⟩ := (mem_callerTree s d (shownAt (k, b))).mpr ⟨_, hb, rfl⟩
    obtain ⟨hdepth, hid, -⟩ := (show e.depth = k ∧ e.symbolId = b.callerId ∧ _ by
      simpa [shownAt, InboundCallEntry.shown] using heq)
    have hat := h e he
    rw [hdepth, hid] at hat
    exact exists_shortest hat

theorem shown_iff_atDistance (fromStr : String → Option (List Json))
    (h : Orderly db.directCallers s d) (k : Nat) (x : String) :
    (∃ e ∈ allEntries (db.callerTree fromStr s d), e.depth = k ∧ e.symbolId = x) ↔
      1 ≤ k ∧ k ≤ d ∧ AtDistance db.directCallers [s] k x := by
  rw [← h.shown_iff (map_lspCallersOf db fromStr) k x]
  constructor
  · rintro ⟨e, he, rfl, rfl⟩
    obtain ⟨⟨k, b⟩, hb, heq⟩ := (mem_callerTree s d e.shown).mp ⟨e, he, rfl⟩
    obtain ⟨rfl, hid, -⟩ : k = e.depth ∧ b.callerId = e.symbolId ∧ b.callSites = e.callSites := by
      simpa [shownAt, InboundCallEntry.shown] using heq
    exact ⟨b, hb, hid⟩
  · rintro ⟨b, hb, rfl⟩
    obtain ⟨e, he, heq⟩ := (mem_callerTree s d (shownAt (k, b))).mpr ⟨_, hb, rfl⟩
    obtain ⟨hdepth, hid, -⟩ :
        e.depth = k ∧ e.symbolId = b.callerId ∧ e.callSites = b.callSites := by
      simpa [shownAt, InboundCallEntry.shown] using heq
    exact ⟨e, he, hdepth, hid⟩

theorem reported_iff_atDistance (x : String) :
    (∃ level ∈ (db.radiusFrom [s] d).hops, ∃ a ∈ level.symbols, a.symbolId = x) ↔
      ∃ k, 1 ≤ k ∧ k ≤ d ∧ AtDistance db.directCallers [s] k x := by
  have hexact := (radiusFrom_exact db [s] d).hop
  constructor
  · rintro ⟨level, hlevel, a, ha, rfl⟩
    exact ⟨level.hop, (hexact _ _).mp ⟨level, hlevel, rfl, a, ha, rfl⟩⟩
  · grind

theorem agree_of_orderly (h : Orderly db.directCallers s d) (hpos : 1 ≤ d)
    (hsites : FirstHasSites db fromStr s) : Agree db fromStr s d := by
  have hdistances : ∀ x, (∃ e ∈ allEntries (db.callerTree fromStr s d), e.symbolId = x) ↔
      ∃ k, 1 ≤ k ∧ k ≤ d ∧ AtDistance db.directCallers [s] k x := by
    intro x
    constructor
    · rintro ⟨e, he, rfl⟩
      exact ⟨e.depth, (shown_iff_atDistance fromStr h _ _).mp ⟨e, he, rfl, rfl⟩⟩
    · rintro ⟨k, hk⟩
      obtain ⟨e, he, -, hx⟩ := (shown_iff_atDistance fromStr h k x).mpr hk
      exact ⟨e, he, hx⟩
  refine ⟨fun x => (hdistances x).trans (reported_iff_atDistance x).symm, hdistances, ?_⟩
  intro edge hedge hcallee hne
  obtain ⟨e, he, hdepth, hid⟩ := (shown_iff_atDistance fromStr h 1 edge.callerId).mpr
    ⟨Nat.le_refl 1, hpos, atDistance_one.mpr ⟨hne, mem_directCallers hedge hcallee⟩⟩
  obtain ⟨first, hfirst, hshown⟩ := top_sites he hdepth
  refine ⟨e, he, hid, hdepth, ?_⟩
  rw [hshown]
  exact hsites edge hedge hcallee hne first (hid ▸ hfirst)

theorem Agree.firstHasSites (h : Agree db fromStr s d) : FirstHasSites db fromStr s := by
  intro edge hedge hcallee hne first hfirst site hsite
  obtain ⟨e, he, hid, hdepth, hsites⟩ := h.direct edge hedge hcallee hne
  obtain ⟨other, hother, hshown⟩ := top_sites he hdepth
  rw [hid, hfirst, Option.some.injEq] at hother
  rw [hother, ← hshown]
  exact hsites site hsite

/-- Where the calls are orderly every symbol is shown at its distance, and only there; then the tree
agrees with the hops, as long as no caller has places in a later row only. -/
theorem callerTree_agrees (db : Database) (fromStr : String → Option (List Json)) (s : String)
    (d : Nat) (hpos : 1 ≤ d) :
    (Orderly db.directCallers s d ↔ ∀ e ∈ allEntries (db.callerTree fromStr s d),
      AtDistance db.directCallers [s] e.depth e.symbolId) ∧
    (Orderly db.directCallers s d → (Agree db fromStr s d ↔ FirstHasSites db fromStr s)) :=
  ⟨orderly_iff_depths, fun h => ⟨Agree.firstHasSites, agree_of_orderly h hpos⟩⟩

end

def symbolNamed (name : String) : SymbolRow := ⟨name, 12, "m.rs", 0, 0, 1, 0, none⟩

def callBetween (caller callee : String) : CallEdge := ⟨caller, callee, "m.rs", "m.rs", "[]", "lsp"⟩

def diamond : Database :=
  let file := Database.empty.putFile "m.rs" ⟨[], true, true, true⟩
  let symbols := ((file.putSymbol "s" (symbolNamed "s") rfl).putSymbol "a" (symbolNamed "a")
    rfl).putSymbol "b" (symbolNamed "b") rfl
  { symbols with
    lspCallEdges := [callBetween "a" "s", callBetween "b" "s", callBetween "b" "a"]
    ends_of_edge := by decide }

def noRanges (_ : String) : Option (List Json) := some []

theorem callerTree_agrees_chain :
    Agree diamond noRanges "a" 2 := by
  have hdepths : ∀ e ∈ allEntries (diamond.callerTree noRanges "a" 2),
      AtDistance diamond.directCallers ["a"] e.depth e.symbolId := by
    intro e he
    have hshown : (allEntries (diamond.callerTree noRanges "a" 2)).map InboundCallEntry.shown =
      [(1, "b", [])] := by decide
    have hmem := List.mem_map_of_mem (f := InboundCallEntry.shown) he
    rw [hshown, List.mem_singleton] at hmem
    obtain ⟨hdepth, hid, -⟩ : e.depth = 1 ∧ e.symbolId = "b" ∧ e.callSites = [] := by
      simpa [InboundCallEntry.shown] using hmem
    rw [hdepth, hid]
    exact atDistance_one.mpr (by decide)
  have h := callerTree_agrees diamond noRanges "a" 2 (by decide)
  refine (h.2 (h.1.mpr hdepths)).mpr fun edge _ _ _ first _ site hsite => ?_
  simp [parseFromRanges, noRanges] at hsite

theorem diamond_disagrees : ¬ Agree diamond noRanges "s" 2 := by
  intro h
  obtain ⟨e, he, hid, hdepth, -⟩ := h.direct (callBetween "b" "s") (by decide) rfl (by decide)
  have hshown : (allEntries (diamond.callerTree noRanges "s" 2)).map InboundCallEntry.shown =
    [(1, "a", []), (2, "b", [])] := by decide
  have hmem := List.mem_map_of_mem (f := InboundCallEntry.shown) he
  have hb : e.shown = (1, "b", e.callSites) := by
    rw [InboundCallEntry.shown, hid, hdepth]
    rfl
  rw [hshown, hb] at hmem
  simp at hmem

end SwissArmyHammer.CodeContext
