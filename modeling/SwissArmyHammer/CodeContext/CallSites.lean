import SwissArmyHammer.CodeContext.LspCalls

/-! The places of a call, written by two writers and read by one reader. -/

namespace SwissArmyHammer.CodeContext

def siteValue (site : CallSite) : Json :=
  .array [.number (toString site.startLine), .number "0", .number (toString site.endLine),
    .number "0"]

/-- A call as one of the writers stores it, the ranges that it was made at, and the JSON values
that its column is the text of. -/
inductive Stored : CallEdge → List LspRange → List Json → Prop
  | lsp {T : LspTypes} {client : LspClient} {filePath : List PathName} {relativePath : String}
    {n : Nat} {sym : FlatSymbol} {edges : List CallEdge} {call : CallHierarchyOutgoingCall}
    (h : (collectEdgesForSymbol T client filePath relativePath n sym).1 = .ok edges)
    (hmem : call.edge sym.1 filePath relativePath ∈ edges) :
    Stored (call.edge sym.1 filePath relativePath) call.fromRanges
      (call.fromRanges.map LspRange.toJson)
  | treesitter {db : Database} {filePath : String} {resolved : List ResolvedCallee}
    {site : CallSite} {edge : CallEdge}
    (h : db.buildEdgeForSite filePath resolved site = some edge) :
    Stored edge [⟨.ofNat site.startLine, 0, .ofNat site.endLine, 0⟩] [siteValue site]

variable {db : Database} {filePath : String} {resolved : List ResolvedCallee} {site : CallSite}
  {edge : CallEdge} {ranges : List LspRange} {values : List Json}
  {fromStr : String → Option (List Json)}

theorem of_buildEdgeForSite (h : db.buildEdgeForSite filePath resolved site = some edge) :
    edge.source = "treesitter" ∧
      edge.fromRanges = s!"[[{site.startLine},0,{site.endLine},0]]" := by
  rw [Database.buildEdgeForSite] at h
  split at h
  · simp at h
  · obtain ⟨callee, -, rfl⟩ := Option.map_eq_some_iff.mp h
    exact ⟨rfl, rfl⟩

theorem parseFromRanges_of_fromStr {json : String} (h : fromStr json = some values) :
    parseFromRanges fromStr json = values.filterMap parseRange := by
  rw [parseFromRanges, h]

theorem parse_treesitter (h : fromStr edge.fromRanges = some [siteValue site]) :
    parseFromRanges fromStr edge.fromRanges = [] := by
  rw [parseFromRanges_of_fromStr h]
  rfl

/-- The reader gives back what the language server's writer has stored, and nothing of what the
tree-sitter writer has. -/
theorem parseFromRanges_stored (h : Stored edge ranges values)
    (hread : fromStr edge.fromRanges = some values) :
    (parseFromRanges fromStr edge.fromRanges = ranges ↔ edge.source = "lsp") ∧
      (edge.source = "lsp" ∨ edge.source = "treesitter" ∧ ranges ≠ [] ∧
        ∀ id symbol, (callEdgeInfo fromStr edge id symbol).callSites = []) := by
  cases h with
  | lsp h hmem =>
    refine ⟨iff_of_true ?_ rfl, .inl rfl⟩
    rw [parseFromRanges_of_fromStr hread]
    exact filterMap_parseRange _
  | treesitter h =>
    have hsource := (of_buildEdgeForSite h).1
    have hnone := parse_treesitter hread
    refine ⟨iff_of_false ?_ ?_, .inr ⟨hsource, List.cons_ne_nil _ _, fun _ _ => hnone⟩⟩
    · rw [hnone]
      exact List.cons_ne_nil _ _ ∘ Eq.symm
    · rw [hsource]
      decide

def callerChunk : ChunkRow := ⟨"m.rs", 0, 90, 0, 9, [], some "main", none⟩

def oneCaller : Database :=
  { Database.empty.putFile "m.rs" ⟨[], true, false, true⟩ with
    tsChunks := [callerChunk]
    file_of_chunk := fun chunk hmem => by
      rw [List.mem_singleton.mp hmem]
      rfl }

def helpSite : CallSite := ⟨"help", 40, 46, 4, 4⟩

def helpEdge : CallEdge :=
  ⟨"ts:m.rs:main", "ts:h.rs:help", "m.rs", "h.rs", "[[4,0,4,0]]", "treesitter"⟩

def readsHelp (json : String) : Option (List Json) :=
  if json = "[[4,0,4,0]]" then
    some [.array [.number "4", .number "0", .number "4", .number "0"]]
  else none

theorem buildEdgeForSite_help :
    oneCaller.buildEdgeForSite "m.rs" [⟨"help", "h.rs", "help"⟩] helpSite = some helpEdge := by
  decide

theorem parseFromRanges_stored_help :
    ¬ parseFromRanges readsHelp helpEdge.fromRanges = [⟨4, 0, 4, 0⟩] ∧ helpEdge.source ≠ "lsp" := by
  have h := (parseFromRanges_stored (.treesitter buildEdgeForSite_help)
    (show readsHelp helpEdge.fromRanges = some [siteValue helpSite] from rfl)).1
  have hsource : helpEdge.source ≠ "lsp" := by decide
  exact ⟨fun heq => hsource (h.mp heq), hsource⟩

theorem help_without_call_site :
    oneCaller.buildEdgeForSite "m.rs" [⟨"help", "h.rs", "help"⟩] helpSite = some helpEdge ∧
      ¬ parseFromRanges readsHelp helpEdge.fromRanges = [⟨4, 0, 4, 0⟩] :=
  ⟨buildEdgeForSite_help, by decide⟩

end SwissArmyHammer.CodeContext
