import Mathlib.Data.List.TakeWhile
import SwissArmyHammer.CodeContext.LspCalls

/-! The edge pass of a file: when it replaces the file's calls as a whole, or not at all. -/

namespace SwissArmyHammer.CodeContext

namespace Database

def callsOf (db : Database) (callerFile : String) : List CallEdge :=
  db.lspCallEdges.filter fun edge => edge.callerFile = callerFile

def lspCallsOf (db : Database) (callerFile : String) : List CallEdge :=
  (db.callsOf callerFile).filter fun edge => edge.source = "lsp"

theorem writeEdgesResult_spec (db : Database) (callerFile : String) (edges : List CallEdge) :
    let out := db.writeEdgesResult callerFile edges
    out.1.lspCallEdges =
        (db.lspCallEdges.filter fun edge => !(decide (edge.callerFile = callerFile))) ++
          edges.takeWhile db.hasEnds ∧
      out.2 = if edges.all db.hasEnds then .ok edges.length else .error .database := by
  obtain ⟨hedges, hall⟩ :=
    executeEach_insertEdge (db.deleteEdges fun edge => edge.callerFile = callerFile) edges
  refine ⟨hedges, ?_⟩
  show (if _ then _ else _) = _
  rw [hall]
  rfl

theorem perm_replaced_iff (db : Database) (callerFile : String) (edges : List CallEdge) :
    ((db.lspCallEdges.filter fun edge => !(decide (edge.callerFile = callerFile))) ++ edges).Perm
        db.lspCallEdges ↔ (db.callsOf callerFile).Perm edges := by
  have hsplit := List.filter_append_perm
    (fun edge : CallEdge => decide (edge.callerFile = callerFile)) db.lspCallEdges
  have hswap := List.perm_append_comm.trans hsplit
  constructor
  · intro h
    exact (List.perm_append_left_iff _).mp (hswap.trans h.symm)
  · intro h
    exact ((List.perm_append_left_iff _).mpr h.symm).trans hswap

end Database

section

variable {T : LspTypes} {client : LspClient} {filePath : List PathName} {relativePath : String}
  {edges : List CallEdge}

theorem of_mem_collectEdgesForSymbols {n : Nat} {symbols : List FlatSymbol}
    (h : collectEdgesForSymbols T client filePath relativePath n symbols = .ok edges) :
    ∀ edge ∈ edges, ∃ (call : CallHierarchyOutgoingCall) (callerId : String),
      edge = call.edge callerId filePath relativePath := by
  induction symbols generalizing n edges with
  | nil =>
    obtain rfl := Except.ok.inj h
    simp
  | cons sym symbols ih =>
    rw [collectEdgesForSymbols] at h
    split at h
    · simp at h
    · rename_i first m hfirst
      split at h
      · simp at h
      · rename_i rest hrest
        obtain rfl := Except.ok.inj h
        intro edge hedge
        rcases List.mem_append.mp hedge with hedge | hedge
        · obtain ⟨call, hcall⟩ := of_mem_collectEdgesForSymbol T client filePath relativePath
            (congrArg Prod.fst hfirst) hedge
          exact ⟨call, sym.1, hcall⟩
        · exact ih hrest edge hedge

theorem of_mem_collectCallEdges (h : collectCallEdges T client filePath relativePath = .ok edges) :
    ∀ edge ∈ edges, ∃ (call : CallHierarchyOutgoingCall) (callerId : String),
      edge = call.edge callerId filePath relativePath := by
  rw [collectCallEdges] at h
  split at h
  · simp at h
  · split at h
    · simp at h
    · exact of_mem_collectEdgesForSymbols h

end

section

variable (T : LspTypes) (client : LspClient) (db : Database) (filePath : List PathName)
  (relativePath : String)

/-- After a success the calls of source `lsp` are those reported, after a failure the table is as
it was. -/
def AllOrNothing : Prop :=
  let out := collectAndPersist T client db filePath relativePath
  match out.2 with
  | .ok _ => collectCallEdges T client filePath relativePath = .ok (out.1.lspCallsOf relativePath)
  | .error _ => out.1.lspCallEdges.Perm db.lspCallEdges

/-- Where none is reported there was none, and where one lacks an end, those before it stood
there already, and no others. -/
def Replaceable : Prop :=
  ∀ edges, collectCallEdges T client filePath relativePath = .ok edges →
    (edges = [] → db.lspCallsOf relativePath = []) ∧
      (edges.all db.hasEnds = false →
        (db.callsOf relativePath).Perm (edges.takeWhile db.hasEnds))

theorem lspCallsOf_written {edges : List CallEdge} {mid : Database}
    (hcollected : collectCallEdges T client filePath relativePath = .ok edges)
    (hmid : mid.lspCallEdges =
      (db.lspCallEdges.filter fun edge => !(decide (edge.callerFile = relativePath))) ++ edges) :
    mid.lspCallsOf relativePath = edges := by
  rw [Database.lspCallsOf, Database.callsOf, hmid, List.filter_append, List.filter_append]
  have hold : (db.lspCallEdges.filter fun edge => !(decide (edge.callerFile = relativePath))).filter
      (fun edge => edge.callerFile = relativePath) = [] := by
    rw [List.filter_filter]
    exact List.filter_eq_nil_iff.mpr fun edge _ => by simp
  have hnew : ∀ edge ∈ edges, edge.callerFile = relativePath ∧ edge.source = "lsp" := by
    intro edge hedge
    obtain ⟨call, callerId, rfl⟩ := of_mem_collectCallEdges hcollected edge hedge
    exact ⟨rfl, rfl⟩
  rw [hold, List.filter_nil, List.filter_filter]
  exact List.filter_eq_self.mpr fun edge hedge => by simp [hnew edge hedge]

theorem allOrNothing_iff :
    AllOrNothing T client db filePath relativePath ↔
      Replaceable T client db filePath relativePath := by
  rw [AllOrNothing, Replaceable]
  cases hcollected : collectCallEdges T client filePath relativePath with
  | error e => simp [collectAndPersist, hcollected]
  | ok edges =>
    simp only [collectAndPersist, hcollected, Except.ok.injEq]
    by_cases hempty : edges = []
    · subst hempty
      rw [if_pos rfl]
      constructor
      · rintro h other rfl
        exact ⟨fun _ => h.symm, fun hall => by simp at hall⟩
      · exact fun h => ((h [] rfl).1 rfl).symm
    · rw [if_neg hempty]
      obtain ⟨hrows, hout⟩ := db.writeEdgesResult_spec relativePath edges
      cases hall : edges.all db.hasEnds with
      | true =>
        rw [hall, if_pos rfl] at hout
        have hwhole : edges.takeWhile db.hasEnds = edges :=
          List.takeWhile_eq_self_iff.mpr (List.all_eq_true.mp hall)
        rw [hwhole] at hrows
        have hwritten := lspCallsOf_written T client db filePath relativePath hcollected hrows
        simp only [hout, hwritten, true_iff]
        rintro other rfl
        exact ⟨fun h => absurd h hempty, fun h => by simp [hall] at h⟩
      | false =>
        rw [hall] at hout
        simp only [hout, Bool.false_eq_true, if_false, hrows, db.perm_replaced_iff]
        constructor
        · rintro h other rfl
          exact ⟨fun h => absurd h hempty, fun _ => h⟩
        · exact fun h => (h edges rfl).2 hall

end

def staleCall : CallEdge := ⟨"lsp:m.rs:main", "lsp:m.rs:main", "m.rs", "m.rs", "[]", "lsp"⟩

def staleIndex : Database :=
  let file := Database.empty.putFile "m.rs" ⟨[], true, true, true⟩
  let symbol := file.putSymbol "lsp:m.rs:main" ⟨"main", 12, "m.rs", 0, 0, 1, 0, none⟩ rfl
  { symbol with
    lspCallEdges := [staleCall]
    ends_of_edge := fun edge hmem => by
      rw [List.mem_singleton.mp hmem]
      exact ⟨rfl, rfl⟩ }

def silentClient : LspClient := fun _ _ => .ok (.object [])

def noTypes : LspTypes := ⟨fun _ => none, fun _ => none, fun _ => none⟩

theorem not_allOrNothing_of_silence : ¬ AllOrNothing noTypes silentClient staleIndex [] "m.rs" := by
  have hstale : staleIndex.lspCallsOf "m.rs" = [staleCall] := by decide
  have hreported : collectCallEdges noTypes silentClient [] "m.rs" = .ok [] := rfl
  intro h
  have hnone : Except.ok [] = Except.ok (staleIndex.lspCallsOf "m.rs") := hreported.symm.trans h
  rw [hstale, Except.ok.injEq] at hnone
  simp at hnone

end SwissArmyHammer.CodeContext
