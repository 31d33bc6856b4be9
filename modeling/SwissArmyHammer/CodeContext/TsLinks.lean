import Mathlib.Data.List.Dedup
import Mathlib.Data.List.Infix
import SwissArmyHammer.CodeContext.TsSymbols

/-! The calls that are guessed from names: when the guess is right, and that its edges can be
written. -/

namespace SwissArmyHammer.CodeContext

section

variable {α : Type} [DecidableEq α]

theorem find?_eraseDups (p : α → Bool) (l : List α) : l.eraseDups.find? p = l.find? p := by
  induction hn : l.length using Nat.strongRecOn generalizing l with
  | ind n ih =>
    cases l with
    | nil => rfl
    | cons a l =>
      rw [List.eraseDups_cons, List.find?_cons, List.find?_cons]
      cases hp : p a with
      | true => rfl
      | false =>
        have hlen := List.length_filter_le (fun b => !b == a) l
        rw [List.length_cons] at hn
        have hrest := ih _ (by omega) (l.filter fun b => !b == a) rfl
        refine hrest.trans ?_
        rw [List.find?_filter]
        congr 1
        funext b
        by_cases hba : b = a
        · simp [hba, hp]
        · simp [hba]

end

def NamesExactly (name path : String) : Prop :=
  path = name ∨ ("::" ++ name).toList <:+ path.toList

def likeMatch (name path : String) : Prop :=
  path = name ∨ like ("%::" ++ name).toList path.toList

instance (name path : String) : Decidable (likeMatch name path) :=
  inferInstanceAs (Decidable (_ ∨ _))

namespace Database

variable (db : Database) (filePath : String) (site : CallSite)

def around : List ChunkRow :=
  (db.chunksOf filePath).filter fun chunk =>
    chunk.symbolPath.isSome && chunk.startByte ≤ site.startByte && site.endByte ≤ chunk.endByte

def callerOf : Option ChunkRow :=
  (db.around filePath site).argmin fun chunk => chunk.endByte - chunk.startByte

def callerPath : Option String := (db.callerOf filePath site).bind ChunkRow.symbolPath

def likeRow (name : String) (chunk : ChunkRow) : Option ResolvedCallee :=
  chunk.symbolPath.bind fun path =>
    if likeMatch name path then some ⟨name, chunk.filePath, path⟩ else none

def firstCandidate (name callerId : String) : Option ResolvedCallee :=
  (db.tsChunks.filterMap (likeRow name)).find? fun r =>
    callerId ≠ tsSymbolId r.filePath r.symbolPath

def edgeForSite : Option CallEdge :=
  db.buildEdgeForSite filePath (db.resolveCallee site.calleeName) site

end Database

section

open Database

variable {db : Database} {filePath : String} {site : CallSite} {r : ResolvedCallee}
  {name callerId : String}

theorem likeRow_eq_some {chunk : ChunkRow} :
    likeRow name chunk = some r ↔ r.calleeName = name ∧ r.filePath = chunk.filePath ∧
      chunk.symbolPath = some r.symbolPath ∧ likeMatch name r.symbolPath := by
  rw [likeRow]
  cases hpath : chunk.symbolPath with
  | none => simp
  | some path =>
    rw [Option.bind_some]
    split
    · rename_i hmatch
      constructor
      · grind
      · rintro ⟨rfl, hfile, heq, -⟩
        rw [Option.some.inj heq, ← hfile]
    · grind

theorem resolveCallee_eq (db : Database) (name : String) :
    db.resolveCallee name = (db.tsChunks.filterMap (likeRow name)).eraseDups := rfl

theorem of_mem_resolveCallee (h : r ∈ db.resolveCallee name) :
    ∃ chunk ∈ db.tsChunks, r.calleeName = name ∧ r.filePath = chunk.filePath ∧
      chunk.symbolPath = some r.symbolPath ∧ likeMatch name r.symbolPath := by
  rw [resolveCallee_eq, List.mem_eraseDups] at h
  obtain ⟨chunk, hchunk, hrow⟩ := List.mem_filterMap.mp h
  exact ⟨chunk, hchunk, likeRow_eq_some.mp hrow⟩

theorem filter_resolveCallee_self (db : Database) (name : String) :
    (db.resolveCallee name).filter (fun r => r.calleeName = name) = db.resolveCallee name := by
  refine List.filter_eq_self.mpr fun r hr => ?_
  obtain ⟨-, -, hname, -⟩ := of_mem_resolveCallee hr
  exact decide_eq_true hname

theorem filter_resolveCallee_of_ne {other : String} (h : other ≠ name) :
    (db.resolveCallee other).filter (fun r => r.calleeName = name) = [] := by
  refine List.filter_eq_nil_iff.mpr fun r hr hname => h ?_
  obtain ⟨-, -, hother, -⟩ := of_mem_resolveCallee hr
  rw [← hother]
  exact of_decide_eq_true hname

theorem filter_resolveCallees {names : List String} (hnodup : names.Nodup) (h : name ∈ names) :
    (db.resolveCallees names).filter (fun r => r.calleeName = name) = db.resolveCallee name := by
  have hnone : ∀ others : List String, name ∉ others →
      (db.resolveCallees others).filter (fun r => r.calleeName = name) = [] := by
    intro others hnot
    induction others with
    | nil => rfl
    | cons other others ih =>
      rw [List.mem_cons, not_or] at hnot
      rw [resolveCallees, List.flatMap_cons, List.filter_append,
        filter_resolveCallee_of_ne (Ne.symm hnot.1)]
      exact ih hnot.2
  induction names with
  | nil => simp at h
  | cons other names ih =>
    obtain ⟨hnot, hnodup⟩ := List.nodup_cons.mp hnodup
    rw [resolveCallees, List.flatMap_cons, List.filter_append]
    by_cases hother : other = name
    · subst hother
      rw [filter_resolveCallee_self]
      have hrest := hnone names hnot
      rw [resolveCallees] at hrest
      rw [hrest, List.append_nil]
    · rw [filter_resolveCallee_of_ne hother]
      exact ih hnodup ((List.mem_cons.mp h).resolve_left (Ne.symm hother))

def guessedEdge (filePath callerPath : String) (site : CallSite) (r : ResolvedCallee) :
    CallEdge where
  callerId := tsSymbolId filePath callerPath
  calleeId := tsSymbolId r.filePath r.symbolPath
  callerFile := filePath
  calleeFile := r.filePath
  fromRanges := s!"[[{site.startLine},0,{site.endLine},0]]"
  source := "treesitter"

theorem edgeForSite_eq (db : Database) (filePath : String) (site : CallSite) :
    db.edgeForSite filePath site =
      (db.callerPath filePath site).bind fun path =>
        (db.firstCandidate site.calleeName (tsSymbolId filePath path)).map
          (guessedEdge filePath path site) := by
  have hfind : ∀ callerId, (db.resolveCallee site.calleeName).find?
      (fun r => callerId ≠ tsSymbolId r.filePath r.symbolPath) =
        db.firstCandidate site.calleeName callerId :=
    fun callerId => find?_eraseDups _ _
  rw [edgeForSite, buildEdgeForSite, callerPath, callerOf, around]
  dsimp only
  split
  · rename_i hnone
    rw [hnone]
    rfl
  · rename_i path hpath
    rw [hpath, filter_resolveCallee_self, hfind]
    rfl

theorem of_firstCandidate (h : db.firstCandidate name callerId = some r) :
    callerId ≠ tsSymbolId r.filePath r.symbolPath ∧ ∃ chunk ∈ db.tsChunks,
      r.filePath = chunk.filePath ∧ chunk.symbolPath = some r.symbolPath := by
  have hother := List.find?_some h
  obtain ⟨chunk, hchunk, hrow⟩ := List.mem_filterMap.mp (List.mem_of_find?_eq_some h)
  obtain ⟨-, hfile, hpath, -⟩ := likeRow_eq_some.mp hrow
  exact ⟨of_decide_eq_true hother, chunk, hchunk, hfile, hpath⟩

end

section

open Database

variable {db : Database} {filePath : String} {site : CallSite} {caller chunk : ChunkRow}

theorem mem_around : chunk ∈ db.around filePath site ↔ chunk ∈ db.tsChunks ∧
    chunk.filePath = filePath ∧ chunk.symbolPath.isSome ∧ chunk.startByte ≤ site.startByte ∧
      site.endByte ≤ chunk.endByte := by
  simp only [around, chunksOf, List.mem_filter, Bool.and_eq_true, decide_eq_true_eq, and_assoc]

theorem of_callerOf (h : db.callerOf filePath site = some caller) :
    caller ∈ db.around filePath site ∧ ∀ other ∈ db.around filePath site,
      caller.endByte - caller.startByte ≤ other.endByte - other.startByte :=
  ⟨List.argmin_mem h, fun _ hother => List.le_of_mem_argmin hother h⟩

theorem callerPath_isSome :
    (db.callerPath filePath site).isSome ↔ ∃ chunk, chunk ∈ db.around filePath site := by
  rw [callerPath]
  cases h : db.callerOf filePath site with
  | none =>
    rw [callerOf, List.argmin_eq_none] at h
    simp [h]
  | some caller =>
    have hmem := (of_callerOf h).1
    exact iff_of_true (mem_around.mp hmem).2.2.1 ⟨caller, hmem⟩

end

section

open Database

variable (db : Database) (filePath : String) (site : CallSite)

/-- A call is linked to a definition that has its name to the letter, and only where there is one
besides the caller. -/
structure LinkedByName (edge? : Option CallEdge) : Prop where
  linked : edge?.isSome ↔ ∃ caller, db.callerPath filePath site = some caller ∧
    ∃ chunk ∈ db.tsChunks, ∃ path, chunk.symbolPath = some path ∧
      NamesExactly site.calleeName path ∧ (chunk.filePath, path) ≠ (filePath, caller)
  callee : ∀ edge, edge? = some edge → ∃ chunk ∈ db.tsChunks, ∃ path,
    chunk.symbolPath = some path ∧ NamesExactly site.calleeName path ∧
      edge.calleeId = tsSymbolId chunk.filePath path ∧ edge.calleeFile = chunk.filePath

/-- The first chunk that `LIKE` matches and that is not the caller by its id has the name to the
letter; where there is none, no other chunk with the name has the text of the caller's id. -/
def Unambiguous : Prop :=
  ∀ caller, db.callerPath filePath site = some caller →
    (∀ r, db.firstCandidate site.calleeName (tsSymbolId filePath caller) = some r →
      NamesExactly site.calleeName r.symbolPath) ∧
    (db.firstCandidate site.calleeName (tsSymbolId filePath caller) = none →
      ∀ chunk ∈ db.tsChunks, ∀ path, chunk.symbolPath = some path →
        NamesExactly site.calleeName path → (chunk.filePath, path) = (filePath, caller))

variable {db filePath site}

theorem Unambiguous.linked (h : Unambiguous db filePath site) :
    LinkedByName db filePath site (db.edgeForSite filePath site) := by
  rw [edgeForSite_eq]
  cases hcaller : db.callerPath filePath site with
  | none => exact ⟨by simp [hcaller], by simp⟩
  | some caller =>
    obtain ⟨hfirst, hnone⟩ := h caller hcaller
    rw [Option.bind_some]
    cases hr : db.firstCandidate site.calleeName (tsSymbolId filePath caller) with
    | none =>
      refine ⟨iff_of_false (by simp) ?_, by simp⟩
      rintro ⟨other, hother, chunk, hchunk, path, hpath, hname, hne⟩
      obtain rfl : caller = other := Option.some.inj (hcaller.symm.trans hother)
      exact hne (hnone hr chunk hchunk path hpath hname)
    | some r =>
      obtain ⟨hne, chunk, hchunk, hfile, hpath⟩ := of_firstCandidate hr
      have hname := hfirst r hr
      refine ⟨iff_of_true rfl ⟨caller, hcaller, chunk, hchunk, _, hpath, hname, fun heq => hne ?_⟩,
        ?_⟩
      · obtain ⟨hsame, hsamePath⟩ := Prod.mk.inj heq
        rw [hfile, hsame, hsamePath]
      · intro edge hedge
        obtain rfl := Option.some.inj hedge
        exact ⟨chunk, hchunk, _, hpath, hname, by rw [guessedEdge, hfile], hfile⟩

theorem LinkedByName.unambiguous
    (h : LinkedByName db filePath site (db.edgeForSite filePath site)) :
    Unambiguous db filePath site := by
  intro caller hcaller
  rw [edgeForSite_eq, hcaller, Option.bind_some] at h
  refine ⟨fun r hr => ?_, fun hr chunk hchunk path hpath hname => ?_⟩
  · rw [hr] at h
    obtain ⟨chunk, hchunk, path, hpath, hname, hid, hfile⟩ := h.callee _ rfl
    have hsame : r.filePath = chunk.filePath := hfile
    have hsameId : tsSymbolId r.filePath r.symbolPath = tsSymbolId chunk.filePath path := hid
    rw [hsame] at hsameId
    rwa [tsSymbolId_inj hsameId]
  · rw [hr] at h
    by_contra hne
    have hlinked := h.linked.mpr ⟨caller, hcaller, chunk, hchunk, path, hpath, hname, hne⟩
    simp at hlinked

theorem linkedByName_iff :
    LinkedByName db filePath site (db.edgeForSite filePath site) ↔ Unambiguous db filePath site :=
  ⟨LinkedByName.unambiguous, Unambiguous.linked⟩

theorem edgeForSite_of_chunks {db' : Database} (h : db'.tsChunks = db.tsChunks) :
    db'.edgeForSite filePath site = db.edgeForSite filePath site := by
  rw [edgeForSite_eq, edgeForSite_eq, callerPath, callerPath, callerOf, callerOf, around, around,
    chunksOf, chunksOf]
  simp only [firstCandidate, h]

theorem buildEdgeForSite_resolveCallees {names : List String} (hnodup : names.Nodup)
    (h : site.calleeName ∈ names) :
    db.buildEdgeForSite filePath (db.resolveCallees names) site = db.edgeForSite filePath site := by
  rw [edgeForSite, buildEdgeForSite, buildEdgeForSite, filter_resolveCallees hnodup h,
    filter_resolveCallee_self]

theorem resolveCallees_of_chunks {db' : Database} (h : db'.tsChunks = db.tsChunks)
    (names : List String) : db'.resolveCallees names = db.resolveCallees names := by
  have hone : db'.resolveCallee = db.resolveCallee := by
    funext name
    rw [resolveCallee_eq, resolveCallee_eq, h]
  rw [resolveCallees, resolveCallees, hone]

end

section

open Database

variable {db : Database} {filePath : String} {sites : List CallSite} {site : CallSite}

def siteNames (sites : List CallSite) : List String :=
  ((sites.map CallSite.calleeName).mergeSort).dedup

theorem nodup_siteNames (sites : List CallSite) : (siteNames sites).Nodup := List.nodup_dedup _

theorem mem_siteNames (h : site ∈ sites) : site.calleeName ∈ siteNames sites :=
  List.mem_dedup.mpr (List.mem_mergeSort.mpr (List.mem_map_of_mem h))

theorem edgeForSite_eq_none (hsite : site ∈ sites) (h : db.resolveCallees (siteNames sites) = []) :
    db.edgeForSite filePath site = none := by
  rw [← buildEdgeForSite_resolveCallees (nodup_siteNames sites) (mem_siteNames hsite)]
  rw [h, buildEdgeForSite]
  split
  · rfl
  · rfl

theorem foldl_ensureTsSymbols (files : List String) (db : Database) :
    SameIndex db (files.foldl ensureTsSymbols db) ∧
      (∀ id, (db.symbol? id).isSome → ((files.foldl ensureTsSymbols db).symbol? id).isSome) ∧
      ∀ chunk ∈ db.tsChunks, chunk.filePath ∈ files → ∀ path, chunk.symbolPath = some path →
        ((files.foldl ensureTsSymbols db).symbol? (tsSymbolId chunk.filePath path)).isSome := by
  induction files generalizing db with
  | nil => exact ⟨.refl db, fun _ h => h, fun _ _ h => absurd h List.not_mem_nil⟩
  | cons file files ih =>
    have hsame := sameIndex_ensureTsSymbols db file
    obtain ⟨hrest, hkept, hnew⟩ := ih (db.ensureTsSymbols file)
    refine ⟨hsame.trans hrest, fun id hid => hkept id ?_, fun chunk hchunk hfile path hpath => ?_⟩
    · obtain ⟨row, hrow⟩ := Option.isSome_iff_exists.mp hid
      exact Option.isSome_of_eq_some ((extends_ensureTsSymbols db file).kept id row hrow)
    · rcases List.mem_cons.mp hfile with rfl | hfile
      · exact hkept _ (symbol?_ensureTsSymbols db chunk.filePath chunk
          (List.mem_filter.mpr ⟨hchunk, by simp⟩) path hpath)
      · exact hnew chunk (hsame.chunks ▸ hchunk) hfile path hpath

def calleeFiles (resolved : List ResolvedCallee) : List String :=
  ((resolved.map ResolvedCallee.filePath).mergeSort).dedup

theorem generateTsCallEdges_eq (db : Database) (filePath : String) (sites : List CallSite) :
    db.generateTsCallEdges filePath sites =
      if sites = [] then (db, [])
      else
        let resolved := db.resolveCallees (siteNames sites)
        if resolved = [] then (db, [])
        else
          let ensured := (calleeFiles resolved).foldl ensureTsSymbols (db.ensureTsSymbols filePath)
          (ensured, sites.filterMap (ensured.buildEdgeForSite filePath resolved)) := rfl

theorem hasEnds_of_edgeForSite {edge : CallEdge} (hsite : site ∈ sites)
    (h : db.edgeForSite filePath site = some edge) :
    ((calleeFiles (db.resolveCallees (siteNames sites))).foldl ensureTsSymbols
      (db.ensureTsSymbols filePath)).hasEnds edge := by
  have hown := sameIndex_ensureTsSymbols db filePath
  obtain ⟨-, hkept, hnew⟩ := foldl_ensureTsSymbols
    (calleeFiles (db.resolveCallees (siteNames sites))) (db.ensureTsSymbols filePath)
  rw [edgeForSite_eq] at h
  obtain ⟨caller, hcaller, hfirst⟩ := Option.bind_eq_some_iff.mp h
  obtain ⟨r, hr, rfl⟩ := Option.map_eq_some_iff.mp hfirst
  refine Bool.and_eq_true_iff.mpr ⟨?_, ?_⟩
  · obtain ⟨chunk, hchunk, hpath⟩ := Option.bind_eq_some_iff.mp hcaller
    obtain ⟨hmem, hfile, -⟩ := mem_around.mp (of_callerOf hchunk).1
    have hsymbol := symbol?_ensureTsSymbols db filePath chunk
      (List.mem_filter.mpr ⟨hmem, by simpa using hfile⟩) caller hpath
    rw [hfile] at hsymbol
    exact hkept _ hsymbol
  · obtain ⟨-, chunk, hchunk, hfile, hpath⟩ := of_firstCandidate hr
    have hcallee : r ∈ db.resolveCallees (siteNames sites) := by
      refine List.mem_flatMap.mpr ⟨site.calleeName, mem_siteNames hsite, ?_⟩
      rw [resolveCallee_eq, List.mem_eraseDups]
      exact List.mem_of_find?_eq_some hr
    have hlisted : chunk.filePath ∈ calleeFiles (db.resolveCallees (siteNames sites)) :=
      List.mem_dedup.mpr (List.mem_mergeSort.mpr (hfile ▸ List.mem_map_of_mem hcallee))
    show (Database.symbol? _ (tsSymbolId r.filePath r.symbolPath)).isSome
    rw [hfile]
    exact hnew chunk (hown.chunks.symm ▸ hchunk) hlisted _ hpath

theorem generateTsCallEdges_spec (db : Database) (filePath : String) (sites : List CallSite) :
    (db.generateTsCallEdges filePath sites).2 = sites.filterMap (db.edgeForSite filePath) ∧
      ∀ edge ∈ (db.generateTsCallEdges filePath sites).2,
        (db.generateTsCallEdges filePath sites).1.hasEnds edge := by
  rw [generateTsCallEdges_eq]
  by_cases hsites : sites = []
  · rw [hsites]
    exact ⟨rfl, fun _ h => absurd h List.not_mem_nil⟩
  rw [if_neg hsites]
  by_cases hresolved : db.resolveCallees (siteNames sites) = []
  · rw [if_pos hresolved]
    refine ⟨?_, fun _ h => absurd h List.not_mem_nil⟩
    exact (List.filterMap_eq_nil_iff.mpr fun site hsite => edgeForSite_eq_none hsite hresolved).symm
  rw [if_neg hresolved]
  have hchunks := ((sameIndex_ensureTsSymbols db filePath).trans (foldl_ensureTsSymbols
    (calleeFiles (db.resolveCallees (siteNames sites))) (db.ensureTsSymbols filePath)).1).chunks
  dsimp only
  have hedges : ∀ ensured : Database, ensured.tsChunks = db.tsChunks →
      sites.filterMap (ensured.buildEdgeForSite filePath (db.resolveCallees (siteNames sites))) =
        sites.filterMap (db.edgeForSite filePath) := by
    intro ensured hsame
    refine List.filterMap_congr fun site hsite => ?_
    rw [← resolveCallees_of_chunks hsame,
      buildEdgeForSite_resolveCallees (nodup_siteNames sites) (mem_siteNames hsite),
      edgeForSite_of_chunks hsame]
  rw [hedges _ hchunks]
  refine ⟨rfl, fun edge hedge => ?_⟩
  obtain ⟨site, hsite, hsome⟩ := List.mem_filterMap.mp hedge
  exact hasEnds_of_edgeForSite hsite hsome

/-- Every call is linked by name exactly where `LIKE` finds no other chunk first; the caller is the
smallest chunk around it, and the edges can be written. -/
theorem generateTsCallEdges_linked (db : Database) (filePath : String) (sites : List CallSite) :
    let out := db.generateTsCallEdges filePath sites
    out.2 = sites.filterMap (db.edgeForSite filePath) ∧
      ((∀ site ∈ sites, LinkedByName db filePath site (db.edgeForSite filePath site)) ↔
        ∀ site ∈ sites, Unambiguous db filePath site) ∧
      (∀ site ∈ sites, ((db.callerPath filePath site).isSome ↔
          ∃ chunk, chunk ∈ db.around filePath site) ∧
        ∀ edge, db.edgeForSite filePath site = some edge →
          ∃ caller ∈ db.around filePath site, ∃ path, caller.symbolPath = some path ∧
            edge.callerId = tsSymbolId filePath path ∧ ∀ other ∈ db.around filePath site,
              caller.endByte - caller.startByte ≤ other.endByte - other.startByte) ∧
      (∀ edge ∈ out.2, out.1.hasEnds edge) ∧
      (executeEach insertEdge (out.1.deleteEdges fun edge =>
        edge.callerFile = filePath && edge.source = "treesitter") out.2).2 = true := by
  intro out
  obtain ⟨hedges, hends⟩ := generateTsCallEdges_spec db filePath sites
  refine ⟨hedges, forall₂_congr fun site _ => linkedByName_iff, fun site _ =>
    ⟨callerPath_isSome, fun edge hedge => ?_⟩, hends, ?_⟩
  · rw [edgeForSite_eq] at hedge
    obtain ⟨path, hpath, hfirst⟩ := Option.bind_eq_some_iff.mp hedge
    obtain ⟨r, -, rfl⟩ := Option.map_eq_some_iff.mp hfirst
    obtain ⟨caller, hcaller, hsymbol⟩ := Option.bind_eq_some_iff.mp hpath
    exact ⟨caller, (of_callerOf hcaller).1, path, hsymbol, rfl, (of_callerOf hcaller).2⟩
  · rw [(executeEach_insertEdge _ out.2).2]
    exact List.all_eq_true.mpr hends

end

section

open Database

def callingChunk : ChunkRow := ⟨"m.rs", 0, 90, 0, 9, [], some "main", none⟩

def lookalikeChunk : ChunkRow := ⟨"h.rs", 0, 50, 0, 5, [], some "util::getxid", none⟩

def lookalikes : Database :=
  { (Database.empty.putFile "m.rs" ⟨[], true, false, true⟩).putFile "h.rs"
      ⟨[], true, false, true⟩ with
    tsChunks := [callingChunk, lookalikeChunk]
    file_of_chunk := by decide }

def getIdSite : CallSite := ⟨"get_id", 40, 46, 4, 4⟩

theorem lookalike_linked :
    ¬ LinkedByName lookalikes "m.rs" getIdSite (lookalikes.edgeForSite "m.rs" getIdSite) := by
  rw [linkedByName_iff]
  intro h
  have hcaller : lookalikes.callerPath "m.rs" getIdSite = some "main" := by decide
  have hfirst : lookalikes.firstCandidate "get_id" (tsSymbolId "m.rs" "main") =
    some ⟨"get_id", "h.rs", "util::getxid"⟩ := by decide
  have hname := (h "main" hcaller).1 _ hfirst
  have hno : ¬ NamesExactly "get_id" "util::getxid" := by
    rw [NamesExactly]
    decide
  exact hno hname

end

end SwissArmyHammer.CodeContext
