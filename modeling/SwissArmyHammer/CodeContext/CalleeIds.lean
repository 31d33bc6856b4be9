import SwissArmyHammer.CodeContext.LspCalls

/-! The names that the two sides of a call have for the same symbol. -/

namespace SwissArmyHammer.CodeContext

section

variable {names root dir file rest : List PathName} {name : PathName}

theorem pathText_cons_cons (name next : PathName) (names : List PathName) :
    pathText (name :: next :: names) = name.val ++ '/' :: pathText (next :: names) := by
  simp [pathText, List.intercalate]

theorem length_pathText_cons (name : PathName) (names : List PathName) :
    (pathText names).length < (pathText (name :: names)).length := by
  cases names with
  | nil =>
    have hne := List.length_pos_of_ne_nil name.property.1
    simpa [pathText, List.intercalate] using hne
  | cons next names =>
    rw [pathText_cons_cons, List.length_append, List.length_cons]
    omega

theorem length_pathText_of_suffix (h : rest <:+ names) :
    (pathText rest).length ≤ (pathText names).length ∧
      ((pathText rest).length = (pathText names).length → rest = names) := by
  obtain ⟨before, rfl⟩ := h
  induction before with
  | nil => exact ⟨Nat.le_refl _, fun _ => rfl⟩
  | cons name before ih =>
    have hlt := length_pathText_cons name (before ++ rest)
    rw [List.cons_append]
    exact ⟨by omega, fun heq => by omega⟩

theorem filterMap_val (names : List PathName) :
    (names.map Subtype.val).filterMap (fun name =>
      if h : name ≠ [] ∧ name ≠ ['.'] ∧ '/' ∉ name then some (⟨name, h⟩ : PathName) else none) =
      names := by
  rw [List.filterMap_map]
  conv_rhs => rw [← List.filterMap_some (l := names)]
  refine List.filterMap_congr fun name _ => ?_
  exact dif_pos name.property

theorem path_new_pathText (names : List PathName) :
    Path.new ('/' :: pathText names) = ⟨true, names⟩ := by
  have hnames : pathNames ('/' :: pathText names) = names := by
    cases names with
    | nil => decide
    | cons name names =>
      have htext : '/' :: pathText (name :: names) =
          ['/'].intercalate ([] :: (name :: names).map Subtype.val) := by
        simp [pathText, List.intercalate]
      have hsplit : ('/' :: pathText (name :: names)).splitOn '/' =
          [] :: (name :: names).map Subtype.val := by
        rw [htext]
        refine List.splitOn_intercalate '/' (fun part hpart => ?_) (List.cons_ne_nil _ _)
        rcases List.mem_cons.mp hpart with rfl | hpart
        · exact List.not_mem_nil
        · obtain ⟨name, -, rfl⟩ := List.mem_map.mp hpart
          exact name.property.2.2
      rw [pathNames, hsplit]
      exact filterMap_val (name :: names)
  rw [Path.new, hnames]
  rfl

def Apart (dir file : List PathName) : Prop :=
  ∀ name, dir.head? = some name → file.head? ≠ some name

theorem stripAncestor_root (root file : List PathName) :
    stripAncestor ⟨true, root ++ file⟩ root.reverse = some file := by
  cases h : root.reverse with
  | nil =>
    rw [List.reverse_eq_nil_iff] at h
    simp [stripAncestor, h]
  | cons name above =>
    have hroot : (name :: above).reverse = root := by rw [← h, List.reverse_reverse]
    have hlen : above.length + 1 = root.length := by rw [← hroot]; simp
    rw [stripAncestor, hroot, hlen, if_pos ⟨rfl, List.prefix_append root file⟩]
    exact congrArg some List.drop_left

theorem stripAncestor_spec (root file dir : List PathName) :
    ∃ rest, stripAncestor ⟨true, root ++ file⟩ (root ++ dir).reverse = some rest ∧
      rest <:+ file ∧ (file ≠ [] → (rest = file ↔ Apart dir file)) := by
  induction dir using List.reverseRecOn with
  | nil =>
    rw [List.append_nil]
    exact ⟨file, stripAncestor_root root file, List.suffix_rfl, fun _ =>
      ⟨fun _ name h => by simp at h, fun _ => rfl⟩⟩
  | append_singleton dir name ih =>
    have hrev : (root ++ (dir ++ [name])).reverse = name :: (root ++ dir).reverse := by simp
    have hback : (name :: (root ++ dir).reverse).reverse = root ++ (dir ++ [name]) := by simp
    rw [hrev, stripAncestor, hback]
    by_cases hpre : dir ++ [name] <+: file
    · rw [if_pos ⟨rfl, (List.prefix_append_right_inj root).mpr hpre⟩]
      obtain ⟨rest, rfl⟩ := hpre
      have hdrop : (root ++ ((dir ++ [name]) ++ rest)).drop ((root ++ dir).reverse.length + 1) =
          rest := by
        rw [← List.append_assoc]
        exact List.drop_left' (by simp; omega)
      refine ⟨rest, congrArg some hdrop, List.suffix_append _ rest,
        fun _ => ⟨fun h => ?_, fun h => ?_⟩⟩
      · have hlen := congrArg List.length h
        simp only [List.length_append, List.length_singleton] at hlen
        omega
      · cases dir with
        | nil => exact absurd rfl (h name rfl)
        | cons first dir => exact absurd rfl (h first rfl)
    · rw [if_neg fun h => hpre ((List.prefix_append_right_inj root).mp h.2)]
      obtain ⟨rest, hrest, hsuffix, hiff⟩ := ih
      refine ⟨rest, hrest, hsuffix, fun hne => (hiff hne).trans ?_⟩
      cases dir with
      | nil =>
        refine ⟨fun _ first hfirst hfile => hpre ?_, fun _ first hfirst => by simp at hfirst⟩
        obtain rfl : name = first := by simpa using hfirst
        obtain ⟨tail, rfl⟩ := List.head?_eq_some_iff.mp hfile
        exact ⟨tail, rfl⟩
      | cons first dir => exact Iff.rfl

theorem uriToRelativePath_spec (root r1 r2 : List PathName) (h1 : r1 ≠ []) :
    ∃ rest, uriToRelativePath (fileScheme ++ '/' :: pathText (root ++ r2)) (root ++ r1) =
        pathText rest ∧
      rest <:+ r2 ∧ (r2 ≠ [] → (rest = r2 ↔ Apart r1.dropLast r2)) := by
  obtain ⟨rest, hstrip, hsuffix, hiff⟩ := stripAncestor_spec root r2 r1.dropLast
  refine ⟨rest, ?_, hsuffix, hiff⟩
  have hparent : (root ++ r1).dropLast = root ++ r1.dropLast := List.dropLast_append_of_ne_nil h1
  rw [uriToRelativePath, if_pos (List.prefix_append _ _), List.drop_left, if_neg (by simp [h1]),
    path_new_pathText, hparent, hstrip]

end

inductive SymbolAt : List DocumentSymbol → List String → DocumentSymbol → Prop
  | here {symbols : List DocumentSymbol} {symbol : DocumentSymbol} (h : symbol ∈ symbols) :
    SymbolAt symbols [] symbol
  | inside {symbols children : List DocumentSymbol} {name : String} {kind : Nat}
    {start stop : Nat × Nat} {detail : Option String} {parents : List String}
    {symbol : DocumentSymbol} (h : .mk name kind start stop detail children ∈ symbols)
    (hinside : SymbolAt children parents symbol) : SymbolAt symbols (name :: parents) symbol

def DocumentSymbol.name : DocumentSymbol → String
  | .mk name _ _ _ _ _ => name

theorem mem_flattenRecursive {filePath : String} {above : List String} {symbol : DocumentSymbol}
    {flat : FlatSymbol} {symbols : List DocumentSymbol} (h : symbol ∈ symbols)
    (hflat : flat ∈ flattenSymbol filePath above symbol) :
    flat ∈ flattenRecursive filePath above symbols := by
  induction symbols with
  | nil => simp at h
  | cons first symbols ih =>
    rw [flattenRecursive, List.mem_append]
    rcases List.mem_cons.mp h with rfl | h
    · exact .inl hflat
    · exact .inr (ih h)

theorem SymbolAt.flattened {symbols : List DocumentSymbol} {parents : List String}
    {symbol : DocumentSymbol} (h : SymbolAt symbols parents symbol) (filePath : String)
    (above : List String) :
    ∃ row, (lspSymbolId filePath (qualifiedPath (above ++ parents) symbol.name), row) ∈
      flattenRecursive filePath above symbols := by
  induction h generalizing above with
  | @here symbols symbol h =>
    cases symbol with
    | mk name kind start stop detail children =>
      rw [List.append_nil]
      exact ⟨_, mem_flattenRecursive h (by rw [flattenSymbol]; exact List.mem_cons_self)⟩
  | @inside symbols children name kind start stop detail parents symbol h _ ih =>
    obtain ⟨row, hrow⟩ := ih (above ++ [name])
    rw [List.append_assoc] at hrow
    refine ⟨row, mem_flattenRecursive h ?_⟩
    exact List.mem_cons_of_mem _ hrow

section

theorem length_qualifiedPath (parents : List String) (name : String) :
    name.length ≤ (qualifiedPath parents name).length ∧
      ((qualifiedPath parents name).length = name.length → parents = []) := by
  rw [qualifiedPath]
  by_cases h : parents = []
  · simp [h]
  · rw [if_neg h]
    simp only [String.length_append]
    have hsep : "::".length = 2 := rfl
    exact ⟨by omega, fun heq => by omega⟩

theorem length_lspSymbolId (filePath path : String) :
    (lspSymbolId filePath path).length = filePath.length + path.length + 5 := by
  have hscheme : "lsp:".length = 4 := rfl
  have hcolon : ":".length = 1 := rfl
  simp only [lspSymbolId, String.length_append, hscheme, hcolon]
  omega

variable (root r1 r2 : List PathName)

def callEdge (callerId name : String) (fromRanges : List LspRange) : CallEdge :=
  CallHierarchyOutgoingCall.edge ⟨fileUri (root ++ r2), name, fromRanges⟩ callerId (root ++ r1)
    (String.ofList (pathText r1))

theorem calleeId_callEdge (callerId name : String) (parents : List String)
    (fromRanges : List LspRange) (h1 : r1 ≠ []) (h2 : r2 ≠ []) :
    (callEdge root r1 r2 callerId name fromRanges).calleeId =
        lspSymbolId (String.ofList (pathText r2)) (qualifiedPath parents name) ↔
      parents = [] ∧ Apart r1.dropLast r2 := by
  obtain ⟨rest, htext, hsuffix, hrest⟩ := uriToRelativePath_spec root r1 r2 h1
  have hcallee : (callEdge root r1 r2 callerId name fromRanges).calleeId =
      lspSymbolId (String.ofList (pathText rest)) name := by
    show lspSymbolId (String.ofList (uriToRelativePath _ _)) _ = _
    rw [fileUri, String.toList_ofList, htext]
  rw [hcallee, ← hrest h2]
  constructor
  · intro heq
    have hlen := congrArg String.length heq
    have hpath := length_pathText_of_suffix hsuffix
    have hname := length_qualifiedPath parents name
    simp only [length_lspSymbolId, String.length_ofList] at hlen
    exact ⟨hname.2 (by omega), hpath.2 (by omega)⟩
  · rintro ⟨rfl, rfl⟩
    rfl

/-- The two sides agree on a symbol that no other stands around, where the two files part at the
root of the workspace. -/
theorem calleeId_eq_iff (callerId : String) (symbols : List DocumentSymbol) (parents : List String)
    (symbol : DocumentSymbol) (fromRanges : List LspRange) (h1 : r1 ≠ []) (h2 : r2 ≠ [])
    (hsymbol : SymbolAt symbols parents symbol) :
    let edge := callEdge root r1 r2 callerId symbol.name fromRanges
    let relativePath := String.ofList (pathText r2)
    let id := lspSymbolId relativePath (qualifiedPath parents symbol.name)
    (∃ row, (id, row) ∈ flattenSymbols relativePath symbols) ∧
      (edge.calleeId = id ↔ parents = [] ∧ Apart r1.dropLast r2) ∧
      (parents = [] ∧ Apart r1.dropLast r2 → ∀ db : Database, (db.symbol? callerId).isSome →
        (∀ flat ∈ flattenSymbols relativePath symbols, (db.symbol? flat.1).isSome) →
          (db.insertEdge edge).isSome) := by
  intro edge relativePath id
  obtain ⟨row, hrow⟩ := hsymbol.flattened relativePath []
  have hiff : edge.calleeId = id ↔ parents = [] ∧ Apart r1.dropLast r2 :=
    calleeId_callEdge root r1 r2 callerId symbol.name parents fromRanges h1 h2
  refine ⟨⟨row, hrow⟩, hiff, fun hcond db hcaller hindexed => ?_⟩
  have hends : (db.symbol? edge.callerId).isSome ∧ (db.symbol? edge.calleeId).isSome := by
    rw [hiff.mpr hcond]
    exact ⟨hcaller, hindexed _ hrow⟩
  rw [Database.insertEdge, dif_pos hends]
  rfl

def work : PathName := ⟨['w'], by decide⟩
def srcDir : PathName := ⟨['s', 'r', 'c'], by decide⟩
def mainFile : PathName := ⟨['m', '.', 'r', 's'], by decide⟩
def helperFile : PathName := ⟨['h', '.', 'r', 's'], by decide⟩

def helperSymbol : DocumentSymbol := .mk "help" 12 (0, 0) (1, 0) none []

theorem calleeId_eq_iff_from_root :
    let edge := callEdge [work] [mainFile] [srcDir, helperFile] "lsp:m.rs:main" "help" []
    edge.calleeId = lspSymbolId (String.ofList (pathText [srcDir, helperFile]))
      (qualifiedPath [] "help") := by
  have h := calleeId_eq_iff [work] [mainFile] [srcDir, helperFile] "lsp:m.rs:main" [helperSymbol] []
    helperSymbol [] (by simp) (by simp) (.here (by simp))
  exact h.2.1.mpr ⟨rfl, fun name hname => by simp at hname⟩

theorem calleeId_ne_in_one_directory :
    ¬ (callEdge [work] [srcDir, mainFile] [srcDir, helperFile] "lsp:src/m.rs:main" "help"
        []).calleeId =
      lspSymbolId (String.ofList (pathText [srcDir, helperFile])) (qualifiedPath [] "help") := by
  rw [calleeId_callEdge _ _ _ _ _ _ _ (by simp) (by simp)]
  rintro ⟨-, hapart⟩
  exact hapart srcDir rfl rfl

end

end SwissArmyHammer.CodeContext
