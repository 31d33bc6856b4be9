import SwissArmyHammer.Sem.GraphViews

/-! An incremental update against a rebuild from the new files. The update reads the changed files
again and leaves the entities of the others as they are, so that it misses the references of
unchanged files to what changed files declare. -/

namespace SwissArmyHammer.Sem

variable {T : CharTables} {order : HashOrder} {g g' g₀ g₁ : EntityGraph} {id path : String}

structure PluginRegistry where
  parsers : ParserRegistry
  filePath_eq : ∀ path extract, parsers path = some extract → ∀ content, ∀ e ∈ extract content,
    e.filePath = path

structure Project where
  filePaths : List String
  disk : Disk

def Project.file (P : Project) (path : String) : Option (List Char) :=
  if path ∈ P.filePaths then P.disk path else none

variable {registry : PluginRegistry} {P old new : Project} {changes : List FileChange}

def Project.entities (registry : PluginRegistry) (P : Project) : List SemanticEntity :=
  allEntities registry.parsers P.disk P.filePaths

structure DeclaredOnce (registry : PluginRegistry) (P : Project) : Prop where
  names : ((P.entities registry).map (·.name)).Nodup
  ids : ((P.entities registry).map (·.id)).Nodup

def FileChange.oldPath (change : FileChange) : Option String :=
  match change.status with
  | .added => none
  | .modified | .deleted => some change.filePath
  | .renamed => change.oldFilePath

def FileChange.newPath (change : FileChange) : Option String :=
  match change.status with
  | .deleted => none
  | .added | .modified | .renamed => some change.filePath

def FileChange.removedPath (change : FileChange) : Option String :=
  match change.status with
  | .added | .modified | .deleted => some change.filePath
  | .renamed => change.oldFilePath

def OldPath (changes : List FileChange) (path : String) : Prop :=
  ∃ change ∈ changes, change.oldPath = some path

def NewPath (changes : List FileChange) (path : String) : Prop :=
  ∃ change ∈ changes, change.newPath = some path

instance (changes : List FileChange) (path : String) : Decidable (NewPath changes path) :=
  inferInstanceAs (Decidable (∃ change ∈ changes, change.newPath = some path))

/-- The changes describe the difference: each file that differs is listed on the sides where it
is, a file that is listed on one side is listed on the other if it is there, and the contents are
the new ones. -/
structure Describes (old new : Project) (changes : List FileChange) : Prop where
  differs_old : ∀ path, old.file path ≠ new.file path → old.file path ≠ none →
    OldPath changes path
  differs_new : ∀ path, old.file path ≠ new.file path → new.file path ≠ none →
    NewPath changes path
  old_listed : ∀ path, NewPath changes path → old.file path ≠ none → OldPath changes path
  new_listed : ∀ path, OldPath changes path → new.file path ≠ none → NewPath changes path
  content : ∀ change ∈ changes, ∀ path, change.newPath = some path →
    change.afterContent.or (new.disk path) = new.file path

/-- No entity of a file that the changes leave alone refers to the name of an entity that a file
of the changes declares. -/
def Unreferenced (T : CharTables) (registry : PluginRegistry) (new : Project)
    (changes : List FileChange) : Prop :=
  ∀ e ∈ new.entities registry, ¬ NewPath changes e.filePath →
    ∀ t ∈ new.entities registry, NewPath changes t.filePath →
      t.name ∉ extractReferencesFromContent T e.content e.name

instance (T : CharTables) (registry : PluginRegistry) (new : Project) (changes : List FileChange) :
    Decidable (Unreferenced T registry new changes) :=
  inferInstanceAs (Decidable (∀ e ∈ new.entities registry, ¬ NewPath changes e.filePath →
    ∀ t ∈ new.entities registry, NewPath changes t.filePath →
      t.name ∉ extractReferencesFromContent T e.content e.name))

section

variable {e t : SemanticEntity} {content : Option (List Char)} {disk : Disk}

theorem mem_extractFileEntities :
    e ∈ (extractFileEntities registry.parsers disk path content).getD [] ↔
      e.filePath = path ∧ ∃ extract text, registry.parsers e.filePath = some extract ∧
        content.or (disk path) = some text ∧ e ∈ extract text := by
  rw [extractFileEntities]
  constructor
  · intro he
    cases hparser : registry.parsers path with
    | none => simp [hparser] at he
    | some extract =>
      cases htext : content.or (disk path) with
      | none => simp [hparser, htext] at he
      | some text =>
        have hmem : e ∈ extract text := by simpa [hparser, htext] using he
        have hpath := registry.filePath_eq path extract hparser text e hmem
        exact ⟨hpath, extract, text, hpath ▸ hparser, rfl, hmem⟩
  · grind

theorem mem_entities : e ∈ P.entities registry ↔
    ∃ extract text, registry.parsers e.filePath = some extract ∧
      P.file e.filePath = some text ∧ e ∈ extract text := by
  have hflat : e ∈ P.entities registry ↔ ∃ path ∈ P.filePaths,
      e ∈ (extractFileEntities registry.parsers P.disk path none).getD [] := by
    rw [Project.entities, allEntities, List.mem_flatten]
    constructor
    · grind
    · intro h
      obtain ⟨path, hpath, he⟩ := h
      cases hget : extractFileEntities registry.parsers P.disk path none with
      | none => simp [hget] at he
      | some es =>
        rw [hget, Option.getD_some] at he
        exact ⟨es, List.mem_filterMap.mpr ⟨path, hpath, hget⟩, he⟩
  rw [hflat]
  constructor
  · intro h
    obtain ⟨path, hpath, he⟩ := h
    obtain ⟨rfl, extract, text, hparser, htext, hmem⟩ := mem_extractFileEntities.mp he
    exact ⟨extract, text, hparser, by rwa [Project.file, if_pos hpath], hmem⟩
  · intro h
    obtain ⟨extract, text, hparser, htext, hmem⟩ := h
    rw [Project.file] at htext
    split at htext
    · rename_i hpath
      exact ⟨e.filePath, hpath,
        mem_extractFileEntities.mpr ⟨rfl, extract, text, hparser, htext, hmem⟩⟩
    · cases htext

theorem file_ne_none (h : e ∈ P.entities registry) : P.file e.filePath ≠ none := by
  obtain ⟨extract, text, -, htext, -⟩ := mem_entities.mp h
  rw [htext]
  exact Option.some_ne_none text

theorem mem_entities_congr (h : old.file e.filePath = new.file e.filePath) :
    e ∈ old.entities registry ↔ e ∈ new.entities registry := by
  rw [mem_entities, mem_entities, h]

theorem DeclaredOnce.eq_of_id (h : DeclaredOnce registry P) (he : e ∈ P.entities registry)
    (ht : t ∈ P.entities registry) (hid : e.id = t.id) : e = t :=
  List.inj_on_of_nodup_map h.ids he ht hid

theorem DeclaredOnce.eq_of_name (h : DeclaredOnce registry P) (he : e ∈ P.entities registry)
    (ht : t ∈ P.entities registry) (hname : e.name = t.name) : e = t :=
  List.inj_on_of_nodup_map h.names he ht hname

def Holds (entities : IndexMap String EntityInfo) (es : List SemanticEntity) : Prop :=
  ∀ id info, entities.get? id = some info ↔ ∃ e ∈ es, e.id = id ∧ e.info = info

theorem get?_insertEntities (entities : IndexMap String EntityInfo) (es : List SemanticEntity)
    (hinj : ∀ e ∈ es, ∀ t ∈ es, e.id = t.id → e = t) (id : String) (info : EntityInfo) :
    (es.foldl insertEntity entities).get? id = some info ↔
      (∃ e ∈ es, e.id = id ∧ e.info = info) ∨
        (∀ e ∈ es, e.id ≠ id) ∧ entities.get? id = some info := by
  induction es generalizing entities with
  | nil => simp
  | cons e es ih =>
    have hrest : ∀ x ∈ es, ∀ t ∈ es, x.id = t.id → x = t := fun x hx t ht =>
      hinj x (List.mem_cons_of_mem e hx) t (List.mem_cons_of_mem e ht)
    rw [List.foldl_cons, ih _ hrest]
    by_cases hid : e.id = id
    · subst hid
      rw [insertEntity, IndexMap.get?_insert_self, Option.some.injEq]
      constructor
      · intro h
        rcases h with ⟨x, hx, hxid, hinfo⟩ | ⟨-, hinfo⟩
        · exact .inl ⟨x, List.mem_cons_of_mem e hx, hxid, hinfo⟩
        · exact .inl ⟨e, List.mem_cons_self, rfl, hinfo⟩
      · intro h
        rcases h with ⟨x, hx, hxid, hinfo⟩ | ⟨hnot, -⟩
        · obtain rfl := hinj x hx e List.mem_cons_self hxid
          by_cases hlater : ∃ t ∈ es, t.id = x.id
          · obtain ⟨t, ht, htid⟩ := hlater
            obtain rfl := hinj t (List.mem_cons_of_mem x ht) x List.mem_cons_self htid
            exact .inl ⟨t, ht, rfl, hinfo⟩
          · exact .inr ⟨fun t ht heq => hlater ⟨t, ht, heq⟩, hinfo⟩
        · exact absurd rfl (hnot e List.mem_cons_self)
    · rw [insertEntity, IndexMap.get?_insert_of_ne (Ne.symm hid)]
      simp [hid]

end

section

variable {entities : IndexMap String EntityInfo} {table : SymbolTable} {E : List SemanticEntity}
  {e t : SemanticEntity} {x : EntityRef} {refName : List Char}

def RefersTo (T : CharTables) (e t : SemanticEntity) (x : EntityRef) : Prop :=
  t.name ∈ extractReferencesFromContent T e.content e.name ∧ x.fromEntity = e.id ∧
    x.toEntity = t.id ∧ inferRefType e.content t.name = some x.refType

def Searchable (T : CharTables) (E : List SemanticEntity) (e : SemanticEntity) : Prop :=
  ∀ t ∈ E, t.name ∈ extractReferencesFromContent T e.content e.name →
    (inferRefType e.content t.name).isSome

def NameTable (table : SymbolTable) (E : List SemanticEntity) : Prop :=
  ∀ name id, id ∈ table.values name ↔ ∃ t ∈ E, t.name = name ∧ t.id = id

variable (entities) in
theorem findTarget_eq {ids : List String} (hall : ∀ x ∈ ids, x = id) (hne : ids ≠ [])
    (hother : id ≠ e.id) : findTarget entities e ids = some id := by
  obtain ⟨first, rest, rfl⟩ := List.exists_cons_of_ne_nil hne
  obtain rfl := hall first List.mem_cons_self
  rw [findTarget]
  have hfallback : (first :: rest).find? (fun x => decide (x ≠ e.id)) = some first := by
    rw [List.find?_cons_of_pos (by simpa using hother)]
  rw [hfallback]
  cases hsame : (first :: rest).find? fun x => decide (x ≠ e.id) &&
      (entities.get? x).any fun i => decide (i.filePath = e.filePath) with
  | none => rfl
  | some found => rw [hall found (List.mem_of_find?_eq_some hsame), Option.some_or]

theorem DeclaredOnce.resolveRef_declared (h : DeclaredOnce registry P)
    (htable : NameTable table (P.entities registry)) (he : e ∈ P.entities registry)
    (ht : t ∈ P.entities registry) (hname : t.name ≠ e.name) :
    resolveRef entities table e t.name =
      (inferRefType e.content t.name).map fun refType => some ⟨e.id, t.id, refType⟩ := by
  have hmem : t.id ∈ table.values t.name := (htable t.name t.id).mpr ⟨t, ht, rfl, rfl⟩
  have hall : ∀ x ∈ table.values t.name, x = t.id := by
    intro x hx
    obtain ⟨t', ht', hname', rfl⟩ := (htable t.name x).mp hx
    rw [h.eq_of_name ht' ht hname']
  have hother : t.id ≠ e.id := fun hid => hname (by rw [h.eq_of_id ht he hid])
  have htarget := findTarget_eq entities hall (List.ne_nil_of_mem hmem) hother
  cases hget : table.get? t.name with
  | none => rw [IndexMap.values_of_none hget] at hmem; exact absurd hmem List.not_mem_nil
  | some ids =>
    rw [IndexMap.values_of_get? hget] at htarget
    rw [resolveRef, hget, Option.bind_some, htarget]

theorem resolveRef_undeclared (htable : NameTable table E) (h : ∀ t ∈ E, t.name ≠ refName) :
    resolveRef entities table e refName = some none := by
  have hnil : table.values refName = [] := by
    refine List.eq_nil_iff_forall_not_mem.mpr fun x hx => ?_
    obtain ⟨t, ht, hname, -⟩ := (htable refName x).mp hx
    exact h t ht hname
  have hbind : (table.get? refName).bind (findTarget entities e) = none := by
    cases hget : table.get? refName with
    | none => rfl
    | some ids =>
      rw [IndexMap.values_of_get? hget] at hnil
      rw [hnil]
      rfl
  rw [resolveRef, hbind]

theorem isSome_mapM {α β : Type} {f : α → Option β} {xs : List α} :
    (xs.mapM f).isSome ↔ ∀ x ∈ xs, (f x).isSome := by
  induction xs with
  | nil => simp
  | cons x xs ih =>
    rw [List.mapM_cons, List.forall_mem_cons, ← ih]
    cases f x with
    | none => simp
    | some y => cases xs.mapM f with
      | none => simp
      | some ys => simp

variable (entities) in
theorem DeclaredOnce.isSome_resolveRefs (h : DeclaredOnce registry P)
    (htable : NameTable table (P.entities registry)) (he : e ∈ P.entities registry) :
    (resolveRefs T entities table e).isSome ↔ Searchable T (P.entities registry) e := by
  rw [resolveRefs, Option.isSome_map, isSome_mapM]
  constructor
  · intro hall t ht hmem
    have hsome := hall t.name hmem
    rwa [h.resolveRef_declared htable he ht (ne_ownName_of_mem hmem), Option.isSome_map] at hsome
  · intro hsearch refName hmem
    by_cases hdecl : ∃ t ∈ P.entities registry, t.name = refName
    · obtain ⟨t, ht, rfl⟩ := hdecl
      rw [h.resolveRef_declared htable he ht (ne_ownName_of_mem hmem), Option.isSome_map]
      exact hsearch t ht hmem
    · rw [resolveRef_undeclared htable fun t ht hname => hdecl ⟨t, ht, hname⟩]
      rfl

theorem DeclaredOnce.mem_resolveRefs (h : DeclaredOnce registry P)
    (htable : NameTable table (P.entities registry)) (he : e ∈ P.entities registry)
    {refs : List EntityRef} (hrefs : resolveRefs T entities table e = some refs) :
    x ∈ refs ↔ ∃ t ∈ P.entities registry, RefersTo T e t x := by
  rw [Sem.mem_resolveRefs hrefs]
  constructor
  · intro hx
    obtain ⟨refName, hmem, hres⟩ := hx
    by_cases hdecl : ∃ t ∈ P.entities registry, t.name = refName
    · obtain ⟨t, ht, rfl⟩ := hdecl
      rw [h.resolveRef_declared htable he ht (ne_ownName_of_mem hmem)] at hres
      obtain ⟨refType, htype, hedge⟩ := Option.map_eq_some_iff.mp hres
      obtain rfl := Option.some.inj hedge
      exact ⟨t, ht, hmem, rfl, rfl, htype⟩
    · rw [resolveRef_undeclared htable fun t ht hname => hdecl ⟨t, ht, hname⟩] at hres
      cases hres
  · intro hx
    obtain ⟨t, ht, hmem, hfrom, hto, htype⟩ := hx
    refine ⟨t.name, hmem, ?_⟩
    rw [h.resolveRef_declared htable he ht (ne_ownName_of_mem hmem), htype, ← hfrom, ← hto]
    rfl

end

section

variable {e t : SemanticEntity} {x : EntityRef}

theorem DeclaredOnce.build_entities (h : DeclaredOnce registry P)
    (hbuild : EntityGraph.build T registry.parsers P.disk P.filePaths = some g) :
    Holds g.entities (P.entities registry) := by
  obtain ⟨resolved, -, rfl⟩ := Option.map_eq_some_iff.mp hbuild
  intro id info
  rw [entities_pushEdges]
  have hget := get?_insertEntities .empty (P.entities registry)
    (fun e he t ht => h.eq_of_id he ht) id info
  refine hget.trans (or_iff_left fun hempty => ?_)
  cases hempty.2

theorem nameTable_build (es : List SemanticEntity) :
    NameTable (es.foldl (fun table e => table.push e.name e.id) .empty) es := by
  intro name id
  rw [values_pushNames SemanticEntity.name SemanticEntity.id, IndexMap.values_empty,
    List.nil_append]
  simp [and_assoc]

theorem DeclaredOnce.build_edges (h : DeclaredOnce registry P)
    (hbuild : EntityGraph.build T registry.parsers P.disk P.filePaths = some g) :
    (∀ x, x ∈ g.edges ↔
      ∃ e ∈ P.entities registry, ∃ t ∈ P.entities registry, RefersTo T e t x) ∧
    ∀ e ∈ P.entities registry, Searchable T (P.entities registry) e := by
  obtain ⟨resolved, hresolved, rfl⟩ := Option.map_eq_some_iff.mp hbuild
  have htable := nameTable_build (P.entities registry)
  refine ⟨fun x => ?_, fun e he => ?_⟩
  · rw [edges_pushEdges, List.nil_append, List.mem_flatten]
    constructor
    · intro hx
      obtain ⟨refs, hrefs, hmem⟩ := hx
      obtain ⟨e, he, hres⟩ := (mem_of_mapM hresolved refs).mp hrefs
      exact ⟨e, he, (h.mem_resolveRefs htable he hres).mp hmem⟩
    · intro hx
      obtain ⟨e, he, hrefers⟩ := hx
      have hsome := isSome_mapM.mp (Option.isSome_iff_exists.mpr ⟨resolved, hresolved⟩) e he
      obtain ⟨refs, hrefs⟩ := Option.isSome_iff_exists.mp hsome
      exact ⟨refs, (mem_of_mapM hresolved refs).mpr ⟨e, he, hrefs⟩,
        (h.mem_resolveRefs htable he hrefs).mpr hrefers⟩
  · have hsome := isSome_mapM.mp (Option.isSome_iff_exists.mpr ⟨resolved, hresolved⟩) e he
    exact (h.isSome_resolveRefs _ htable he).mp hsome

end

section

variable {paths : List String}

structure Pruned (paths : List String) (g g' : EntityGraph) : Prop where
  entities : ∀ id info, g'.entities.get? id = some info ↔
    g.entities.get? id = some info ∧ info.filePath ∉ paths
  edges : ∀ x, x ∈ g'.edges ↔ x ∈ g.edges ∧
    (∀ info, g.entities.get? x.fromEntity = some info → info.filePath ∉ paths) ∧
    ∀ info, g.entities.get? x.toEntity = some info → info.filePath ∉ paths

theorem Pruned.refl (g : EntityGraph) : Pruned [] g g :=
  ⟨fun id info => by simp, fun x => by simp⟩

theorem Pruned.append {paths' : List String} {g'' : EntityGraph} (h : Pruned paths g g')
    (h' : Pruned paths' g' g'') : Pruned (paths ++ paths') g g'' := by
  refine ⟨fun id info => ?_, fun x => ?_⟩
  · rw [h'.entities, h.entities, List.mem_append, not_or, and_assoc]
  · simp only [h'.edges, h.edges, h.entities, List.mem_append, not_or]
    constructor
    · grind
    · grind

theorem mem_idsOfFile (hids : ∀ id info, g.entities.get? id = some info → info.id = id) :
    id ∈ g.idsOfFile order path ↔
      ∃ info, g.entities.get? id = some info ∧ info.filePath = path := by
  simp only [EntityGraph.idsOfFile, List.mem_map, List.mem_filter, (order.perm _).mem_iff,
    decide_eq_true_eq]
  constructor
  · intro h
    obtain ⟨info, ⟨⟨entry, hentry, rfl⟩, hpath⟩, rfl⟩ := h
    have hget := IndexMap.get?_eq_some_iff.mpr hentry
    rw [hids _ _ hget]
    exact ⟨entry.2, hget, hpath⟩
  · intro h
    obtain ⟨info, hget, hpath⟩ := h
    exact ⟨info, ⟨⟨(id, info), IndexMap.get?_eq_some_iff.mp hget, rfl⟩, hpath⟩, hids id info hget⟩

theorem pruned_removeEntitiesForFile
    (hids : ∀ id info, g.entities.get? id = some info → info.id = id) :
    Pruned [path] g (g.removeEntitiesForFile order path) := by
  have hkept : ∀ id, id ∉ g.idsOfFile order path ↔
      ∀ info, g.entities.get? id = some info → info.filePath ∉ [path] := by
    intro id
    rw [mem_idsOfFile hids]
    simp
  refine ⟨fun id info => ?_, fun x => ?_⟩
  · show (List.foldl IndexMap.shiftRemove g.entities _).get? id = some info ↔ _
    rw [get?_removeIds]
    split
    · grind
    · grind
  · rw [← hkept, ← hkept]
    simp [EntityGraph.removeEntitiesForFile, List.mem_filter]

variable (order registry) in
theorem applyChange_spec (disk : Disk) (s : EntityGraph × List SemanticEntity)
    (h : s.1.Consistent) (change : FileChange) :
    Pruned change.removedPath.toList s.1 (applyChange registry.parsers disk order s change).1 ∧
      ∀ e, e ∈ (applyChange registry.parsers disk order s change).2 ↔
        e ∈ s.2 ∨ change.newPath ≠ none ∧ e ∈ newEntities registry.parsers disk change := by
  rw [applyChange, FileChange.removedPath, FileChange.newPath]
  cases change.status with
  | added => exact ⟨pruned_removeEntitiesForFile h.ids, fun e => by simp⟩
  | modified => exact ⟨pruned_removeEntitiesForFile h.ids, fun e => by simp⟩
  | deleted => exact ⟨pruned_removeEntitiesForFile h.ids, fun e => by simp⟩
  | renamed =>
    cases change.oldFilePath with
    | none => exact ⟨.refl s.1, fun e => by simp⟩
    | some oldPath => exact ⟨pruned_removeEntitiesForFile h.ids, fun e => by simp⟩

variable (order registry) in
theorem applyChanges_spec (disk : Disk) (changes : List FileChange)
    (s : EntityGraph × List SemanticEntity) (h : s.1.Consistent) :
    Pruned (changes.filterMap FileChange.removedPath) s.1
        (changes.foldl (applyChange registry.parsers disk order) s).1 ∧
      ∀ e, e ∈ (changes.foldl (applyChange registry.parsers disk order) s).2 ↔
        e ∈ s.2 ∨ ∃ change ∈ changes, change.newPath ≠ none ∧
          e ∈ newEntities registry.parsers disk change := by
  induction changes generalizing s with
  | nil => exact ⟨.refl s.1, fun e => by simp⟩
  | cons change changes ih =>
    obtain ⟨hpruned, hmem⟩ := applyChange_spec order registry disk s h change
    obtain ⟨hpruned', hmem'⟩ := ih _ (h.applyChange change)
    have hpaths : (change :: changes).filterMap FileChange.removedPath =
        change.removedPath.toList ++ changes.filterMap FileChange.removedPath := by
      rw [List.filterMap_cons]
      cases change.removedPath <;> rfl
    refine ⟨hpaths ▸ hpruned.append hpruned', fun e => ?_⟩
    rw [List.foldl_cons, hmem', hmem, or_assoc]
    simp

end

section

variable {e t : SemanticEntity} {x : EntityRef}

theorem Describes.kept_iff (h : Describes old new changes) :
    e ∈ old.entities registry ∧ e.filePath ∉ changes.filterMap FileChange.removedPath ↔
      e ∈ new.entities registry ∧ ¬ NewPath changes e.filePath := by
  have holdPath : OldPath changes e.filePath →
      e.filePath ∈ changes.filterMap FileChange.removedPath := by
    intro hpath
    obtain ⟨change, hmem, hchange⟩ := hpath
    refine List.mem_filterMap.mpr ⟨change, hmem, ?_⟩
    rw [FileChange.oldPath] at hchange
    rw [FileChange.removedPath]
    cases hstatus : change.status <;> simp_all
  constructor
  · intro hkept
    obtain ⟨hmem, hnot⟩ := hkept
    have hold := file_ne_none hmem
    have hsame : old.file e.filePath = new.file e.filePath := by
      by_contra hne
      exact hnot (holdPath (h.differs_old _ hne hold))
    exact ⟨(mem_entities_congr hsame).mp hmem, fun hpath =>
      hnot (holdPath (h.old_listed _ hpath hold))⟩
  · intro hkept
    obtain ⟨hmem, hnot⟩ := hkept
    have hnew := file_ne_none hmem
    have hsame : old.file e.filePath = new.file e.filePath := by
      by_contra hne
      exact hnot (h.differs_new _ hne hnew)
    refine ⟨(mem_entities_congr hsame).mpr hmem, fun hremoved => hnot ?_⟩
    obtain ⟨change, hchange, hpath⟩ := List.mem_filterMap.mp hremoved
    by_cases hadded : change.status = .added
    · rw [FileChange.removedPath, hadded] at hpath
      exact ⟨change, hchange, by rwa [FileChange.newPath, hadded]⟩
    · refine h.new_listed _ ⟨change, hchange, ?_⟩ hnew
      rw [FileChange.removedPath] at hpath
      rw [FileChange.oldPath]
      cases hstatus : change.status <;> simp_all

theorem Describes.mem_new (h : Describes old new changes) :
    (∃ change ∈ changes, change.newPath ≠ none ∧
        e ∈ newEntities registry.parsers new.disk change) ↔
      e ∈ new.entities registry ∧ NewPath changes e.filePath := by
  have hfile : ∀ change ∈ changes, change.newPath ≠ none →
      change.newPath = some change.filePath := by
    intro change _ hne
    rw [FileChange.newPath] at hne ⊢
    cases hstatus : change.status <;> simp_all
  constructor
  · intro hread
    obtain ⟨change, hchange, hne, hmem⟩ := hread
    have hpath := hfile change hchange hne
    obtain ⟨heq, extract, text, hparser, htext, hmem⟩ := mem_extractFileEntities.mp hmem
    rw [h.content change hchange _ hpath, ← heq] at htext
    exact ⟨mem_entities.mpr ⟨extract, text, hparser, htext, hmem⟩, change, hchange, heq ▸ hpath⟩
  · intro hread
    obtain ⟨hmem, change, hchange, hpath⟩ := hread
    have hne : change.newPath ≠ none := by rw [hpath]; exact Option.some_ne_none _
    have heq : change.filePath = e.filePath :=
      Option.some.inj ((hfile change hchange hne).symm.trans hpath)
    obtain ⟨extract, text, hparser, htext, hmem⟩ := mem_entities.mp hmem
    rw [← h.content change hchange _ hpath, ← heq] at htext
    exact ⟨change, hchange, hne,
      mem_extractFileEntities.mpr ⟨heq.symm, extract, text, hparser, htext, hmem⟩⟩

theorem Describes.kept_edges (h : Describes old new changes) (hold : DeclaredOnce registry old)
    (h₀ : EntityGraph.build T registry.parsers old.disk old.filePaths = some g₀)
    (hg : Pruned (changes.filterMap FileChange.removedPath) g₀ g) :
    x ∈ g.edges ↔ ∃ e ∈ new.entities registry, ¬ NewPath changes e.filePath ∧
      ∃ t ∈ new.entities registry, ¬ NewPath changes t.filePath ∧ RefersTo T e t x := by
  have hholds := hold.build_entities h₀
  have halive : ∀ e ∈ old.entities registry, (∀ info, g₀.entities.get? e.id = some info →
      info.filePath ∉ changes.filterMap FileChange.removedPath) ↔
        e.filePath ∉ changes.filterMap FileChange.removedPath := by
    intro e he
    rw [(hholds e.id e.info).mpr ⟨e, he, rfl, rfl⟩]
    simp only [Option.some.injEq, forall_eq']
    rfl
  rw [hg.edges, (hold.build_edges h₀).1]
  constructor
  · intro hx
    obtain ⟨⟨e, he, t, ht, hrefers⟩, hfrom, hto⟩ := hx
    rw [hrefers.2.1, halive e he] at hfrom
    rw [hrefers.2.2.1, halive t ht] at hto
    obtain ⟨he', hpath⟩ := h.kept_iff.mp ⟨he, hfrom⟩
    obtain ⟨ht', hpath'⟩ := h.kept_iff.mp ⟨ht, hto⟩
    exact ⟨e, he', hpath, t, ht', hpath', hrefers⟩
  · intro hx
    obtain ⟨e, he, hpath, t, ht, hpath', hrefers⟩ := hx
    obtain ⟨he', hkept⟩ := h.kept_iff.mpr ⟨he, hpath⟩
    obtain ⟨ht', hkept'⟩ := h.kept_iff.mpr ⟨ht, hpath'⟩
    refine ⟨⟨e, he', t, ht', hrefers⟩, ?_, ?_⟩
    · rw [hrefers.2.1]
      exact (halive e he').mpr hkept
    · rw [hrefers.2.2.1]
      exact (halive t ht').mpr hkept'

theorem Describes.holds_inserted (h : Describes old new changes)
    (hold : DeclaredOnce registry old) (hnew : DeclaredOnce registry new)
    (h₀ : EntityGraph.build T registry.parsers old.disk old.filePaths = some g₀)
    (hg : Pruned (changes.filterMap FileChange.removedPath) g₀ g) {read : List SemanticEntity}
    (hread : ∀ e, e ∈ read ↔ e ∈ new.entities registry ∧ NewPath changes e.filePath) :
    Holds (g.insertEntities read).entities (new.entities registry) := by
  have hkept : ∀ id info, g.entities.get? id = some info ↔ ∃ e ∈ new.entities registry,
      ¬ NewPath changes e.filePath ∧ e.id = id ∧ e.info = info := by
    intro id info
    rw [hg.entities, hold.build_entities h₀]
    constructor
    · intro hget
      obtain ⟨⟨e, he, hid, rfl⟩, hpath⟩ := hget
      obtain ⟨he', hnot⟩ := h.kept_iff.mp ⟨he, hpath⟩
      exact ⟨e, he', hnot, hid, rfl⟩
    · intro hget
      obtain ⟨e, he, hnot, hid, rfl⟩ := hget
      obtain ⟨he', hpath⟩ := h.kept_iff.mpr ⟨he, hnot⟩
      exact ⟨⟨e, he', hid, rfl⟩, hpath⟩
  have hinj : ∀ e ∈ read, ∀ t ∈ read, e.id = t.id → e = t := fun e he t ht =>
    hnew.eq_of_id ((hread e).mp he).1 ((hread t).mp ht).1
  intro id info
  refine (get?_insertEntities g.entities read hinj id info).trans ?_
  rw [hkept]
  constructor
  · grind
  · intro hget
    obtain ⟨e, he, hid, hinfo⟩ := hget
    by_cases hpath : NewPath changes e.filePath
    · exact .inl ⟨e, (hread e).mpr ⟨he, hpath⟩, hid, hinfo⟩
    · refine .inr ⟨fun t ht heq => hpath ?_, e, he, hpath, hid, hinfo⟩
      obtain ⟨ht, hpath'⟩ := (hread t).mp ht
      rwa [← hnew.eq_of_id ht he (heq.trans hid.symm)]

variable (order) in
theorem nameTable_buildSymbolTable {E : List SemanticEntity} (h : Holds g.entities E) :
    NameTable (g.buildSymbolTable order) E := by
  intro name id
  rw [EntityGraph.buildSymbolTable, values_pushNames, IndexMap.values_empty, List.nil_append]
  simp only [List.mem_map, List.mem_filter, (order.perm _).mem_iff, decide_eq_true_eq]
  constructor
  · intro hid
    obtain ⟨info, ⟨⟨entry, hentry, rfl⟩, hname⟩, rfl⟩ := hid
    obtain ⟨t, ht, -, hinfo⟩ := (h _ _).mp (IndexMap.get?_eq_some_iff.mpr hentry)
    rw [← hinfo] at hname ⊢
    exact ⟨t, ht, hname, rfl⟩
  · intro hid
    obtain ⟨t, ht, hname, rfl⟩ := hid
    have hget := (h t.id t.info).mpr ⟨t, ht, rfl, rfl⟩
    exact ⟨t.info, ⟨⟨(t.id, t.info), IndexMap.get?_eq_some_iff.mp hget, rfl⟩, hname⟩, rfl⟩

theorem DeclaredOnce.resolveAll (h : DeclaredOnce registry P) {table : SymbolTable}
    (htable : NameTable table (P.entities registry))
    (hsearch : ∀ e ∈ P.entities registry, Searchable T (P.entities registry) e)
    (es : List SemanticEntity) (hes : ∀ e ∈ es, e ∈ P.entities registry) (g : EntityGraph) :
    ∃ g', es.foldlM (EntityGraph.resolveEntityReferences T table) g = some g' ∧
      g'.entities = g.entities ∧ ∀ x, x ∈ g'.edges ↔
        x ∈ g.edges ∨ ∃ e ∈ es, ∃ t ∈ P.entities registry, RefersTo T e t x := by
  induction es generalizing g with
  | nil => exact ⟨g, rfl, rfl, fun x => by simp⟩
  | cons e es ih =>
    have he := hes e List.mem_cons_self
    obtain ⟨refs, hrefs⟩ := Option.isSome_iff_exists.mp
      ((h.isSome_resolveRefs g.entities htable he).mpr (hsearch e he))
    obtain ⟨g', hg', hentities, hedges⟩ := ih (fun y hy => hes y (List.mem_cons_of_mem e hy))
      (refs.foldl EntityGraph.pushEdge g)
    refine ⟨g', ?_, ?_, fun x => ?_⟩
    · rw [List.foldlM_cons, EntityGraph.resolveEntityReferences, hrefs]
      exact hg'
    · rw [hentities, entities_pushEdges]
    · rw [hedges, edges_pushEdges, List.mem_append, h.mem_resolveRefs htable he hrefs, or_assoc]
      simp

theorem Describes.update_spec (h : Describes old new changes) (hold : DeclaredOnce registry old)
    (hnew : DeclaredOnce registry new)
    (h₀ : EntityGraph.build T registry.parsers old.disk old.filePaths = some g₀)
    (h₁ : EntityGraph.build T registry.parsers new.disk new.filePaths = some g₁)
    (order : HashOrder) :
    ∃ g, g₀.updateFromChanges registry.parsers new.disk T order changes = some g ∧
      (∀ id, g.entities.get? id = g₁.entities.get? id) ∧
      ∀ x, x ∈ g.edges ↔ ∃ e ∈ new.entities registry, ∃ t ∈ new.entities registry,
        RefersTo T e t x ∧ (NewPath changes t.filePath → NewPath changes e.filePath) := by
  obtain ⟨hpruned, hmem⟩ := applyChanges_spec order registry new.disk changes (g₀, [])
    (consistent_build h₀)
  have hread := fun e => (hmem e).trans
    ((or_iff_right (List.not_mem_nil (a := e))).trans h.mem_new)
  have hholds := h.holds_inserted hold hnew h₀ hpruned hread
  have hes := fun e he => ((hread e).mp he).1
  obtain ⟨g, hg, hentities, hedges⟩ := hnew.resolveAll
    (nameTable_buildSymbolTable order hholds) (hnew.build_edges h₁).2 _ hes _
  refine ⟨g, hg, fun id => ?_, fun x => ?_⟩
  · rw [hentities]
    exact Option.ext fun info => (hholds id info).trans (hnew.build_entities h₁ id info).symm
  · rw [hedges]
    refine (or_congr_left (h.kept_edges hold h₀ hpruned)).trans ?_
    constructor
    · intro hx
      rcases hx with ⟨e, he, -, t, ht, hpath, hrefers⟩ | ⟨e, he, t, ht, hrefers⟩
      · exact ⟨e, he, t, ht, hrefers, fun hlisted => absurd hlisted hpath⟩
      · exact ⟨e, hes e he, t, ht, hrefers, fun _ => ((hread e).mp he).2⟩
    · intro hx
      obtain ⟨e, he, t, ht, hrefers, himp⟩ := hx
      by_cases hpath : NewPath changes e.filePath
      · exact .inr ⟨e, (hread e).mpr ⟨he, hpath⟩, t, ht, hrefers⟩
      · exact .inl ⟨e, he, hpath, t, ht, mt himp hpath, hrefers⟩

end

def editFile (P : Project) (path : String) (text : List Char) : Project :=
  { P with disk := Function.update P.disk path (some text) }

theorem describes_edit {text : List Char} (hpath : path ∈ P.filePaths) :
    Describes P (editFile P path text) [⟨path, .modified, none, some text⟩] := by
  have hsame : ∀ p, p ≠ path → P.file p = (editFile P path text).file p := by
    intro p hp
    simp [Project.file, editFile, Function.update_of_ne hp]
  have hold : ∀ p, OldPath [⟨path, .modified, none, some text⟩] p ↔ p = path := by
    intro p
    simp [OldPath, FileChange.oldPath, eq_comm]
  have hnew : ∀ p, NewPath [⟨path, .modified, none, some text⟩] p ↔ p = path := by
    intro p
    simp [NewPath, FileChange.newPath, eq_comm]
  refine ⟨fun p hne _ => ?_, fun p hne _ => ?_, fun p hp _ => ?_, fun p hp _ => ?_, ?_⟩
  · exact (hold p).mpr (by_contra fun hp => hne (hsame p hp))
  · exact (hnew p).mpr (by_contra fun hp => hne (hsame p hp))
  · exact (hold p).mpr ((hnew p).mp hp)
  · exact (hnew p).mpr ((hold p).mp hp)
  · intro change hchange p hp
    obtain rfl := List.mem_singleton.mp hchange
    obtain rfl : path = p := Option.some.inj hp
    simp [Project.file, editFile, hpath]

def firstWordPlugins : PluginRegistry where
  parsers := firstWord
  filePath_eq path extract hextract content e he := by
    obtain rfl := Option.some.inj hextract
    rw [List.mem_singleton.mp he]

def callProject : Project := ⟨callPaths, callDisk⟩

theorem callProject_declaredOnce : DeclaredOnce firstWordPlugins callProject :=
  ⟨by decide, by decide⟩

/-- An incremental update equals a rebuild exactly when no file that the changes leave alone
refers to a name that a file of the changes declares. -/
theorem update_eq_rebuild_iff (hold : DeclaredOnce registry old) (hnew : DeclaredOnce registry new)
    (hchanges : Describes old new changes)
    (h₀ : EntityGraph.build T registry.parsers old.disk old.filePaths = some g₀)
    (h₁ : EntityGraph.build T registry.parsers new.disk new.filePaths = some g₁)
    (order : HashOrder) :
    (∃ g, g₀.updateFromChanges registry.parsers new.disk T order changes = some g ∧
      (∀ id, g.entities.get? id = g₁.entities.get? id) ∧ ∀ x, x ∈ g.edges ↔ x ∈ g₁.edges) ↔
      Unreferenced T registry new changes := by
  obtain ⟨g, hg, hentities, hedges⟩ := hchanges.update_spec hold hnew h₀ h₁ order
  obtain ⟨hedges₁, hsearch⟩ := hnew.build_edges h₁
  constructor
  · intro hequal
    obtain ⟨g', hg', -, hsame⟩ := hequal
    obtain rfl := Option.some.inj (hg.symm.trans hg')
    intro e he hpath t ht hpath' hname
    obtain ⟨refType, htype⟩ := Option.isSome_iff_exists.mp (hsearch e he t ht hname)
    have hmem := (hsame ⟨e.id, t.id, refType⟩).mpr
      ((hedges₁ _).mpr ⟨e, he, t, ht, hname, rfl, rfl, htype⟩)
    obtain ⟨e', he', t', ht', hrefers, himp⟩ := (hedges _).mp hmem
    obtain rfl := hnew.eq_of_id he he' hrefers.2.1
    obtain rfl := hnew.eq_of_id ht ht' hrefers.2.2.1
    exact hpath (himp hpath')
  · intro hunref
    refine ⟨g, hg, hentities, fun x => ?_⟩
    rw [hedges, hedges₁]
    constructor
    · intro hx
      obtain ⟨e, he, t, ht, hrefers, -⟩ := hx
      exact ⟨e, he, t, ht, hrefers⟩
    · intro hx
      obtain ⟨e, he, t, ht, hrefers⟩ := hx
      refine ⟨e, he, t, ht, hrefers, fun hlisted => ?_⟩
      by_contra hpath
      exact hunref e he hpath t ht hlisted hrefers.1

theorem update_eq_rebuild_caller : ∃ g,
    callGraph.updateFromChanges firstWord
        (editFile callProject "a.rs" ['r', 'u', 'n', ' ', 's', 't', 'e', 'p']).disk asciiTables
        listOrder [⟨"a.rs", .modified, none, some ['r', 'u', 'n', ' ', 's', 't', 'e', 'p']⟩] =
      some g ∧ (⟨"a.rs", "b.rs", .typeRef⟩ : EntityRef) ∈ g.edges := by
  let new := editFile callProject "a.rs" ['r', 'u', 'n', ' ', 's', 't', 'e', 'p']
  have hnew : DeclaredOnce firstWordPlugins new := ⟨by decide, by decide⟩
  obtain ⟨g₁, h₁⟩ : ∃ g₁, EntityGraph.build asciiTables firstWord new.disk callPaths = some g₁ :=
    ⟨_, rfl⟩
  have hedge : (⟨"a.rs", "b.rs", .typeRef⟩ : EntityRef) ∈ g₁.edges := by
    obtain rfl := Option.some.inj h₁
    decide
  have hunref : Unreferenced asciiTables firstWordPlugins new
      [⟨"a.rs", .modified, none, some ['r', 'u', 'n', ' ', 's', 't', 'e', 'p']⟩] := by
    decide
  obtain ⟨g, hg, -, hedges⟩ := (update_eq_rebuild_iff callProject_declaredOnce hnew
    (describes_edit (by decide)) build_callGraph h₁ listOrder).mpr hunref
  exact ⟨g, hg, (hedges _).mpr hedge⟩

theorem update_loses_caller : ∃ g g₁,
    DeclaredOnce firstWordPlugins callProject ∧
    DeclaredOnce firstWordPlugins (editFile callProject "b.rs" ['s', 't', 'e', 'p', ' ', '2']) ∧
    Describes callProject (editFile callProject "b.rs" ['s', 't', 'e', 'p', ' ', '2'])
      [⟨"b.rs", .modified, none, some ['s', 't', 'e', 'p', ' ', '2']⟩] ∧
    EntityGraph.build asciiTables firstWord
      (editFile callProject "b.rs" ['s', 't', 'e', 'p', ' ', '2']).disk callPaths = some g₁ ∧
    callGraph.updateFromChanges firstWord
        (editFile callProject "b.rs" ['s', 't', 'e', 'p', ' ', '2']).disk asciiTables listOrder
        [⟨"b.rs", .modified, none, some ['s', 't', 'e', 'p', ' ', '2']⟩] = some g ∧
    (⟨"a.rs", "b.rs", .calls⟩ : EntityRef) ∈ g₁.edges ∧ g.edges = [] :=
  ⟨_, _, callProject_declaredOnce, ⟨by decide, by decide⟩, describes_edit (by decide), rfl, rfl,
    by decide, by decide⟩

end SwissArmyHammer.Sem
