import Mathlib.Data.List.ReduceOption
import SwissArmyHammer.Common.Folds
import SwissArmyHammer.Sem.EntityGraph

/-! The three views of the entity graph. The edges, the dependencies and the dependents of a graph
hold the same pairs, and both ends of each pair are entities. -/

namespace SwissArmyHammer.Sem

variable {T : CharTables} {registry : ParserRegistry} {disk : Disk} {order : HashOrder}
  {g g' : EntityGraph} {id a b : String}

def EntityGraph.edgePairs (g : EntityGraph) : List (String × String) :=
  g.edges.map fun e => (e.fromEntity, e.toEntity)

structure EntityGraph.Consistent (g : EntityGraph) : Prop where
  forward : ∀ a b, (g.dependencies.values a).count b = g.edgePairs.count (a, b)
  backward : ∀ a b, (g.dependents.values b).count a = g.edgePairs.count (a, b)
  ends : ∀ e ∈ g.edges,
    (g.entities.get? e.fromEntity).isSome ∧ (g.entities.get? e.toEntity).isSome
  ids : ∀ id info, g.entities.get? id = some info → info.id = id

section

variable {entities : IndexMap String EntityInfo} {es : List SemanticEntity}

theorem isSome_insertEntities (h : (entities.get? id).isSome ∨ ∃ e ∈ es, e.id = id) :
    ((es.foldl insertEntity entities).get? id).isSome := by
  induction es generalizing entities with
  | nil =>
    grind
  | cons e es ih =>
    apply ih
    rcases h with h | ⟨f, hf, hid⟩
    · exact .inl (IndexMap.isSome_get?_insert h)
    · rcases List.mem_cons.mp hf with rfl | hf
      · left
        rw [← hid, insertEntity, IndexMap.get?_insert_self]
        rfl
      · exact .inr ⟨f, hf, hid⟩

theorem ids_insertEntities (h : ∀ id info, entities.get? id = some info → info.id = id)
    {info : EntityInfo} (hget : (es.foldl insertEntity entities).get? id = some info) :
    info.id = id := by
  induction es generalizing entities with
  | nil => exact h id info hget
  | cons e es ih =>
    refine ih (fun x i hx => ?_) hget
    by_cases hkey : x = e.id
    · rw [hkey, insertEntity, IndexMap.get?_insert_self] at hx
      rw [← Option.some.inj hx, hkey]
      rfl
    · rw [insertEntity, IndexMap.get?_insert_of_ne hkey] at hx
      exact h x i hx

theorem values_pushNames {β : Type} (name : β → List Char) (key : β → String) (xs : List β)
    (table : SymbolTable) (n : List Char) :
    (xs.foldl (fun (table : SymbolTable) x => table.push (name x) (key x)) table).values n =
      table.values n ++ (xs.filter fun x => name x = n).map key := by
  induction xs generalizing table with
  | nil => simp
  | cons x xs ih =>
    rw [List.foldl_cons, ih]
    by_cases hn : name x = n
    · simp [← hn]
    · simp [hn, IndexMap.values_push_of_ne (Ne.symm hn)]

end

section

variable {entities : IndexMap String EntityInfo} {table : SymbolTable} {entity : SemanticEntity}
  {refName : List Char} {targetIds : List String} {target : String} {edge : EntityRef}

theorem findTarget_spec (h : findTarget entities entity targetIds = some target) :
    target ∈ targetIds ∧ target ≠ entity.id := by
  rw [findTarget, Option.or_eq_some_iff] at h
  rcases h with h | ⟨-, h⟩
  · grind
  · exact ⟨List.mem_of_find?_eq_some h, by simpa using List.find?_some h⟩

theorem resolveRef_spec (h : resolveRef entities table entity refName = some (some edge)) :
    edge.fromEntity = entity.id ∧ edge.toEntity ∈ table.values refName ∧
      inferRefType entity.content refName = some edge.refType := by
  rw [resolveRef] at h
  split at h
  · cases h
  · rename_i target htarget
    obtain ⟨ids, hids, hfind⟩ := Option.bind_eq_some_iff.mp htarget
    obtain ⟨refType, htype, hedge⟩ := Option.map_eq_some_iff.mp h
    obtain rfl := Option.some.inj hedge
    refine ⟨rfl, ?_, htype⟩
    rw [IndexMap.values_of_get? hids]
    exact (findTarget_spec hfind).1

theorem mem_of_mapM {α β : Type} {f : α → Option β} {xs : List α} {ys : List β}
    (h : xs.mapM f = some ys) (y : β) : y ∈ ys ↔ ∃ x ∈ xs, f x = some y := by
  induction xs generalizing ys with
  | nil =>
    obtain rfl : [] = ys := Option.some.inj h
    simp
  | cons x xs ih =>
    rw [List.mapM_cons] at h
    obtain ⟨z, hz, hrest⟩ := Option.bind_eq_some_iff.mp h
    obtain ⟨zs, hzs, hys⟩ := Option.bind_eq_some_iff.mp hrest
    obtain rfl : z :: zs = ys := Option.some.inj hys
    rw [List.mem_cons]
    constructor
    · grind
    · grind

theorem mem_resolveRefs {refs : List EntityRef} (h : resolveRefs T entities table entity = some refs) :
    edge ∈ refs ↔ ∃ refName ∈ extractReferencesFromContent T entity.content entity.name,
      resolveRef entities table entity refName = some (some edge) := by
  obtain ⟨found, hfound, rfl⟩ := Option.map_eq_some_iff.mp h
  rw [List.reduceOption_mem_iff, mem_of_mapM hfound]

end

theorem entities_pushEdges (edges : List EntityRef) (g : EntityGraph) :
    (edges.foldl EntityGraph.pushEdge g).entities = g.entities := by
  induction edges generalizing g with
  | nil => rfl
  | cons e edges ih => exact ih (g.pushEdge e)

theorem edges_pushEdges (edges : List EntityRef) (g : EntityGraph) :
    (edges.foldl EntityGraph.pushEdge g).edges = g.edges ++ edges := by
  induction edges generalizing g with
  | nil => simp
  | cons e edges ih =>
    rw [List.foldl_cons, ih, EntityGraph.pushEdge, List.append_assoc, List.singleton_append]

namespace EntityGraph.Consistent

theorem pushEdge (h : g.Consistent) {e : EntityRef} (hfrom : (g.entities.get? e.fromEntity).isSome)
    (hto : (g.entities.get? e.toEntity).isSome) : (g.pushEdge e).Consistent := by
  have hcount : ∀ a b, (g.pushEdge e).edgePairs.count (a, b) =
      g.edgePairs.count (a, b) + if e.fromEntity = a ∧ e.toEntity = b then 1 else 0 := by
    intro a b
    have hpairs : (g.pushEdge e).edgePairs = g.edgePairs ++ [(e.fromEntity, e.toEntity)] := by
      simp [EntityGraph.pushEdge, edgePairs]
    rw [hpairs, List.count_append, List.count_singleton]
    simp [Prod.ext_iff]
  refine ⟨fun a b => ?_, fun a b => ?_, fun x hx => ?_, h.ids⟩
  · rw [hcount, ← h.forward a b]
    by_cases ha : a = e.fromEntity
    · simp [EntityGraph.pushEdge, ha, List.count_singleton]
    · simp [EntityGraph.pushEdge, IndexMap.values_push_of_ne ha, Ne.symm ha]
  · rw [hcount, ← h.backward a b]
    by_cases hb : b = e.toEntity
    · simp [EntityGraph.pushEdge, hb, List.count_singleton]
    · simp [EntityGraph.pushEdge, IndexMap.values_push_of_ne hb, Ne.symm hb]
  · rcases List.mem_append.mp hx with hx | hx
    · exact h.ends x hx
    · rw [List.mem_singleton.mp hx]
      exact ⟨hfrom, hto⟩

theorem pushEdges (edges : List EntityRef) (h : g.Consistent)
    (hends : ∀ e ∈ edges, (g.entities.get? e.fromEntity).isSome ∧ (g.entities.get? e.toEntity).isSome) :
    (edges.foldl EntityGraph.pushEdge g).Consistent := by
  induction edges generalizing g with
  | nil => exact h
  | cons e edges ih =>
    have he := hends e List.mem_cons_self
    exact ih (h.pushEdge he.1 he.2) fun x hx => hends x (List.mem_cons_of_mem e hx)

theorem insertEntities (h : g.Consistent) (new : List SemanticEntity) :
    (g.insertEntities new).Consistent where
  forward := h.forward
  backward := h.backward
  ends e he := ⟨isSome_insertEntities (.inl (h.ends e he).1),
    isSome_insertEntities (.inl (h.ends e he).2)⟩
  ids _ _ hget := ids_insertEntities h.ids hget

end EntityGraph.Consistent

theorem consistent_of_entities {entities : IndexMap String EntityInfo}
    (h : ∀ id info, entities.get? id = some info → info.id = id) :
    EntityGraph.Consistent ⟨entities, [], .empty, .empty⟩ where
  forward _ _ := rfl
  backward _ _ := rfl
  ends _ he := absurd he List.not_mem_nil
  ids := h

theorem consistent_build {filePaths : List String}
    (h : EntityGraph.build T registry disk filePaths = some g) : g.Consistent := by
  obtain ⟨resolved, hresolved, rfl⟩ := Option.map_eq_some_iff.mp h
  refine (consistent_of_entities fun id info hget =>
    ids_insertEntities (fun _ _ hnone => by cases hnone) hget).pushEdges _ fun edge hedge => ?_
  obtain ⟨refs, hrefs, hmem⟩ := List.mem_flatten.mp hedge
  obtain ⟨entity, hentity, hres⟩ := (mem_of_mapM hresolved refs).mp hrefs
  obtain ⟨refName, -, href⟩ := (mem_resolveRefs hres).mp hmem
  obtain ⟨hfrom, hto, -⟩ := resolveRef_spec href
  rw [values_pushNames SemanticEntity.name SemanticEntity.id, IndexMap.values_empty] at hto
  obtain ⟨target, htarget, hid⟩ := List.mem_map.mp hto
  constructor
  · exact isSome_insertEntities (.inr ⟨entity, hentity, hfrom.symm⟩)
  · exact isSome_insertEntities (.inr ⟨target, (List.mem_filter.mp htarget).1, hid⟩)

section

variable {m m' m'' dependents dependencies : IndexMap String (List String)} {ids : List String}

/-- Two maps that list the same pairs, one by the first end and one by the second. -/
def Mirror (dependents dependencies : IndexMap String (List String)) : Prop :=
  ∀ a b, (dependencies.values a).count b = (dependents.values b).count a

theorem Mirror.mem_iff (h : Mirror dependents dependencies) :
    b ∈ dependencies.values a ↔ a ∈ dependents.values b := by
  rw [← List.count_pos_iff, ← List.count_pos_iff, h a b]

def Dropped (ids : List String) (m m' : IndexMap String (List String)) : Prop :=
  ∀ a, m'.values a = if a ∈ ids then [] else (m.values a).filter (· ∉ ids)

theorem Dropped.cons (h : Dropped [id] m m') (h' : Dropped ids m' m'') :
    Dropped (id :: ids) m m'' := by
  intro a
  rw [h' a, h a]
  by_cases hmem : a ∈ ids
  · simp [hmem]
  · by_cases ha : a = id
    · simp [ha]
    · rw [if_neg hmem, if_neg (by simpa using ha), if_neg (by simp [ha, hmem]), List.filter_filter]
      exact List.filter_congr fun x _ => by simp [Bool.and_comm]

theorem Dropped.count (h : Dropped ids m m') (a b : String) :
    (m'.values a).count b = if a ∈ ids ∨ b ∈ ids then 0 else (m.values a).count b := by
  rw [h a]
  by_cases ha : a ∈ ids
  · simp [ha]
  · by_cases hb : b ∈ ids
    · simp [ha, hb, List.count_eq_zero]
    · simp [ha, hb, List.count_filter]

theorem values_dropKey_fst (m other : IndexMap String (List String)) (id a : String) :
    (dropKey m other id).1.values a = if a = id then [] else m.values a := by
  rw [dropKey]
  split
  · by_cases ha : a = id
    · simp [ha]
    · simp [ha, IndexMap.values_shiftRemove_of_ne ha]
  · rename_i hnone
    by_cases ha : a = id
    · simp [ha, IndexMap.values_of_none hnone]
    · simp [ha]

theorem values_dropKey_snd (m other : IndexMap String (List String)) (id a : String) :
    (dropKey m other id).2.values a =
      if a ∈ m.values id then (other.values a).filter (· ≠ id) else other.values a := by
  rw [dropKey]
  split
  · rename_i deps hget
    rw [IndexMap.values_of_get? hget]
    exact IndexMap.values_pullFrom other deps id a
  · rename_i hnone
    simp [IndexMap.values_of_none hnone]

theorem filter_ne_of_notMem {xs : List String} (h : id ∉ xs) : xs.filter (· ≠ id) = xs :=
  List.filter_eq_self.mpr fun _ hx => decide_eq_true fun heq => h (heq ▸ hx)

theorem dropped_dropId (h : Mirror dependents dependencies) (id : String) :
    Dropped [id] dependents (dropId (dependents, dependencies) id).1 ∧
      Dropped [id] dependencies (dropId (dependents, dependencies) id).2 := by
  have hmentions : ∀ x, (dropKey dependencies dependents id).2.values x =
      (dependents.values x).filter (· ≠ id) := by
    intro x
    rw [values_dropKey_snd]
    split
    · rfl
    · rename_i hx
      exact (filter_ne_of_notMem (mt h.mem_iff.mpr hx)).symm
  constructor
  · intro a
    simp only [List.mem_singleton, dropId]
    refine (values_dropKey_fst _ _ id a).trans ?_
    rw [hmentions]
  · intro a
    simp only [List.mem_singleton, dropId]
    refine (values_dropKey_snd _ _ id a).trans ?_
    rw [hmentions, values_dropKey_fst]
    by_cases ha : a = id
    · simp [ha]
    · split
      · rfl
      · rename_i hmem
        refine (filter_ne_of_notMem fun hid => hmem ?_).symm
        exact List.mem_filter.mpr ⟨h.mem_iff.mp hid, decide_eq_true ha⟩

theorem Mirror.dropId (h : Mirror dependents dependencies) (id : String) :
    Mirror (dropId (dependents, dependencies) id).1 (dropId (dependents, dependencies) id).2 := by
  intro a b
  obtain ⟨hfst, hsnd⟩ := dropped_dropId h id
  rw [hsnd.count, hfst.count, h a b]
  simp only [or_comm]

theorem dropped_dropIds (ids : List String) (h : Mirror dependents dependencies) :
    Dropped ids dependents (ids.foldl dropId (dependents, dependencies)).1 ∧
      Dropped ids dependencies (ids.foldl dropId (dependents, dependencies)).2 := by
  induction ids generalizing dependents dependencies with
  | nil => exact ⟨fun a => by simp, fun a => by simp⟩
  | cons id ids ih =>
    obtain ⟨hfst, hsnd⟩ := ih (h.dropId id)
    obtain ⟨hfst', hsnd'⟩ := dropped_dropId h id
    exact ⟨hfst'.cons hfst, hsnd'.cons hsnd⟩

theorem get?_removeIds (entities : IndexMap String EntityInfo) (ids : List String) (id : String) :
    (ids.foldl IndexMap.shiftRemove entities).get? id =
      if id ∈ ids then none else entities.get? id := by
  induction ids generalizing entities with
  | nil => simp
  | cons x ids ih =>
    rw [List.foldl_cons, ih]
    by_cases hx : id = x
    · simp [hx]
    · simp [hx, IndexMap.get?_shiftRemove_of_ne hx]

end

namespace EntityGraph.Consistent

theorem mirror (h : g.Consistent) : Mirror g.dependents g.dependencies :=
  fun a b => (h.forward a b).trans (h.backward a b).symm

theorem removeEntitiesForFile (h : g.Consistent) (order : HashOrder) (filePath : String) :
    (g.removeEntitiesForFile order filePath).Consistent := by
  have hcount : ∀ a b, (g.removeEntitiesForFile order filePath).edgePairs.count (a, b) =
      if a ∈ g.idsOfFile order filePath ∨ b ∈ g.idsOfFile order filePath then 0
      else g.edgePairs.count (a, b) := by
    intro a b
    have hpairs : (g.removeEntitiesForFile order filePath).edgePairs = g.edgePairs.filter
        fun p => p.1 ∉ g.idsOfFile order filePath && p.2 ∉ g.idsOfFile order filePath := by
      rw [edgePairs, edgePairs, List.filter_map]
      rfl
    rw [hpairs]
    split
    · rename_i hout
      refine List.count_eq_zero.mpr fun hmem => ?_
      have hkept := (List.mem_filter.mp hmem).2
      simp only [Bool.and_eq_true, decide_eq_true_eq] at hkept
      rcases hout with hout | hout
      · exact hkept.1 hout
      · exact hkept.2 hout
    · rename_i hin
      obtain ⟨ha, hb⟩ := not_or.mp hin
      exact List.count_filter (by simp [ha, hb])
  obtain ⟨hdependents, hdependencies⟩ := dropped_dropIds (g.idsOfFile order filePath) h.mirror
  refine ⟨fun a b => ?_, fun a b => ?_, fun e he => ?_, fun id info hget => ?_⟩
  · rw [hcount, ← h.forward a b]
    exact hdependencies.count a b
  · rw [hcount, ← h.backward a b]
    refine (hdependents.count b a).trans ?_
    simp only [or_comm]
  · obtain ⟨hmem, hkept⟩ := List.mem_filter.mp he
    simp only [Bool.and_eq_true, decide_eq_true_eq] at hkept
    obtain ⟨hfrom, hto⟩ := h.ends e hmem
    have hget : ∀ id, id ∉ g.idsOfFile order filePath →
        (g.removeEntitiesForFile order filePath).entities.get? id = g.entities.get? id :=
      fun id hid => (get?_removeIds _ _ id).trans (if_neg hid)
    rw [hget _ hkept.1, hget _ hkept.2]
    exact ⟨hfrom, hto⟩
  · have hkept := (get?_removeIds g.entities (g.idsOfFile order filePath) id).symm.trans hget
    split at hkept
    · cases hkept
    · exact h.ids id info hkept

theorem applyChange {s : EntityGraph × List SemanticEntity} (h : s.1.Consistent)
    (change : FileChange) : (applyChange registry disk order s change).1.Consistent := by
  rw [Sem.applyChange]
  split
  · exact h.removeEntitiesForFile order _
  · split
    · exact h.removeEntitiesForFile order _
    · exact h
  · exact h.removeEntitiesForFile order _
  · exact h.removeEntitiesForFile order _

theorem isSome_of_table (h : g.Consistent) {name : List Char}
    (hid : id ∈ (g.buildSymbolTable order).values name) : (g.entities.get? id).isSome := by
  rw [buildSymbolTable, values_pushNames, IndexMap.values_empty] at hid
  obtain ⟨info, hinfo, rfl⟩ := List.mem_map.mp hid
  obtain ⟨entry, hentry, rfl⟩ :=
    List.mem_map.mp ((order.perm _).mem_iff.mp (List.mem_filter.mp hinfo).1)
  have hget := IndexMap.get?_eq_some_iff.mpr hentry
  rw [h.ids _ _ hget, hget]
  rfl

theorem resolve {table : SymbolTable} {entity : SemanticEntity} (h : g.Consistent)
    (htable : ∀ name, ∀ id ∈ table.values name, (g.entities.get? id).isSome)
    (hentity : (g.entities.get? entity.id).isSome)
    (hres : g.resolveEntityReferences T table entity = some g') :
    g'.Consistent ∧ g'.entities = g.entities := by
  obtain ⟨refs, hrefs, rfl⟩ := Option.map_eq_some_iff.mp hres
  refine ⟨h.pushEdges refs fun edge hedge => ?_, entities_pushEdges refs g⟩
  obtain ⟨refName, -, href⟩ := (mem_resolveRefs hrefs).mp hedge
  obtain ⟨hfrom, hto, -⟩ := resolveRef_spec href
  exact ⟨hfrom ▸ hentity, htable refName _ hto⟩

theorem resolveAll {table : SymbolTable} (new : List SemanticEntity) (h : g.Consistent)
    (htable : ∀ name, ∀ id ∈ table.values name, (g.entities.get? id).isSome)
    (hnew : ∀ e ∈ new, (g.entities.get? e.id).isSome)
    (hres : new.foldlM (EntityGraph.resolveEntityReferences T table) g = some g') :
    g'.Consistent := by
  induction new generalizing g with
  | nil =>
    obtain rfl := Option.some.inj hres
    exact h
  | cons e new ih =>
    obtain ⟨g₁, hstep, hrest⟩ := Option.bind_eq_some_iff.mp hres
    obtain ⟨hcons, heq⟩ := h.resolve htable (hnew e List.mem_cons_self) hstep
    rw [← heq] at htable hnew
    exact ih hcons htable (fun x hx => hnew x (List.mem_cons_of_mem e hx)) hrest

theorem updateFromChanges (h : g.Consistent) {changes : List FileChange}
    (hupdate : g.updateFromChanges registry disk T order changes = some g') : g'.Consistent := by
  have hremoved : (changes.foldl (Sem.applyChange registry disk order) (g, [])).1.Consistent :=
    foldl_keeps (I := fun s : EntityGraph × List SemanticEntity => s.1.Consistent)
      (fun s change _ hs => hs.applyChange change) h
  have hinserted := hremoved.insertEntities
    (changes.foldl (Sem.applyChange registry disk order) (g, [])).2
  exact hinserted.resolveAll _ (fun name id hid => hinserted.isSome_of_table hid)
    (fun e he => isSome_insertEntities (.inr ⟨e, he, rfl⟩)) hupdate

end EntityGraph.Consistent

/-- The graphs that a build and any number of updates lead to, each from any files, with any
parsers and any changes. -/
inductive Obtained (T : CharTables) : EntityGraph → Prop
  | build {registry disk filePaths g} (h : EntityGraph.build T registry disk filePaths = some g) :
      Obtained T g
  | update {registry disk order changes g g'} (hg : Obtained T g)
      (h : g.updateFromChanges registry disk T order changes = some g') : Obtained T g'

theorem Obtained.consistent (h : Obtained T g) : g.Consistent := by
  induction h with
  | build h => exact consistent_build h
  | update _ h ih => exact ih.updateFromChanges h

end SwissArmyHammer.Sem
