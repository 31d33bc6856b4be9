import Mathlib.Algebra.BigOperators.Group.List.Basic
import Mathlib.Logic.Relation
import SwissArmyHammer.Kanban.TaskHelpers

/-! Enrichment of a whole board through indexes, against enrichment task by task. -/

namespace SwissArmyHammer.Kanban

open Entities

section

variable {entities : List Entity} {entity : Entity} {id depId terminal : String}

theorem getElem?_foldl_insert {β : Type} (value : Entity → β) (m : Std.ExtTreeMap String β)
    (hids : (entities.map Entity.id).Nodup) :
    (entities.foldl (fun m e => m.insert e.id (value e)) m)[id]? =
      ((entities.find? fun e => e.id = id).map value).or m[id]? := by
  induction entities generalizing m with
  | nil => rfl
  | cons e entities ih =>
    rw [List.map_cons, List.nodup_cons] at hids
    rw [List.foldl_cons, ih _ hids.2, List.find?_cons, Std.ExtTreeMap.getElem?_insert]
    by_cases he : e.id = id
    · have hnone : entities.find? (fun e => e.id = id) = none := by
        rw [List.find?_eq_none]
        intro e' he'
        have hne : e'.id ≠ id := by
          rintro rfl
          exact hids.1 (List.mem_map.mpr ⟨e', he', he.symm⟩)
        simpa using hne
      simp [he, hnone]
    · simp [he]

theorem find?_id (hids : (entities.map Entity.id).Nodup) (h : entity ∈ entities) :
    entities.find? (fun e => e.id = entity.id) = some entity := by
  induction entities with
  | nil => simp at h
  | cons e entities ih =>
    rw [List.map_cons, List.nodup_cons] at hids
    rcases List.mem_cons.mp h with rfl | h
    · simp
    · have hne : e.id ≠ entity.id := by
        intro heq
        exact hids.1 (heq ▸ List.mem_map.mpr ⟨entity, h, rfl⟩)
      simp [hne, ih hids.2 h]

theorem dependsOn_index (hids : (entities.map Entity.id).Nodup) (h : entity ∈ entities) :
    ((buildDependencyIndexes entities).dependsOn[entity.id]?).getD [] =
      entity.getStringList "depends_on" := by
  rw [buildDependencyIndexes]
  rw [getElem?_foldl_insert _ _ hids, find?_id hids h]
  rfl

theorem positions_index (hids : (entities.map Entity.id).Nodup) (hterminal : terminal ≠ "")
    (depId : String) :
    (((buildDependencyIndexes entities).positions[depId]?).map fun col =>
        decide (col ≠ terminal)).getD true =
      ((entities.find? fun t => t.id = depId).map fun t =>
        decide (t.getStr "position_column" ≠ some terminal)).getD true := by
  rw [buildDependencyIndexes]
  rw [getElem?_foldl_insert _ _ hids]
  cases entities.find? (fun t => t.id = depId) with
  | none => simp
  | some t => cases ht : t.getStr "position_column" <;> simp [ht, hterminal.symm]

def dependents (id : String) (entities : List Entity) : List String :=
  entities.flatMap fun t => List.replicate ((t.getStringList "depends_on").count id) t.id

theorem getElem?_foldl_deps (entity : Entity) (deps : List String)
    (blocks : Std.ExtTreeMap String (List String)) :
    ((deps.foldl (fun blocks depId =>
        blocks.insert depId ((blocks[depId]?).getD [] ++ [entity.id])) blocks)[id]?).getD [] =
      (blocks[id]?).getD [] ++ List.replicate (deps.count id) entity.id := by
  induction deps generalizing blocks with
  | nil => simp
  | cons dep deps ih =>
    rw [List.foldl_cons, ih, Std.ExtTreeMap.getElem?_insert]
    by_cases hdep : dep = id
    · subst hdep
      simp [List.replicate_succ]
    · simp [hdep]

theorem blocks_index (id : String) (entities : List Entity) :
    ((buildDependencyIndexes entities).blocks[id]?).getD [] = dependents id entities := by
  have hfold : ∀ blocks : Std.ExtTreeMap String (List String),
      ((entities.foldl indexBlocks blocks)[id]?).getD [] =
        (blocks[id]?).getD [] ++ dependents id entities := by
    induction entities with
    | nil => simp [dependents]
    | cons e entities ih =>
      intro blocks
      rw [List.foldl_cons, ih, indexBlocks, getElem?_foldl_deps]
      simp [dependents]
  simpa [buildDependencyIndexes] using hfold ∅

theorem findDependentTaskIds_cons (id : String) (e : Entity) (entities : List Entity) :
    findDependentTaskIds id (e :: entities) =
      (if id ∈ e.getStringList "depends_on" then [e.id] else []) ++
        findDependentTaskIds id entities := by
  by_cases h : id ∈ e.getStringList "depends_on"
  · simp [findDependentTaskIds, h]
  · have hany : (e.getStringList "depends_on").any (fun d => d = id) = false := by
      simpa using fun d hd (heq : d = id) => h (heq ▸ hd)
    simp [findDependentTaskIds, h, hany]

theorem dependents_cons (id : String) (e : Entity) (entities : List Entity) :
    dependents id (e :: entities) =
      List.replicate ((e.getStringList "depends_on").count id) e.id ++ dependents id entities := by
  simp [dependents]

theorem length_findDependentTaskIds_le (id : String) (entities : List Entity) :
    (findDependentTaskIds id entities).length ≤ (dependents id entities).length := by
  induction entities with
  | nil => simp [findDependentTaskIds]
  | cons e entities ih =>
    rw [findDependentTaskIds_cons, dependents_cons, List.length_append, List.length_append]
    split
    · grind
    · simp only [List.length_nil]
      omega

theorem dependents_eq_iff (id : String) (entities : List Entity) :
    dependents id entities = findDependentTaskIds id entities ↔
      ∀ t ∈ entities, (t.getStringList "depends_on").count id ≤ 1 := by
  induction entities with
  | nil => simp [dependents, findDependentTaskIds]
  | cons e entities ih =>
    have hle := length_findDependentTaskIds_le id entities
    rw [List.forall_mem_cons, ← ih, dependents_cons, findDependentTaskIds_cons]
    have hcount : (e.getStringList "depends_on").count id ≤ 1 →
        List.replicate ((e.getStringList "depends_on").count id) e.id =
          if id ∈ e.getStringList "depends_on" then [e.id] else [] := by
      intro h
      by_cases hmem : id ∈ e.getStringList "depends_on"
      · have hpos := List.count_pos_iff.mpr hmem
        rw [show (e.getStringList "depends_on").count id = 1 by omega, if_pos hmem]
        rfl
      · rw [List.count_eq_zero.mpr hmem, if_neg hmem]
        rfl
    constructor
    · intro h
      have hone : (e.getStringList "depends_on").count id ≤ 1 := by
        have hlen := congrArg List.length h
        rw [List.length_append, List.length_append, List.length_replicate] at hlen
        have hif : (if id ∈ e.getStringList "depends_on" then [e.id] else []).length ≤ 1 := by
          split <;> simp
        omega
      rw [hcount hone] at h
      exact ⟨hone, List.append_cancel_left h⟩
    · rintro ⟨hone, h⟩
      rw [hcount hone, h]

end

section

variable {entities : List Entity} {entity : Entity} {terminal : String}
  {ratio : Nat → Nat → Json}

theorem sameForTags_stub (e : Entity) : SameForTags e (stub e) := by
  have hnew : ∀ field, (Entity.new e.entityType e.id).get field = none := fun field => by
    simp [Entity.new, Entity.get]
  constructor
  · unfold stub
    cases e.get "position_column" <;> cases e.get "depends_on" <;> rfl
  · unfold stub
    cases hcol : e.get "position_column" <;> cases e.get "depends_on" <;>
      simp [Entity.get_set_of_ne, hnew]
  · unfold stub
    cases e.get "position_column" <;> cases hdeps : e.get "depends_on" <;>
      simp [Entity.get_set_of_ne, hnew]

theorem sameForTags_stubs (entities : List Entity) :
    List.Forall₂ SameForTags entities (entities.map stub) := by
  induction entities with
  | nil => exact .nil
  | cons e entities ih => exact .cons (sameForTags_stub e) ih

theorem SameForTags.refl (e : Entity) : SameForTags e e := ⟨rfl, rfl, rfl⟩

theorem blockedBy_index (hids : (entities.map Entity.id).Nodup) (hterminal : terminal ≠ "")
    (h : entity ∈ entities) :
    (((buildDependencyIndexes entities).dependsOn[entity.id]?).getD []).filter (fun depId =>
        (((buildDependencyIndexes entities).positions[depId]?).map fun col =>
          decide (col ≠ terminal)).getD true) =
      taskBlockedBy entity entities terminal := by
  rw [dependsOn_index hids h]
  exact List.filter_congr fun depId _ => positions_index hids hterminal depId

theorem taskIsReady_eq (entity : Entity) (entities : List Entity) (terminal : String) :
    taskIsReady entity entities terminal = (taskBlockedBy entity entities terminal).isEmpty := by
  rw [Bool.eq_iff_iff, taskIsReady, List.all_eq_true, taskBlockedBy, List.isEmpty_iff,
    List.filter_eq_nil_iff]
  refine forall₂_congr fun depId _ => ?_
  cases entities.find? (fun t => t.id = depId) <;> simp

theorem taskBlockedBy_set {field : String} (h : "depends_on" ≠ field) (e : Entity) (value : Json) :
    taskBlockedBy (e.set field value) entities terminal = taskBlockedBy e entities terminal := by
  rw [taskBlockedBy, taskBlockedBy, Entity.getStringList_set_of_ne h]

def enrichedWith (ratio : Nat → Nat → Json) (entity : Entity) (entities : List Entity)
    (terminal : String) (blocks : List String) : Entity :=
  let blockedBy := taskBlockedBy entity entities terminal
  let entity := setTaskShortId entity
  let entity := entity.set "progress_fraction" (taskProgress ratio entity)
  let entity := entity.set "ready" (.bool blockedBy.isEmpty)
  let entity := entity.set "blocked_by" (.ofStrings blockedBy)
  let entity := entity.set "blocks" (.ofStrings blocks)
  let virtualSlugs := defaultVirtualTagRegistry.evaluate ⟨some entity, entities, some terminal⟩
  let entity := entity.set "virtual_tags" (.ofStrings virtualSlugs)
  entity.set "filter_tags" (.ofStrings (filterTags (entity.getStringList "tags") virtualSlugs))

theorem enrichTaskEntity_eq (ratio : Nat → Nat → Json) (entity : Entity) (entities : List Entity)
    (terminal : String) :
    enrichTaskEntity entity entities terminal ratio defaultVirtualTagRegistry =
      enrichedWith ratio entity entities terminal (findDependentTaskIds entity.id entities) := by
  simp (disch := decide) only [enrichTaskEntity, enrichedWith, taskIsReady_eq, taskBlocks,
    setTaskShortId, Entity.set_id, taskBlockedBy_set]

theorem enrichTaskFromIndexes_eq (hids : (entities.map Entity.id).Nodup)
    (hterminal : terminal ≠ "") (h : entity ∈ entities) :
    enrichTaskFromIndexes ratio (buildDependencyIndexes entities) terminal
        defaultVirtualTagRegistry entity =
      enrichedWith ratio entity entities terminal (dependents entity.id entities) := by
  have hvirtual : ∀ e : Entity,
      defaultVirtualTagRegistry.evaluate ⟨some e, entities.map stub, some terminal⟩ =
        defaultVirtualTagRegistry.evaluate ⟨some e, entities, some terminal⟩ :=
    fun e => (evaluate_default_congr (.refl e) (sameForTags_stubs entities) _).symm
  have hstubs : (buildDependencyIndexes entities).stubs = entities.map stub := rfl
  simp only [enrichTaskFromIndexes, enrichedWith, setTaskShortId, Entity.set_id,
    blockedBy_index hids hterminal h, blocks_index, hstubs, hvirtual]

@[simp] theorem get_blocks_enrichedWith (entity : Entity) (blocks : List String) :
    (enrichedWith ratio entity entities terminal blocks).get "blocks" =
      some (.ofStrings blocks) := by
  simp (disch := decide) only [enrichedWith, Entity.get_set_of_ne, Entity.get_set_self]

def computedFields : List String :=
  ["short_id", "progress_fraction", "ready", "blocked_by", "blocks", "virtual_tags", "filter_tags"]

/-- Enrichment of all tasks agrees with enrichment of each task on the computed fields exactly
when no task names the id of a task of the list twice among its dependencies. -/
theorem enrichAll_iff (ratio : Nat → Nat → Json) (entities : List Entity) (terminal : String)
    (hids : (entities.map Entity.id).Nodup) (hterminal : terminal ≠ "") :
    (∀ (i : Nat) (entity : Entity), entities[i]? = some entity → ∀ field ∈ computedFields,
      ((enrichAllTaskEntities ratio entities terminal defaultVirtualTagRegistry)[i]?).map
          (fun enriched => enriched.get field) =
        some ((enrichTaskEntity entity entities terminal ratio defaultVirtualTagRegistry).get
          field)) ↔
      ∀ entity ∈ entities, ∀ t ∈ entities, (t.getStringList "depends_on").count entity.id ≤ 1 := by
  have hall : ∀ (i : Nat) (entity : Entity), entities[i]? = some entity →
      (enrichAllTaskEntities ratio entities terminal defaultVirtualTagRegistry)[i]? =
        some (enrichedWith ratio entity entities terminal (dependents entity.id entities)) := by
    intro i entity hentity
    rw [enrichAllTaskEntities, List.getElem?_map, hentity, Option.map_some,
      enrichTaskFromIndexes_eq hids hterminal (List.mem_of_getElem? hentity)]
  constructor
  · intro h entity hentity
    obtain ⟨i, hi⟩ := List.mem_iff_getElem?.mp hentity
    have hblocks := h i entity hi "blocks" (by decide)
    rw [hall i entity hi, Option.map_some, enrichTaskEntity_eq, get_blocks_enrichedWith,
      get_blocks_enrichedWith, Option.some.injEq, Option.some.injEq, Json.ofStrings_inj] at hblocks
    exact (dependents_eq_iff entity.id entities).mp hblocks
  · intro h i entity hentity field _
    have hblocks := (dependents_eq_iff entity.id entities).mpr
      (h entity (List.mem_of_getElem? hentity))
    rw [hall i entity hentity, enrichTaskEntity_eq, hblocks, Option.map_some]

def twice : List Entity :=
  [(Entity.new "task" "a").set "depends_on" (.ofStrings ["b", "b"]), Entity.new "task" "b"]

theorem twice_deps : (twice.map fun t => t.getStringList "depends_on") = [["b", "b"], []] := by
  rfl

theorem enrichAll_iff_twice : (∀ (i : Nat) (entity : Entity), twice[i]? = some entity →
      ∀ field ∈ computedFields,
        ((enrichAllTaskEntities (fun _ _ => .null) twice "done" defaultVirtualTagRegistry)[i]?).map
            (fun enriched => enriched.get field) =
          some ((enrichTaskEntity entity twice "done" (fun _ _ => .null)
            defaultVirtualTagRegistry).get field)) ↔
    ∀ entity ∈ twice, ∀ t ∈ twice, (t.getStringList "depends_on").count entity.id ≤ 1 :=
  enrichAll_iff (fun _ _ => .null) twice "done" (by decide) (by decide)

theorem not_enrichAll_twice : ¬ ∀ (i : Nat) (entity : Entity), twice[i]? = some entity →
    ∀ field ∈ computedFields,
      ((enrichAllTaskEntities (fun _ _ => .null) twice "done" defaultVirtualTagRegistry)[i]?).map
          (fun enriched => enriched.get field) =
        some ((enrichTaskEntity entity twice "done" (fun _ _ => .null)
          defaultVirtualTagRegistry).get field) := by
  intro h
  have hblocks := h 1 (Entity.new "task" "b") rfl "blocks" (by decide)
  rw [enrichAllTaskEntities, List.getElem?_map, show twice[1]? = some (Entity.new "task" "b") from rfl,
    Option.map_some, enrichTaskFromIndexes_eq (by decide) (by decide) (by simp [twice]),
    Option.map_some, enrichTaskEntity_eq, get_blocks_enrichedWith, get_blocks_enrichedWith,
    Option.some.injEq, Option.some.injEq, Json.ofStrings_inj, dependents_eq_iff] at hblocks
  have hdeps := twice_deps
  simp only [twice, List.map_cons, List.map_nil, List.cons.injEq, and_true] at hdeps
  have hcount := hblocks _ (List.mem_cons_self)
  rw [hdeps.1] at hcount
  exact absurd hcount (by decide)

end

end SwissArmyHammer.Kanban

/-! The next task of a board: the first actionable one by column and ordinal. -/

namespace SwissArmyHammer.Kanban

open Entities

/-- Columns and tasks as they are listed. Ids are names of files: those of tasks are distinct
and none is empty. -/
structure Board where
  columns : List Entity
  tasks : List Entity
  taskIds : (tasks.map Entity.id).Nodup
  columnIds : ∀ c ∈ columns, c.id ≠ ""

def columnOrder (c : Entity) : Nat := ((c.get "order").bind Json.asU64).getD 0

def sortedColumns (columns : List Entity) : List Entity :=
  columns.mergeSort fun a b => decide (columnOrder a ≤ columnOrder b)

/-- `max_by_key`, which returns the last of several greatest elements. -/
def maxByKey {α : Type} (key : α → Nat) : List α → Option α
  | [] => none
  | x :: xs =>
    match maxByKey key xs with
    | some y => if key x ≤ key y then some y else some x
    | none => some x

def buildColumnOrder (columns : List Entity) : Std.ExtTreeMap String Nat :=
  columns.zipIdx.foldl (fun m c => m.insert c.1.id c.2) ∅

def isActionable (terminalColumn : String) (expr : Option (Entity → Bool)) (t : Entity) : Bool :=
  if t.getStr "position_column" = some terminalColumn then false
  else if !((t.get "ready").bind Json.asBool).getD true then false
  else
    match expr with
    | some e => e t
    | none => true

def compareByPosition (F : FractionalIndex) (columnOrder : Std.ExtTreeMap String Nat)
    (a b : Entity) : Ordering :=
  let colA := (columnOrder[(a.getStr "position_column").getD ""]?).getD 0
  let colB := (columnOrder[(b.getStr "position_column").getD ""]?).getD 0
  let ordA : Ordinal F := .fromString ((a.getStr "position_ordinal").getD Ordinal.defaultStr)
  let ordB : Ordinal F := .fromString ((b.getStr "position_ordinal").getD Ordinal.defaultStr)
  (compare colA colB).then (ordA.cmp ordB)

namespace Board

variable (board : Board)

def terminalColumn : String :=
  ((maxByKey columnOrder (sortedColumns board.columns)).map Entity.id).getD "done"

def enriched (ratio : Nat → Nat → Json) : List Entity :=
  enrichAllTaskEntities ratio board.tasks board.terminalColumn defaultVirtualTagRegistry

def compareTasks (F : FractionalIndex) (a b : Entity) : Ordering :=
  compareByPosition F (buildColumnOrder (sortedColumns board.columns)) a b

end Board

def nextTask (F : FractionalIndex) (ratio : Nat → Nat → Json) (board : Board)
    (expr : Option (Entity → Bool)) : Json :=
  let candidates := (board.enriched ratio).filter (isActionable board.terminalColumn expr)
  let sorted := candidates.mergeSort fun a b => (board.compareTasks F a b).isLE
  match sorted.head? with
  | some task => taskEntityToRichJson ratio task
  | none => .null

section

variable {α : Type} {r : α → α → Prop}

theorem exists_minimal (htrans : ∀ a b c, r a b → r b c → r a c) (hirrefl : ∀ a, ¬ r a a)
    (xs : List α) (hne : xs ≠ []) : ∃ a ∈ xs, ∀ b ∈ xs, ¬ r a b := by
  induction xs with
  | nil => exact absurd rfl hne
  | cons x xs ih =>
    by_cases hnil : xs = []
    · exact ⟨x, by simp, by simp [hnil, hirrefl]⟩
    · grind

end

namespace Board

variable (board : Board)

def Done (id : String) : Prop :=
  ∃ t ∈ board.tasks, t.id = id ∧ t.getStr "position_column" = some board.terminalColumn

structure Actionable (task : Entity) : Prop where
  mem : task ∈ board.tasks
  column : task.getStr "position_column" ≠ some board.terminalColumn
  deps : ∀ dep ∈ task.getStringList "depends_on", board.Done dep

def DependsOn (i j : String) : Prop :=
  ∃ t ∈ board.tasks, t.id = i ∧ j ∈ t.getStringList "depends_on"

def Acyclic : Prop := ∀ i, ¬ Relation.TransGen board.DependsOn i i

def Closed : Prop :=
  ∀ t ∈ board.tasks, ∀ dep ∈ t.getStringList "depends_on", ∃ t' ∈ board.tasks, t'.id = dep

end Board

section

variable {board : Board} {task other : Entity} {F : FractionalIndex} {ratio : Nat → Nat → Json}
  {expr : Option (Entity → Bool)}

theorem maxByKey_spec {α : Type} (key : α → Nat) (xs : List α) (hne : xs ≠ []) :
    ∃ x ∈ xs, maxByKey key xs = some x ∧ ∀ y ∈ xs, key y ≤ key x := by
  induction xs with
  | nil => exact absurd rfl hne
  | cons x xs ih =>
    by_cases hnil : xs = []
    · exact ⟨x, by simp, by simp [hnil, maxByKey], by simp [hnil]⟩
    · obtain ⟨y, hy, hmax, hle⟩ := ih hnil
      by_cases hxy : key x ≤ key y
      · refine ⟨y, by simp [hy], by simp [maxByKey, hmax, hxy], ?_⟩
        intro z hz
        rcases List.mem_cons.mp hz with rfl | hz
        · exact hxy
        · exact hle z hz
      · refine ⟨x, by simp, by simp [maxByKey, hmax, hxy], ?_⟩
        intro z hz
        rcases List.mem_cons.mp hz with rfl | hz
        · exact Nat.le_refl _
        · have := hle z hz
          omega

theorem terminalColumn_spec (board : Board) :
    (board.columns = [] ∧ board.terminalColumn = "done") ∨
      ∃ c ∈ board.columns, board.terminalColumn = c.id ∧
        ∀ c' ∈ board.columns, columnOrder c' ≤ columnOrder c := by
  by_cases hnil : board.columns = []
  · simp [Board.terminalColumn, sortedColumns, hnil, maxByKey]
  · right
    have hsorted : sortedColumns board.columns ≠ [] := by
      intro h
      have hlen := congrArg List.length h
      rw [sortedColumns, List.length_mergeSort] at hlen
      exact hnil (List.length_eq_zero_iff.mp hlen)
    obtain ⟨c, hc, hmax, hle⟩ := maxByKey_spec columnOrder (sortedColumns board.columns) hsorted
    refine ⟨c, List.mem_mergeSort.mp hc, by simp [Board.terminalColumn, hmax], ?_⟩
    exact fun c' hc' => hle c' (List.mem_mergeSort.mpr hc')

theorem terminalColumn_ne (board : Board) : board.terminalColumn ≠ "" := by
  rcases terminalColumn_spec board with ⟨-, h⟩ | ⟨c, hc, h, -⟩
  · rw [h]
    decide
  · rw [h]
    exact board.columnIds c hc

def Board.enrich (board : Board) (ratio : Nat → Nat → Json) (task : Entity) : Entity :=
  enrichedWith ratio task board.tasks board.terminalColumn (dependents task.id board.tasks)

theorem enriched_eq (board : Board) (ratio : Nat → Nat → Json) :
    board.enriched ratio = board.tasks.map (board.enrich ratio) := by
  exact List.map_congr_left fun task htask =>
    enrichTaskFromIndexes_eq board.taskIds (terminalColumn_ne board) htask

theorem get_enrich {field : String} (h : field ∉ computedFields) :
    (board.enrich ratio task).get field = task.get field := by
  simp only [computedFields, List.mem_cons, List.not_mem_nil, or_false, not_or] at h
  obtain ⟨h₁, h₂, h₃, h₄, h₅, h₆, h₇⟩ := h
  rw [Board.enrich, enrichedWith, Entity.get_set_of_ne h₇, Entity.get_set_of_ne h₆,
    Entity.get_set_of_ne h₅, Entity.get_set_of_ne h₄, Entity.get_set_of_ne h₃,
    Entity.get_set_of_ne h₂, setTaskShortId, Entity.get_set_of_ne h₁]

theorem getStr_enrich {field : String} (h : field ∉ computedFields) :
    (board.enrich ratio task).getStr field = task.getStr field :=
  Entity.getStr_congr (get_enrich h)

theorem get_ready_enrich : (board.enrich ratio task).get "ready" =
    some (.bool (taskIsReady task board.tasks board.terminalColumn)) := by
  rw [taskIsReady_eq]
  simp (disch := decide) only [Board.enrich, enrichedWith, Entity.get_set_of_ne,
    Entity.get_set_self]

theorem taskIsReady_iff (board : Board) (task : Entity) :
    taskIsReady task board.tasks board.terminalColumn = true ↔
      ∀ dep ∈ task.getStringList "depends_on", board.Done dep := by
  rw [taskIsReady, List.all_eq_true]
  refine forall₂_congr fun dep _ => ?_
  constructor
  · intro h
    cases hfind : board.tasks.find? (fun t => t.id = dep) with
    | none => simp [hfind] at h
    | some t =>
      have hid := List.find?_some hfind
      exact ⟨t, List.mem_of_find?_eq_some hfind, by simpa using hid, by simpa [hfind] using h⟩
  · rintro ⟨t, ht, rfl, hcol⟩
    simp [find?_id board.taskIds ht, hcol]

theorem isActionable_enrich (htask : task ∈ board.tasks) :
    isActionable board.terminalColumn expr (board.enrich ratio task) = true ↔
      board.Actionable task ∧ expr.all (fun e => e (board.enrich ratio task)) = true := by
  unfold isActionable
  rw [getStr_enrich (by decide), get_ready_enrich]
  simp only [Option.bind_some, Json.asBool, Option.getD_some]
  constructor
  · intro h
    split at h
    · simp at h
    · rename_i hcol
      cases hready : taskIsReady task board.tasks board.terminalColumn with
      | false => simp [hready] at h
      | true =>
        rw [hready] at h
        refine ⟨⟨htask, hcol, (taskIsReady_iff board task).mp hready⟩, ?_⟩
        cases expr with
        | none => rfl
        | some e => exact h
  · rintro ⟨⟨-, hcol, hdeps⟩, hexpr⟩
    have hready := (taskIsReady_iff board task).mpr hdeps
    rw [if_neg hcol, hready]
    cases expr with
    | none => rfl
    | some e => exact hexpr

def columnIndex (m : Std.ExtTreeMap String Nat) (t : Entity) : Nat :=
  (m[(t.getStr "position_column").getD ""]?).getD 0

def ordinalStr (F : FractionalIndex) (t : Entity) : String :=
  (Ordinal.fromString (F := F) ((t.getStr "position_ordinal").getD Ordinal.defaultStr)).strRepr

instance transCmp_compareByPosition (F : FractionalIndex) (m : Std.ExtTreeMap String Nat) :
    Std.TransCmp (compareByPosition F m) :=
  inferInstanceAs (Std.TransCmp
    (compareLex (compareOn (columnIndex m)) (compareOn (ordinalStr F))))

instance transCmp_compareTasks (board : Board) (F : FractionalIndex) :
    Std.TransCmp (board.compareTasks F) :=
  transCmp_compareByPosition F _

theorem compareTasks_enrich (a b : Entity) :
    board.compareTasks F (board.enrich ratio a) (board.enrich ratio b) =
      board.compareTasks F a b := by
  simp (disch := decide) only [Board.compareTasks, compareByPosition, getStr_enrich]

theorem isLE_total (F : FractionalIndex) (m : Std.ExtTreeMap String Nat) (a b : Entity) :
    ((compareByPosition F m a b).isLE || (compareByPosition F m b a).isLE) = true := by
  have hswap : compareByPosition F m b a = (compareByPosition F m a b).swap :=
    Std.OrientedCmp.eq_swap
  rw [hswap]
  cases compareByPosition F m a b <;> rfl

theorem head?_sorted {candidates : List Entity}
    (h : (candidates.mergeSort fun a b => (board.compareTasks F a b).isLE).head? = some task) :
    task ∈ candidates ∧ ∀ t ∈ candidates, (board.compareTasks F task t).isLE = true := by
  have hsorted : (candidates.mergeSort fun a b => (board.compareTasks F a b).isLE).Pairwise
      fun a b => (board.compareTasks F a b).isLE = true :=
    List.pairwise_mergeSort (fun a b c => Std.TransCmp.isLE_trans) (isLE_total F _) candidates
  cases hs : candidates.mergeSort fun a b => (board.compareTasks F a b).isLE with
  | nil => simp [hs] at h
  | cons x xs =>
    rw [hs] at h hsorted
    obtain rfl : x = task := by simpa using h
    have hmem : ∀ t, t ∈ candidates ↔ t ∈ x :: xs := fun t => by rw [← hs, List.mem_mergeSort]
    refine ⟨(hmem x).mpr List.mem_cons_self, fun t ht => ?_⟩
    rcases List.mem_cons.mp ((hmem t).mp ht) with rfl | ht
    · rw [show board.compareTasks F t t = .eq from Std.ReflCmp.compare_self]
      rfl
    · exact (List.pairwise_cons.mp hsorted).1 t ht

theorem taskEntityToRichJson_ne_null (ratio : Nat → Nat → Json) (task : Entity) :
    taskEntityToRichJson ratio task ≠ .null := by
  have hobject : ∃ fields, taskEntityToRichJson ratio task = .object fields := ⟨_, rfl⟩
  obtain ⟨fields, h⟩ := hobject
  exact Json.noConfusion

theorem nextTask_sound (h : nextTask F ratio board expr ≠ .null) : ∃ task,
    nextTask F ratio board expr = taskEntityToRichJson ratio (board.enrich ratio task) ∧
      board.Actionable task ∧ expr.all (fun e => e (board.enrich ratio task)) = true ∧
      ∀ other, board.Actionable other → expr.all (fun e => e (board.enrich ratio other)) = true →
        board.compareTasks F other task ≠ .lt := by
  unfold nextTask at h ⊢
  simp only at h ⊢
  split at h
  · rename_i found hhead
    obtain ⟨hmem, hfirst⟩ := head?_sorted hhead
    rw [enriched_eq, List.mem_filter, List.mem_map] at hmem
    obtain ⟨⟨task, htask, rfl⟩, hact⟩ := hmem
    obtain ⟨haction, hexpr⟩ := (isActionable_enrich htask).mp hact
    refine ⟨task, rfl, haction, hexpr, ?_⟩
    intro other hother hotherExpr hlt
    have hcandidate := hfirst (board.enrich ratio other) (by
      rw [enriched_eq, List.mem_filter, List.mem_map]
      exact ⟨⟨other, hother.mem, rfl⟩, (isActionable_enrich hother.mem).mpr ⟨hother, hotherExpr⟩⟩)
    have hswap : board.compareTasks F task other = (board.compareTasks F other task).swap :=
      Std.OrientedCmp.eq_swap
    rw [compareTasks_enrich, hswap, hlt] at hcandidate
    exact Bool.noConfusion hcandidate
  · exact absurd rfl h

theorem nextTask_of_actionable (htask : board.Actionable task) :
    nextTask F ratio board none ≠ .null := by
  have hmem : board.enrich ratio task ∈
      (board.enriched ratio).filter (isActionable board.terminalColumn none) := by
    rw [enriched_eq, List.mem_filter, List.mem_map]
    exact ⟨⟨task, htask.mem, rfl⟩, (isActionable_enrich htask.mem).mpr ⟨htask, rfl⟩⟩
  unfold nextTask
  simp only
  split
  · exact taskEntityToRichJson_ne_null ratio _
  · rename_i hnone
    rw [List.head?_eq_none_iff] at hnone
    rw [← List.mem_mergeSort, hnone] at hmem
    simp at hmem

theorem exists_actionable (hacyclic : board.Acyclic) (hclosed : board.Closed)
    (htask : task ∈ board.tasks) (hcol : task.getStr "position_column" ≠ some board.terminalColumn) :
    ∃ t, board.Actionable t := by
  let unfinished := board.tasks.filter fun t =>
    decide (t.getStr "position_column" ≠ some board.terminalColumn)
  have hunfinished : ∀ t, t ∈ unfinished ↔
      t ∈ board.tasks ∧ t.getStr "position_column" ≠ some board.terminalColumn := fun t => by
    simp [unfinished]
  have hne : unfinished ≠ [] := List.ne_nil_of_mem ((hunfinished task).mpr ⟨htask, hcol⟩)
  obtain ⟨t, ht, hmin⟩ := exists_minimal
    (r := fun a b : Entity => Relation.TransGen board.DependsOn a.id b.id)
    (fun _ _ _ hab hbc => hab.trans hbc) (fun a => hacyclic a.id) unfinished hne
  obtain ⟨htmem, htcol⟩ := (hunfinished t).mp ht
  refine ⟨t, htmem, htcol, fun dep hdep => ?_⟩
  obtain ⟨t', ht', rfl⟩ := hclosed t htmem dep hdep
  by_contra hdone
  have ht'col : t'.getStr "position_column" ≠ some board.terminalColumn :=
    fun heq => hdone ⟨t', ht', rfl, heq⟩
  exact hmin t' ((hunfinished t').mpr ⟨ht', ht'col⟩) (.single ⟨t, htmem, rfl, hdep⟩)

def waiting : Board where
  columns := [(Entity.new "column" "todo").set "order" (.number "0"),
    (Entity.new "column" "done").set "order" (.number "1")]
  tasks := [((Entity.new "task" "b").set "position_column" (.string "todo")).set "depends_on"
      (.ofStrings ["a"]),
    (Entity.new "task" "a").set "position_column" (.string "todo")]
  taskIds := by decide
  columnIds := by decide

theorem waiting_deps : ∀ t ∈ waiting.tasks, t.getStringList "depends_on" = [] ∨
    (t.id = "b" ∧ t.getStringList "depends_on" = ["a"]) := by
  intro t ht
  simp only [waiting, List.mem_cons, List.not_mem_nil, or_false] at ht
  rcases ht with rfl | rfl
  · exact .inr ⟨rfl, Entity.getStringList_set_self _ _ _⟩
  · left
    rfl

theorem waiting_dependsOn {i j : String} (h : waiting.DependsOn i j) : i = "b" ∧ j = "a" := by
  obtain ⟨t, ht, rfl, hj⟩ := h
  rcases waiting_deps t ht with hnil | ⟨hid, hdeps⟩
  · simp [hnil] at hj
  · exact ⟨hid, by simpa [hdeps] using hj⟩

theorem waiting_acyclic : waiting.Acyclic := by
  have hends : ∀ {i j : String}, Relation.TransGen waiting.DependsOn i j → i = "b" ∧ j = "a" := by
    intro i j h
    induction h with
    | single hstep => exact waiting_dependsOn hstep
    | tail _ hstep ih => exact ⟨ih.1, (waiting_dependsOn hstep).2⟩
  intro i h
  obtain ⟨rfl, hne⟩ := hends h
  exact absurd hne (by decide)

theorem waiting_closed : waiting.Closed := by
  intro t ht dep hdep
  obtain ⟨-, rfl⟩ := waiting_dependsOn ⟨t, ht, rfl, hdep⟩
  exact ⟨_, List.mem_cons_of_mem _ List.mem_cons_self, rfl⟩

theorem waiting_terminal : waiting.terminalColumn = "done" := by
  rcases terminalColumn_spec waiting with ⟨-, h⟩ | ⟨c, hc, h, hmax⟩
  · exact h
  · have hlast := hmax ((Entity.new "column" "done").set "order" (.number "1"))
      (List.mem_cons_of_mem _ List.mem_cons_self)
    simp only [waiting, List.mem_cons, List.not_mem_nil, or_false] at hc
    rcases hc with rfl | rfl
    · exact absurd hlast (by decide)
    · exact h

end

end SwissArmyHammer.Kanban
