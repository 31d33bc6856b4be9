import SwissArmyHammer.Entities.Entity
import SwissArmyHammer.Kanban.Ordinal

/-! Virtual tags: tags that a task has through the state of the board. -/

namespace SwissArmyHammer.Kanban

open Entities

structure EntityFilterContext where
  entity : Option Entity
  entities : List Entity
  terminalColumnId : Option String

structure VirtualTagStrategy where
  slug : String
  isMatch : EntityFilterContext → Bool

namespace EntityFilterContext

variable (ctx : EntityFilterContext)

def terminal : String := ctx.terminalColumnId.getD "done"

def isDone (depId : String) : Option Bool :=
  (ctx.entities.find? fun t => t.id = depId).map fun t =>
    t.getStr "position_column" = some ctx.terminal

end EntityFilterContext

def readyStrategy : VirtualTagStrategy where
  slug := "READY"
  isMatch ctx :=
    match ctx.entity with
    | none => false
    | some entity =>
      if (entity.getStr "position_column").getD "" = ctx.terminal then false
      else (entity.getStringList "depends_on").all fun depId => (ctx.isDone depId).getD false

def blockingStrategy : VirtualTagStrategy where
  slug := "BLOCKING"
  isMatch ctx :=
    match ctx.entity with
    | none => false
    | some entity =>
      if (entity.getStr "position_column").getD "" = ctx.terminal then false
      else ctx.entities.any fun t => (t.getStringList "depends_on").any fun dep => dep = entity.id

def blockedStrategy : VirtualTagStrategy where
  slug := "BLOCKED"
  isMatch ctx :=
    match ctx.entity with
    | none => false
    | some entity =>
      let deps := entity.getStringList "depends_on"
      if deps.isEmpty then false
      else deps.any fun depId => ((ctx.isDone depId).map not).getD true

structure VirtualTagRegistry where
  strategies : Std.ExtTreeMap String VirtualTagStrategy
  /-- The slugs in the order of their first registration. -/
  order : List String

namespace VirtualTagRegistry

def new : VirtualTagRegistry := ⟨∅, []⟩

def register (registry : VirtualTagRegistry) (strategy : VirtualTagStrategy) : VirtualTagRegistry :=
  { strategies := registry.strategies.insert strategy.slug strategy
    order := if strategy.slug ∈ registry.strategies then registry.order
      else registry.order ++ [strategy.slug] }

def evaluate (registry : VirtualTagRegistry) (ctx : EntityFilterContext) : List String :=
  registry.order.filter fun slug =>
    ((registry.strategies[slug]?).map fun strategy => strategy.isMatch ctx).getD false

end VirtualTagRegistry

def defaultVirtualTagRegistry : VirtualTagRegistry :=
  ((VirtualTagRegistry.new.register readyStrategy).register blockedStrategy).register
    blockingStrategy

structure SameForTags (e e' : Entity) : Prop where
  id : e.id = e'.id
  column : e.get "position_column" = e'.get "position_column"
  deps : e.get "depends_on" = e'.get "depends_on"

section

variable {registry : VirtualTagRegistry} {ctx ctx' : EntityFilterContext}
  {strategy : VirtualTagStrategy} {slug : String}

theorem mem_strategies_register {other : VirtualTagStrategy}
    (h : (registry.register other).strategies[slug]? = some strategy) :
    strategy = other ∨ registry.strategies[slug]? = some strategy := by
  rw [VirtualTagRegistry.register, Std.ExtTreeMap.getElem?_insert] at h
  split at h
  · exact .inl (Option.some.inj h).symm
  · exact .inr h

theorem evaluate_congr (h : ∀ (slug : String) (strategy : VirtualTagStrategy),
    registry.strategies[slug]? = some strategy → strategy.isMatch ctx = strategy.isMatch ctx') :
    registry.evaluate ctx = registry.evaluate ctx' := by
  apply List.filter_congr
  intro slug _
  cases hs : registry.strategies[slug]? with
  | none => rfl
  | some strategy => simp [h slug strategy hs]

theorem default_strategy (h : defaultVirtualTagRegistry.strategies[slug]? = some strategy) :
    strategy = readyStrategy ∨ strategy = blockedStrategy ∨ strategy = blockingStrategy := by
  rcases mem_strategies_register h with h | h
  · exact .inr (.inr h)
  · rcases mem_strategies_register h with h | h
    · exact .inr (.inl h)
    · rcases mem_strategies_register h with h | h
      · exact .inl h
      · simp [VirtualTagRegistry.new] at h

end

section

variable {e e' : Entity} {es es' : List Entity} {terminal : Option String}

theorem find?_congr (h : List.Forall₂ SameForTags es es') (depId : String) :
    ((es.find? fun t => t.id = depId).map fun t => t.getStr "position_column") =
      (es'.find? fun t => t.id = depId).map fun t => t.getStr "position_column" := by
  induction h with
  | nil => rfl
  | cons hsame _ ih =>
    rw [List.find?_cons, List.find?_cons, hsame.id]
    split
    · rw [Option.map_some, Option.map_some, Entity.getStr_congr hsame.column]
    · exact ih

theorem isDone_congr (h : List.Forall₂ SameForTags es es') (entity entity' : Option Entity)
    (depId : String) : (EntityFilterContext.mk entity es terminal).isDone depId =
      (EntityFilterContext.mk entity' es' terminal).isDone depId := by
  have hfind := congrArg (Option.map fun column : Option String =>
    decide (column = some (terminal.getD "done"))) (find?_congr h depId)
  rw [Option.map_map, Option.map_map] at hfind
  exact hfind

theorem any_congr (h : List.Forall₂ SameForTags es es') (id : String) :
    (es.any fun t => (t.getStringList "depends_on").any fun dep => dep = id) =
      es'.any fun t => (t.getStringList "depends_on").any fun dep => dep = id := by
  induction h with
  | nil => rfl
  | cons hsame _ ih =>
    rw [List.any_cons, List.any_cons, ih, Entity.getStringList_congr hsame.deps]

theorem evaluate_default_congr (hentity : SameForTags e e') (h : List.Forall₂ SameForTags es es')
    (terminal : Option String) : defaultVirtualTagRegistry.evaluate ⟨some e, es, terminal⟩ =
      defaultVirtualTagRegistry.evaluate ⟨some e', es', terminal⟩ := by
  have hcolumn := Entity.getStr_congr hentity.column
  have hdeps := Entity.getStringList_congr hentity.deps
  have hdone : ∀ depId, (EntityFilterContext.mk (some e) es terminal).isDone depId =
      (EntityFilterContext.mk (some e') es' terminal).isDone depId :=
    isDone_congr h (some e) (some e')
  have hterminal : (EntityFilterContext.mk (some e) es terminal).terminal =
      (EntityFilterContext.mk (some e') es' terminal).terminal := rfl
  apply evaluate_congr
  intro slug strategy hs
  rcases default_strategy hs with rfl | rfl | rfl
  · simp only [readyStrategy, hcolumn, hdeps, hdone, hterminal]
  · simp only [blockedStrategy, hdeps, hdone]
  · simp only [blockingStrategy, hcolumn, hterminal, hentity.id, any_congr h]

end

end SwissArmyHammer.Kanban

/-! Computed fields of tasks: one task against the list of all tasks, and all tasks at once
through indexes. -/

namespace SwissArmyHammer.Kanban

open Entities

def shortIdLen : Nat := 7

def shortId (ulid : String) : String :=
  String.ofList ((ulid.toList.drop (ulid.toList.length - shortIdLen)).map Char.toLower)

def setTaskShortId (entity : Entity) : Entity :=
  entity.set "short_id" (.string (shortId entity.id))

def taskProgress (ratio : Nat → Nat → Json) (entity : Entity) : Json :=
  match entity.get "progress" with
  | none => .number "0.0"
  | some progress =>
    let total := ((progress.getKey "total").bind Json.asU64).getD 0
    if total = 0 then .number "0.0"
    else ratio (((progress.getKey "completed").bind Json.asU64).getD 0) total

section

variable (entity : Entity) (allTasks : List Entity) (terminalColumnId : String)

def taskIsReady : Bool :=
  (entity.getStringList "depends_on").all fun depId =>
    ((allTasks.find? fun t => t.id = depId).map fun t =>
      decide (t.getStr "position_column" = some terminalColumnId)).getD false

def taskBlockedBy : List String :=
  (entity.getStringList "depends_on").filter fun depId =>
    ((allTasks.find? fun t => t.id = depId).map fun t =>
      decide (t.getStr "position_column" ≠ some terminalColumnId)).getD true

def findDependentTaskIds (taskId : String) (allTasks : List Entity) : List String :=
  (allTasks.filter fun t => (t.getStringList "depends_on").any fun d => d = taskId).map Entity.id

def taskBlocks : List String := findDependentTaskIds entity.id allTasks

def filterTags (bodyTags virtualSlugs : List String) : List String :=
  bodyTags ++ virtualSlugs.filter fun slug => slug ∉ bodyTags

def enrichTaskEntity (ratio : Nat → Nat → Json) (registry : VirtualTagRegistry) : Entity :=
  let entity := setTaskShortId entity
  let entity := entity.set "progress_fraction" (taskProgress ratio entity)
  let entity := entity.set "ready" (.bool (taskIsReady entity allTasks terminalColumnId))
  let entity := entity.set "blocked_by"
    (.ofStrings (taskBlockedBy entity allTasks terminalColumnId))
  let entity := entity.set "blocks" (.ofStrings (taskBlocks entity allTasks))
  let virtualSlugs := registry.evaluate ⟨some entity, allTasks, some terminalColumnId⟩
  let entity := entity.set "virtual_tags" (.ofStrings virtualSlugs)
  entity.set "filter_tags" (.ofStrings (filterTags (entity.getStringList "tags") virtualSlugs))

end

structure DependencyIndexes where
  blocks : Std.ExtTreeMap String (List String)
  dependsOn : Std.ExtTreeMap String (List String)
  positions : Std.ExtTreeMap String String
  stubs : List Entity

def indexBlocks (blocks : Std.ExtTreeMap String (List String)) (entity : Entity) :
    Std.ExtTreeMap String (List String) :=
  (entity.getStringList "depends_on").foldl
    (fun blocks depId => blocks.insert depId ((blocks[depId]?).getD [] ++ [entity.id])) blocks

def stub (e : Entity) : Entity :=
  let stub := Entity.new e.entityType e.id
  let stub := match e.get "position_column" with
    | some col => stub.set "position_column" col
    | none => stub
  match e.get "depends_on" with
  | some deps => stub.set "depends_on" deps
  | none => stub

def buildDependencyIndexes (entities : List Entity) : DependencyIndexes where
  blocks := entities.foldl indexBlocks ∅
  dependsOn := entities.foldl (fun m e => m.insert e.id (e.getStringList "depends_on")) ∅
  positions := entities.foldl (fun m e => m.insert e.id ((e.getStr "position_column").getD "")) ∅
  stubs := entities.map stub

def enrichTaskFromIndexes (ratio : Nat → Nat → Json) (indexes : DependencyIndexes)
    (terminalColumnId : String) (registry : VirtualTagRegistry) (entity : Entity) : Entity :=
  let entity := setTaskShortId entity
  let entity := entity.set "progress_fraction" (taskProgress ratio entity)
  let deps := (indexes.dependsOn[entity.id]?).getD []
  let blockedBy := deps.filter fun depId =>
    ((indexes.positions[depId]?).map fun col => decide (col ≠ terminalColumnId)).getD true
  let entity := entity.set "ready" (.bool blockedBy.isEmpty)
  let entity := entity.set "blocked_by" (.ofStrings blockedBy)
  let entity := entity.set "blocks" (.ofStrings ((indexes.blocks[entity.id]?).getD []))
  let virtualSlugs := registry.evaluate ⟨some entity, indexes.stubs, some terminalColumnId⟩
  let entity := entity.set "virtual_tags" (.ofStrings virtualSlugs)
  entity.set "filter_tags" (.ofStrings (filterTags (entity.getStringList "tags") virtualSlugs))

def enrichAllTaskEntities (ratio : Nat → Nat → Json) (entities : List Entity)
    (terminalColumnId : String) (registry : VirtualTagRegistry) : List Entity :=
  let indexes := buildDependencyIndexes entities
  entities.map (enrichTaskFromIndexes ratio indexes terminalColumnId registry)

section

variable {F : FractionalIndex}

def computeOrdinalForDrop (F : FractionalIndex) (tasks : List Entity) (dropIndex : Nat) :
    Ordinal F :=
  let getOrdinal (entity : Entity) : Ordinal F :=
    ((entity.getStr "position_ordinal").map Ordinal.fromString).getD .first
  if dropIndex ≥ tasks.length then
    match tasks.getLast? with
    | none => .first
    | some last => .after (getOrdinal last)
  else
    match dropIndex with
    | 0 => ((tasks[0]?).map fun first => .before (getOrdinal first)).getD .first
    | i + 1 =>
      match tasks[i]?, tasks[i + 1]? with
      | some prev, some next => .between (getOrdinal prev) (getOrdinal next)
      | _, _ => .first

def computeOrdinalForNeighbors (before after : Option (Ordinal F)) : Ordinal F :=
  match before, after with
  | none, none => .first
  | none, some after => .before after
  | some before, none => .after before
  | some before, some after => .between before after

end

section

variable (ratio : Nat → Nat → Json) (entity : Entity)

def taskDateFields : List String :=
  ["due", "scheduled", "created", "updated", "started", "completed"]

def includeDateFields (result : Json) : Json :=
  taskDateFields.foldl (fun result name => result.setKey name ((entity.get name).getD .null)) result

def taskEntityToJson : Json :=
  let position := Json.object
    [("column", .string ((entity.getStr "position_column").getD "")),
      ("ordinal", .string ((entity.getStr "position_ordinal").getD Ordinal.defaultStr))]
  let result := Json.object
    [("assignees", .ofStrings (entity.getStringList "assignees")),
      ("depends_on", .ofStrings (entity.getStringList "depends_on")),
      ("description", .string ((entity.getStr "body").getD "")),
      ("id", .string entity.id),
      ("position", position),
      ("progress", taskProgress ratio entity),
      ("project", .string ((entity.getStr "project").getD "")),
      ("short_id", .string (shortId entity.id)),
      ("tags", .ofStrings (entity.getStringList "tags")),
      ("title", .string ((entity.getStr "title").getD ""))]
  let result := result.setKey "attachments" ((entity.get "attachments").getD (.array []))
  let result := result.setKey "project" ((entity.get "project").getD .null)
  includeDateFields entity result

def taskEntityToRichJson : Json :=
  let result := taskEntityToJson ratio entity
  let result := result.setKey "ready" ((entity.get "ready").getD (.bool true))
  let result := result.setKey "blocked_by" (.ofStrings (entity.getStringList "blocked_by"))
  let result := result.setKey "blocks" (.ofStrings (entity.getStringList "blocks"))
  let result := result.setKey "virtual_tags" (.ofStrings (entity.getStringList "virtual_tags"))
  result.setKey "filter_tags" (.ofStrings (entity.getStringList "filter_tags"))

def taskMutationAck : Json :=
  .object [("id", .string entity.id), ("ok", .bool true), ("short_id", .string (shortId entity.id))]

end

end SwissArmyHammer.Kanban

/-! Moving a task: to a place before or after another, to the end of a column, or to an index
in it. -/

namespace SwissArmyHammer.Kanban

open Entities

structure MoveTask where
  id : String
  column : String
  ordinal : Option String
  beforeId : Option String
  afterId : Option String

namespace MoveTask

def toColumn (id column : String) : MoveTask := ⟨id, column, none, none, none⟩

end MoveTask

def rawOrdinal (t : Entity) : String := (t.getStr "position_ordinal").getD Ordinal.defaultStr

def inColumn (column : String) (t : Entity) : Bool := t.getStr "position_column" = some column

def sortByOrdinal (tasks : List Entity) : List Entity :=
  tasks.mergeSort fun a b => decide (rawOrdinal a ≤ rawOrdinal b)

def loadSortedColumnTasks (allTasks : List Entity) (column excludeTaskId : String) : List Entity :=
  sortByOrdinal (allTasks.filter fun t => inColumn column t && decide (t.id ≠ excludeTaskId))

section

variable (F : FractionalIndex)

def taskOrdinal (t : Entity) : Ordinal F := .fromString (rawOrdinal t)

def ordinalBefore (colTasks : List Entity) (refId : String) : Ordinal F :=
  match colTasks.findIdx? fun t => t.id = refId with
  | some 0 => computeOrdinalForNeighbors none ((colTasks[0]?).map (taskOrdinal F))
  | some (idx + 1) => computeOrdinalForNeighbors ((colTasks[idx]?).map (taskOrdinal F))
      ((colTasks[idx + 1]?).map (taskOrdinal F))
  | none => computeOrdinalForNeighbors (colTasks.getLast?.map (taskOrdinal F)) none

def ordinalAfter (colTasks : List Entity) (refId : String) : Ordinal F :=
  match colTasks.findIdx? fun t => t.id = refId with
  | some idx =>
    if idx = colTasks.length - 1 then
      computeOrdinalForNeighbors ((colTasks[idx]?).map (taskOrdinal F)) none
    else computeOrdinalForNeighbors ((colTasks[idx]?).map (taskOrdinal F))
      ((colTasks[idx + 1]?).map (taskOrdinal F))
  | none => computeOrdinalForNeighbors (colTasks.getLast?.map (taskOrdinal F)) none

def laterOrdinal (column id : String) (last : Option (Ordinal F)) (t : Entity) :
    Option (Ordinal F) :=
  if t.id = id then last
  else if (t.getStr "position_column").getD "" = column then
    match last with
    | none => some (taskOrdinal F t)
    | some o => if (taskOrdinal F t).cmp o = .gt then some (taskOrdinal F t) else some o
  else last

def lastOrdinal (allTasks : List Entity) (column id : String) : Option (Ordinal F) :=
  allTasks.foldl (laterOrdinal F column id) none

def moveOrdinal (allTasks : List Entity) (m : MoveTask) : Ordinal F :=
  match m.ordinal with
  | some ord => .fromString ord
  | none =>
    let colTasks := loadSortedColumnTasks allTasks m.column m.id
    match m.beforeId, m.afterId with
    | some refId, _ => ordinalBefore F colTasks refId
    | none, some refId => ordinalAfter F colTasks refId
    | none, none =>
      match lastOrdinal F allTasks m.column m.id with
      | some last => .after last
      | none => .first

end

structure BoardFiles where
  columns : List Entity
  tasks : List Entity

/-- `upper` is `char::to_uppercase`. -/
def slugToName (upper : Char → List Char) (slug : String) : String :=
  let words := slug.toList.splitOnP fun c => c = '-' || c = '_'
  String.ofList (List.intercalate [' '] (words.map fun word =>
    match word with
    | [] => []
    | first :: rest => upper first ++ rest))

def ensureColumn (upper : Char → List Char) (columns : List Entity) (column : String) :
    List Entity :=
  if columns.any fun c => c.id = column then columns
  else
    let order := ((columns.filterMap fun c => (c.get "order").bind Json.asU64).max?.map
      fun o => o + 1).getD 0
    columns ++ [((Entity.new "column" column).set "name"
      (.string (slugToName upper column))).set "order" (.number (toString order))]

def writeTask (tasks : List Entity) (entity : Entity) : List Entity :=
  tasks.map fun t => if t.id = entity.id then entity else t

def setPosition (entity : Entity) (column ordinal : String) : Entity :=
  (entity.set "position_column" (.string column)).set "position_ordinal" (.string ordinal)

def MoveTask.execute (upper : Char → List Char) (F : FractionalIndex) (m : MoveTask)
    (board : BoardFiles) : Option (BoardFiles × Json) :=
  match board.tasks.find? fun t => t.id = m.id with
  | none => none
  | some entity =>
    let ordinal := moveOrdinal F board.tasks m
    let entity := setPosition entity m.column ordinal.strRepr
    some (⟨ensureColumn upper board.columns m.column, writeTask board.tasks entity⟩,
      taskMutationAck entity)

inductive Placement where
  | before (refId : String)
  | after (refId : String)
  | last
  | drop (index : Nat)

def Placement.move (F : FractionalIndex) (p : Placement) (tasks : List Entity)
    (id column : String) : MoveTask :=
  match p with
  | .before refId => { MoveTask.toColumn id column with beforeId := some refId }
  | .after refId => { MoveTask.toColumn id column with afterId := some refId }
  | .last => .toColumn id column
  | .drop index =>
    let ordinal := computeOrdinalForDrop F (loadSortedColumnTasks tasks column id) index
    { MoveTask.toColumn id column with ordinal := some ordinal.strRepr }

structure MoveTaskCmd where
  id : String
  column : String
  placement : Placement

def MoveTaskCmd.execute (upper : Char → List Char) (F : FractionalIndex) (cmd : MoveTaskCmd)
    (board : BoardFiles) : Option (BoardFiles × Json) :=
  (cmd.placement.move F board.tasks cmd.id cmd.column).execute upper F board

end SwissArmyHammer.Kanban
