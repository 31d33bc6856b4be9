import SwissArmyHammer.Kanban.NextTask
import SwissArmyHammer.Kanban.TagRefs

/-! Adding, changing, deleting, archiving and restoring a task. -/

namespace SwissArmyHammer.Kanban

open Entities

section

variable (env : Env) (b : BoardStore)

def parseIso8601Date (value fieldName : String) : Except BoardError String :=
  let trimmed := String.ofList (Text.trim value.toList)
  if trimmed = "" then
    .error (.parse ("invalid " ++ fieldName ++
      " date: empty string (omit the field to leave it unset)"))
  else
    match env.chrono trimmed with
    | some date => .ok date
    | none => .error (.parse ("invalid " ++ fieldName ++ " date: " ++ env.debug value ++
        " — expected ISO 8601 date (YYYY-MM-DD) or RFC 3339 datetime"))

/-- `min_by_key`, which takes the first of several least. -/
def firstColumn : List Entity → Option Entity
  | [] => none
  | c :: cs =>
    match firstColumn cs with
    | none => some c
    | some d => if columnOrder d < columnOrder c then some d else some c

def resolveColumn (explicit : Option String) (entityTypeForError : String) :
    Except BoardError String :=
  match explicit with
  | some col =>
    if b.listColumns.any fun c => c.id = col then .ok col
    else .error (.parse ("column '" ++ col ++ "' does not exist on this board"))
  | none =>
    match firstColumn b.listColumns with
    | some first => .ok first.id
    | none => .error (.parse ("board has no columns — cannot add " ++ entityTypeForError ++
        " with position_column"))

def lastOrdinalIn (column : String) : Option (Ordinal env.ordinals) :=
  ((b.listTasks.filter fun e => (e.getStr "position_column").getD "" = column).filterMap fun e =>
    (e.getStr "position_ordinal").map Ordinal.fromString).foldl
      (fun last ord => match last with
        | none => some ord
        | some o => if ord.cmp o = .lt then some o else some ord) none

def resolveOrdinal (column : String) (explicit : Option String) : Except BoardError String :=
  match explicit with
  | some ord =>
    if (env.ordinals.fromString ord).isSome then .ok ord
    else .error (.parse ("ordinal '" ++ ord ++ "' is not a valid FractionalIndex encoding"))
  | none =>
    match lastOrdinalIn env b column with
    | some last => .ok (Ordinal.after last).strRepr
    | none => .ok (Ordinal.first : Ordinal env.ordinals).strRepr

def mintUniqueShortId (existing : List String) (ulids : List String) : Option String :=
  ulids.find? fun candidate => shortId candidate ∉ existing

end

structure Draws where
  ulids : List String
  tagId : Slug → String

structure AddTask where
  title : String
  description : Option String
  column : Option String
  ordinal : Option String
  assignees : List String
  dependsOn : List String
  tags : List String
  project : Option String
  due : Option String
  scheduled : Option String

structure UpdateTask where
  id : String
  title : Option String
  description : Option String
  assignees : Option (List String)
  dependsOn : Option (List String)
  tags : Option (List String)
  attachments : Option Json
  project : Option String
  due : Option (Option String)
  scheduled : Option (Option String)

def slimTaskFields : List String :=
  ["id", "short_id", "title", "position", "project", "tags", "filter_tags", "virtual_tags",
    "assignees", "progress", "depends_on", "blocked_by", "blocks", "ready", "created", "updated",
    "due", "scheduled", "started", "completed"]

def slimTaskJson (task : Json) : Json :=
  slimTaskFields.foldl (fun slim field => ((task.getKey field).map (slim.setKey field)).getD slim)
    (.object [])

def flaggedAck (entity : Entity) (flag : String) : Json :=
  (taskMutationAck entity).setKey flag (.bool true)

section

variable (env : Env) (draws : Draws) (b : BoardStore)

def setList (entity : Entity) (field : String) (values : List String) : Entity :=
  if values = [] then entity else entity.set field (.ofStrings values)

def setString (entity : Entity) (field : String) (value : Option String) : Entity :=
  value.elim entity fun value => entity.set field (.string value)

def setDate (entity : Entity) (field : String) (value : Option String) :
    Except BoardError Entity :=
  match value with
  | none => .ok entity
  | some value => (parseIso8601Date env value field).map fun date => entity.set field (.string date)

def AddTask.buildEntity (cmd : AddTask) : Except BoardError Entity := do
  let column ← resolveColumn b cmd.column "task"
  let ordinal ← resolveOrdinal env b column cmd.ordinal
  let existing := b.listTasks.map fun task => shortId task.id
  let id ← (mintUniqueShortId existing draws.ulids).elim (.error .noFreshId) .ok
  let entity := (Entity.new "task" id).set "title" (.string cmd.title)
  let entity := entity.set "body" (.string (cmd.description.getD ""))
  let entity := entity.set "position_column" (.string column)
  let entity := entity.set "position_ordinal" (.string ordinal)
  let entity := setList entity "assignees" cmd.assignees
  let entity := setList entity "depends_on" cmd.dependsOn
  let entity := setString entity "project" cmd.project
  let entity ← setDate env entity "due" cmd.due
  let entity ← setDate env entity "scheduled" cmd.scheduled
  applyTagRefs env b.listTags entity cmd.tags .append

def persist (entity : Entity) : Except BoardError BoardStore := do
  let b ← (b.writeTask env.files entity).mapError .entity
  autoCreateBodyTags env draws.tagId b entity

def AddTask.execute (cmd : AddTask) : Except BoardError (BoardStore × Json) := do
  let entity ← cmd.buildEntity env draws b
  let b ← persist env draws b entity
  .ok (b, slimTaskJson (taskEntityToJson env.ratio entity))

def readTask (id : String) : Except BoardError Entity :=
  match b.task? id with
  | some entity => .ok (readFields env.files entity)
  | none => .error (.taskNotFound id)

def applyOptionalDate (entity : Entity) (field : String) (value : Option (Option String)) :
    Except BoardError Entity :=
  match value with
  | none => .ok entity
  | some none => .ok (entity.remove field)
  | some (some raw) =>
    if Text.trim raw.toList = [] then .ok (entity.remove field)
    else (parseIso8601Date env raw field).map fun date => entity.set field (.string date)

def UpdateTask.applyTo (cmd : UpdateTask) (entity : Entity) : Except BoardError Entity := do
  let entity := setString entity "title" cmd.title
  let entity := setString entity "body" cmd.description
  let entity := cmd.assignees.elim entity fun ids => entity.set "assignees" (.ofStrings ids)
  let entity := cmd.dependsOn.elim entity fun ids => entity.set "depends_on" (.ofStrings ids)
  let entity := cmd.attachments.elim entity fun value => entity.set "attachments" value
  let entity := setString entity "project" cmd.project
  let entity ← applyOptionalDate env entity "due" cmd.due
  applyOptionalDate env entity "scheduled" cmd.scheduled

def UpdateTask.buildEntity (cmd : UpdateTask) : Except BoardError Entity := do
  let entity ← readTask env b cmd.id
  let entity ← cmd.applyTo env entity
  match cmd.tags with
  | none => .ok entity
  | some refs => applyTagRefs env b.listTags entity refs .replace

def UpdateTask.execute (cmd : UpdateTask) : Except BoardError (BoardStore × Json) := do
  let entity ← cmd.buildEntity env b
  let b ← persist env draws b entity
  .ok (b, taskMutationAck entity)

def dropDependency (id : String) (b : BoardStore) (t : Entity) : Except BoardError BoardStore :=
  let deps := t.getStringList "depends_on"
  if t.id ≠ id ∧ id ∈ deps then
    (b.writeTask env.files
      (t.set "depends_on" (.ofStrings (deps.filter fun d => d ≠ id)))).mapError .entity
  else .ok b

def dropDependencies (id : String) : Except BoardError BoardStore :=
  (b.listTasks.map (readFields env.files)).foldlM (dropDependency env id) b

def deleteTask (id : String) : Except BoardError (BoardStore × Json) := do
  let entity ← readTask env b id
  let b ← dropDependencies env b id
  .ok ({ b with tasks := b.tasks.shiftRemove id }, flaggedAck entity "deleted")

def archiveTask (id : String) : Except BoardError (BoardStore × Json) := do
  let entity ← readTask env b id
  let b ← dropDependencies env b id
  match b.tasks.get? id with
  | none => .error (.taskNotFound id)
  | some fields =>
    .ok ({ b with tasks := b.tasks.shiftRemove id, archived := (id, fields) :: b.archived },
      flaggedAck entity "archived")

/-- The archived version that `unarchive_latest` restores. -/
def archivedTask (id : String) : Option (String × Fields) := b.archived.find? fun a => a.1 = id

def unarchiveTask (id : String) : Except BoardError (BoardStore × Json) :=
  match archivedTask b id with
  | none => .error (.notArchived id)
  | some a => do
    let b := { b with
      tasks := b.tasks.insert id a.2
      archived := b.archived.eraseP fun a => a.1 = id }
    let entity ← readTask env b id
    .ok (b, flaggedAck entity "unarchived")

end

end SwissArmyHammer.Kanban

/-! Adding, renaming, pasting and deleting a tag. -/

namespace SwissArmyHammer.Kanban

open Entities

inductive TagError
  | board (e : BoardError)
  | entityNotFound (entityType id : String)

def computedTags (b : BoardStore) (task : Entity) : List Slug :=
  (parseTags (entityBody task)).filter (tagNameExists b)

def tagEntityToJson (tag : Entity) : Json :=
  .object [("id", .string tag.id), ("name", .string ((tag.getStr "tag_name").getD "")),
    ("description", .string ((tag.getStr "description").getD "")),
    ("color", .string ((tag.getStr "color").getD ""))]

structure AddTag where
  name : String
  color : Option String
  description : Option String

structure UpdateTag where
  id : String
  name : Option String
  color : Option String
  description : Option String

structure ClipboardData where
  entityType : String
  fields : Json

structure PasteTag where
  taskId : String
  clipboard : Option ClipboardData

section

variable (env : Env)

def writeBoardTag (entity : Entity) (b : BoardStore) : Except TagError Json × BoardStore :=
  match b.writeTag env.files entity with
  | .error e => (.error (.board (.entity e)), b)
  | .ok b => (.ok (tagEntityToJson entity), b)

def AddTag.execute (cmd : AddTag) (tagId : String) (b : BoardStore) :
    Except TagError Json × BoardStore :=
  match findTagByName b cmd.name.toList with
  | some existing => (.ok (tagEntityToJson existing), b)
  | none =>
    let color := cmd.color.getD (autoColor cmd.name.toList)
    writeBoardTag env
      (setString (newTag tagId cmd.name.toList color) "description" cmd.description) b

def editBody (edit : List Char → List Char) (b : BoardStore) (task : Entity) :
    Except BoardError BoardStore :=
  let newBody := edit (entityBody task)
  if newBody = entityBody task then .ok b
  else
    (b.writeTask env.files (task.set "body" (.string (String.ofList newBody)))).mapError .entity

def editBodies (edit : List Char → List Char) :
    List Entity → BoardStore → Except BoardError Unit × BoardStore
  | [], b => (.ok (), b)
  | task :: rest, b =>
    match editBody env edit b task with
    | .error e => (.error e, b)
    | .ok b => editBodies edit rest b

def applyTagEditToAllTasks (edit : List Char → List Char) (b : BoardStore) :
    Except BoardError Unit × BoardStore :=
  editBodies env edit (b.listTasks.map (readFields env.files)) b

def UpdateTag.rename (cmd : UpdateTag) (entity : Entity) (b : BoardStore) :
    Except TagError Entity × BoardStore :=
  match cmd.name with
  | none => (.ok entity, b)
  | some name =>
    let normalized := normalizeSlug name.toList
    if normalized = tagName entity then (.ok entity, b)
    else if (findTagByName b normalized).any fun existing => existing.id ≠ cmd.id then
      (.error (.board (.duplicateId "tag" (String.ofList normalized))), b)
    else
      match applyTagEditToAllTasks env (renameTag · (slugOf entity) normalized) b with
      | (.error e, b) => (.error (.board e), b)
      | (.ok _, b) => (.ok (entity.set "tag_name" (.string (String.ofList normalized))), b)

def UpdateTag.execute (cmd : UpdateTag) (b : BoardStore) : Except TagError Json × BoardStore :=
  match b.tag? cmd.id with
  | none => (.error (.board (.tagNotFound cmd.id)), b)
  | some stored =>
    match cmd.rename env stored b with
    | (.error e, b) => (.error e, b)
    | (.ok entity, b) =>
      writeBoardTag env (setString (setString entity "color" cmd.color) "description"
        cmd.description) b

def deleteTag (id : String) (b : BoardStore) : Except TagError Json × BoardStore :=
  match b.tag? id with
  | none => (.error (.board (.tagNotFound id)), b)
  | some tag =>
    match applyTagEditToAllTasks env (removeTag · (slugOf tag)) b with
    | (.error e, b) => (.error (.board e), b)
    | (.ok _, b) =>
      (.ok (.object [("deleted", .bool true), ("id", .string id),
          ("name", .string (String.ofList (tagName tag)))]),
        { b with tags := b.tags.shiftRemove id })

def clipboardString (data : ClipboardData) (field : String) : Option String :=
  (data.fields.getKey field).bind Json.asStr

def PasteTag.mint (data : ClipboardData) (slug : Slug) (tagId : String) (b : BoardStore) :
    Except TagError BoardStore :=
  if tagNameExists b slug then .ok b
  else
    let color := (clipboardString data "color").getD (autoColor slug)
    ((b.writeTag env.files (setString (newTag tagId slug color) "description"
      (clipboardString data "description"))).mapError .entity).mapError .board

def PasteTag.append (taskId : String) (slug : Slug) (b : BoardStore) :
    Except TagError Json × BoardStore :=
  match b.task? taskId with
  | none => (.error (.entityNotFound "task" taskId), b)
  | some stored =>
    let task := readFields env.files stored
    let newBody := appendTag (entityBody task) slug
    match b.writeTask env.files (task.set "body" (.string (String.ofList newBody))) with
    | .error e => (.error (.board (.entity e)), b)
    | .ok b =>
      (.ok (.object [("pasted", .bool true), ("task_id", .string taskId),
        ("tag", .string (String.ofList slug))]), b)

def PasteTag.execute (cmd : PasteTag) (tagId : String) (b : BoardStore) :
    Except TagError Json × BoardStore :=
  match cmd.clipboard with
  | none => (.error (.board (.invalidValue "clipboard" "invalid clipboard data")), b)
  | some data =>
    if data.entityType ≠ "tag" then
      (.error (.board (.invalidValue "clipboard"
        ("expected tag on clipboard, got '" ++ data.entityType ++ "'"))), b)
    else
      match clipboardString data "tag_name" with
      | none =>
        (.error (.board (.invalidValue "clipboard" "clipboard tag has no tag_name field")), b)
      | some name =>
        let slug := normalizeSlug name.toList
        match b.task? cmd.taskId with
        | none => (.error (.entityNotFound "task" cmd.taskId), b)
        | some task =>
          if slug ∈ computedTags b task then
            (.ok (.object [("pasted", .bool false), ("already_tagged", .bool true),
              ("task_id", .string cmd.taskId), ("tag", .string (String.ofList slug))]), b)
          else
            match PasteTag.mint env data slug tagId b with
            | .error e => (.error e, b)
            | .ok b => PasteTag.append env cmd.taskId slug b

end

inductive TagOp
  | addTag (cmd : AddTag) (tagId : String)
  | updateTag (id name : String) (color description : Option String)
  | addTask (cmd : AddTask) (draws : Draws)
  | updateTask (cmd : UpdateTask) (draws : Draws)
  | pasteTag (cmd : PasteTag) (tagId : String)
  | deleteTag (id : String)

def TagOp.run (env : Env) (b : BoardStore) : TagOp → Except TagError Json × BoardStore
  | .addTag cmd tagId => cmd.execute env tagId b
  | .updateTag id name color description =>
    UpdateTag.execute env ⟨id, some name, color, description⟩ b
  | .addTask cmd draws =>
    match cmd.execute env draws b with
    | .error e => (.error (.board e), b)
    | .ok (b, out) => (.ok out, b)
  | .updateTask cmd draws =>
    match cmd.execute env draws b with
    | .error e => (.error (.board e), b)
    | .ok (b, out) => (.ok out, b)
  | .pasteTag cmd tagId => cmd.execute env tagId b
  | .deleteTag id => Kanban.deleteTag env id b

def TagOp.Step (env : Env) (b : BoardStore) (op : TagOp) (b' : BoardStore) : Prop :=
  b' = (op.run env b).2

end SwissArmyHammer.Kanban
