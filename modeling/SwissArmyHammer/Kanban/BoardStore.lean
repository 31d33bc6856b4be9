import SwissArmyHammer.Common.Folds
import SwissArmyHammer.Common.IndexMap
import SwissArmyHammer.Kanban.TaskHelpers
import SwissArmyHammer.Text.Lines

/-! The entities of a board as they are stored, and the path on which every command writes them:
computed fields are stripped, defaults set, attachments stored and references pruned. -/

namespace SwissArmyHammer.Kanban

open Entities

inductive FieldType
  | plain
  | computed
  | attachment
  | reference (entity : String) (multiple : Bool)
  deriving DecidableEq

structure FieldDef where
  name : String
  type : FieldType
  default : Option Json
  validate : Option (Json → Except String Json)

def FieldDef.of (name : String) (type : FieldType) : FieldDef := ⟨name, type, none, none⟩

def isJsWhitespace (c : Char) : Bool :=
  let n := c.toNat
  (9 ≤ n && n ≤ 13) || n = 32 || n = 160 || n = 5760 || (8192 ≤ n && n ≤ 8202) ||
    n = 8232 || n = 8233 || n = 8239 || n = 8287 || n = 12288 || n = 65279

def jsTrim (s : List Char) : List Char := (s.dropWhile isJsWhitespace).rdropWhile isJsWhitespace

def replaceSpaces (inRun : Bool) : List Char → List Char
  | [] => []
  | c :: rest =>
    if c = ' ' then (if inRun then [] else ['_']) ++ replaceSpaces true rest
    else c :: replaceSpaces false rest

/-- The script of the field `tag_name`. -/
def validateTagName : Json → Except String Json
  | .string value =>
    let v := (replaceSpaces false (jsTrim value.toList)).filter (· ≠ Char.ofNat 0)
    if v = [] then .error "tag_name cannot be empty" else .ok (.string (String.ofList v))
  | _ => .error "not a function"

def taskFields : List FieldDef :=
  [⟨"title", .plain, some (.string "Untitled"), none⟩, .of "tags" .computed,
    .of "assignees" (.reference "actor" true), .of "project" (.reference "project" false),
    .of "depends_on" (.reference "task" true), ⟨"body", .plain, some (.string ""), none⟩,
    .of "position_column" (.reference "column" false), .of "position_ordinal" .plain,
    .of "attachments" .attachment, .of "comments" .plain, .of "virtual_tags" .computed,
    .of "filter_tags" .computed, .of "due" .plain, .of "scheduled" .plain,
    .of "created" .computed, .of "updated" .computed, .of "started" .computed,
    .of "completed" .computed, .of "status_date" .computed, .of "progress" .computed]

def tagFields : List FieldDef :=
  [⟨"tag_name", .plain, some (.string "new-tag"), some validateTagName⟩, .of "color" .plain,
    .of "description" .plain]

/-- The files of a board. The id of an entity is the name of its file; the archive holds what was
archived last first. -/
structure BoardStore where
  tasks : IndexMap String Fields
  archived : List (String × Fields)
  tags : IndexMap String Fields
  columns : IndexMap String Fields
  actors : IndexMap String Fields
  projects : IndexMap String Fields

namespace BoardStore

variable (b : BoardStore)

def entities (entityType : String) : IndexMap String Fields :=
  if entityType = "task" then b.tasks
  else if entityType = "tag" then b.tags
  else if entityType = "actor" then b.actors
  else if entityType = "column" then b.columns
  else if entityType = "project" then b.projects
  else .empty

def known (entityType id : String) : Bool := ((b.entities entityType).get? id).isSome

def task? (id : String) : Option Entity := (b.tasks.get? id).map (Entity.mk "task" id)

def listTasks : List Entity := b.tasks.entries.map fun e => ⟨"task", e.1, e.2⟩

def tag? (id : String) : Option Entity := (b.tags.get? id).map (Entity.mk "tag" id)

def listTags : List Entity := b.tags.entries.map fun e => ⟨"tag", e.1, e.2⟩

def listColumns : List Entity := b.columns.entries.map fun e => ⟨"column", e.1, e.2⟩

end BoardStore

inductive WriteError
  | validationFailed (field message : String)
  | attachmentNotFound (field filename : String)
  | attachmentTooLarge (field : String) (size maxBytes : Nat)
  deriving DecidableEq

/-- The directory of attachments: what a field is read as, and what is stored of it. -/
structure Attachments where
  enrich : Json → Json
  resolve : Json → Except WriteError Json

section

variable (files : Attachments) (b : BoardStore)

def pruneReferences (isKnown : String → Bool) : Json → Json
  | .array elems => .array (elems.filter fun v => v.asStr.any isKnown)
  | .null => .array []
  | value => value

def pruneReference (isKnown : String → Bool) (value : Json) : Json :=
  match value.asStr with
  | some id => if isKnown id then value else .null
  | none => value

def checkField (fd : FieldDef) (value : Json) : Except String Json :=
  match fd.validate with
  | some validate => validate value
  | none =>
    match fd.type with
    | .reference entity true => .ok (pruneReferences (b.known entity) value)
    | .reference entity false => .ok (pruneReference (b.known entity) value)
    | _ => .ok value

def stripComputed (entity : Entity) (fd : FieldDef) : Except WriteError Entity :=
  .ok (if fd.type = .computed then entity.remove fd.name else entity)

def applyDefault (entity : Entity) (fd : FieldDef) : Except WriteError Entity :=
  .ok (if fd.type = .computed then entity
    else
      match entity.get fd.name, fd.default with
      | none, some default => entity.set fd.name default
      | _, _ => entity)

def processAttachmentField (entity : Entity) (fd : FieldDef) : Except WriteError Entity :=
  if fd.type = .attachment then
    match entity.get fd.name with
    | none | some .null => .ok entity
    | some value => (files.resolve value).map (entity.set fd.name)
  else .ok entity

def validateField (entity : Entity) (fd : FieldDef) : Except WriteError Entity :=
  if fd.type = .computed then .ok entity
  else
    match entity.get fd.name with
    | none => .ok entity
    | some value =>
      match checkField b fd value with
      | .ok value => .ok (entity.set fd.name value)
      | .error message => .error (.validationFailed fd.name message)

def validateForWrite (fields : List FieldDef) (entity : Entity) : Except WriteError Entity := do
  let entity ← fields.foldlM stripComputed entity
  let entity ← fields.foldlM applyDefault entity
  let entity ← fields.foldlM (processAttachmentField files) entity
  fields.foldlM (validateField b) entity

def BoardStore.writeTask (entity : Entity) : Except WriteError BoardStore :=
  (validateForWrite files b taskFields entity).map fun entity =>
    { b with tasks := b.tasks.insert entity.id entity.fields }

def BoardStore.writeTag (entity : Entity) : Except WriteError BoardStore :=
  (validateForWrite files b tagFields entity).map fun entity =>
    { b with tags := b.tags.insert entity.id entity.fields }

/-- Computed fields are derived on reading and stripped on writing; of what a command reads, only
the attachments differ from what is stored. -/
def readFields (entity : Entity) : Entity :=
  match entity.get "attachments" with
  | none | some .null => entity
  | some value => entity.set "attachments" (files.enrich value)

end

section

variable {ε : Type} {step : Entity → FieldDef → Except ε Entity}
  {value : FieldDef → Option Json → Except ε (Option Json)} {fields : List FieldDef}
  {e e' : Entity}

structure Pointwise (step : Entity → FieldDef → Except ε Entity)
    (value : FieldDef → Option Json → Except ε (Option Json)) : Prop where
  id : ∀ {e fd e'}, step e fd = .ok e' → e'.id = e.id
  field : ∀ {e fd e'}, step e fd = .ok e' → value fd (e.get fd.name) = .ok (e'.get fd.name)
  other : ∀ {e fd e'} {name : String}, step e fd = .ok e' → name ≠ fd.name →
    e'.get name = e.get name

theorem Pointwise.foldlM (h : Pointwise step value) (hnames : (fields.map FieldDef.name).Nodup)
    (hrun : fields.foldlM step e = .ok e') :
    e'.id = e.id ∧ (∀ fd ∈ fields, value fd (e.get fd.name) = .ok (e'.get fd.name)) ∧
      ∀ name ∉ fields.map FieldDef.name, e'.get name = e.get name := by
  induction fields generalizing e with
  | nil =>
    obtain rfl : e = e' := Except.ok.inj hrun
    exact ⟨rfl, fun _ hfd => absurd hfd List.not_mem_nil, fun _ _ => rfl⟩
  | cons fd fields ih =>
    obtain ⟨hnot, hrest⟩ := List.nodup_cons.mp hnames
    obtain ⟨e₁, hstep, hrun⟩ := exists_of_bind hrun
    obtain ⟨hid, hfields, hothers⟩ := ih hrest hrun
    refine ⟨hid.trans (h.id hstep), fun fd' hfd' => ?_, fun name hname => ?_⟩
    · rcases List.mem_cons.mp hfd' with rfl | hfd'
      · rw [hothers _ hnot]
        exact h.field hstep
      · have hne : fd'.name ≠ fd.name := fun heq =>
          hnot (heq ▸ List.mem_map.mpr ⟨fd', hfd', rfl⟩)
        rw [← h.other hstep hne]
        exact hfields fd' hfd'
    · rw [List.map_cons, List.mem_cons, not_or] at hname
      rw [hothers name hname.2, h.other hstep hname.1]

theorem Pointwise.of_cases (h : ∀ {e fd e'}, step e fd = .ok e' →
    (e' = e ∧ value fd (e.get fd.name) = .ok (e.get fd.name)) ∨
      ∃ v, e' = e.set fd.name v ∧ value fd (e.get fd.name) = .ok (some v)) :
    Pointwise step value := by
  constructor
  · intro e fd e' hstep
    obtain ⟨rfl, -⟩ | ⟨v, rfl, -⟩ := h hstep
    · rfl
    · rfl
  · intro e fd e' hstep
    obtain ⟨rfl, hv⟩ | ⟨v, rfl, hv⟩ := h hstep
    · exact hv
    · rw [hv, Entity.get_set_self]
  · intro e fd e' name hstep hne
    obtain ⟨rfl, -⟩ | ⟨v, rfl, -⟩ := h hstep
    · rfl
    · exact Entity.get_set_of_ne hne e v

end

section

variable {files : Attachments} {b : BoardStore} {fields : List FieldDef} {fd : FieldDef}
  {e e' : Entity} {v : Option Json}

def strippedValue (fd : FieldDef) (v : Option Json) : Except WriteError (Option Json) :=
  .ok (if fd.type = .computed then none else v)

def defaultedValue (fd : FieldDef) (v : Option Json) : Except WriteError (Option Json) :=
  .ok (if fd.type = .computed then v else v.or fd.default)

def attachedValue (files : Attachments) (fd : FieldDef) (v : Option Json) :
    Except WriteError (Option Json) :=
  if fd.type = .attachment then
    match v with
    | none => .ok none
    | some .null => .ok (some .null)
    | some value => (files.resolve value).map some
  else .ok v

def checkedValue (b : BoardStore) (fd : FieldDef) (v : Option Json) :
    Except WriteError (Option Json) :=
  if fd.type = .computed then .ok v
  else
    match v with
    | none => .ok none
    | some value =>
      match checkField b fd value with
      | .ok value => .ok (some value)
      | .error message => .error (.validationFailed fd.name message)

def storedValue (files : Attachments) (b : BoardStore) (fd : FieldDef) (v : Option Json) :
    Except WriteError (Option Json) := do
  let v ← strippedValue fd v
  let v ← defaultedValue fd v
  let v ← attachedValue files fd v
  checkedValue b fd v

theorem get_remove (e : Entity) (field name : String) :
    (e.remove field).get name = if name = field then none else e.get name := by
  by_cases h : name = field
  · simp [Entity.get, Entity.remove, h]
  · simp [Entity.get, Entity.remove, Std.ExtTreeMap.getElem?_erase, h, Ne.symm h]

theorem pointwise_stripComputed : Pointwise stripComputed strippedValue := by
  constructor
  · intro e fd e' h
    obtain rfl := Except.ok.inj h
    split
    · rfl
    · rfl
  · intro e fd e' h
    obtain rfl := Except.ok.inj h
    by_cases hc : fd.type = .computed
    · simp [strippedValue, hc, get_remove]
    · simp [strippedValue, hc]
  · intro e fd e' name h hne
    obtain rfl := Except.ok.inj h
    split
    · rw [get_remove, if_neg hne]
    · rfl

theorem pointwise_applyDefault : Pointwise applyDefault defaultedValue := by
  refine .of_cases fun {e fd e'} h => ?_
  obtain rfl := Except.ok.inj h
  by_cases hc : fd.type = .computed
  · exact .inl ⟨by rw [if_pos hc], by rw [defaultedValue, if_pos hc]⟩
  · rw [if_neg hc, defaultedValue, if_neg hc]
    cases hv : e.get fd.name with
    | some value => exact .inl ⟨rfl, rfl⟩
    | none =>
      cases fd.default with
      | none => exact .inl ⟨rfl, rfl⟩
      | some default => exact .inr ⟨default, rfl, rfl⟩

theorem pointwise_processAttachmentField (files : Attachments) :
    Pointwise (processAttachmentField files) (attachedValue files) := by
  refine .of_cases fun {e fd e'} h => ?_
  rw [processAttachmentField] at h
  unfold attachedValue
  split at h
  · rename_i ha
    rw [if_pos ha]
    split at h
    · rename_i hv
      exact .inl ⟨(Except.ok.inj h).symm, by rw [hv]⟩
    · rename_i hv
      exact .inl ⟨(Except.ok.inj h).symm, by rw [hv]⟩
    · rename_i value hnull hv
      cases hr : files.resolve value with
      | error err =>
        rw [hr] at h
        cases h
      | ok stored =>
        rw [hr] at h
        exact .inr ⟨stored, (Except.ok.inj h).symm, rfl⟩
  · grind

theorem pointwise_validateField (b : BoardStore) :
    Pointwise (validateField b) (checkedValue b) := by
  refine .of_cases fun {e fd e'} h => ?_
  rw [validateField] at h
  unfold checkedValue
  split at h
  · grind
  · rename_i hc
    rw [if_neg hc]
    split at h
    · rename_i hv
      exact .inl ⟨(Except.ok.inj h).symm, by rw [hv]⟩
    · split at h
      · rename_i stored hs
        exact .inr ⟨stored, (Except.ok.inj h).symm, rfl⟩
      · cases h

structure Written (files : Attachments) (b : BoardStore) (fields : List FieldDef) (e e' : Entity) :
    Prop where
  id : e'.id = e.id
  field : ∀ fd ∈ fields, storedValue files b fd (e.get fd.name) = .ok (e'.get fd.name)
  other : ∀ name ∉ fields.map FieldDef.name, e'.get name = e.get name

theorem written_validateForWrite (hnames : (fields.map FieldDef.name).Nodup)
    (h : validateForWrite files b fields e = .ok e') : Written files b fields e e' := by
  obtain ⟨e₁, h₁, h⟩ := exists_of_bind h
  obtain ⟨e₂, h₂, h⟩ := exists_of_bind h
  obtain ⟨e₃, h₃, h⟩ := exists_of_bind h
  have hstrip := pointwise_stripComputed.foldlM hnames h₁
  have hdefault := pointwise_applyDefault.foldlM hnames h₂
  have hattach := (pointwise_processAttachmentField files).foldlM hnames h₃
  have hcheck := (pointwise_validateField b).foldlM hnames h
  refine ⟨?_, fun fd hfd => ?_, fun name hname => ?_⟩
  · rw [hcheck.1, hattach.1, hdefault.1, hstrip.1]
  · simp only [storedValue, hstrip.2.1 fd hfd, hdefault.2.1 fd hfd, hattach.2.1 fd hfd,
      hcheck.2.1 fd hfd, bind, Except.bind]
  · rw [hcheck.2.2 name hname, hattach.2.2 name hname, hdefault.2.2 name hname,
      hstrip.2.2 name hname]

theorem storedValue_plain (files : Attachments) (b : BoardStore) (name : String)
    (default value : Option Json) :
    storedValue files b ⟨name, .plain, default, none⟩ value = .ok (value.or default) := by
  cases value with
  | none => cases default <;> rfl
  | some value => rfl

theorem get_readFields {name : String} (h : name ≠ "attachments") :
    (readFields files e).get name = e.get name := by
  unfold readFields
  split
  · rfl
  · rfl
  · exact Entity.get_set_of_ne h e _

end

end SwissArmyHammer.Kanban
