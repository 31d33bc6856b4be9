import SwissArmyHammer.Kanban.Dependencies
import SwissArmyHammer.Kanban.MoveOrder

/-! Moving or copying a task to another board. -/

namespace SwissArmyHammer.Kanban

open Entities

/-- The arguments of `transfer_task`, with the id that the new task draws. -/
structure Transfer where
  taskId : String
  newId : String
  targetColumn : String
  dropIndex : Option Nat
  beforeId : Option String
  afterId : Option String
  copyMode : Bool

structure Boards where
  source : BoardStore
  target : BoardStore

inductive TransferError
  | readSource
  | listTarget
  | writeTarget (e : Option WriteError)
  | deleteSource

/-- The calls of the two stores that fail with an I/O error, which leaves their files alone. -/
structure Failures where
  list : Bool
  write : Bool
  delete : Bool

section

variable (F : FractionalIndex)

def rawOrdinalOr (default : String) (t : Entity) : String :=
  (t.getStr "position_ordinal").getD default

def columnByOrdinal (default : String) (tasks : List Entity) (column : String) : List Entity :=
  (tasks.filter (inColumn column)).mergeSort fun a b =>
    decide (rawOrdinalOr default a ≤ rawOrdinalOr default b)

def laterInColumn (last : Option (Ordinal F)) (t : Entity) : Option (Ordinal F) :=
  let ord : Ordinal F := .fromString (rawOrdinalOr "a0" t)
  match last with
  | none => some ord
  | some o => if ord.cmp o = .gt then some ord else some o

def lastInColumn (tasks : List Entity) (column : String) : Option (Ordinal F) :=
  tasks.foldl (fun last t => if inColumn column t then laterInColumn F last t else last) none

def Transfer.ordinal (cmd : Transfer) (tasks : List Entity) : Ordinal F :=
  match cmd.beforeId, cmd.afterId, cmd.dropIndex with
  | some refId, _, _ =>
    ordinalBefore F (columnByOrdinal Ordinal.defaultStr tasks cmd.targetColumn) refId
  | none, some refId, _ =>
    ordinalAfter F (columnByOrdinal Ordinal.defaultStr tasks cmd.targetColumn) refId
  | none, none, some index =>
    computeOrdinalForDrop F (columnByOrdinal "a0" tasks cmd.targetColumn) index
  | none, none, none =>
    match lastInColumn F tasks cmd.targetColumn with
    | some last => .after last
    | none => .first

end

def copyFields : List String :=
  ["title", "body", "assignees", "depends_on", "priority", "estimate", "due_date", "color"]

def copyField (source task : Entity) (field : String) : Entity :=
  match source.get field with
  | some value => task.set field value
  | none => task

def copyTags (tags : Option Json) (targetTags : List String) (task : Entity) : Entity :=
  match tags with
  | some (.array elems) =>
    let filtered := elems.filter fun t => t.asStr.any fun s => s ∈ targetTags
    if filtered = [] then task else task.set "tags" (.array filtered)
  | _ => task

section

variable (F : FractionalIndex) (sourceFiles targetFiles : Attachments)
  (deriveTags : Entity → Option Json) (failures : Failures)

def Transfer.buildTask (cmd : Transfer) (sourceTask : Entity) (target : BoardStore) : Entity :=
  let copied := copyFields.foldl (copyField sourceTask) (.new "task" cmd.newId)
  let targetTags := target.listTags.filterMap fun t => t.getStr "tag_name"
  setPosition (copyTags (deriveTags sourceTask) targetTags copied) cmd.targetColumn
    (cmd.ordinal F target.listTasks).strRepr

def Transfer.ack (cmd : Transfer) : Json :=
  .object [("id", .string cmd.newId), ("source_id", .string cmd.taskId),
    ("transferred", .bool (!cmd.copyMode)), ("copied", .bool cmd.copyMode)]

def Transfer.execute (cmd : Transfer) (boards : Boards) : Except TransferError Json × Boards :=
  match boards.source.task? cmd.taskId with
  | none => (.error .readSource, boards)
  | some stored =>
    if failures.list then (.error .listTarget, boards)
    else
      let task := cmd.buildTask F deriveTags (readFields sourceFiles stored) boards.target
      match boards.target.writeTask targetFiles task with
      | .error e => (.error (.writeTarget (some e)), boards)
      | .ok target =>
        if failures.write then (.error (.writeTarget none), boards)
        else if cmd.copyMode then (.ok cmd.ack, ⟨boards.source, target⟩)
        else if failures.delete then (.error .deleteSource, ⟨boards.source, target⟩)
        else
          (.ok cmd.ack,
            ⟨{ boards.source with tasks := boards.source.tasks.shiftRemove cmd.taskId }, target⟩)

end

end SwissArmyHammer.Kanban

/-! A moved task lands on the other board where it was asked to, with the fields that the copy
list names. -/

namespace SwissArmyHammer.Kanban

open Entities

def movedFields : List String := ["title", "body", "attachments", "comments", "due", "scheduled"]

def Transfer.placement (cmd : Transfer) : Placement :=
  match cmd.beforeId, cmd.afterId, cmd.dropIndex with
  | some refId, _, _ => .before refId
  | none, some refId, _ => .after refId
  | none, none, some index => .drop index
  | none, none, none => .last

/-- Every task of the column has an ordinal, the text of a key, and they are pairwise distinct. -/
structure OrdinalsOk (F : FractionalIndex) (tasks : List Entity) (column : String) : Prop where
  stored : ∀ t ∈ tasks, inColumn column t = true →
    ∃ s, t.getStr "position_ordinal" = some s ∧ Canonical F s
  distinct : (tasks.filter (inColumn column)).Pairwise fun a b => rawOrdinal a ≠ rawOrdinal b

/-- After a success the target board has one more task, in its place and with the fields of the
source task, which is gone; after an error neither board has changed. -/
def Transfer.Keeps (cmd : Transfer) (boards boards' : Boards) :
    Except TransferError Json → Prop
  | .ok _ => boards'.source.task? cmd.taskId = none ∧ ∃ old moved : Entity,
      boards.source.task? cmd.taskId = some old ∧
      boards'.target.listTasks = boards.target.listTasks ++ [moved] ∧
      inColumn cmd.targetColumn moved = true ∧
      (∀ field ∈ movedFields, moved.get field = old.get field) ∧
      ∀ listed : List Entity, listed.Perm boards'.target.listTasks →
        sortByOrdinal (listed.filter (inColumn cmd.targetColumn)) = cmd.placement.place moved
          (sortByOrdinal (boards.target.listTasks.filter (inColumn cmd.targetColumn)))
  | .error _ => boards'.source.task? cmd.taskId = boards.source.task? cmd.taskId ∧
      boards'.target.listTasks = boards.target.listTasks

/-- The task has no field that the copy list lacks, and the old one can be deleted. -/
def Transfer.Meets (failures : Failures) (old : Entity) : Prop :=
  failures.list = true ∨ failures.write = true ∨ failures.delete = false ∧
    old.get "title" ≠ none ∧ old.get "body" ≠ none ∧
      ∀ field ∈ ["attachments", "comments", "due", "scheduled"], old.get field = none

section

variable {F : FractionalIndex} {tasks : List Entity} {column refId : String} {moved : Entity}
  {others : List Entity}

theorem OrdinalsOk.rawOrdinalOr_eq (hok : OrdinalsOk F tasks column) (default : String) {t : Entity}
    (ht : t ∈ tasks) (hcol : inColumn column t = true) :
    rawOrdinalOr default t = rawOrdinal t := by
  obtain ⟨s, hs, -⟩ := hok.stored t ht hcol
  rw [rawOrdinalOr, rawOrdinal, hs]
  rfl

theorem OrdinalsOk.columnOk (hok : OrdinalsOk F tasks column) : ColumnOk F tasks column where
  canonical t ht hcol := by
    obtain ⟨s, hs, hcanon⟩ := hok.stored t ht hcol
    rw [rawOrdinal, hs]
    exact hcanon
  distinct := hok.distinct

theorem OrdinalsOk.columnByOrdinal_eq (hok : OrdinalsOk F tasks column) (default : String) :
    columnByOrdinal default tasks column = sortByOrdinal (tasks.filter (inColumn column)) := by
  have hperm : (columnByOrdinal default tasks column).Perm (tasks.filter (inColumn column)) :=
    List.mergeSort_perm _ _
  have hraw : ∀ t ∈ columnByOrdinal default tasks column,
      rawOrdinalOr default t = rawOrdinal t := by
    intro t ht
    obtain ⟨hmem, hcol⟩ := List.mem_filter.mp (hperm.mem_iff.mp ht)
    exact hok.rawOrdinalOr_eq default hmem hcol
  have hsorted : (columnByOrdinal default tasks column).Pairwise fun a b =>
      rawOrdinalOr default a ≤ rawOrdinalOr default b := pairwise_mergeSort_value _ _
  have hdistinct : (columnByOrdinal default tasks column).Pairwise fun a b =>
      rawOrdinal a ≠ rawOrdinal b := hok.distinct.perm hperm.symm fun hab => hab.symm
  have hordered : Ordered (columnByOrdinal default tasks column) := by
    refine List.Pairwise.imp_of_mem ?_ (hsorted.and hdistinct)
    intro a b ha hb hab
    have hle := hab.1
    rw [hraw a ha, hraw b hb] at hle
    exact lt_of_le_of_ne hle hab.2
  exact (sortByOrdinal_eq hperm.symm hordered).symm

theorem insertBefore_of_not_mem (h : ∀ t ∈ others, t.id ≠ refId) :
    insertBefore refId moved others = others ++ [moved] := by
  induction others with
  | nil => rfl
  | cons t others ih =>
    obtain ⟨ht, hrest⟩ := List.forall_mem_cons.mp h
    rw [insertBefore, if_neg ht, ih hrest]
    rfl

theorem insertAfter_of_not_mem (h : ∀ t ∈ others, t.id ≠ refId) :
    insertAfter refId moved others = others ++ [moved] := by
  induction others with
  | nil => rfl
  | cons t others ih =>
    obtain ⟨ht, hrest⟩ := List.forall_mem_cons.mp h
    rw [insertAfter, if_neg ht, ih hrest]
    rfl

theorem findIdx?_of_not_mem (h : ∀ t ∈ others, t.id ≠ refId) :
    (others.findIdx? fun t => t.id = refId) = none := by grind

theorem loadSorted_fresh {id : String} (hfresh : ∀ t ∈ tasks, t.id ≠ id) :
    loadSortedColumnTasks tasks column id = sortByOrdinal (tasks.filter (inColumn column)) := by
  rw [loadSortedColumnTasks, filter_other, List.filter_eq_self.mpr]
  intro t ht
  exact decide_eq_true (hfresh t (List.mem_filter.mp ht).1)

theorem OrdinalsOk.lastInColumn_eq (hok : OrdinalsOk F tasks column) {id : String}
    (hfresh : ∀ t ∈ tasks, t.id ≠ id) :
    lastInColumn F tasks column = lastOrdinal F (tasks.filter (inColumn column)) column id := by
  rw [lastInColumn, ← List.foldl_filter]
  apply List.foldl_ext
  intro last t ht
  obtain ⟨hmem, hcol⟩ := List.mem_filter.mp ht
  have hname : (t.getStr "position_column").getD "" = column := by
    rw [of_decide_eq_true hcol]
    rfl
  have hord : Ordinal.fromString (rawOrdinalOr "a0" t) = taskOrdinal F t := by
    rw [taskOrdinal, hok.rawOrdinalOr_eq "a0" hmem hcol]
  unfold laterOrdinal
  rw [if_neg (hfresh t hmem), if_pos hname]
  cases last with
  | none => exact congrArg some hord
  | some o =>
    exact congrArg (fun ord : Ordinal F =>
      if ord.cmp o = Ordering.gt then some ord else some o) hord

variable [LinearOrder F.Key]

theorem transferOrdinal_separates (hF : F.Contract) (cmd : Transfer)
    (hok : OrdinalsOk F tasks cmd.targetColumn) (hfresh : ∀ t ∈ tasks, t.id ≠ cmd.newId) :
    ∃ left right,
      sortByOrdinal (tasks.filter (inColumn cmd.targetColumn)) = left ++ right ∧
      (∀ moved, cmd.placement.place moved
        (sortByOrdinal (tasks.filter (inColumn cmd.targetColumn))) = left ++ moved :: right) ∧
      Separates (cmd.ordinal F tasks) left right := by
  set sorted := sortByOrdinal (tasks.filter (inColumn cmd.targetColumn)) with hsorted
  have hload : loadSortedColumnTasks tasks cmd.targetColumn cmd.newId = sorted :=
    loadSorted_fresh hfresh
  have hordered : Ordered sorted := ordered_sortByOrdinal hok.distinct
  have hcanon : ∀ t ∈ sorted, Canonical F (rawOrdinal t) := by
    intro t ht
    obtain ⟨hmem, hcol⟩ := List.mem_filter.mp ((sortByOrdinal_perm _).mem_iff.mp ht)
    exact hok.columnOk.canonical t hmem hcol
  have hvalid : ∀ p : Placement, p.Valid sorted → ∃ left right, sorted = left ++ right ∧
      (∀ moved, p.place moved sorted = left ++ moved :: right) ∧
      Separates (moveOrdinal F tasks (p.move F tasks cmd.newId cmd.targetColumn)) left right := by
    rw [← hload]
    exact moveOrdinal_separates hF hok.columnOk
  have hend : Separates (computeOrdinalForNeighbors (sorted.getLast?.map (taskOrdinal F)) none)
      sorted [] :=
    separates_neighbors hF (by rwa [List.append_nil]) (by rwa [List.append_nil])
  unfold Transfer.placement Transfer.ordinal
  simp only [hok.columnByOrdinal_eq, ← hsorted]
  cases hbefore : cmd.beforeId with
  | some refId =>
    dsimp only
    by_cases href : ∃ t ∈ sorted, t.id = refId
    · obtain ⟨left, right, heq, hplace, hseparates⟩ := hvalid (.before refId) href
      refine ⟨left, right, heq, hplace, ?_⟩
      rw [← hload]
      exact hseparates
    · have hnone : ∀ t ∈ sorted, t.id ≠ refId := fun t ht hid => href ⟨t, ht, hid⟩
      refine ⟨sorted, [], (List.append_nil _).symm, fun moved => insertBefore_of_not_mem hnone, ?_⟩
      rw [ordinalBefore, findIdx?_of_not_mem hnone]
      exact hend
  | none =>
    cases hafter : cmd.afterId with
    | some refId =>
      dsimp only
      by_cases href : ∃ t ∈ sorted, t.id = refId
      · obtain ⟨left, right, heq, hplace, hseparates⟩ := hvalid (.after refId) href
        refine ⟨left, right, heq, hplace, ?_⟩
        rw [← hload]
        exact hseparates
      · have hnone : ∀ t ∈ sorted, t.id ≠ refId := fun t ht hid => href ⟨t, ht, hid⟩
        refine ⟨sorted, [], (List.append_nil _).symm, fun moved => insertAfter_of_not_mem hnone, ?_⟩
        rw [ordinalAfter, findIdx?_of_not_mem hnone]
        exact hend
    | none =>
      cases hdrop : cmd.dropIndex with
      | some index =>
        obtain ⟨left, right, heq, hplace, hseparates⟩ := hvalid (.drop index) trivial
        refine ⟨left, right, heq, hplace, ?_⟩
        have hsame : (moveOrdinal F tasks
            (Placement.move F (.drop index) tasks cmd.newId cmd.targetColumn)).strRepr =
              (computeOrdinalForDrop F sorted index).strRepr := by
          rw [← hload]
          exact strRepr_fromString_strRepr hF _
        exact ⟨fun t ht => hsame ▸ hseparates.left t ht, fun t ht => hsame ▸ hseparates.right t ht⟩
      | none =>
        refine ⟨sorted, [], (List.append_nil _).symm, fun moved => rfl, ?_⟩
        rw [hok.lastInColumn_eq hfresh]
        have hagain : loadSortedColumnTasks (tasks.filter (inColumn cmd.targetColumn))
            cmd.targetColumn cmd.newId = sorted := by
          rw [loadSorted_fresh fun t ht => hfresh t (List.mem_filter.mp ht).1, List.filter_filter,
            hsorted]
          simp only [Bool.and_self]
        rw [← hagain] at hcanon ⊢
        exact separates_last hF (tasks.filter (inColumn cmd.targetColumn)) hcanon

end

section

variable {files : Attachments} {b : BoardStore} {e e' source task : Entity} {name : String}

theorem get_copyField (source task : Entity) (field : String) :
    (copyField source task field).get name =
      if name = field then (source.get name).or (task.get name) else task.get name := by
  unfold copyField
  by_cases hname : name = field
  · subst hname
    rw [if_pos rfl]
    cases hvalue : source.get name with
    | none => rfl
    | some value => exact Entity.get_set_self task name value
  · rw [if_neg hname]
    cases source.get field with
    | none => rfl
    | some value => exact Entity.get_set_of_ne hname task value

theorem get_foldl_copyField (source : Entity) (fields : List String) (task : Entity) :
    (fields.foldl (copyField source) task).get name =
      if name ∈ fields then (source.get name).or (task.get name) else task.get name := by
  induction fields generalizing task with
  | nil => rfl
  | cons field fields ih =>
    rw [List.foldl_cons, ih, get_copyField]
    by_cases hrest : name ∈ fields
    · grind
    · grind

theorem get_copyTags (tags : Option Json) (targetTags : List String) (h : name ≠ "tags") :
    (copyTags tags targetTags task).get name = task.get name := by
  unfold copyTags
  split
  · dsimp only
    split
    · rfl
    · exact Entity.get_set_of_ne h task _
  · rfl

theorem get_setPosition (column ordinal : String) (hcolumn : name ≠ "position_column")
    (hordinal : name ≠ "position_ordinal") :
    (setPosition e column ordinal).get name = e.get name := by
  rw [setPosition, Entity.get_set_of_ne hordinal, Entity.get_set_of_ne hcolumn]

theorem attachment_name : ∀ fd ∈ taskFields, fd.type = .attachment → fd.name = "attachments" := by
  simp [taskFields, FieldDef.of]

theorem no_script : ∀ fd ∈ taskFields, fd.validate = none := by
  simp [taskFields, FieldDef.of]

theorem exists_writeTask (files : Attachments) (b : BoardStore) (h : e.get "attachments" = none) :
    ∃ e', validateForWrite files b taskFields e = .ok e' := by
  obtain ⟨e₁, h₁⟩ : ∃ e₁, taskFields.foldlM stripComputed e = .ok e₁ :=
    exists_foldlM (fun s a _ => ⟨_, rfl⟩) e
  obtain ⟨e₂, h₂⟩ : ∃ e₂, taskFields.foldlM applyDefault e₁ = .ok e₂ :=
    exists_foldlM (fun s a _ => ⟨_, rfl⟩) e₁
  have hfield : FieldDef.of "attachments" .attachment ∈ taskFields := by simp [taskFields]
  have hstrip := (pointwise_stripComputed.foldlM nodup_taskFields h₁).2.1 _ hfield
  have hdefault := (pointwise_applyDefault.foldlM nodup_taskFields h₂).2.1 _ hfield
  have hnone₁ : e₁.get "attachments" = none := by
    rw [FieldDef.of, h] at hstrip
    exact (Except.ok.inj hstrip).symm
  have hnone₂ : e₂.get "attachments" = none := by
    rw [FieldDef.of, hnone₁] at hdefault
    exact (Except.ok.inj hdefault).symm
  have h₃ : taskFields.foldlM (processAttachmentField files) e₂ = .ok e₂ := by
    apply foldlM_unchanged
    intro fd hfd
    unfold processAttachmentField
    split
    · rename_i htype
      rw [attachment_name fd hfd htype, hnone₂]
    · rfl
  obtain ⟨e', h₄⟩ : ∃ e', taskFields.foldlM (validateField b) e₂ = .ok e' := by
    apply exists_foldlM
    intro s fd hfd
    unfold validateField checkField
    rw [no_script fd hfd]
    split
    · exact ⟨_, rfl⟩
    · grind
  refine ⟨e', ?_⟩
  have hok : ∀ (a : Entity) (next : Entity → Except WriteError Entity),
      (Except.ok a >>= next) = next a := fun _ _ => rfl
  rw [validateForWrite, h₁, hok, h₂, hok, h₃, hok, h₄]

end

section

variable {F : FractionalIndex} {sourceFiles targetFiles : Attachments}
  {deriveTags : Entity → Option Json} {failures : Failures} {boards : Boards} {old moved : Entity}
  {cmd : Transfer} {target : BoardStore}

theorem get_buildTask {source : Entity} {name : String} (htags : name ≠ "tags")
    (hcolumn : name ≠ "position_column") (hordinal : name ≠ "position_ordinal") :
    (cmd.buildTask F deriveTags source target).get name =
      if name ∈ copyFields then source.get name else none := by
  have hnew : (Entity.new "task" cmd.newId).get name = none := by simp [Entity.new, Entity.get]
  rw [Transfer.buildTask, get_setPosition _ _ hcolumn hordinal, get_copyTags _ _ htags,
    get_foldl_copyField, hnew, Option.or_none]

theorem buildTask_id (source : Entity) :
    (cmd.buildTask F deriveTags source target).id = cmd.newId := by
  have hcopy : ∀ (fields : List String) (task : Entity),
      (fields.foldl (copyField source) task).id = task.id := by
    intro fields
    induction fields with
    | nil => exact fun task => rfl
    | cons field fields ih =>
      intro task
      rw [List.foldl_cons, ih, copyField]
      cases source.get field <;> rfl
  have htags : ∀ (tags : Option Json) targetTags (task : Entity),
      (copyTags tags targetTags task).id = task.id := by
    intro tags targetTags task
    unfold copyTags
    split
    · dsimp only
      split
      · rfl
      · rfl
    · rfl
  exact (htags _ _ _).trans (hcopy _ _)

structure Arrives (F : FractionalIndex) (cmd : Transfer) (target : BoardStore)
    (old moved : Entity) : Prop where
  id : moved.id = cmd.newId
  title : moved.get "title" = (old.get "title").or (some (.string "Untitled"))
  body : moved.get "body" = (old.get "body").or (some (.string ""))
  left : ∀ field ∈ ["attachments", "comments", "due", "scheduled"], moved.get field = none
  column : inColumn cmd.targetColumn moved = true
  ordinal : rawOrdinal moved = (cmd.ordinal F target.listTasks).strRepr

theorem arrives (hcolumn : target.known "column" cmd.targetColumn = true)
    (h : Written targetFiles target taskFields
      (cmd.buildTask F deriveTags (readFields sourceFiles old) target) moved) :
    Arrives F cmd target old moved := by
  have hplain : ∀ name default, ⟨name, .plain, default, none⟩ ∈ taskFields → moved.get name =
      ((cmd.buildTask F deriveTags (readFields sourceFiles old) target).get name).or default := by
    intro name default hfield
    have hstored := h.field _ hfield
    rw [storedValue_plain] at hstored
    exact (Except.ok.inj hstored).symm
  have hcopied : ∀ name, name ∈ copyFields → name ≠ "attachments" → name ≠ "tags" →
      name ≠ "position_column" → name ≠ "position_ordinal" →
      (cmd.buildTask F deriveTags (readFields sourceFiles old) target).get name =
        old.get name := by
    intro name hmem hattachments htags hcol hord
    rw [get_buildTask htags hcol hord, if_pos hmem, get_readFields hattachments]
  have hleft : ∀ name, name ∉ copyFields → name ≠ "tags" → name ≠ "position_column" →
      name ≠ "position_ordinal" →
      (cmd.buildTask F deriveTags (readFields sourceFiles old) target).get name = none := by
    intro name hmem htags hcol hord
    rw [get_buildTask htags hcol hord, if_neg hmem]
  have hposition : moved.get "position_column" = some (.string cmd.targetColumn) := by
    have hfield : FieldDef.of "position_column" (.reference "column" false) ∈ taskFields := by
      simp [taskFields]
    have hstored := h.field _ hfield
    have hvalue : (cmd.buildTask F deriveTags (readFields sourceFiles old) target).get
        "position_column" = some (.string cmd.targetColumn) := by
      rw [Transfer.buildTask, setPosition, Entity.get_set_of_ne (by decide),
        Entity.get_set_self]
    have hkept : storedValue targetFiles target (.of "position_column" (.reference "column" false))
        (some (.string cmd.targetColumn)) =
          .ok (some (pruneReference (target.known "column") (.string cmd.targetColumn))) := rfl
    rw [FieldDef.of, hvalue] at hstored
    rw [FieldDef.of] at hkept
    rw [hkept] at hstored
    rw [← Except.ok.inj hstored]
    simp [pruneReference, Json.asStr, hcolumn]
  have hordinal : moved.get "position_ordinal" =
      some (.string (cmd.ordinal F target.listTasks).strRepr) := by
    rw [hplain "position_ordinal" none (by simp [taskFields, FieldDef.of]), Transfer.buildTask,
      setPosition, Entity.get_set_self]
    rfl
  constructor
  · rw [h.id, buildTask_id]
  · rw [hplain "title" (some (.string "Untitled")) (by simp [taskFields]),
      hcopied "title" (by decide) (by decide) (by decide) (by decide) (by decide)]
  · rw [hplain "body" (some (.string "")) (by simp [taskFields]),
      hcopied "body" (by decide) (by decide) (by decide) (by decide) (by decide)]
  · have hattachments : moved.get "attachments" = none := by
      have hstored := h.field (.of "attachments" .attachment) (by simp [taskFields])
      rw [FieldDef.of,
        hleft "attachments" (by decide) (by decide) (by decide) (by decide)] at hstored
      exact (Except.ok.inj hstored).symm
    intro field hfield
    simp only [List.mem_cons, List.not_mem_nil, or_false] at hfield
    rcases hfield with rfl | rfl | rfl | rfl
    · exact hattachments
    · rw [hplain "comments" none (by simp [taskFields, FieldDef.of]),
        hleft "comments" (by decide) (by decide) (by decide) (by decide)]
      rfl
    · rw [hplain "due" none (by simp [taskFields, FieldDef.of]),
        hleft "due" (by decide) (by decide) (by decide) (by decide)]
      rfl
    · rw [hplain "scheduled" none (by simp [taskFields, FieldDef.of]),
        hleft "scheduled" (by decide) (by decide) (by decide) (by decide)]
      rfl
  · rw [inColumn, Entity.getStr, hposition]
    exact decide_eq_true rfl
  · rw [rawOrdinal, Entity.getStr, hordinal]
    rfl

theorem Arrives.fields_iff (h : Arrives F cmd target old moved) :
    (∀ field ∈ movedFields, moved.get field = old.get field) ↔
      old.get "title" ≠ none ∧ old.get "body" ≠ none ∧
        ∀ field ∈ ["attachments", "comments", "due", "scheduled"], old.get field = none := by
  have hdefault : ∀ (value : Option Json) default,
      value.or (some default) = value ↔ value ≠ none := by
    intro value default
    cases value with
    | none => simp
    | some value => simp
  have htitle : moved.get "title" = old.get "title" ↔ old.get "title" ≠ none := by
    rw [h.title, hdefault]
  have hbody : moved.get "body" = old.get "body" ↔ old.get "body" ≠ none := by
    rw [h.body, hdefault]
  constructor
  · intro hfields
    refine ⟨htitle.mp (hfields _ (by decide)), hbody.mp (hfields _ (by decide)), ?_⟩
    intro field hfield
    rw [← h.left field hfield]
    exact (hfields field (List.mem_cons_of_mem _ (List.mem_cons_of_mem _ hfield))).symm
  · rintro ⟨hold, holdBody, hleft⟩ field hfield
    rcases List.mem_cons.mp hfield with rfl | hfield
    · exact htitle.mpr hold
    · rcases List.mem_cons.mp hfield with rfl | hfield
      · exact hbody.mpr holdBody
      · rw [h.left field hfield, hleft field hfield]

variable (F) in
theorem exists_written (sourceFiles targetFiles : Attachments)
    (deriveTags : Entity → Option Json) (cmd : Transfer) (old : Entity) {target : BoardStore}
    (hnew : target.task? cmd.newId = none)
    (hcolumn : target.known "column" cmd.targetColumn = true) :
    ∃ e' : Entity,
      target.writeTask targetFiles (cmd.buildTask F deriveTags (readFields sourceFiles old)
        target) = .ok { target with tasks := target.tasks.insert e'.id e'.fields } ∧
      BoardStore.listTasks { target with tasks := target.tasks.insert e'.id e'.fields } =
        target.listTasks ++ [⟨"task", e'.id, e'.fields⟩] ∧
      Arrives F cmd target old ⟨"task", e'.id, e'.fields⟩ := by
  have hattachments : (cmd.buildTask F deriveTags (readFields sourceFiles old)
      target).get "attachments" = none := by
    rw [get_buildTask (by decide) (by decide) (by decide), if_neg (by decide)]
  obtain ⟨e', he'⟩ := exists_writeTask targetFiles target hattachments
  have hwritten := written_validateForWrite nodup_taskFields he'
  have harrives := arrives hcolumn hwritten
  refine ⟨e', ?_, ?_, harrives.id, harrives.title, harrives.body, harrives.left, harrives.column,
    harrives.ordinal⟩
  · rw [BoardStore.writeTask, he']
    rfl
  · have hlookup : IndexMap.lookup e'.id target.tasks.entries = none := by
      rw [harrives.id]
      exact Option.map_eq_none_iff.mp hnew
    rw [BoardStore.listTasks, BoardStore.listTasks]
    simp only [IndexMap.insert, IndexMap.insertEntry_of_lookup hlookup, List.map_append,
      List.map_cons, List.map_nil]

variable [LinearOrder F.Key]

theorem Arrives.lands (hF : F.Contract) (h : Arrives F cmd target old moved)
    (hok : OrdinalsOk F target.listTasks cmd.targetColumn)
    (hfresh : ∀ t ∈ target.listTasks, t.id ≠ cmd.newId) {listed : List Entity}
    (hlisted : listed.Perm (target.listTasks ++ [moved])) :
    sortByOrdinal (listed.filter (inColumn cmd.targetColumn)) = cmd.placement.place moved
      (sortByOrdinal (target.listTasks.filter (inColumn cmd.targetColumn))) := by
  obtain ⟨left, right, heq, hplace, hseparates⟩ := transferOrdinal_separates hF cmd hok hfresh
  rw [hplace]
  apply sortByOrdinal_eq
  · have hperm := hlisted.filter (inColumn cmd.targetColumn)
    rw [List.filter_append, List.filter_singleton, h.column] at hperm
    refine hperm.trans ((List.perm_append_singleton _ _).trans ?_)
    refine (List.Perm.cons moved ?_).trans List.perm_middle.symm
    rw [← heq]
    exact (sortByOrdinal_perm _).symm
  · refine ordered_insert ?_ hseparates h.ordinal
    rw [← heq]
    exact ordered_sortByOrdinal hok.distinct

/-- A move to another board keeps its promise exactly where no call fails between the two writes
and the task has no field that is not copied. -/
theorem transfer_keeps_iff (hF : F.Contract) (sourceFiles targetFiles : Attachments)
    (deriveTags : Entity → Option Json) (failures : Failures) (cmd : Transfer) (boards : Boards)
    (old : Entity) (hmove : cmd.copyMode = false)
    (hold : boards.source.task? cmd.taskId = some old)
    (hnew : boards.target.task? cmd.newId = none)
    (hcolumn : boards.target.known "column" cmd.targetColumn = true)
    (hok : OrdinalsOk F boards.target.listTasks cmd.targetColumn) :
    cmd.Keeps boards (cmd.execute F sourceFiles targetFiles deriveTags failures boards).2
        (cmd.execute F sourceFiles targetFiles deriveTags failures boards).1 ↔
      Transfer.Meets failures old := by
  have hfresh : ∀ t ∈ boards.target.listTasks, t.id ≠ cmd.newId := by
    intro t ht hid
    have hthere := mem_listTasks.mp ht
    rw [hid, hnew] at hthere
    cases hthere
  obtain ⟨e', hwrite, hlist, hmoved⟩ := exists_written F sourceFiles targetFiles deriveTags cmd old
    hnew hcolumn
  rw [Transfer.Meets]
  unfold Transfer.execute
  rw [hold]
  dsimp only
  cases failures.list with
  | true => exact iff_of_true ⟨hold.symm ▸ rfl, rfl⟩ (.inl rfl)
  | false =>
    rw [if_neg Bool.false_ne_true, hwrite]
    dsimp only
    cases failures.write with
    | true => exact iff_of_true ⟨hold.symm ▸ rfl, rfl⟩ (.inr (.inl rfl))
    | false =>
      rw [if_neg Bool.false_ne_true, hmove, if_neg Bool.false_ne_true]
      cases failures.delete with
      | true =>
        refine iff_of_false ?_ ?_
        · rintro ⟨-, hsame⟩
          rw [if_pos rfl, hlist] at hsame
          have hlength := congrArg List.length hsame
          simp at hlength
        · rintro (hfails | hfails | ⟨hfails, -⟩)
          · cases hfails
          · cases hfails
          · cases hfails
      | false =>
        rw [if_neg Bool.false_ne_true]
        constructor
        · rintro ⟨-, old', moved, hold', hlist', -, hfields, -⟩
          rw [hold] at hold'
          obtain rfl := Option.some.inj hold'
          rw [hlist] at hlist'
          obtain rfl := List.singleton_inj.mp (List.append_cancel_left hlist')
          exact .inr (.inr ⟨rfl, hmoved.fields_iff.mp hfields⟩)
        · rintro (hfails | hfails | ⟨-, hfields⟩)
          · cases hfails
          · cases hfails
          · refine ⟨?_, old, _, hold, hlist, hmoved.column, hmoved.fields_iff.mpr hfields, ?_⟩
            · rw [BoardStore.task?, IndexMap.get?_shiftRemove_self]
              rfl
            · intro listed hlisted
              rw [hlist] at hlisted
              exact hmoved.lands hF hok hfresh hlisted

end

def walls : Entity :=
  ((Entity.new "task" "walls").set "title" (.string "Walls")).set "body" (.string "")

def twoBoards (task : Entity) : Boards where
  source := { sampleBoard with tasks := IndexMap.empty.insert "walls" task.fields }
  target := { sampleBoard with
    tasks := IndexMap.empty.insert "roof" (placed "roof" "todo" "80").fields }

def toRoof : Transfer := ⟨"walls", "new", "todo", none, some "roof", none, false⟩

theorem twoBoards_ok (task : Entity) :
    OrdinalsOk binaryIndex (twoBoards task).target.listTasks "todo" where
  stored t ht _ := by
    obtain rfl := List.mem_singleton.mp ht
    exact ⟨"80", rfl, [], by decide⟩
  distinct := (List.pairwise_singleton _ _).sublist List.filter_sublist

theorem transfer_keeps_iff_walls : toRoof.Keeps (twoBoards walls)
    (toRoof.execute binaryIndex ⟨id, .ok⟩ ⟨id, .ok⟩ (fun _ => none) ⟨false, false, false⟩
      (twoBoards walls)).2
    (toRoof.execute binaryIndex ⟨id, .ok⟩ ⟨id, .ok⟩ (fun _ => none) ⟨false, false, false⟩
      (twoBoards walls)).1 := by
  have hmeets : Transfer.Meets ⟨false, false, false⟩ walls := by
    refine .inr (.inr ⟨rfl, by decide, by decide, fun field hfield => ?_⟩)
    simp only [List.mem_cons, List.not_mem_nil, or_false] at hfield
    rcases hfield with rfl | rfl | rfl | rfl <;> decide
  have hsource : (twoBoards walls).source.task? toRoof.taskId = some walls := rfl
  exact (transfer_keeps_iff binaryIndex_contract ⟨id, .ok⟩ ⟨id, .ok⟩ (fun _ => none)
    ⟨false, false, false⟩ toRoof (twoBoards walls) walls rfl hsource rfl (by decide)
    (twoBoards_ok walls)).mpr hmeets

def commented : Entity := walls.set "comments" (.array [.string "Which brick?"])

theorem comments_lost : (twoBoards commented).source.task? "walls" = some commented ∧
    (twoBoards commented).target.known "column" "todo" = true ∧
    OrdinalsOk binaryIndex (twoBoards commented).target.listTasks "todo" ∧
    ¬ toRoof.Keeps (twoBoards commented)
      (toRoof.execute binaryIndex ⟨id, .ok⟩ ⟨id, .ok⟩ (fun _ => none) ⟨false, false, false⟩
        (twoBoards commented)).2
      (toRoof.execute binaryIndex ⟨id, .ok⟩ ⟨id, .ok⟩ (fun _ => none) ⟨false, false, false⟩
        (twoBoards commented)).1 := by
  refine ⟨rfl, by decide, twoBoards_ok commented, fun h => ?_⟩
  have hok : (toRoof.execute binaryIndex ⟨id, .ok⟩ ⟨id, .ok⟩ (fun _ => none) ⟨false, false, false⟩
      (twoBoards commented)).1.isOk = true := by
    decide
  have hlost : (toRoof.execute binaryIndex ⟨id, .ok⟩ ⟨id, .ok⟩ (fun _ => none)
      ⟨false, false, false⟩ (twoBoards commented)).2.target.listTasks.getLast?.map
        (fun t => t.get "comments") = some none := by
    decide
  have hkept : commented.get "comments" ≠ none := by decide
  revert h hok hlost
  generalize toRoof.execute binaryIndex ⟨id, .ok⟩ ⟨id, .ok⟩ (fun _ => none) ⟨false, false, false⟩
    (twoBoards commented) = out
  cases out with
  | mk result boards =>
    cases result with
    | error err =>
      intro _ hok
      cases hok
    | ok ack =>
      rintro ⟨-, old, moved, hold, hlist, -, hfields, -⟩ - hlost
      have hthere : (twoBoards commented).source.task? toRoof.taskId = some commented := rfl
      have hsame : commented = old := Option.some.inj (hthere.symm.trans hold)
      dsimp only at hlist hlost
      rw [hlist, List.getLast?_concat] at hlost
      have hnone : moved.get "comments" = none := Option.some.inj hlost
      rw [hfields "comments" (by decide), ← hsame] at hnone
      exact hkept hnone

end SwissArmyHammer.Kanban
