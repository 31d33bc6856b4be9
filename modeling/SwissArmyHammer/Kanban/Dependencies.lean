import SwissArmyHammer.Common.Traces
import SwissArmyHammer.Kanban.TaskOps

/-! Whether a task ever depends on one that is not on the board. Every write prunes dangling
references, and deleting or archiving a task takes it out of the others; restoring one brings
back the references it had. -/

namespace SwissArmyHammer.Kanban

open Entities

section

variable {files : Attachments} {b b' : BoardStore} {e e' t : Entity} {id d : String}

def strings (v : Option Json) : List String :=
  ((v.bind Json.asArray).map fun elems => elems.filterMap Json.asStr).getD []

theorem getStringList_eq (e : Entity) (field : String) :
    e.getStringList field = strings (e.get field) := rfl

theorem mem_strings_pruneReferences {isKnown : String → Bool} {v : Json}
    (h : d ∈ strings (some (pruneReferences isKnown v))) :
    isKnown d = true ∧ d ∈ strings (some v) := by
  cases v with
  | array elems =>
    have hmem : d ∈ (elems.filter fun v => v.asStr.any isKnown).filterMap Json.asStr := h
    obtain ⟨v, hv, hstr⟩ := List.mem_filterMap.mp hmem
    obtain ⟨hv, hknown⟩ := List.mem_filter.mp hv
    rw [hstr] at hknown
    exact ⟨hknown, List.mem_filterMap.mpr ⟨v, hv, hstr⟩⟩
  | null => exact absurd h List.not_mem_nil
  | bool x => exact absurd h List.not_mem_nil
  | number text => exact absurd h List.not_mem_nil
  | string s => exact absurd h List.not_mem_nil
  | object fields => exact absurd h List.not_mem_nil

theorem nodup_taskFields : (taskFields.map FieldDef.name).Nodup := by decide

theorem known_of_written (h : Written files b taskFields e e')
    (hd : d ∈ e'.getStringList "depends_on") :
    (b.tasks.get? d).isSome ∧ d ∈ e.getStringList "depends_on" := by
  have hfield : FieldDef.of "depends_on" (.reference "task" true) ∈ taskFields := by
    simp [taskFields]
  have hstored := h.field _ hfield
  have hvalue : storedValue files b (.of "depends_on" (.reference "task" true))
      (e.get "depends_on") = .ok ((e.get "depends_on").map (pruneReferences (b.known "task"))) := by
    cases e.get "depends_on" with
    | none => rfl
    | some v => rfl
  rw [getStringList_eq] at hd ⊢
  rw [show (e'.get "depends_on") = (e.get "depends_on").map (pruneReferences (b.known "task")) from
    Except.ok.inj (hstored.symm.trans hvalue)] at hd
  cases hv : e.get "depends_on" with
  | none =>
    rw [hv] at hd
    exact absurd hd List.not_mem_nil
  | some v =>
    rw [hv] at hd
    exact mem_strings_pruneReferences hd

theorem getStringList_readFields (files : Attachments) (e : Entity) :
    (readFields files e).getStringList "depends_on" = e.getStringList "depends_on" := by
  rw [readFields]
  split
  · rfl
  · rfl
  · exact Entity.getStringList_set_of_ne (by decide) e _

theorem id_readFields (files : Attachments) (e : Entity) : (readFields files e).id = e.id := by
  rw [readFields]
  split
  · rfl
  · rfl
  · rfl

theorem mem_listTasks : t ∈ b.listTasks ↔ b.task? t.id = some t := by
  rw [BoardStore.listTasks, BoardStore.task?, List.mem_map]
  constructor
  · intro h
    obtain ⟨entry, hentry, rfl⟩ := h
    rw [IndexMap.get?_eq_some_iff.mpr (show (entry.1, entry.2) ∈ b.tasks.entries from hentry)]
    rfl
  · intro h
    obtain ⟨fields, hfields, heq⟩ := Option.map_eq_some_iff.mp h
    exact ⟨(t.id, fields), IndexMap.get?_eq_some_iff.mp hfields, heq⟩

def NoDangling (b : BoardStore) : Prop :=
  ∀ t ∈ b.listTasks, ∀ d ∈ t.getStringList "depends_on", (b.task? d).isSome

instance decidableNoDangling (b : BoardStore) : Decidable (NoDangling b) :=
  inferInstanceAs (Decidable (∀ t ∈ b.listTasks, ∀ d ∈ t.getStringList "depends_on",
    (b.task? d).isSome))

def BlockedByLive (b : BoardStore) : Prop :=
  ∀ terminal, ∀ t ∈ b.listTasks, ∀ d ∈ taskBlockedBy t b.listTasks terminal, (b.task? d).isSome

theorem isSome_task? (b : BoardStore) (id : String) :
    (b.task? id).isSome = (b.tasks.get? id).isSome := by
  rw [BoardStore.task?, Option.isSome_map]

theorem id_of_task? (h : b.task? id = some t) : t.id = id := by
  obtain ⟨fields, -, rfl⟩ := Option.map_eq_some_iff.mp h
  rfl

theorem noDangling_iff : NoDangling b ↔ ∀ id t, b.task? id = some t →
    ∀ d ∈ t.getStringList "depends_on", (b.task? d).isSome := by
  constructor
  · intro h id t ht
    have hid := id_of_task? ht
    exact h t (mem_listTasks.mpr (hid ▸ ht))
  · intro h t ht
    exact h t.id t (mem_listTasks.mp ht)

theorem task?_insert {fields : Fields} (h : b'.tasks = b.tasks.insert id fields) :
    b'.task? id = some ⟨"task", id, fields⟩ := by
  rw [BoardStore.task?, h, IndexMap.get?_insert_self]
  rfl

theorem task?_insert_of_ne {fields : Fields} (h : b'.tasks = b.tasks.insert id fields)
    {other : String} (hne : other ≠ id) : b'.task? other = b.task? other := by
  rw [BoardStore.task?, BoardStore.task?, h, IndexMap.get?_insert_of_ne hne]

theorem isSome_task?_insert_iff {fields : Fields} (h : b'.tasks = b.tasks.insert id fields)
    {other : String} : (b'.task? other).isSome ↔ other = id ∨ (b.task? other).isSome := by
  by_cases hother : other = id
  · subst hother
    simp [task?_insert h]
  · simp [task?_insert_of_ne h hother, hother]

theorem noDangling_insert_iff {fields : Fields} (hb : NoDangling b)
    (h : b'.tasks = b.tasks.insert id fields) : NoDangling b' ↔
      ∀ d ∈ Entity.getStringList ⟨"task", id, fields⟩ "depends_on",
        d = id ∨ (b.task? d).isSome := by
  constructor
  · intro hb' d hd
    exact (isSome_task?_insert_iff h).mp (noDangling_iff.mp hb' id _ (task?_insert h) d hd)
  · intro hlive
    refine noDangling_iff.mpr fun k t ht d hd => (isSome_task?_insert_iff h).mpr ?_
    by_cases hk : k = id
    · subst hk
      rw [task?_insert h] at ht
      obtain rfl := Option.some.inj ht
      exact hlive d hd
    · rw [task?_insert_of_ne h hk] at ht
      exact .inr (noDangling_iff.mp hb k t ht d hd)

/-- The one way in which a command writes a task: its dependencies are those that it was given,
as far as they are on the board. -/
structure WritesTask (b : BoardStore) (e : Entity) (b' : BoardStore) : Prop where
  archived : b'.archived = b.archived
  inserted : ∃ fields, b'.tasks = b.tasks.insert e.id fields
  known : ∀ t, b'.task? e.id = some t → ∀ d ∈ t.getStringList "depends_on",
    (b.task? d).isSome ∧ d ∈ e.getStringList "depends_on"

theorem writesTask (h : b.writeTask files e = .ok b') : WritesTask b e b' := by
  obtain ⟨e', he', rfl⟩ := exists_of_map h
  have hwritten := written_validateForWrite nodup_taskFields he'
  refine ⟨rfl, ⟨e'.fields, by rw [hwritten.id]⟩, fun t ht d hd => ?_⟩
  rw [← hwritten.id, task?_insert rfl] at ht
  obtain rfl := Option.some.inj ht
  rw [isSome_task?]
  exact known_of_written hwritten hd

theorem WritesTask.task?_of_ne (h : WritesTask b e b') {other : String} (hne : other ≠ e.id) :
    b'.task? other = b.task? other := by
  obtain ⟨fields, hfields⟩ := h.inserted
  exact task?_insert_of_ne hfields hne

theorem WritesTask.isSome (h : WritesTask b e b') {other : String}
    (hother : (b.task? other).isSome) : (b'.task? other).isSome := by
  obtain ⟨fields, hfields⟩ := h.inserted
  exact (isSome_task?_insert_iff hfields).mpr (.inr hother)

theorem WritesTask.noDangling (h : WritesTask b e b') (hb : NoDangling b) : NoDangling b' := by
  obtain ⟨fields, hfields⟩ := h.inserted
  refine (noDangling_insert_iff hb hfields).mpr fun d hd => .inr ?_
  exact (h.known _ (task?_insert hfields) d hd).1

end

section

variable {env : Env} {draws : Draws} {b b' : BoardStore} {e t : Entity} {id : String} {out : Json}

theorem tasks_autoCreateBodyTags (h : autoCreateBodyTags env draws.tagId b e = .ok b') :
    b'.tasks = b.tasks ∧ b'.archived = b.archived := by
  refine foldlM_induction (P := fun _ s => s.tasks = b.tasks ∧ s.archived = b.archived)
    (fun slug _ s s' hs hstep => ?_) ⟨rfl, rfl⟩ h
  rw [autoCreateTag] at hstep
  split at hstep
  · rwa [← Except.ok.inj hstep]
  · obtain ⟨tag, -, rfl⟩ := exists_of_map (exists_of_mapError hstep)
    exact hs

theorem noDangling_congr (h : b'.tasks = b.tasks) (hb : NoDangling b) : NoDangling b' := by
  unfold NoDangling BoardStore.listTasks BoardStore.task? at hb ⊢
  rwa [h]

theorem noDangling_persist (hb : NoDangling b) (h : persist env draws b e = .ok b') :
    NoDangling b' := by
  obtain ⟨b₁, h₁, h⟩ := exists_of_bind h
  have hwrites := writesTask (exists_of_mapError h₁)
  exact noDangling_congr (tasks_autoCreateBodyTags h).1 (hwrites.noDangling hb)

theorem noDangling_addTask {cmd : AddTask} (hb : NoDangling b)
    (h : cmd.execute env draws b = .ok (b', out)) : NoDangling b' := by
  obtain ⟨entity, -, h⟩ := exists_of_bind h
  obtain ⟨b₁, h₁, h⟩ := exists_of_bind h
  obtain ⟨rfl, -⟩ := Prod.mk.inj (Except.ok.inj h)
  exact noDangling_persist hb h₁

theorem noDangling_updateTask {cmd : UpdateTask} (hb : NoDangling b)
    (h : cmd.execute env draws b = .ok (b', out)) : NoDangling b' := by
  obtain ⟨entity, -, h⟩ := exists_of_bind h
  obtain ⟨b₁, h₁, h⟩ := exists_of_bind h
  obtain ⟨rfl, -⟩ := Prod.mk.inj (Except.ok.inj h)
  exact noDangling_persist hb h₁

structure Dropping (id : String) (b : BoardStore) (rest : List Entity) (s : BoardStore) : Prop where
  archived : s.archived = b.archived
  live : ∀ k, (b.task? k).isSome → (s.task? k).isSome
  noDangling : NoDangling s
  sub : ∀ k t, s.task? k = some t → ∃ u, b.task? k = some u ∧
    ∀ d ∈ t.getStringList "depends_on", d ∈ u.getStringList "depends_on"
  left : ∀ k t, s.task? k = some t → id ∈ t.getStringList "depends_on" → k = id ∨
    k ∈ rest.map Entity.id
  listed : ∀ t ∈ rest, ∃ u, b.task? t.id = some u ∧
    t.getStringList "depends_on" = u.getStringList "depends_on"

theorem Dropping.start (hb : NoDangling b) :
    Dropping id b (b.listTasks.map (readFields env.files)) b where
  archived := rfl
  live _ h := h
  noDangling := hb
  sub _ t ht := ⟨t, ht, fun _ hd => hd⟩
  left k t ht _ := by
    refine .inr (List.mem_map.mpr ⟨readFields env.files t, ?_, ?_⟩)
    · exact List.mem_map_of_mem (mem_listTasks.mpr (id_of_task? ht ▸ ht))
    · rw [id_readFields, id_of_task? ht]
  listed t ht := by
    obtain ⟨u, hu, rfl⟩ := List.mem_map.mp ht
    rw [id_readFields]
    exact ⟨u, mem_listTasks.mp hu, getStringList_readFields env.files u⟩

theorem Dropping.step {rest : List Entity} {s s' : BoardStore} (h : Dropping id b (t :: rest) s)
    (hstep : dropDependency env id s t = .ok s') : Dropping id b rest s' := by
  have hlisted := fun u hu => h.listed u (List.mem_cons_of_mem t hu)
  obtain ⟨u, hu, hdeps⟩ := h.listed t List.mem_cons_self
  rw [dropDependency] at hstep
  split at hstep
  · have hw := writesTask (exists_of_mapError hstep)
    have hkept : ∀ v, s'.task? t.id = some v → ∀ d ∈ v.getStringList "depends_on",
        d ∈ t.getStringList "depends_on" ∧ d ≠ id := by
      intro v hv d hd
      have hgiven := (hw.known v hv d hd).2
      rw [Entity.getStringList_set_self] at hgiven
      simpa using List.mem_filter.mp hgiven
    refine ⟨hw.archived.trans h.archived, fun k hk => hw.isSome (h.live k hk),
      hw.noDangling h.noDangling, fun k v hv => ?_, fun k v hv hid => ?_, hlisted⟩
    · by_cases hk : k = t.id
      · subst hk
        exact ⟨u, hu, fun d hd => hdeps ▸ (hkept v hv d hd).1⟩
      · rw [hw.task?_of_ne hk] at hv
        exact h.sub k v hv
    · by_cases hk : k = t.id
      · subst hk
        exact absurd rfl (hkept v hv id hid).2
      · rw [hw.task?_of_ne hk] at hv
        have hleft := h.left k v hv hid
        simpa [hk] using hleft
  · rename_i hskip
    obtain rfl := Except.ok.inj hstep
    refine ⟨h.archived, h.live, h.noDangling, h.sub, fun k v hv hid => ?_, hlisted⟩
    rcases h.left k v hv hid with hk | hk
    · exact .inl hk
    · rcases List.mem_cons.mp hk with rfl | hk
      · obtain ⟨w, hw, hsub⟩ := h.sub _ v hv
        obtain rfl := Option.some.inj (hw.symm.trans hu)
        have hdep : id ∈ t.getStringList "depends_on" := hdeps ▸ hsub id hid
        exact .inl (not_not.mp fun hne => hskip ⟨hne, hdep⟩)
      · exact .inr hk

theorem dropping_dropDependencies (hb : NoDangling b)
    (h : dropDependencies env b id = .ok b') : Dropping id b [] b' :=
  foldlM_induction (fun _ _ _ _ hs hstep => hs.step hstep) (Dropping.start hb) h

theorem Dropping.noDangling_shiftRemove {s : BoardStore} (h : Dropping id b [] s)
    (hb' : b'.tasks = s.tasks.shiftRemove id) : NoDangling b' := by
  refine noDangling_iff.mpr fun k t ht d hd => ?_
  by_cases hk : k = id
  · subst hk
    rw [BoardStore.task?, hb', IndexMap.get?_shiftRemove_self] at ht
    cases ht
  · have hs : s.task? k = some t := by
      rwa [BoardStore.task?, hb', IndexMap.get?_shiftRemove_of_ne hk] at ht
    have hd' : d ≠ id := by
      intro heq
      subst heq
      rcases h.left k t hs hd with hk' | hk'
      · exact hk hk'
      · exact absurd hk' List.not_mem_nil
    have hlive := noDangling_iff.mp h.noDangling k t hs d hd
    rw [isSome_task?] at hlive ⊢
    rwa [hb', IndexMap.get?_shiftRemove_of_ne hd']

theorem noDangling_deleteTask (hb : NoDangling b) (h : deleteTask env b id = .ok (b', out)) :
    NoDangling b' := by
  obtain ⟨entity, -, h⟩ := exists_of_bind h
  obtain ⟨s, hs, h⟩ := exists_of_bind h
  obtain ⟨rfl, -⟩ := Prod.mk.inj (Except.ok.inj h)
  exact (dropping_dropDependencies hb hs).noDangling_shiftRemove rfl

theorem noDangling_archiveTask (hb : NoDangling b) (h : archiveTask env b id = .ok (b', out)) :
    NoDangling b' := by
  obtain ⟨entity, -, h⟩ := exists_of_bind h
  obtain ⟨s, hs, h⟩ := exists_of_bind h
  split at h
  · cases h
  · obtain ⟨rfl, -⟩ := Prod.mk.inj (Except.ok.inj h)
    exact (dropping_dropDependencies hb hs).noDangling_shiftRemove rfl

end

inductive TaskOp
  | add (cmd : AddTask) (draws : Draws)
  | update (cmd : UpdateTask) (draws : Draws)
  | delete (id : String)
  | archive (id : String)
  | unarchive (id : String)

def TaskOp.execute (env : Env) (b : BoardStore) : TaskOp → Except BoardError (BoardStore × Json)
  | .add cmd draws => cmd.execute env draws b
  | .update cmd draws => cmd.execute env draws b
  | .delete id => deleteTask env b id
  | .archive id => archiveTask env b id
  | .unarchive id => unarchiveTask env b id

def TaskOp.step (env : Env) (b : BoardStore) (op : TaskOp) : Option BoardStore :=
  ((op.execute env b).map Prod.fst).toOption

/-- What is restored depends on nothing but itself and tasks that are on the board. -/
def RestoresLive (b : BoardStore) : TaskOp → Prop
  | .unarchive id => ∀ a ∈ archivedTask b id,
    ∀ d ∈ Entity.getStringList ⟨"task", id, a.2⟩ "depends_on", d = id ∨ (b.task? d).isSome
  | _ => True

instance decidableRestoresLive (b : BoardStore) : ∀ op, Decidable (RestoresLive b op)
  | .unarchive id => inferInstanceAs (Decidable (∀ a ∈ archivedTask b id,
      ∀ d ∈ Entity.getStringList ⟨"task", id, a.2⟩ "depends_on", d = id ∨ (b.task? d).isSome))
  | .add _ _ | .update _ _ | .delete _ | .archive _ => inferInstanceAs (Decidable True)

section

variable {env : Env} {b b' : BoardStore} {op : TaskOp} {id : String} {out : Json}

theorem noDangling_unarchiveTask_iff (hb : NoDangling b)
    (h : unarchiveTask env b id = .ok (b', out)) :
    NoDangling b' ↔ RestoresLive b (.unarchive id) := by
  rw [unarchiveTask] at h
  split at h
  · cases h
  · rename_i a ha
    obtain ⟨entity, -, h⟩ := exists_of_bind h
    obtain ⟨rfl, -⟩ := Prod.mk.inj (Except.ok.inj h)
    refine Iff.trans (noDangling_insert_iff hb (show _ = b.tasks.insert id a.2 from rfl)) ?_
    constructor
    · intro hlive a' ha'
      obtain rfl := Option.some.inj (ha.symm.trans ha')
      exact hlive
    · intro hrestores
      exact hrestores a ha

theorem noDangling_step_iff (hb : NoDangling b) (h : op.step env b = some b') :
    NoDangling b' ↔ RestoresLive b op := by
  obtain ⟨⟨b₁, out⟩, hrun, rfl⟩ := exists_of_map (ok_of_toOption h)
  cases op with
  | add cmd draws => exact iff_of_true (noDangling_addTask hb hrun) trivial
  | update cmd draws => exact iff_of_true (noDangling_updateTask hb hrun) trivial
  | delete id => exact iff_of_true (noDangling_deleteTask hb hrun) trivial
  | archive id => exact iff_of_true (noDangling_archiveTask hb hrun) trivial
  | unarchive id => exact noDangling_unarchiveTask_iff hb hrun

theorem blockedByLive_of_noDangling (h : NoDangling b) : BlockedByLive b := by
  intro terminal t ht d hd
  exact h t ht d (List.mem_of_mem_filter hd)

theorem dependencies_live_iff (htasks : b.tasks = .empty) {steps : List (TaskOp × BoardStore)}
    (h : Trace (fun b op b' => op.step env b = some b') b steps) :
    Trace.Every (fun _ _ b' => NoDangling b' ∧ BlockedByLive b') b steps ↔
      Trace.Every (fun b op _ => RestoresLive b op) b steps := by
  have hb : NoDangling b := by
    intro t ht
    rw [BoardStore.listTasks, htasks] at ht
    exact absurd ht List.not_mem_nil
  rw [← h.every_iff (fun _ _ _ hs hstep => noDangling_step_iff hs hstep) hb]
  constructor
  · intro hlive
    exact hlive.imp fun _ _ _ hlive => hlive.1
  · intro hlive
    exact hlive.imp fun _ _ _ hlive => ⟨hlive, blockedByLive_of_noDangling hlive⟩

end

def sampleEnv : Env where
  ordinals := binaryIndex
  files := ⟨id, .ok⟩
  chrono _ := none
  isUlid needle := decide (needle.length = 26)
  lowercase needle := needle.map Char.toLower
  debug value := value
  ratio _ _ := .number "0.5"

def sampleBoard : BoardStore where
  tasks := .empty
  archived := []
  tags := .empty
  columns := IndexMap.empty.insert "todo" ∅
  actors := .empty
  projects := .empty

def sampleTask (title : String) (dependsOn : List String) : AddTask where
  title := title
  description := none
  column := none
  ordinal := none
  assignees := []
  dependsOn := dependsOn
  tags := []
  project := none
  due := none
  scheduled := none

def sampleOps : List TaskOp :=
  [.add (sampleTask "Walls" []) ⟨["01JAAAAAAAAAAAAAAAAAAAAAAA"], String.ofList⟩,
    .add (sampleTask "Roof" ["01JAAAAAAAAAAAAAAAAAAAAAAA"])
      ⟨["01JBBBBBBBBBBBBBBBBBBBBBBB"], String.ofList⟩,
    .archive "01JBBBBBBBBBBBBBBBBBBBBBBB"]

def restoredRun : List (TaskOp × BoardStore) :=
  Trace.record (TaskOp.step sampleEnv) sampleBoard
    (sampleOps ++ [.unarchive "01JBBBBBBBBBBBBBBBBBBBBBBB"])

theorem trace_restoredRun :
    Trace (fun b op b' => op.step sampleEnv b = some b') sampleBoard restoredRun :=
  Trace.trace_record _ _ _

theorem restoredRun_restores :
    Trace.Every (fun b op _ => RestoresLive b op) sampleBoard restoredRun := by
  decide +kernel

theorem dependencies_live_iff_restored : restoredRun.length = 4 ∧
    Trace.Every (fun _ _ b' => NoDangling b' ∧ BlockedByLive b') sampleBoard restoredRun := by
  refine ⟨by decide +kernel, ?_⟩
  exact (dependencies_live_iff rfl trace_restoredRun).mpr restoredRun_restores

def danglingRun : List (TaskOp × BoardStore) :=
  Trace.record (TaskOp.step sampleEnv) sampleBoard (sampleOps ++
    [.delete "01JAAAAAAAAAAAAAAAAAAAAAAA", .unarchive "01JBBBBBBBBBBBBBBBBBBBBBBB"])

theorem restored_task_dangles :
    Trace (fun b op b' => op.step sampleEnv b = some b') sampleBoard danglingRun ∧
      danglingRun.length = 5 ∧
      ¬ Trace.Every (fun _ _ b' => NoDangling b') sampleBoard danglingRun :=
  ⟨Trace.trace_record _ _ _, by decide +kernel, by decide +kernel⟩

end SwissArmyHammer.Kanban
