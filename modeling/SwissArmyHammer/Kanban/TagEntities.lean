import SwissArmyHammer.Kanban.Dependencies
import SwissArmyHammer.Kanban.TagRename

/-! One tag for each slug: names are stored as they are given, while markers are matched as slugs,
so the two stay together only where no operation gives a slug a second name. -/

namespace SwissArmyHammer.Kanban

open Entities

section

variable (env : Env) (b : BoardStore)

def OneTagPerSlug : Prop := ∀ t ∈ b.listTags, ∀ u ∈ b.listTags, slugOf t = slugOf u → t.id = u.id

def Tagged (id : String) : Prop := ∀ task, b.task? id = some task →
  ∀ slug ∈ parseTags (entityBody task), slug ∈ computedTags b task

def MarkersKept (id : String) (b' : BoardStore) : Prop :=
  ∀ other ∈ b.listTags, other.id ≠ id → ∀ taskId task, b.task? taskId = some task →
    ∃ task', b'.task? taskId = some task' ∧ ∀ slug, slug = tagName other ∨ slug = slugOf other →
      slug ∈ parseTags (entityBody task) → slug ∈ parseTags (entityBody task')

namespace TagOp

def IsOn (op : TagOp) (id : String) : Prop :=
  match op with
  | .addTask _ _ => b.task? id = none
  | .updateTask cmd _ => id = cmd.id
  | .pasteTag cmd _ => id = cmd.taskId
  | _ => False

def Keeps (op : TagOp) (b' : BoardStore) : Prop :=
  OneTagPerSlug b' ∧
    ((op.run env b).1.isOk = true → ∀ id, op.IsOn b id → Tagged b' id) ∧
    ∀ id, op = .deleteTag id → (b.tag? id).isSome → MarkersKept b id b'

end TagOp

def Mintable (names : List Slug) : Prop := ∀ name ∈ names, tagNameExists b name = false →
  (∀ tag ∈ b.listTags, slugOf tag ≠ normalizeSlug name) ∧
    ∀ other ∈ names, normalizeSlug other = normalizeSlug name → other = name

def TagOp.Fresh : TagOp → Prop
  | .addTag _ tagId => b.tag? tagId = none
  | .addTask _ draws => (∀ slug, b.tag? (draws.tagId slug) = none) ∧ draws.tagId.Injective
  | .updateTask _ draws => (∀ slug, b.tag? (draws.tagId slug) = none) ∧ draws.tagId.Injective
  | .pasteTag _ tagId => b.tag? tagId = none
  | _ => True

def PasteTag.slug (cmd : PasteTag) : Option Slug :=
  (cmd.clipboard.bind fun data => clipboardString data "tag_name").map
    fun name => normalizeSlug name.toList

/-- No operation names a tag whose slug another name has, a tag is pasted to a body whose markers
are names of tags, and the markers of a deleted tag go without a trace. -/
def TagOp.Meets : TagOp → Prop
  | .addTag cmd _ => findTagByName b cmd.name.toList = none → ∀ stored,
    validateTagName (.string cmd.name) = .ok (.string stored) →
      ∀ tag ∈ b.listTags, slugOf tag ≠ normalizeSlug stored.toList
  | .updateTag id name _ _ => ∀ other ∈ b.listTags, other.id ≠ id →
    slugOf other = normalizeSlug name.toList →
      other.getStr "tag_name" = some (String.ofList (normalizeSlug name.toList))
  | .addTask cmd draws => ∀ entity, cmd.buildEntity env draws b = .ok entity →
    Mintable b (parseTags (entityBody entity))
  | .updateTask cmd _ => ∀ entity, cmd.buildEntity env b = .ok entity →
    Mintable b (parseTags (entityBody entity))
  | .pasteTag cmd _ => ∀ slug ∈ cmd.slug, ∀ task ∈ b.task? cmd.taskId, Mintable b [slug] ∧
    ∀ s ∈ parseTags (appendTag (entityBody task) slug), s = slug ∨ tagNameExists b s = true
  | .deleteTag id => ∀ tag ∈ b.tag? id, ∀ task ∈ b.listTasks,
    RemovesCleanly (entityBody task) (slugOf tag)

end

section

variable {env : Env} {b b' : BoardStore} {t u : Entity} {id : String} {fields : Fields}

theorem mem_listTags : t ∈ b.listTags ↔ b.tag? t.id = some t := by
  rw [BoardStore.listTags, BoardStore.tag?, List.mem_map]
  constructor
  · intro h
    obtain ⟨entry, hentry, rfl⟩ := h
    rw [IndexMap.get?_eq_some_iff.mpr (show (entry.1, entry.2) ∈ b.tags.entries from hentry)]
    rfl
  · intro h
    obtain ⟨fields, hfields, heq⟩ := Option.map_eq_some_iff.mp h
    exact ⟨(t.id, fields), IndexMap.get?_eq_some_iff.mp hfields, heq⟩

theorem id_of_tag? (h : b.tag? id = some t) : t.id = id := by
  obtain ⟨fields, -, rfl⟩ := Option.map_eq_some_iff.mp h
  rfl

theorem mem_listTags_insert (h : b'.tags = b.tags.insert id fields) :
    t ∈ b'.listTags ↔ t = ⟨"tag", id, fields⟩ ∨ t ∈ b.listTags ∧ t.id ≠ id := by
  rw [mem_listTags, mem_listTags, BoardStore.tag?, BoardStore.tag?, h]
  by_cases hid : t.id = id
  · rw [hid, IndexMap.get?_insert_self]
    constructor
    · intro heq
      exact .inl (Option.some.inj heq).symm
    · grind
  · rw [IndexMap.get?_insert_of_ne hid]
    constructor
    · exact fun heq => .inr ⟨heq, hid⟩
    · grind

theorem OneTagPerSlug.insert (hb : OneTagPerSlug b) (h : b'.tags = b.tags.insert id fields)
    (hnew : ∀ tag ∈ b.listTags, tag.id ≠ id → slugOf tag ≠ slugOf ⟨"tag", id, fields⟩) :
    OneTagPerSlug b' := by
  intro t ht u hu heq
  rcases (mem_listTags_insert h).mp ht with rfl | ⟨ht, htid⟩
  · rcases (mem_listTags_insert h).mp hu with rfl | ⟨hu, huid⟩
    · rfl
    · exact absurd heq.symm (hnew u hu huid)
  · rcases (mem_listTags_insert h).mp hu with rfl | ⟨hu, huid⟩
    · exact absurd heq (hnew t ht htid)
    · exact hb t ht u hu heq

theorem tagNameExists_iff {name : List Char} : tagNameExists b name = true ↔
    ∃ tag ∈ b.listTags, tag.getStr "tag_name" = some (String.ofList name) := by
  rw [tagNameExists, findTagByName, List.find?_isSome]
  simp only [decide_eq_true_eq]

theorem tagNameExists_insert (h : b'.tags = b.tags.insert id fields) (hfresh : b.tag? id = none)
    {name : List Char} (hname : tagNameExists b name = true) : tagNameExists b' name = true := by
  obtain ⟨tag, htag, heq⟩ := tagNameExists_iff.mp hname
  refine tagNameExists_iff.mpr ⟨tag, (mem_listTags_insert h).mpr (.inr ⟨htag, ?_⟩), heq⟩
  rintro rfl
  rw [mem_listTags.mp htag] at hfresh
  cases hfresh

structure WritesTag (b : BoardStore) (e : Entity) (b' : BoardStore) (stored : String) : Prop where
  tasks : b'.tasks = b.tasks
  tags : ∃ fields, b'.tags = b.tags.insert e.id fields ∧
    Entity.getStr ⟨"tag", e.id, fields⟩ "tag_name" = some stored

theorem writesTag {files : Attachments} {e : Entity} {name : Json}
    (hname : e.get "tag_name" = some name) (h : b.writeTag files e = .ok b') :
    ∃ stored, validateTagName name = .ok (.string stored) ∧ WritesTag b e b' stored := by
  obtain ⟨e', he', rfl⟩ := exists_of_map h
  have hnames : (tagFields.map FieldDef.name).Nodup := by decide
  have hwritten := written_validateForWrite hnames he'
  have hfield : ⟨"tag_name", .plain, some (.string "new-tag"), some validateTagName⟩ ∈ tagFields :=
    List.mem_cons_self
  have hstored := hwritten.field _ hfield
  rw [hname] at hstored
  cases hvalid : validateTagName name with
  | error message =>
    have hfail : storedValue files b ⟨"tag_name", .plain, some (.string "new-tag"),
        some validateTagName⟩ (some name) = .error (.validationFailed "tag_name" message) := by
      simp [storedValue, strippedValue, defaultedValue, attachedValue, checkedValue, checkField,
        hvalid, bind, Except.bind]
    rw [hfail] at hstored
    cases hstored
  | ok value =>
    obtain ⟨-, stored, -, rfl⟩ := validateTagName_string hvalid
    refine ⟨stored, rfl, rfl, e'.fields, by rw [← hwritten.id], ?_⟩
    have hsome : storedValue files b ⟨"tag_name", .plain, some (.string "new-tag"),
        some validateTagName⟩ (some name) = .ok (some (.string stored)) := by
      simp [storedValue, strippedValue, defaultedValue, attachedValue, checkedValue, checkField,
        hvalid, bind, Except.bind]
    rw [hsome] at hstored
    have hget : e'.get "tag_name" = some (.string stored) := (Except.ok.inj hstored).symm
    rw [Entity.get] at hget
    rw [Entity.getStr, Entity.get, hget]
    rfl

theorem slugOf_of_name {stored : String} (h : t.getStr "tag_name" = some stored) :
    slugOf t = normalizeSlug stored.toList := by
  rw [slugOf, tagName, h]
  rfl

end

section

variable {env : Env} {b b' : BoardStore} {e t : Entity} {id stored : String}

theorem listTags_congr (h : b'.tags = b.tags) : b'.listTags = b.listTags := by
  rw [BoardStore.listTags, BoardStore.listTags, h]

theorem tag?_congr (h : b'.tags = b.tags) (id : String) : b'.tag? id = b.tag? id := by
  rw [BoardStore.tag?, BoardStore.tag?, h]

theorem task?_congr (h : b'.tasks = b.tasks) (id : String) : b'.task? id = b.task? id := by
  rw [BoardStore.task?, BoardStore.task?, h]

theorem tagNameExists_congr (h : b'.tags = b.tags) (name : List Char) :
    tagNameExists b' name = tagNameExists b name := by
  rw [tagNameExists, tagNameExists, findTagByName, findTagByName, listTags_congr h]

theorem oneTagPerSlug_congr (h : b'.tags = b.tags) (hb : OneTagPerSlug b) : OneTagPerSlug b' := by
  unfold OneTagPerSlug
  rw [listTags_congr h]
  exact hb

def Named (b : BoardStore) : Prop := ∀ t ∈ b.listTags, ∃ name, t.getStr "tag_name" = some name

theorem named_congr (h : b'.tags = b.tags) (hb : Named b) : Named b' := by
  unfold Named
  rw [listTags_congr h]
  exact hb

theorem WritesTag.oneTagPerSlug (h : WritesTag b e b' stored) (hb : OneTagPerSlug b)
    (hnew : ∀ tag ∈ b.listTags, tag.id ≠ e.id → slugOf tag ≠ normalizeSlug stored.toList) :
    OneTagPerSlug b' := by
  obtain ⟨fields, htags, hname⟩ := h.tags
  refine hb.insert htags fun tag htag hid => ?_
  rw [slugOf_of_name hname]
  exact hnew tag htag hid

theorem WritesTag.named (h : WritesTag b e b' stored) (hb : Named b) : Named b' := by
  obtain ⟨fields, htags, hname⟩ := h.tags
  intro t ht
  rcases (mem_listTags_insert htags).mp ht with rfl | ⟨ht, -⟩
  · exact ⟨stored, hname⟩
  · exact hb t ht

theorem WritesTag.known (h : WritesTag b e b' stored) : tagNameExists b' stored.toList = true := by
  obtain ⟨fields, htags, hname⟩ := h.tags
  refine tagNameExists_iff.mpr ⟨_, (mem_listTags_insert htags).mpr (.inl rfl), ?_⟩
  rw [hname, String.ofList_toList]

theorem WritesTag.tagNameExists (h : WritesTag b e b' stored) (hfresh : b.tag? e.id = none)
    {name : List Char} (hname : tagNameExists b name = true) : tagNameExists b' name = true := by
  obtain ⟨fields, htags, -⟩ := h.tags
  exact tagNameExists_insert htags hfresh hname

theorem WritesTag.tag?_of_ne (h : WritesTag b e b' stored) (hid : id ≠ e.id) :
    b'.tag? id = b.tag? id := by
  obtain ⟨fields, htags, -⟩ := h.tags
  rw [BoardStore.tag?, BoardStore.tag?, htags, IndexMap.get?_insert_of_ne hid]

theorem get_newTag (id : String) (name : List Char) (color : String) :
    (newTag id name color).get "tag_name" = some (.string (String.ofList name)) := by
  rw [newTag, Entity.get_set_of_ne (by decide), Entity.get_set_self]

theorem autoCreateTag_spec {tagId : Slug → String} {slug : Slug} (hne : slug ≠ [])
    (hchars : ∀ c ∈ slug, slugChar c = true) (h : autoCreateTag env tagId b slug = .ok b') :
    (tagNameExists b slug = true ∧ b' = b) ∨ (tagNameExists b slug = false ∧
      WritesTag b (newTag (tagId slug) slug (autoColor slug)) b' (String.ofList slug)) := by
  unfold autoCreateTag at h
  split at h
  · rename_i hexists
    exact .inl ⟨hexists, (Except.ok.inj h).symm⟩
  · rename_i hnone
    obtain ⟨stored, hvalid, hwrites⟩ := writesTag (get_newTag _ _ _) (exists_of_mapError h)
    rw [validateTagName_slug hne hchars] at hvalid
    obtain rfl := Json.string.inj (Except.ok.inj hvalid)
    exact .inr ⟨Bool.eq_false_of_not_eq_true hnone, hwrites⟩

theorem mintable_congr {names : List Slug} (h : b'.tags = b.tags) (hb : Mintable b names) :
    Mintable b' names := by
  unfold Mintable
  simp only [listTags_congr h, tagNameExists_congr h]
  exact hb

structure Minting (b : BoardStore) (tagId : Slug → String) (names rest : List Slug)
    (s : BoardStore) : Prop where
  oneTag : OneTagPerSlug s
  named : Named s
  mintable : Mintable s names
  fresh : ∀ slug ∈ rest, s.tag? (tagId slug) = none
  nodup : rest.Nodup
  sub : rest ⊆ names
  known : ∀ slug ∈ names, slug ∈ rest ∨ tagNameExists s slug = true
  tasks : s.tasks = b.tasks

theorem Minting.step {tagId : Slug → String} (hinj : tagId.Injective) {names rest : List Slug}
    (hslugs : ∀ slug ∈ names, slug ≠ [] ∧ ∀ c ∈ slug, slugChar c = true) {slug : Slug}
    {s s' : BoardStore} (hmint : Minting b tagId names (slug :: rest) s)
    (h : autoCreateTag env tagId s slug = .ok s') : Minting b tagId names rest s' := by
  obtain ⟨hnot, hnodup⟩ := List.nodup_cons.mp hmint.nodup
  have hmem : slug ∈ names := hmint.sub List.mem_cons_self
  have hsub : rest ⊆ names := fun x hx => hmint.sub (List.mem_cons_of_mem _ hx)
  obtain ⟨hne, hchars⟩ := hslugs slug hmem
  rcases autoCreateTag_spec hne hchars h with ⟨hexists, rfl⟩ | ⟨hunknown, hwrites⟩
  · refine ⟨hmint.oneTag, hmint.named, hmint.mintable,
      fun x hx => hmint.fresh x (List.mem_cons_of_mem _ hx), hnodup, hsub, fun x hx => ?_,
      hmint.tasks⟩
    rcases hmint.known x hx with hx | hx
    · grind
    · exact .inr hx
  · obtain ⟨hslug, honly⟩ := hmint.mintable slug hmem hunknown
    have hfresh : s.tag? (newTag (tagId slug) slug (autoColor slug)).id = none :=
      hmint.fresh slug List.mem_cons_self
    have hthis : tagNameExists s' slug = true := by
      have hknown := hwrites.known
      rwa [String.toList_ofList] at hknown
    refine ⟨?_, hwrites.named hmint.named, ?_, ?_, hnodup, hsub, ?_,
      hwrites.tasks.trans hmint.tasks⟩
    · refine hwrites.oneTagPerSlug hmint.oneTag fun tag htag _ => ?_
      rw [String.toList_ofList]
      exact hslug tag htag
    · intro name hname hnone
      have hbefore : tagNameExists s name = false := by
        apply Bool.eq_false_of_not_eq_true
        intro hexists
        rw [hwrites.tagNameExists hfresh hexists] at hnone
        cases hnone
      obtain ⟨hother, honlyName⟩ := hmint.mintable name hname hbefore
      refine ⟨fun tag htag => ?_, honlyName⟩
      obtain ⟨fields, htags, hstored⟩ := hwrites.tags
      rcases (mem_listTags_insert htags).mp htag with rfl | ⟨htag, -⟩
      · rw [slugOf_of_name hstored, String.toList_ofList]
        intro heq
        have hsame := honlyName slug hmem heq
        rw [← hsame, hthis] at hnone
        cases hnone
      · exact hother tag htag
    · intro x hx
      have hid : tagId x ≠ tagId slug := fun heq => hnot (hinj heq ▸ hx)
      rw [hwrites.tag?_of_ne hid]
      exact hmint.fresh x (List.mem_cons_of_mem _ hx)
    · intro x hx
      rcases hmint.known x hx with hx | hx
      · grind
      · exact .inr (hwrites.tagNameExists hfresh hx)

theorem minting_autoCreateBodyTags {tagId : Slug → String} (hinj : tagId.Injective)
    (hfresh : ∀ slug, b.tag? (tagId slug) = none) (hb : OneTagPerSlug b) (hnamed : Named b)
    (hmint : Mintable b (parseTags (entityBody e)))
    (h : autoCreateBodyTags env tagId b e = .ok b') :
    Minting b tagId (parseTags (entityBody e)) [] b' := by
  refine foldlM_induction (P := Minting b tagId (parseTags (entityBody e))) ?_ ?_ h
  · intro slug rest s s' hs hstep
    exact hs.step hinj (fun slug hslug => parseTags_slug hslug) hstep
  · exact ⟨hb, hnamed, hmint, fun slug _ => hfresh slug, Finset.sort_nodup _ _,
      List.Subset.refl _, fun slug hslug => .inl hslug, rfl⟩

end

section

variable {env : Env} {b b' : BoardStore} {e t : Entity} {id : String}

theorem entityBody_congr {e' : Entity} (h : e'.get "body" = e.get "body") :
    entityBody e' = entityBody e := by
  rw [entityBody, entityBody, Entity.getStr_congr h]

theorem entityBody_readFields (files : Attachments) (e : Entity) :
    entityBody (readFields files e) = entityBody e :=
  entityBody_congr (get_readFields (by decide))

theorem entityBody_set (e : Entity) (body : List Char) :
    entityBody (e.set "body" (.string (String.ofList body))) = body := by
  rw [entityBody, Entity.getStr, Entity.get_set_self]
  exact String.toList_ofList

structure WritesBody (b : BoardStore) (e : Entity) (b' : BoardStore) : Prop where
  tags : b'.tags = b.tags
  written : ∃ t, b'.task? e.id = some t ∧ entityBody t = entityBody e
  others : ∀ id, id ≠ e.id → b'.task? id = b.task? id

theorem writesBody {files : Attachments} (h : b.writeTask files e = .ok b') :
    WritesBody b e b' := by
  have hinserted := (writesTask h)
  obtain ⟨e', he', rfl⟩ := exists_of_map h
  have hwritten := written_validateForWrite nodup_taskFields he'
  refine ⟨rfl, ⟨⟨"task", e'.id, e'.fields⟩, ?_, ?_⟩, fun id hid => hinserted.task?_of_ne hid⟩
  · rw [← hwritten.id]
    exact task?_insert rfl
  · have hfield : ⟨"body", .plain, some (.string ""), none⟩ ∈ taskFields := by simp [taskFields]
    have hstored := hwritten.field _ hfield
    rw [storedValue_plain] at hstored
    have hget : e'.get "body" = (e.get "body").or (some (.string "")) :=
      (Except.ok.inj hstored).symm
    cases hbody : e.get "body" with
    | none =>
      rw [hbody] at hget
      have hsame : Entity.getStr ⟨"task", e'.id, e'.fields⟩ "body" = some "" := by
        rw [Entity.getStr]
        change (e'.get "body").bind Json.asStr = some ""
        rw [hget]
        rfl
      rw [entityBody, entityBody, hsame, Entity.getStr, hbody]
      rfl
    | some value =>
      rw [hbody] at hget
      have hsame : Entity.get ⟨"task", e'.id, e'.fields⟩ "body" = e.get "body" :=
        hget.trans hbody.symm
      exact entityBody_congr hsame

structure Edited (edit : List Char → List Char) (b s : BoardStore) : Prop where
  tags : s.tags = b.tags
  bodies : ∀ id task, b.task? id = some task → ∃ task', s.task? id = some task' ∧
    (entityBody task' = entityBody task ∨ entityBody task' = edit (entityBody task))

theorem Edited.step {edit : List Char → List Char} {s s' : BoardStore} (h : Edited edit b s)
    (ht : ∃ u, b.task? t.id = some u ∧ entityBody u = entityBody t)
    (hstep : editBody env edit s t = .ok s') : Edited edit b s' := by
  unfold editBody at hstep
  dsimp only at hstep
  split at hstep
  · rwa [← Except.ok.inj hstep]
  · have hwrites := writesBody (exists_of_mapError hstep)
    refine ⟨hwrites.tags.trans h.tags, fun id task htask => ?_⟩
    by_cases hid : id = t.id
    · subst hid
      obtain ⟨task', htask', hbody⟩ := hwrites.written
      obtain ⟨u, hu, hsame⟩ := ht
      rw [htask] at hu
      obtain rfl := Option.some.inj hu
      refine ⟨task', htask', .inr ?_⟩
      rw [hbody, entityBody_set, hsame]
    · rw [hwrites.others id hid]
      exact h.bodies id task htask

theorem edited_editBodies {edit : List Char → List Char} {tasks : List Entity}
    (htasks : ∀ t ∈ tasks, ∃ u, b.task? t.id = some u ∧ entityBody u = entityBody t)
    {s : BoardStore} (h : Edited edit b s) : Edited edit b (editBodies env edit tasks s).2 := by
  induction tasks generalizing s with
  | nil => exact h
  | cons t tasks ih =>
    obtain ⟨ht, hrest⟩ := List.forall_mem_cons.mp htasks
    rw [editBodies]
    cases hstep : editBody env edit s t with
    | error err => exact h
    | ok s' => exact ih hrest (h.step ht hstep)

theorem edited_applyTagEditToAllTasks (env : Env) (edit : List Char → List Char) (b : BoardStore) :
    Edited edit b (applyTagEditToAllTasks env edit b).2 := by
  apply edited_editBodies
  · intro t ht
    obtain ⟨u, hu, rfl⟩ := List.mem_map.mp ht
    refine ⟨u, ?_, (entityBody_readFields _ _).symm⟩
    rw [id_readFields]
    exact mem_listTasks.mp hu
  · exact ⟨rfl, fun id task htask => ⟨task, htask, .inl rfl⟩⟩

end

section

variable {env : Env} {draws : Draws} {b b' : BoardStore} {e e' : Entity} {id : String}

theorem id_setString (e : Entity) (field : String) (value : Option String) :
    (setString e field value).id = e.id := by
  cases value <;> rfl

theorem id_elim_set (e : Entity) {α : Type} (value : Option α) (field : String) (f : α → Json) :
    (value.elim e fun a => e.set field (f a)).id = e.id := by
  cases value <;> rfl

theorem id_applyOptionalDate {field : String} {value : Option (Option String)}
    (h : applyOptionalDate env e field value = .ok e') : e'.id = e.id := by
  unfold applyOptionalDate at h
  split at h
  · rw [← Except.ok.inj h]
  · rw [← Except.ok.inj h]
    rfl
  · split at h
    · rw [← Except.ok.inj h]
      rfl
    · obtain ⟨date, -, rfl⟩ := exists_of_map h
      rfl

theorem id_applyTagRefs {tags : List Entity} {refs : List String} {mode : TagApply}
    (h : applyTagRefs env tags e refs mode = .ok e') : e'.id = e.id := by
  unfold applyTagRefs at h
  split at h
  · rw [← Except.ok.inj h]
  · obtain ⟨slugs, -, h⟩ := exists_of_bind h
    obtain ⟨body, -, h⟩ := exists_of_bind h
    rw [← Except.ok.inj h]
    split
    · rfl
    · rfl

theorem id_buildEntity {cmd : UpdateTask} (h : cmd.buildEntity env b = .ok e) :
    e.id = cmd.id := by
  obtain ⟨e₀, hread, h⟩ := exists_of_bind h
  obtain ⟨e₁, happly, h⟩ := exists_of_bind h
  have hid₀ : e₀.id = cmd.id := by
    unfold readTask at hread
    split at hread
    · rename_i stored hstored
      rw [← Except.ok.inj hread, id_readFields, id_of_task? hstored]
    · cases hread
  have hid₁ : e₁.id = e₀.id := by
    obtain ⟨e₂, hdue, hscheduled⟩ := exists_of_bind happly
    rw [id_applyOptionalDate hscheduled, id_applyOptionalDate hdue, id_setString,
      id_elim_set _ _ _ fun value => value, id_elim_set, id_elim_set, id_setString, id_setString]
  cases htags : cmd.tags with
  | none =>
    rw [htags] at h
    rw [← Except.ok.inj h, hid₁, hid₀]
  | some refs =>
    rw [htags] at h
    rw [id_applyTagRefs h, hid₁, hid₀]

theorem persist_spec (hfresh : (∀ slug, b.tag? (draws.tagId slug) = none) ∧ draws.tagId.Injective)
    (hb : OneTagPerSlug b) (hnamed : Named b) (hmint : Mintable b (parseTags (entityBody e)))
    (h : persist env draws b e = .ok b') :
    OneTagPerSlug b' ∧ Named b' ∧ Tagged b' e.id ∧ ∀ id, id ≠ e.id → b'.task? id = b.task? id := by
  obtain ⟨b₁, hwrite, h⟩ := exists_of_bind h
  have hwrites := writesBody (exists_of_mapError hwrite)
  have hfresh₁ : ∀ slug, b₁.tag? (draws.tagId slug) = none := by
    intro slug
    rw [tag?_congr hwrites.tags]
    exact hfresh.1 slug
  have hminting := minting_autoCreateBodyTags hfresh.2 hfresh₁
    (oneTagPerSlug_congr hwrites.tags hb) (named_congr hwrites.tags hnamed)
    (mintable_congr hwrites.tags hmint) h
  refine ⟨hminting.oneTag, hminting.named, fun task htask slug hslug => ?_, fun id hid => ?_⟩
  · obtain ⟨t, ht, hbody⟩ := hwrites.written
    rw [task?_congr hminting.tasks, ht] at htask
    obtain rfl := Option.some.inj htask
    refine List.mem_filter.mpr ⟨hslug, ?_⟩
    rw [hbody] at hslug
    exact (hminting.known slug hslug).resolve_left List.not_mem_nil
  · rw [task?_congr hminting.tasks]
    exact hwrites.others id hid

end

section

variable {env : Env} {b b' : BoardStore} {id : String}

theorem addTask_keeps {cmd : AddTask} {draws : Draws} {out : Json}
    (hfresh : TagOp.Fresh b (.addTask cmd draws)) (hb : OneTagPerSlug b) (hnamed : Named b)
    (hmeets : TagOp.Meets env b (.addTask cmd draws))
    (h : cmd.execute env draws b = .ok (b', out)) :
    OneTagPerSlug b' ∧ Named b' ∧ ∀ id, b.task? id = none → Tagged b' id := by
  obtain ⟨entity, hbuild, h⟩ := exists_of_bind h
  obtain ⟨b₁, hpersist, h⟩ := exists_of_bind h
  obtain ⟨rfl, -⟩ := Prod.mk.inj (Except.ok.inj h)
  obtain ⟨hone, hnamed', htagged, hothers⟩ :=
    persist_spec hfresh hb hnamed (hmeets entity hbuild) hpersist
  refine ⟨hone, hnamed', fun id hid => ?_⟩
  by_cases heq : id = entity.id
  · rw [heq]
    exact htagged
  · intro task htask
    rw [hothers id heq, hid] at htask
    cases htask

theorem updateTask_keeps {cmd : UpdateTask} {draws : Draws} {out : Json}
    (hfresh : TagOp.Fresh b (.updateTask cmd draws)) (hb : OneTagPerSlug b) (hnamed : Named b)
    (hmeets : TagOp.Meets env b (.updateTask cmd draws))
    (h : cmd.execute env draws b = .ok (b', out)) :
    OneTagPerSlug b' ∧ Named b' ∧ Tagged b' cmd.id := by
  obtain ⟨entity, hbuild, h⟩ := exists_of_bind h
  obtain ⟨b₁, hpersist, h⟩ := exists_of_bind h
  obtain ⟨rfl, -⟩ := Prod.mk.inj (Except.ok.inj h)
  obtain ⟨hone, hnamed', htagged, -⟩ :=
    persist_spec hfresh hb hnamed (hmeets entity hbuild) hpersist
  rw [id_buildEntity hbuild] at htagged
  exact ⟨hone, hnamed', htagged⟩

theorem get_setString {e : Entity} {field name : String} {value : Option String}
    (h : name ≠ field) : (setString e field value).get name = e.get name := by
  cases value with
  | none => rfl
  | some value => exact Entity.get_set_of_ne h e _

theorem writeBoardTag_spec (env : Env) (b : BoardStore) {e : Entity} {name : Json}
    (hname : e.get "tag_name" = some name) :
    (writeBoardTag env e b).2 = b ∨ ∃ stored, validateTagName name = .ok (.string stored) ∧
      WritesTag b e (writeBoardTag env e b).2 stored := by
  unfold writeBoardTag
  cases hwrite : b.writeTag env.files e with
  | error err => exact .inl rfl
  | ok b₁ =>
    right
    exact writesTag hname hwrite

theorem addTag_keeps {cmd : AddTag} {tagId : String} (hb : OneTagPerSlug b) (hnamed : Named b)
    (hmeets : TagOp.Meets env b (.addTag cmd tagId)) :
    OneTagPerSlug (cmd.execute env tagId b).2 ∧ Named (cmd.execute env tagId b).2 := by
  unfold AddTag.execute
  cases hfind : findTagByName b cmd.name.toList with
  | some existing => exact ⟨hb, hnamed⟩
  | none =>
    have hget : (setString (newTag tagId cmd.name.toList
        (cmd.color.getD (autoColor cmd.name.toList))) "description" cmd.description).get
          "tag_name" = some (.string cmd.name) := by
      rw [get_setString (by decide), get_newTag, String.ofList_toList]
    rcases writeBoardTag_spec env b hget with hsame | ⟨stored, hvalid, hwrites⟩
    · rw [hsame]
      exact ⟨hb, hnamed⟩
    · refine ⟨hwrites.oneTagPerSlug hb fun tag htag _ => ?_, hwrites.named hnamed⟩
      exact hmeets hfind stored hvalid tag htag

theorem validateTagName_normalized {raw : List Char} {stored : String}
    (h : validateTagName (.string (String.ofList (normalizeSlug raw))) = .ok (.string stored)) :
    stored.toList = normalizeSlug raw := by
  by_cases hne : normalizeSlug raw = []
  · rw [hne] at h
    cases h
  · rw [validateTagName_slug hne (normalizeSlug_chars raw)] at h
    rw [← Json.string.inj (Except.ok.inj h), String.toList_ofList]

theorem WritesTag.normalized {e : Entity} {raw : List Char} {stored : String}
    (h : WritesTag b e b' stored) (hstored : stored.toList = normalizeSlug raw)
    (hb : OneTagPerSlug b)
    (hnew : ∀ tag ∈ b.listTags, tag.id ≠ e.id → slugOf tag ≠ normalizeSlug raw) :
    OneTagPerSlug b' := by
  apply h.oneTagPerSlug hb
  rw [hstored, normalizeSlug_idem]
  exact hnew

theorem get_of_getStr {e : Entity} {field name : String} (h : e.getStr field = some name) :
    e.get field = some (.string name) := by
  obtain ⟨value, hget, hstr⟩ := Option.bind_eq_some_iff.mp h
  cases value with
  | string s =>
    rw [hget]
    exact congrArg (fun s => some (Json.string s)) (Option.some.inj hstr)
  | _ => cases hstr

theorem rename_spec {name : String} {color description : Option String} {stored entity : Entity}
    {b₁ : BoardStore} (hb : OneTagPerSlug b) (hnamed : Named b)
    (hmeets : TagOp.Meets env b (.updateTag id name color description))
    (hstored : b.tag? id = some stored)
    (h : UpdateTag.rename env ⟨id, some name, color, description⟩ stored b = (.ok entity, b₁)) :
    b₁.tags = b.tags ∧ entity.id = id ∧
      entity.get "tag_name" = some (.string (String.ofList (normalizeSlug name.toList))) ∧
      ∀ tag ∈ b.listTags, tag.id ≠ id → slugOf tag ≠ normalizeSlug name.toList := by
  have hid : stored.id = id := id_of_tag? hstored
  have hmem : stored ∈ b.listTags := mem_listTags.mpr (hid ▸ hstored)
  obtain ⟨old, hold⟩ := hnamed stored hmem
  have hname : tagName stored = old.toList := by
    rw [tagName, hold]
    rfl
  unfold UpdateTag.rename at h
  dsimp only at h
  split at h
  · rename_i hsame
    obtain ⟨heq, rfl⟩ := Prod.mk.inj h
    obtain rfl := Except.ok.inj heq
    refine ⟨rfl, hid, ?_, fun tag htag hne hslug => ?_⟩
    · rw [get_of_getStr hold, hsame, hname, String.ofList_toList]
    · have hthis : slugOf stored = normalizeSlug name.toList := by
        rw [slugOf, ← hsame, normalizeSlug_idem]
      exact hne ((hb tag htag stored hmem (hslug.trans hthis.symm)).trans hid)
  · rename_i hdiffers
    split at h
    · cases (Prod.mk.inj h).1
    · rename_i hfree
      have hedited := edited_applyTagEditToAllTasks env
        (renameTag · (slugOf stored) (normalizeSlug name.toList)) b
      split at h
      · cases (Prod.mk.inj h).1
      · rename_i b₂ heq
        obtain ⟨hentity, rfl⟩ := Prod.mk.inj h
        obtain rfl := Except.ok.inj hentity
        rw [heq] at hedited
        refine ⟨hedited.tags, hid, Entity.get_set_self .., fun tag htag hne hslug => ?_⟩
        have hexact := hmeets tag htag hne hslug
        unfold findTagByName at hfree
        cases hfind : b.listTags.find? fun tag => decide (tag.getStr "tag_name" =
            some (String.ofList (normalizeSlug name.toList))) with
        | none =>
          grind
        | some existing =>
          have hfound := List.find?_some hfind
          have hsomeName := of_decide_eq_true hfound
          rw [hfind] at hfree
          have hself : existing.id = id := by
            by_contra hother
            exact hfree (decide_eq_true hother)
          have hthere := mem_listTags.mp (List.mem_of_find?_eq_some hfind)
          rw [hself, hstored] at hthere
          obtain rfl := Option.some.inj hthere
          rw [hold] at hsomeName
          apply hdiffers
          rw [hname, Option.some.inj hsomeName, String.toList_ofList]

theorem rename_error {cmd : UpdateTag} {stored : Entity} {err : TagError} {b₁ : BoardStore}
    (h : cmd.rename env stored b = (.error err, b₁)) : b₁.tags = b.tags := by
  unfold UpdateTag.rename at h
  split at h
  · cases (Prod.mk.inj h).1
  · rename_i name hname
    dsimp only at h
    have hedited := edited_applyTagEditToAllTasks env
      (renameTag · (slugOf stored) (normalizeSlug name.toList)) b
    split at h
    · cases (Prod.mk.inj h).1
    · split at h
      · rw [← (Prod.mk.inj h).2]
      · split at h
        · rename_i b₂ heq
          rw [heq] at hedited
          rw [← (Prod.mk.inj h).2]
          exact hedited.tags
        · cases (Prod.mk.inj h).1

theorem updateTag_keeps {name : String} {color description : Option String}
    (hb : OneTagPerSlug b) (hnamed : Named b)
    (hmeets : TagOp.Meets env b (.updateTag id name color description)) :
    OneTagPerSlug (UpdateTag.execute env ⟨id, some name, color, description⟩ b).2 ∧
      Named (UpdateTag.execute env ⟨id, some name, color, description⟩ b).2 := by
  unfold UpdateTag.execute
  cases hstored : b.tag? id with
  | none => exact ⟨hb, hnamed⟩
  | some stored =>
    dsimp only
    cases hrename : UpdateTag.rename env ⟨id, some name, color, description⟩ stored b with
    | mk result b₁ =>
      cases result with
      | error err =>
        have htags := rename_error hrename
        exact ⟨oneTagPerSlug_congr htags hb, named_congr htags hnamed⟩
      | ok entity =>
        obtain ⟨htags, hid, hget, hnew⟩ := rename_spec hb hnamed hmeets hstored hrename
        have hb₁ := oneTagPerSlug_congr htags hb
        have hnamed₁ := named_congr htags hnamed
        have hset : (setString (setString entity "color" color) "description" description).get
            "tag_name" = some (.string (String.ofList (normalizeSlug name.toList))) := by
          rw [get_setString (by decide), get_setString (by decide), hget]
        rcases writeBoardTag_spec env b₁ hset with hsame | ⟨s, hvalid, hwrites⟩
        · rw [hsame]
          exact ⟨hb₁, hnamed₁⟩
        · refine ⟨hwrites.normalized (validateTagName_normalized hvalid) hb₁ ?_,
            hwrites.named hnamed₁⟩
          rw [listTags_congr htags, id_setString, id_setString, hid]
          exact hnew

theorem deleteTag_keeps (hb : OneTagPerSlug b) (hnamed : Named b)
    (hmeets : TagOp.Meets env b (.deleteTag id)) :
    OneTagPerSlug (deleteTag env id b).2 ∧ Named (deleteTag env id b).2 ∧
      ((b.tag? id).isSome = true → MarkersKept b id (deleteTag env id b).2) := by
  unfold deleteTag
  cases htag : b.tag? id with
  | none => exact ⟨hb, hnamed, fun h => by cases h⟩
  | some tag =>
    have hid := id_of_tag? htag
    have hmem : tag ∈ b.listTags := mem_listTags.mpr (hid ▸ htag)
    have hedited := edited_applyTagEditToAllTasks env (removeTag · (slugOf tag)) b
    have hkept : ∀ s : BoardStore, s.tasks =
        (applyTagEditToAllTasks env (removeTag · (slugOf tag)) b).2.tasks → MarkersKept b id s := by
      intro s hs other hother hne taskId task htask
      obtain ⟨task', htask', hbody⟩ := hedited.bodies taskId task htask
      refine ⟨task', (task?_congr hs taskId).trans htask', fun slug hslug hin => ?_⟩
      have hdiffers : slug ≠ slugOf tag := by
        intro heq
        apply hne
        rw [← hid]
        apply hb other hother tag hmem
        rcases hslug with hslug | hslug
        · rw [slugOf, ← hslug, heq, slugOf, normalizeSlug_idem]
        · rw [← hslug, heq]
      rcases hbody with hbody | hbody
      · rw [hbody]
        exact hin
      · have htaskId : task.id = taskId := id_of_task? htask
        have hclean := hmeets tag htag task (mem_listTasks.mpr (htaskId ▸ htask))
        rw [hbody, parseTags_removeTag hclean]
        exact List.mem_filter.mpr ⟨hin, decide_eq_true hdiffers⟩
    dsimp only
    cases hwalk : applyTagEditToAllTasks env (removeTag · (slugOf tag)) b with
    | mk result s =>
      rw [hwalk] at hedited hkept
      cases result with
      | error err =>
        exact ⟨oneTagPerSlug_congr hedited.tags hb, named_congr hedited.tags hnamed,
          fun _ => hkept s rfl⟩
      | ok _ =>
        have hsub : ∀ t ∈ BoardStore.listTags { s with tags := s.tags.shiftRemove id },
            t ∈ b.listTags := by
          intro t ht
          rw [← listTags_congr hedited.tags]
          obtain ⟨entry, hentry, rfl⟩ := List.mem_map.mp ht
          exact List.mem_map.mpr ⟨entry, List.mem_of_mem_filter hentry, rfl⟩
        exact ⟨fun t ht u hu => hb t (hsub t ht) u (hsub u hu), fun t ht => hnamed t (hsub t ht),
          fun _ => hkept _ rfl⟩

theorem mint_spec {data : ClipboardData} {raw : List Char} {tagId : String}
    (hfresh : b.tag? tagId = none) (hb : OneTagPerSlug b) (hnamed : Named b)
    (hmint : Mintable b [normalizeSlug raw])
    (h : PasteTag.mint env data (normalizeSlug raw) tagId b = .ok b') :
    OneTagPerSlug b' ∧ Named b' ∧ b'.tasks = b.tasks ∧
      tagNameExists b' (normalizeSlug raw) = true ∧
      ∀ name, tagNameExists b name = true → tagNameExists b' name = true := by
  unfold PasteTag.mint at h
  split at h
  · grind
  · rename_i hnone
    have hget : (setString (newTag tagId (normalizeSlug raw)
        ((clipboardString data "color").getD (autoColor (normalizeSlug raw)))) "description"
          (clipboardString data "description")).get "tag_name" =
            some (.string (String.ofList (normalizeSlug raw))) := by
      rw [get_setString (by decide), get_newTag]
    obtain ⟨stored, hvalid, hwrites⟩ := writesTag hget (exists_of_mapError (exists_of_mapError h))
    have hstored := validateTagName_normalized hvalid
    have hslug := (hmint _ List.mem_cons_self (Bool.eq_false_of_not_eq_true hnone)).1
    rw [normalizeSlug_idem] at hslug
    have hknown := hwrites.known
    rw [hstored] at hknown
    refine ⟨hwrites.normalized hstored hb fun tag htag _ => hslug tag htag, hwrites.named hnamed,
      hwrites.tasks, hknown, fun name hname => hwrites.tagNameExists ?_ hname⟩
    rw [id_setString]
    exact hfresh

theorem append_keeps {taskId : String} {slug : Slug} {task : Entity} (hb : OneTagPerSlug b)
    (hnamed : Named b) (htask : b.task? taskId = some task)
    (htags : ∀ s ∈ parseTags (appendTag (entityBody task) slug), tagNameExists b s = true) :
    OneTagPerSlug (PasteTag.append env taskId slug b).2 ∧
      Named (PasteTag.append env taskId slug b).2 ∧
      ((PasteTag.append env taskId slug b).1.isOk = true →
        Tagged (PasteTag.append env taskId slug b).2 taskId) := by
  unfold PasteTag.append
  rw [htask]
  dsimp only
  cases hwrite : b.writeTask env.files ((readFields env.files task).set "body"
      (.string (String.ofList (appendTag (entityBody (readFields env.files task)) slug)))) with
  | error err => exact ⟨hb, hnamed, fun h => by cases h⟩
  | ok b₁ =>
    have hwrites := writesBody hwrite
    refine ⟨oneTagPerSlug_congr hwrites.tags hb, named_congr hwrites.tags hnamed,
      fun _ t ht s hs => List.mem_filter.mpr ⟨hs, ?_⟩⟩
    obtain ⟨u, hu, hbody⟩ := hwrites.written
    rw [show Entity.id (Entity.set _ _ _) = taskId from
      (id_readFields env.files task).trans (id_of_task? htask)] at hu
    obtain rfl := Option.some.inj (hu.symm.trans ht)
    rw [hbody, entityBody_set, entityBody_readFields] at hs
    rw [tagNameExists_congr hwrites.tags]
    exact htags s hs

theorem pasteTag_keeps {cmd : PasteTag} {tagId : String} (hfresh : b.tag? tagId = none)
    (hb : OneTagPerSlug b) (hnamed : Named b) (hmeets : TagOp.Meets env b (.pasteTag cmd tagId)) :
    OneTagPerSlug (cmd.execute env tagId b).2 ∧ Named (cmd.execute env tagId b).2 ∧
      ((cmd.execute env tagId b).1.isOk = true →
        Tagged (cmd.execute env tagId b).2 cmd.taskId) := by
  unfold PasteTag.execute
  cases hclipboard : cmd.clipboard with
  | none => exact ⟨hb, hnamed, fun h => by cases h⟩
  | some data =>
    dsimp only
    split
    · exact ⟨hb, hnamed, fun h => by cases h⟩
    · cases hname : clipboardString data "tag_name" with
      | none => exact ⟨hb, hnamed, fun h => by cases h⟩
      | some name =>
        have hslug : normalizeSlug name.toList ∈ cmd.slug := by
          rw [PasteTag.slug, hclipboard, Option.bind_some, hname]
          rfl
        cases htask : b.task? cmd.taskId with
        | none => exact ⟨hb, hnamed, fun h => by cases h⟩
        | some task =>
          obtain ⟨hmint, htags⟩ := hmeets _ hslug task htask
          dsimp only
          split
          · rename_i hthere
            obtain ⟨hin, hexists⟩ := List.mem_filter.mp hthere
            rw [appendTag, if_pos hin] at htags
            refine ⟨hb, hnamed, fun _ t ht s hs => List.mem_filter.mpr ⟨hs, ?_⟩⟩
            obtain rfl := Option.some.inj (htask.symm.trans ht)
            rcases htags s hs with rfl | hknown
            · exact hexists
            · exact hknown
          · cases hminted : PasteTag.mint env data (normalizeSlug name.toList) tagId b with
            | error err => exact ⟨hb, hnamed, fun h => by cases h⟩
            | ok b₁ =>
              obtain ⟨hb₁, hnamed₁, htasks, hknown, hkeeps⟩ :=
                mint_spec hfresh hb hnamed hmint hminted
              apply append_keeps hb₁ hnamed₁ ((task?_congr htasks cmd.taskId).trans htask)
              intro s hs
              rcases htags s hs with rfl | hs
              · exact hknown
              · exact hkeeps s hs

end

end SwissArmyHammer.Kanban

/-! Runs of tag operations from an empty board. -/

namespace SwissArmyHammer.Kanban

open Entities

section

variable {env : Env} {b b' : BoardStore} {op : TagOp}

theorem TagOp.step_keeps (hb : OneTagPerSlug b) (hnamed : Named b) (hfresh : op.Fresh b)
    (hmeets : op.Meets env b) (h : TagOp.Step env b op b') :
    (OneTagPerSlug b' ∧ Named b') ∧ op.Keeps env b b' := by
  obtain rfl : b' = (op.run env b).2 := h
  cases op with
  | addTag cmd tagId =>
    have hkept := addTag_keeps hb hnamed hmeets
    exact ⟨hkept, hkept.1, fun _ id hon => hon.elim, fun id hid => by cases hid⟩
  | updateTag id name color description =>
    have hkept := updateTag_keeps hb hnamed hmeets
    exact ⟨hkept, hkept.1, fun _ id hon => hon.elim, fun id hid => by cases hid⟩
  | addTask cmd draws =>
    unfold TagOp.Keeps TagOp.run
    dsimp only
    cases hexecute : cmd.execute env draws b with
    | error err =>
      exact ⟨⟨hb, hnamed⟩, hb, (fun h => by cases h), fun id hid => by cases hid⟩
    | ok result =>
      obtain ⟨hone, hnamed', htagged⟩ := addTask_keeps hfresh hb hnamed hmeets hexecute
      exact ⟨⟨hone, hnamed'⟩, hone, fun _ id hon => htagged id hon, fun id hid => by cases hid⟩
  | updateTask cmd draws =>
    unfold TagOp.Keeps TagOp.run
    dsimp only
    cases hexecute : cmd.execute env draws b with
    | error err =>
      exact ⟨⟨hb, hnamed⟩, hb, (fun h => by cases h), fun id hid => by cases hid⟩
    | ok result =>
      obtain ⟨hone, hnamed', htagged⟩ := updateTask_keeps hfresh hb hnamed hmeets hexecute
      refine ⟨⟨hone, hnamed'⟩, hone, fun _ id hon => ?_, fun id hid => by cases hid⟩
      rw [show id = cmd.id from hon]
      exact htagged
  | pasteTag cmd tagId =>
    obtain ⟨hone, hnamed', htagged⟩ := pasteTag_keeps hfresh hb hnamed hmeets
    refine ⟨⟨hone, hnamed'⟩, hone, fun hok id hon => ?_, fun id hid => by cases hid⟩
    rw [show id = cmd.taskId from hon]
    exact htagged hok
  | deleteTag id =>
    obtain ⟨hone, hnamed', hkept⟩ := deleteTag_keeps hb hnamed hmeets
    refine ⟨⟨hone, hnamed'⟩, hone, fun _ id hon => hon.elim, fun other hid hsome => ?_⟩
    obtain rfl := TagOp.deleteTag.inj hid
    exact hkept hsome

/-- From a board without tags, operations that meet their conditions keep one tag for each slug. -/
theorem one_tag_per_slug {steps : List (TagOp × BoardStore)} (hempty : b.tags = .empty)
    (h : Trace (TagOp.Step env) b steps) (hfresh : Trace.Every (fun b op _ => op.Fresh b) b steps)
    (hmeets : Trace.Every (fun b op _ => op.Meets env b) b steps) :
    Trace.Every (fun b op b' => op.Keeps env b b') b steps := by
  have hnone : b.listTags = [] := by rw [BoardStore.listTags, hempty]; rfl
  refine Trace.every_of_invariant (I := fun b => OneTagPerSlug b ∧ Named b)
    (G := fun b op => op.Fresh b ∧ op.Meets env b) ?_ h ⟨?_, ?_⟩ (hfresh.and hmeets)
  · intro b op b' hb hboth hstep
    exact TagOp.step_keeps hb.1 hb.2 hboth.1 hboth.2 hstep
  · unfold OneTagPerSlug
    rw [hnone]
    exact fun t ht => absurd ht List.not_mem_nil
  · unfold Named
    rw [hnone]
    exact fun t ht => absurd ht List.not_mem_nil

end

def tagRun (tag : String) (op : TagOp) : List (TagOp × BoardStore) :=
  Trace.record (fun b op => some (op.run sampleEnv b).2) sampleBoard
    [.addTag ⟨tag, none, none⟩ "tag-1", op]

theorem trace_tagRun (tag : String) (op : TagOp) :
    Trace (TagOp.Step sampleEnv) sampleBoard (tagRun tag op) :=
  (Trace.trace_record _ _ _).mono fun _ _ _ h => (Option.some.inj h).symm

def bugBoard : BoardStore :=
  (AddTag.execute sampleEnv ⟨"bug", none, none⟩ "tag-1" sampleBoard).2

def addWalls : AddTask := { sampleTask "Walls" [] with description := some "Fix #bug and #wall" }

def wallDraws : Draws := ⟨["01JAAAAAAAAAAAAAAAAAAAAAAA"], fun slug => String.ofList ('#' :: slug)⟩

theorem fresh_addWalls : TagOp.Fresh bugBoard (.addTask addWalls wallDraws) := by
  have hkeys : bugBoard.tags.entries.map Prod.fst = ["tag-1"] := by decide
  constructor
  · intro slug
    rw [BoardStore.tag?]
    cases hget : bugBoard.tags.get? (wallDraws.tagId slug) with
    | none => rfl
    | some fields =>
      have hmem := List.mem_map_of_mem (f := Prod.fst) (IndexMap.get?_eq_some_iff.mp hget)
      have hchars := congrArg String.toList (List.mem_singleton.mp hmem)
      rw [wallDraws, String.toList_ofList] at hchars
      have hhead : '#' = 't' := (List.cons.inj hchars).1
      exact absurd hhead (by decide)
  · intro a b h
    exact (List.cons.inj (String.ofList_injective h)).2

theorem meets_addWalls : TagOp.Meets sampleEnv bugBoard (.addTask addWalls wallDraws) := by
  intro entity h
  have hslugs : (addWalls.buildEntity sampleEnv wallDraws bugBoard).toOption.map (fun entity =>
      (markdownLines (entityBody entity)).flatMap MarkdownLine.tags) =
        some [['b', 'u', 'g'], ['w', 'a', 'l', 'l']] := by
    decide +kernel
  rw [h] at hslugs
  have hmint : Mintable bugBoard [['b', 'u', 'g'], ['w', 'a', 'l', 'l']] := by
    unfold Mintable
    decide
  rw [← Option.some.inj hslugs] at hmint
  have hsub : ∀ name ∈ parseTags (entityBody entity),
      name ∈ (markdownLines (entityBody entity)).flatMap MarkdownLine.tags :=
    fun name hname => List.mem_toFinset.mp ((Finset.mem_sort _).mp hname)
  intro name hname hnone
  obtain ⟨hslug, honly⟩ := hmint name (hsub name hname) hnone
  exact ⟨hslug, fun other hother => honly other (hsub other hother)⟩

theorem one_tag_per_slug_bug_wall : Trace.Every (fun b op b' => op.Keeps sampleEnv b b')
    sampleBoard (tagRun "bug" (.addTask addWalls wallDraws)) :=
  one_tag_per_slug rfl (trace_tagRun _ _) ⟨rfl, fresh_addWalls, trivial⟩
    ⟨fun _ _ _ _ htag => absurd htag List.not_mem_nil, meets_addWalls, trivial⟩

theorem v2_has_two_tags :
    Trace (TagOp.Step sampleEnv) sampleBoard (tagRun "v2.0" (.addTag ⟨"v2-0", none, none⟩ "tag-2")) ∧
      Trace.Every (fun b op _ => op.Fresh b) sampleBoard
        (tagRun "v2.0" (.addTag ⟨"v2-0", none, none⟩ "tag-2")) ∧
      ¬ Trace.Every (fun b op b' => op.Keeps sampleEnv b b') sampleBoard
        (tagRun "v2.0" (.addTag ⟨"v2-0", none, none⟩ "tag-2")) := by
  have hfresh : (AddTag.execute sampleEnv ⟨"v2.0", none, none⟩ "tag-1" sampleBoard).2.tags.get?
      "tag-2" = none := by
    decide
  refine ⟨trace_tagRun _ _, ⟨rfl, ?_, trivial⟩, fun h => ?_⟩
  · exact congrArg (Option.map _) hfresh
  · have hone : OneTagPerSlug (Trace.after sampleBoard
        (tagRun "v2.0" (.addTag ⟨"v2-0", none, none⟩ "tag-2"))) := h.2.1.1
    revert hone
    unfold OneTagPerSlug
    decide

end SwissArmyHammer.Kanban
