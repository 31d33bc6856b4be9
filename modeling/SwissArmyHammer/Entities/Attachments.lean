import SwissArmyHammer.Common.Traces
import SwissArmyHammer.Entities.Codec
import SwissArmyHammer.Store.Records

/-! The directory of an entity type with its attachments, and the operations that move both. -/

namespace SwissArmyHammer.Entities

open Store

abbrev Bytes := List UInt8

structure AttachmentField where
  name : String
  maxBytes : Nat
  multiple : Bool

inductive AttachmentError
  | sourceNotFound (path : String)
  | tooLarge (field : String) (size maxBytes : Nat)
  | notFound (field filename : String)
  | validationFailed (message : String)
  | store (e : StoreError)
  | io

/-- `minted` are the bytes that were copied in when a name was minted; `drawn` is the number of
names that were. -/
structure Directory where
  files : Files
  attachments : String → Option Bytes
  attachmentsTrash : String → Option Bytes
  drawn : Nat
  minted : String → Option Bytes

/-- What the operations are run with. `validate` is the validation engine, and `ulid` gives the id
of each minted name. -/
structure Setting where
  yaml : SerdeYaml
  diffy : Diffy
  store : EntityTypeStore
  fields : List AttachmentField
  defaults : List (String × Json)
  validate : Fields → Except String Fields
  ulid : Nat → String

def hasSeparator (value : String) : Bool := value.toList.any fun c => c = '/' || c = '\\'

def sanitizeFilename (name : String) : String :=
  let sanitized := name.toList.filter fun c => c ≠ '/' ∧ c ≠ '\\' ∧ c ≠ Char.ofNat 0
  let safe := sanitized.dropWhile fun c => c = '.'
  if safe = [] then "unnamed" else String.ofList safe

/-- `Path::file_name`. -/
def fileName (path : String) : Option String :=
  let components := (path.toList.splitOn '/').filter fun c => c ≠ [] ∧ c ≠ ['.']
  match components.getLast? with
  | none => none
  | some last => if last = ['.', '.'] then none else some (String.ofList last)

def storedName (ulid name : String) : String := ulid ++ "-" ++ sanitizeFilename name

def extractAttachmentFilenames (value : Option Json) (multiple : Bool) : List String :=
  match value, multiple with
  | some (.array elems), true => elems.filterMap Json.asStr
  | some (.string s), _ => [s]
  | _, _ => []

def AttachmentField.names (field : AttachmentField) (e : Entity) : List String :=
  extractAttachmentFilenames (e.get field.name) field.multiple

namespace Setting

variable (W : Setting) (source : String → Option Bytes)

def copyAttachment (path : String) (field : AttachmentField) (dir : Directory) :
    Except AttachmentError String × Directory :=
  match source path with
  | none => (.error (.sourceNotFound path), dir)
  | some bytes =>
    if field.maxBytes < bytes.length then
      (.error (.tooLarge field.name bytes.length field.maxBytes), dir)
    else
      let stored := storedName (W.ulid dir.drawn) ((fileName path).getD "unnamed")
      (.ok stored, { dir with
        attachments := Function.update dir.attachments stored (some bytes)
        drawn := dir.drawn + 1
        minted := Function.update dir.minted stored (some bytes) })

def resolveAttachmentValue (value : String) (field : AttachmentField) (dir : Directory) :
    Except AttachmentError String × Directory :=
  if hasSeparator value = false ∧ (dir.attachments value).isSome then (.ok value, dir)
  else W.copyAttachment source value field dir

end Setting

def enrichedName (obj : Json) : Option String := do
  let id ← (obj.getKey "id").bind Json.asStr
  let name ← (obj.getKey "name").bind Json.asStr
  return id ++ "-" ++ name

def resolveEnrichedAttachment (obj : Json) (field : AttachmentField) (dir : Directory) :
    Except AttachmentError (Option String) :=
  match enrichedName obj with
  | none => .ok none
  | some stored =>
    if hasSeparator stored then .error (.notFound field.name stored)
    else if (dir.attachments stored).isSome then .ok (some stored)
    else .error (.notFound field.name stored)

namespace Setting

variable (W : Setting) (source : String → Option Bytes)

def resolveSingleAttachment (field : AttachmentField) (dir : Directory) :
    Json → Except AttachmentError (Option String) × Directory
  | .string s =>
    match W.resolveAttachmentValue source s field dir with
    | (.error e, dir) => (.error e, dir)
    | (.ok stored, dir) => (.ok (some stored), dir)
  | .object fields => (resolveEnrichedAttachment (.object fields) field dir, dir)
  | _ => (.ok none, dir)

def resolveAll (field : AttachmentField) :
    List Json → Directory → Except AttachmentError (List String) × Directory
  | [], dir => (.ok [], dir)
  | v :: vs, dir =>
    match W.resolveSingleAttachment source field dir v with
    | (.error e, dir) => (.error e, dir)
    | (.ok resolved, dir) =>
      match resolveAll field vs dir with
      | (.error e, dir) => (.error e, dir)
      | (.ok stored, dir) => (.ok (resolved.toList ++ stored), dir)

def processAttachmentField (field : AttachmentField) (e : Entity) (dir : Directory) :
    Except AttachmentError Entity × Directory :=
  match e.get field.name with
  | none => (.ok e, dir)
  | some value =>
    if field.multiple then
      let values :=
        match value with
        | .array elems => some elems
        | .null => none
        | other => some [other]
      match values with
      | none => (.ok e, dir)
      | some values =>
        match W.resolveAll source field values dir with
        | (.error err, dir) => (.error err, dir)
        | (.ok stored, dir) => (.ok (e.set field.name (.ofStrings stored)), dir)
    else
      match W.resolveSingleAttachment source field dir value with
      | (.error err, dir) => (.error err, dir)
      | (.ok none, dir) => (.ok e, dir)
      | (.ok (some stored), dir) => (.ok (e.set field.name (.string stored)), dir)

def processAttachments :
    List AttachmentField → Entity → Directory → Except AttachmentError Entity × Directory
  | [], e, dir => (.ok e, dir)
  | field :: rest, e, dir =>
    match W.processAttachmentField source field e dir with
    | (.error err, dir) => (.error err, dir)
    | (.ok e, dir) => processAttachments rest e dir

def prepared (e : Entity) : Entity :=
  W.defaults.foldl (fun e d => if (e.get d.1).isSome then e else e.set d.1 d.2)
    { e with fields := e.fields.filter fun k _ => !W.store.isComputed k }

def validateForWrite (e : Entity) (dir : Directory) :
    Except AttachmentError Entity × Directory :=
  match W.processAttachments source W.fields (W.prepared e) dir with
  | (.error err, dir) => (.error err, dir)
  | (.ok e, dir) =>
    match W.validate e.fields with
    | .error message => (.error (.validationFailed message), dir)
    | .ok fields => (.ok { e with fields := fields }, dir)

/-- `io::read_entity` on a text. -/
def readText (id text : String) : Except EntityError Entity :=
  match W.store.entityDef.bodyField with
  | some bodyField => parseFrontmatterBody W.yaml text W.store.entityTypeName id bodyField id
  | none => parsePlainYaml W.yaml text W.store.entityTypeName id id

def readEntity (dir : Directory) (id : String) : Option Entity :=
  (dir.files.data id).live.bind fun text => (W.readText id text).toOption

end Setting

/-- `trash_attachment`, of each name. A name without a file is passed over. -/
def Directory.trashNames (dir : Directory) (names : List String) : Directory :=
  { dir with
    attachments := fun name => if name ∈ names then none else dir.attachments name
    attachmentsTrash := fun name =>
      if name ∈ names then (dir.attachments name).or (dir.attachmentsTrash name)
      else dir.attachmentsTrash name }

def removedNames (fields : List AttachmentField) (old new : Entity) : List String :=
  fields.flatMap fun field => (field.names old).filter fun name => name ∉ field.names new

def allNames (fields : List AttachmentField) (e : Entity) : List String :=
  fields.flatMap fun field => field.names e

inductive StagingOp
  | archive
  | unarchive

/-- A store operation that fails with an I/O error leaves its files as they are. -/
inductive Operation
  | write (e : Entity) (source : String → Option Bytes) (stamp : Stamp) (storeFails : Bool)
  | delete (id : String) (stamp : Stamp) (storeFails : Bool)
  | stage (op : StagingOp) (id : String) (stamp : Stamp)
  | undo (entry : UndoEntryId) (item : StoredItemId)
  | redo (entry : UndoEntryId) (item : StoredItemId)

namespace Setting

variable (W : Setting)

abbrev tracked : TrackedStore := W.store.tracked W.yaml

def writeInternal (e : Entity) (source : String → Option Bytes) (stamp : Stamp)
    (storeFails : Bool) (dir : Directory) : Directory :=
  match W.validateForWrite source e dir with
  | (.error _, dir) => dir
  | (.ok e, dir) =>
    let dir :=
      match W.readEntity dir e.id with
      | some old => dir.trashNames (removedNames W.fields old e)
      | none => dir
    if storeFails then dir
    else { dir with files := (Store.write W.diffy W.tracked dir.files stamp e).files }

def deleteInternal (id : String) (stamp : Stamp) (storeFails : Bool) (dir : Directory) :
    Directory :=
  let dir :=
    match W.readEntity dir id with
    | some previous => dir.trashNames (allNames W.fields previous)
    | none => dir
  if storeFails then dir
  else { dir with files := (Store.delete W.diffy W.tracked dir.files stamp id).files }

def apply (dir : Directory) : Operation → Directory
  | .write e source stamp storeFails => W.writeInternal e source stamp storeFails dir
  | .delete id stamp storeFails => W.deleteInternal id stamp storeFails dir
  | .stage .archive id stamp =>
    { dir with files := (Store.archive W.diffy W.tracked dir.files stamp id).files }
  | .stage .unarchive id stamp =>
    { dir with files := (Store.unarchiveLatest W.diffy W.tracked dir.files stamp id).files }
  | .undo entry item =>
    { dir with files := (Store.undo W.diffy W.tracked dir.files entry item).files }
  | .redo entry item =>
    { dir with files := (Store.redo W.diffy W.tracked dir.files entry item).files }

def Step (dir : Directory) (op : Operation) (dir' : Directory) : Prop := dir' = W.apply dir op

end Setting

def Directory.empty : Directory := ⟨.empty, fun _ => none, fun _ => none, 0, fun _ => none⟩

end SwissArmyHammer.Entities

/-! What a write makes of the values of the attachment fields: every name that it stores was given
or is new, and every given name that is there is stored. -/

namespace SwissArmyHammer.Entities

open Store

def nameOf : Json → List String
  | .string s => [s]
  | .object fields => (enrichedName (.object fields)).toList
  | _ => []

def AttachmentField.gives (field : AttachmentField) (e : Entity) : List String :=
  match e.get field.name, field.multiple with
  | some (.array elems), true => elems.flatMap nameOf
  | some (.array _), false => []
  | some value, _ => nameOf value
  | none, _ => []

namespace Setting

variable (W : Setting)

/-- What the operations rely on: minted names are distinct and have no separator, validation leaves
the attachment fields as they are, and the names of what is written read back. -/
structure Lawful : Prop where
  fields : (W.fields.map AttachmentField.name).Nodup
  ulids : ∀ i j a b, storedName (W.ulid i) a = storedName (W.ulid j) b → i = j
  separators : ∀ i, hasSeparator (W.ulid i) = false
  validated : ∀ fields fields', W.validate fields = .ok fields' →
    ∀ field ∈ W.fields, fields'[field.name]? = fields[field.name]?
  reads : ∀ (e : Entity) text, W.store.serialize W.yaml e = .ok text →
    ∃ e', W.readText e.id text = .ok e' ∧ ∀ field ∈ W.fields, field.names e' = field.names e

structure Held (dir : Directory) : Prop where
  minted : ∀ name bytes, dir.attachments name = some bytes → dir.minted name = some bytes
  separators : ∀ name, dir.attachments name ≠ none → hasSeparator name = false
  drawn : ∀ name, dir.minted name ≠ none → ∃ i n, i < dir.drawn ∧ name = storedName (W.ulid i) n

end Setting

structure Grows (dir dir' : Directory) : Prop where
  files : dir'.files = dir.files
  kept : ∀ name, dir.attachments name ≠ none → dir'.attachments name ≠ none
  minted : ∀ name, dir'.minted name = none → dir.minted name = none

theorem Grows.refl (dir : Directory) : Grows dir dir := ⟨rfl, fun _ h => h, fun _ h => h⟩

theorem Grows.trans {a b c : Directory} (h : Grows a b) (h' : Grows b c) : Grows a c where
  files := h'.files.trans h.files
  kept name hname := h'.kept name (h.kept name hname)
  minted name hname := h.minted name (h'.minted name hname)

def Resolved (given : List String) (dir dir' : Directory) (name : String) : Prop :=
  dir'.attachments name ≠ none ∧ (name ∈ given ∨ dir.minted name = none)

theorem Resolved.mono {given given' : List String} {dir dir₁ dir₂ dir' : Directory} {name : String}
    (h : Resolved given dir₁ dir₂ name) (hgiven : given ⊆ given') (hbefore : Grows dir dir₁)
    (hafter : Grows dir₂ dir') : Resolved given' dir dir' name :=
  ⟨hafter.kept name h.1, h.2.imp (fun hname => hgiven hname) (hbefore.minted name)⟩

section

variable {W : Setting} {source : String → Option Bytes} {field : AttachmentField}
  {dir dir' : Directory} {e e' : Entity}

theorem hasSeparator_storedName {ulid : String} (h : hasSeparator ulid = false) (name : String) :
    hasSeparator (storedName ulid name) = false := by
  have hsanitized : hasSeparator (sanitizeFilename name) = false := by
    unfold sanitizeFilename hasSeparator
    dsimp only
    split
    · decide
    · rw [String.toList_ofList, List.any_eq_false]
      intro c hc
      have hmem := (List.dropWhile_sublist _).subset hc
      have hkeep := List.of_mem_filter hmem
      simp only [decide_eq_true_eq] at hkeep
      simp [hkeep.1, hkeep.2.1]
  have hdash : hasSeparator "-" = false := by decide
  unfold hasSeparator at *
  rw [storedName, String.toList_append, String.toList_append, List.any_append, List.any_append, h,
    hsanitized]
  rfl

theorem update_ne_none {f : String → Option Bytes} {stored name : String} {bytes : Bytes} :
    Function.update f stored (some bytes) name ≠ none ↔ name = stored ∨ f name ≠ none := by
  by_cases heq : name = stored
  · subst heq
    simp
  · simp [heq]

theorem Setting.Held.minted_storedName (hlawful : W.Lawful) (hheld : W.Held dir) (name : String) :
    dir.minted (storedName (W.ulid dir.drawn) name) = none := by
  by_contra hne
  obtain ⟨i, n, hlt, heq⟩ := hheld.drawn _ hne
  have hsame := hlawful.ulids _ _ _ _ heq
  omega

theorem copyAttachment_spec (hlawful : W.Lawful) (hheld : W.Held dir) {path : String}
    {result : Except AttachmentError String}
    (h : W.copyAttachment source path field dir = (result, dir')) :
    W.Held dir' ∧ Grows dir dir' ∧
      ∀ stored, result = .ok stored → dir'.attachments stored ≠ none ∧ dir.minted stored = none := by
  unfold Setting.copyAttachment at h
  cases hsource : source path with
  | none =>
    rw [hsource] at h
    obtain ⟨rfl, rfl⟩ := Prod.mk.inj h
    exact ⟨hheld, .refl _, fun _ h => by cases h⟩
  | some bytes =>
    rw [hsource] at h
    dsimp only at h
    split at h
    · obtain ⟨rfl, rfl⟩ := Prod.mk.inj h
      exact ⟨hheld, .refl _, fun _ h => by cases h⟩
    · obtain ⟨rfl, rfl⟩ := Prod.mk.inj h
      have hnew := hheld.minted_storedName hlawful ((fileName path).getD "unnamed")
      refine ⟨⟨fun name bytes' hname => ?_, fun name hname => ?_, fun name hname => ?_⟩,
        ⟨rfl, fun name hname => update_ne_none.mpr (.inr hname), fun name hname => ?_⟩,
        fun stored hstored => ?_⟩
      · dsimp only at hname ⊢
        by_cases heq : name = storedName (W.ulid dir.drawn) ((fileName path).getD "unnamed")
        · grind
        · rw [Function.update_of_ne heq] at hname ⊢
          exact hheld.minted name bytes' hname
      · rcases update_ne_none.mp hname with rfl | hname
        · exact hasSeparator_storedName (hlawful.separators _) _
        · exact hheld.separators name hname
      · rcases update_ne_none.mp hname with rfl | hname
        · exact ⟨dir.drawn, _, Nat.lt_succ_self _, rfl⟩
        · obtain ⟨i, n, hlt, hi⟩ := hheld.drawn name hname
          exact ⟨i, n, Nat.lt_succ_of_lt hlt, hi⟩
      · by_contra hne
        exact update_ne_none.mpr (.inr hne) hname
      · obtain rfl := Except.ok.inj hstored
        exact ⟨update_ne_none.mpr (.inl rfl), hnew⟩

theorem resolveSingleAttachment_spec (hlawful : W.Lawful) (hheld : W.Held dir) {value : Json}
    {result : Except AttachmentError (Option String)}
    (h : W.resolveSingleAttachment source field dir value = (result, dir')) :
    W.Held dir' ∧ Grows dir dir' ∧ ∀ resolved, result = .ok resolved →
      (∀ name ∈ resolved, Resolved (nameOf value) dir dir' name) ∧
        ∀ name ∈ nameOf value, dir.attachments name ≠ none → resolved = some name := by
  cases value with
  | string s =>
    simp only [Setting.resolveSingleAttachment, Setting.resolveAttachmentValue] at h
    by_cases hthere : hasSeparator s = false ∧ (dir.attachments s).isSome = true
    · rw [if_pos hthere] at h
      obtain ⟨rfl, rfl⟩ := Prod.mk.inj h
      refine ⟨hheld, .refl _, fun resolved hresolved => ?_⟩
      obtain rfl := Except.ok.inj hresolved
      have hne : dir.attachments s ≠ none := Option.isSome_iff_ne_none.mp hthere.2
      refine ⟨fun name hname => ?_, fun name hname _ => ?_⟩
      · obtain rfl := Option.some.inj hname
        exact ⟨hne, .inl (List.mem_singleton_self _)⟩
      · rw [List.mem_singleton.mp hname]
    · rw [if_neg hthere] at h
      cases hcopy : W.copyAttachment source s field dir with
      | mk copied dir₁ =>
        obtain ⟨hheld', hgrows, hcopied⟩ := copyAttachment_spec hlawful hheld hcopy
        rw [hcopy] at h
        cases copied with
        | error err =>
          obtain ⟨rfl, rfl⟩ := Prod.mk.inj h
          exact ⟨hheld', hgrows, fun _ h => by cases h⟩
        | ok stored =>
          obtain ⟨rfl, rfl⟩ := Prod.mk.inj h
          refine ⟨hheld', hgrows, fun resolved hresolved => ?_⟩
          obtain rfl := Except.ok.inj hresolved
          obtain ⟨hstored, hnew⟩ := hcopied stored rfl
          refine ⟨fun name hname => ?_, fun name hname hne => ?_⟩
          · obtain rfl := Option.some.inj hname
            exact ⟨hstored, .inr hnew⟩
          · obtain rfl := List.mem_singleton.mp hname
            exact absurd ⟨hheld.separators _ hne, Option.isSome_iff_ne_none.mpr hne⟩ hthere
  | object fields =>
    simp only [Setting.resolveSingleAttachment, resolveEnrichedAttachment] at h
    obtain ⟨rfl, rfl⟩ := Prod.mk.inj h
    refine ⟨hheld, .refl _, fun resolved hresolved => ?_⟩
    rw [nameOf]
    cases hname : enrichedName (.object fields) with
    | none =>
      grind
    | some stored =>
      rw [hname] at hresolved
      dsimp only at hresolved
      split at hresolved
      · cases hresolved
      · split at hresolved
        · rename_i hthere
          obtain rfl := Except.ok.inj hresolved
          refine ⟨fun name hname => ?_, fun name hname _ => ?_⟩
          · obtain rfl := Option.some.inj hname
            exact ⟨Option.isSome_iff_ne_none.mp hthere, .inl (List.mem_singleton_self _)⟩
          · rw [List.mem_singleton.mp hname]
        · cases hresolved
  | _ =>
    obtain ⟨rfl, rfl⟩ := Prod.mk.inj h
    refine ⟨hheld, .refl _, fun resolved hresolved => ?_⟩
    obtain rfl := Except.ok.inj hresolved
    exact ⟨(fun _ h => by cases h), fun _ h => by cases h⟩

theorem resolveAll_spec (hlawful : W.Lawful) {values : List Json} (hheld : W.Held dir)
    {result : Except AttachmentError (List String)}
    (h : W.resolveAll source field values dir = (result, dir')) :
    W.Held dir' ∧ Grows dir dir' ∧ ∀ stored, result = .ok stored →
      (∀ name ∈ stored, Resolved (values.flatMap nameOf) dir dir' name) ∧
        ∀ name ∈ values.flatMap nameOf, dir.attachments name ≠ none → name ∈ stored := by
  induction values generalizing dir result dir' with
  | nil =>
    obtain ⟨rfl, rfl⟩ := Prod.mk.inj h
    refine ⟨hheld, .refl _, fun stored hstored => ?_⟩
    obtain rfl := Except.ok.inj hstored
    exact ⟨(fun _ h => by cases h), fun _ h => by cases h⟩
  | cons value values ih =>
    rw [Setting.resolveAll] at h
    cases hfirst : W.resolveSingleAttachment source field dir value with
    | mk first dir₁ =>
      obtain ⟨hheld₁, hgrows₁, hspec₁⟩ := resolveSingleAttachment_spec hlawful hheld hfirst
      rw [hfirst] at h
      cases first with
      | error err =>
        obtain ⟨rfl, rfl⟩ := Prod.mk.inj h
        exact ⟨hheld₁, hgrows₁, fun _ h => by cases h⟩
      | ok resolved =>
        dsimp only at h
        cases hrest : W.resolveAll source field values dir₁ with
        | mk rest dir₂ =>
          obtain ⟨hheld₂, hgrows₂, hspec₂⟩ := ih hheld₁ hrest
          rw [hrest] at h
          cases rest with
          | error err =>
            obtain ⟨rfl, rfl⟩ := Prod.mk.inj h
            exact ⟨hheld₂, hgrows₁.trans hgrows₂, fun _ h => by cases h⟩
          | ok stored =>
            obtain ⟨rfl, rfl⟩ := Prod.mk.inj h
            refine ⟨hheld₂, hgrows₁.trans hgrows₂, fun all hall => ?_⟩
            obtain rfl := Except.ok.inj hall
            obtain ⟨hnew₁, hold₁⟩ := hspec₁ resolved rfl
            obtain ⟨hnew₂, hold₂⟩ := hspec₂ stored rfl
            refine ⟨fun name hname => ?_, fun name hname hne => ?_⟩
            · rcases List.mem_append.mp hname with hname | hname
              · exact (hnew₁ name (Option.mem_toList.mp hname)).mono
                  (List.subset_append_left _ _) (.refl _) hgrows₂
              · exact (hnew₂ name hname).mono (List.subset_append_right _ _) hgrows₁ (.refl _)
            · rcases List.mem_append.mp hname with hname | hname
              · rw [hold₁ name hname hne]
                exact List.mem_append_left _ (List.mem_singleton_self _)
              · exact List.mem_append_right _ (hold₂ name hname (hgrows₁.kept name hne))

def Processed (field : AttachmentField) (e e' : Entity) (dir dir' : Directory) : Prop :=
  (∀ name ∈ field.names e', Resolved (field.gives e) dir dir' name) ∧
    ∀ name ∈ field.gives e, dir.attachments name ≠ none → name ∈ field.names e'

theorem processAttachmentField_multiple {value : Json} {values : List Json}
    (hvalue : e.get field.name = some value) (hmultiple : field.multiple = true)
    (h : value = .array values ∨
      values = [value] ∧ value ≠ .null ∧ ∀ elems, value ≠ .array elems) :
    W.processAttachmentField source field e dir =
      ((W.resolveAll source field values dir).1.map fun stored =>
        e.set field.name (.ofStrings stored), (W.resolveAll source field values dir).2) := by
  rw [Setting.processAttachmentField, hvalue]
  dsimp only
  rw [if_pos hmultiple]
  rcases h with rfl | ⟨rfl, hnull, harray⟩
  · dsimp only
    cases hall : W.resolveAll source field values dir with
    | mk all dir₁ => cases all <;> rfl
  · cases value with
    | null => exact absurd rfl hnull
    | array elems => exact absurd rfl (harray elems)
    | _ =>
      dsimp only
      cases hall : W.resolveAll source field _ dir with
      | mk all dir₁ => cases all <;> rfl

theorem processed_of_empty (hnames : field.names e = []) (hgives : field.gives e = []) :
    Processed field e e dir dir := by
  rw [Processed, hnames, hgives]
  exact ⟨(fun _ h => by cases h), fun _ h => by cases h⟩

def FieldProcessed (W : Setting) (field : AttachmentField) (e : Entity) (dir dir' : Directory)
    (result : Except AttachmentError Entity) : Prop :=
  W.Held dir' ∧ Grows dir dir' ∧ ∀ e', result = .ok e' → e'.id = e.id ∧
    Processed field e e' dir dir' ∧ ∀ other, other ≠ field.name → e'.get other = e.get other

theorem fieldProcessed_refl (hheld : W.Held dir) (hnames : field.names e = [])
    (hgives : field.gives e = []) : FieldProcessed W field e dir dir (.ok e) := by
  refine ⟨hheld, .refl _, fun e' he' => ?_⟩
  obtain rfl := Except.ok.inj he'
  exact ⟨rfl, processed_of_empty hnames hgives, fun _ _ => rfl⟩

theorem fieldProcessed_multiple (hlawful : W.Lawful) (hheld : W.Held dir) {value : Json}
    {values : List Json} (hvalue : e.get field.name = some value)
    (hmultiple : field.multiple = true) (hgives : field.gives e = values.flatMap nameOf)
    (hvalues : value = .array values ∨
      values = [value] ∧ value ≠ .null ∧ ∀ elems, value ≠ .array elems)
    {result : Except AttachmentError Entity}
    (h : W.processAttachmentField source field e dir = (result, dir')) :
    FieldProcessed W field e dir dir' result := by
  rw [processAttachmentField_multiple hvalue hmultiple hvalues] at h
  cases hall : W.resolveAll source field values dir with
  | mk all dir₁ =>
    obtain ⟨hheld', hgrows, hspec⟩ := resolveAll_spec hlawful hheld hall
    rw [hall] at h
    cases all with
    | error err =>
      obtain ⟨rfl, rfl⟩ := Prod.mk.inj h
      exact ⟨hheld', hgrows, fun _ h => by cases h⟩
    | ok stored =>
      obtain ⟨rfl, rfl⟩ := Prod.mk.inj h
      refine ⟨hheld', hgrows, fun e' he' => ?_⟩
      obtain rfl := Except.ok.inj he'
      have hnames : field.names (e.set field.name (.ofStrings stored)) = stored := by
        rw [AttachmentField.names, Entity.get_set_self, hmultiple]
        simp [extractAttachmentFilenames, Json.ofStrings, List.filterMap_map,
          Function.comp_def, Json.asStr]
      obtain ⟨hnew, hold⟩ := hspec stored rfl
      refine ⟨rfl, ⟨?_, ?_⟩, fun other hother => Entity.get_set_of_ne hother _ _⟩
      · rw [hnames, hgives]
        exact hnew
      · rw [hnames, hgives]
        exact hold

theorem names_of_resolved_none {value : Json} (hvalue : e.get field.name = some value)
    (hmultiple : field.multiple = false)
    (h : W.resolveSingleAttachment source field dir value = (.ok none, dir')) :
    field.names e = [] := by
  rw [AttachmentField.names, hvalue, hmultiple]
  cases value with
  | string s =>
    simp only [Setting.resolveSingleAttachment] at h
    split at h
    · cases h
    · cases h
  | _ => rfl

theorem fieldProcessed_single (hlawful : W.Lawful) (hheld : W.Held dir) {value : Json}
    (hvalue : e.get field.name = some value) (hmultiple : field.multiple = false)
    {result : Except AttachmentError Entity}
    (h : W.processAttachmentField source field e dir = (result, dir')) :
    FieldProcessed W field e dir dir' result := by
  rw [Setting.processAttachmentField, hvalue] at h
  dsimp only at h
  rw [hmultiple] at h
  have hgives : field.gives e = nameOf value := by
    rw [AttachmentField.gives, hvalue, hmultiple]
    cases value <;> rfl
  cases hsingle : W.resolveSingleAttachment source field dir value with
  | mk single dir₁ =>
    obtain ⟨hheld', hgrows, hspec⟩ := resolveSingleAttachment_spec hlawful hheld hsingle
    rw [hsingle] at h
    cases single with
    | error err =>
      obtain ⟨rfl, rfl⟩ := Prod.mk.inj h
      exact ⟨hheld', hgrows, fun _ h => by cases h⟩
    | ok resolved =>
      obtain ⟨hnew, hold⟩ := hspec resolved rfl
      cases resolved with
      | none =>
        obtain ⟨rfl, rfl⟩ := Prod.mk.inj h
        refine ⟨hheld', hgrows, fun e' he' => ?_⟩
        obtain rfl := Except.ok.inj he'
        refine ⟨rfl, ⟨?_, ?_⟩, fun _ _ => rfl⟩
        · rw [names_of_resolved_none hvalue hmultiple hsingle]
          exact fun _ h => by cases h
        · grind
      | some stored =>
        obtain ⟨rfl, rfl⟩ := Prod.mk.inj h
        refine ⟨hheld', hgrows, fun e' he' => ?_⟩
        obtain rfl := Except.ok.inj he'
        have hnames : field.names (e.set field.name (.string stored)) = [stored] := by
          rw [AttachmentField.names, Entity.get_set_self]
          rfl
        refine ⟨rfl, ⟨?_, ?_⟩, fun other hother => Entity.get_set_of_ne hother _ _⟩
        · grind
        · grind

theorem gives_of_single {value : Json} (hvalue : e.get field.name = some value)
    (harray : ∀ elems, value ≠ .array elems) : field.gives e = [value].flatMap nameOf := by
  rw [AttachmentField.gives, hvalue]
  cases value with
  | array elems => exact absurd rfl (harray elems)
  | _ => exact (List.append_nil _).symm

theorem processAttachmentField_spec (hlawful : W.Lawful) (hheld : W.Held dir)
    {result : Except AttachmentError Entity}
    (h : W.processAttachmentField source field e dir = (result, dir')) :
    FieldProcessed W field e dir dir' result := by
  cases hvalue : e.get field.name with
  | none =>
    rw [Setting.processAttachmentField, hvalue] at h
    obtain ⟨rfl, rfl⟩ := Prod.mk.inj h
    exact fieldProcessed_refl hheld (by rw [AttachmentField.names, hvalue]; rfl)
      (by rw [AttachmentField.gives, hvalue])
  | some value =>
    cases hmultiple : field.multiple with
    | false => exact fieldProcessed_single hlawful hheld hvalue hmultiple h
    | true =>
      cases value with
      | array elems =>
        have hgives : field.gives e = elems.flatMap nameOf := by
          rw [AttachmentField.gives, hvalue, hmultiple]
        exact fieldProcessed_multiple hlawful hheld hvalue hmultiple hgives (.inl rfl) h
      | null =>
        rw [Setting.processAttachmentField, hvalue] at h
        dsimp only at h
        rw [if_pos hmultiple] at h
        obtain ⟨rfl, rfl⟩ := Prod.mk.inj h
        exact fieldProcessed_refl hheld
          (by rw [AttachmentField.names, hvalue]; rfl)
          (by rw [AttachmentField.gives, hvalue]; rfl)
      | string | object | bool | number =>
        have hgives := gives_of_single hvalue fun _ h => by cases h
        exact fieldProcessed_multiple hlawful hheld hvalue hmultiple hgives
          (.inr ⟨rfl, (fun h => by cases h), fun _ h => by cases h⟩) h

theorem names_congr {field : AttachmentField} (h : e.get field.name = e'.get field.name) :
    field.names e = field.names e' := by
  rw [AttachmentField.names, AttachmentField.names, h]

theorem gives_congr {field : AttachmentField} (h : e.get field.name = e'.get field.name) :
    field.gives e = field.gives e' := by
  rw [AttachmentField.gives, AttachmentField.gives, h]

theorem processAttachments_spec (hlawful : W.Lawful) {fields : List AttachmentField}
    (hfields : (fields.map AttachmentField.name).Nodup) (hheld : W.Held dir)
    {result : Except AttachmentError Entity}
    (h : W.processAttachments source fields e dir = (result, dir')) :
    W.Held dir' ∧ Grows dir dir' ∧ ∀ e', result = .ok e' → e'.id = e.id ∧
      (∀ field ∈ fields, Processed field e e' dir dir') ∧
        ∀ other, other ∉ fields.map AttachmentField.name → e'.get other = e.get other := by
  induction fields generalizing e dir with
  | nil =>
    obtain ⟨rfl, rfl⟩ := Prod.mk.inj h
    refine ⟨hheld, .refl _, fun e' he' => ?_⟩
    obtain rfl := Except.ok.inj he'
    exact ⟨rfl, (fun _ h => by cases h), fun _ _ => rfl⟩
  | cons field fields ih =>
    obtain ⟨hfirst, hrest⟩ := List.nodup_cons.mp hfields
    rw [Setting.processAttachments] at h
    cases hone : W.processAttachmentField source field e dir with
    | mk one dir₁ =>
      obtain ⟨hheld₁, hgrows₁, hspec₁⟩ := processAttachmentField_spec hlawful hheld hone
      rw [hone] at h
      cases one with
      | error err =>
        obtain ⟨rfl, rfl⟩ := Prod.mk.inj h
        exact ⟨hheld₁, hgrows₁, fun _ h => by cases h⟩
      | ok e₁ =>
        obtain ⟨hheld', hgrows₂, hspec₂⟩ := ih hrest hheld₁ h
        obtain ⟨hid₁, hprocessed₁, hsame₁⟩ := hspec₁ e₁ rfl
        refine ⟨hheld', hgrows₁.trans hgrows₂, fun e' he' => ?_⟩
        obtain ⟨hid₂, hprocessed₂, hsame₂⟩ := hspec₂ e' he'
        refine ⟨hid₂.trans hid₁, fun other hother => ?_, fun other hother => ?_⟩
        · rcases List.mem_cons.mp hother with rfl | hother
          · have hnames : other.names e' = other.names e₁ := names_congr (hsame₂ _ hfirst)
            refine ⟨fun name hname => ?_, fun name hname hne => ?_⟩
            · rw [hnames] at hname
              exact (hprocessed₁.1 name hname).mono (List.Subset.refl _) (.refl _) hgrows₂
            · rw [hnames]
              exact hprocessed₁.2 name hname hne
          · have hne : other.name ≠ field.name := by
              intro heq
              exact hfirst (heq ▸ List.mem_map_of_mem hother)
            have hgives : other.gives e₁ = other.gives e := gives_congr (hsame₁ _ hne)
            obtain ⟨hnew, hold⟩ := hprocessed₂ other hother
            rw [hgives] at hnew hold
            exact ⟨fun name hname => (hnew name hname).mono (List.Subset.refl _) hgrows₁ (.refl _),
              fun name hname hthere => hold name hname (hgrows₁.kept name hthere)⟩
        · rw [List.map_cons, List.mem_cons, not_or] at hother
          rw [hsame₂ other hother.2, hsame₁ other hother.1]

end

end SwissArmyHammer.Entities
