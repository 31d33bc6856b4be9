import SwissArmyHammer.Entities.Codec
import SwissArmyHammer.Entities.Diff

/-! Entries of an entity's changelog and their JSON. -/

namespace SwissArmyHammer.Entities

open Store

structure ChangeEntry where
  id : String
  timestamp : DateTime
  entityType : String
  entityId : String
  op : String
  actor : Option String
  changes : Changes
  undoneId : Option String
  redoneId : Option String
  transactionId : Option String
  deriving DecidableEq

def FieldChange.toJson : FieldChange → Json
  | .set value => .object [("kind", .string "set"), ("value", value)]
  | .removed oldValue => .object [("kind", .string "removed"), ("old_value", oldValue)]
  | .changed oldValue newValue =>
    .object [("kind", .string "changed"), ("new_value", newValue), ("old_value", oldValue)]
  | .textDiff forwardPatch reversePatch =>
    .object [("forward_patch", .string forwardPatch), ("kind", .string "text_diff"),
      ("reverse_patch", .string reversePatch)]

def optionalField (key : String) (value : Option String) : List (String × Json) :=
  (value.map fun s => (key, Json.string s)).toList

def ChangeEntry.toJson (rfc3339 : DateTime → String) (e : ChangeEntry) : Json :=
  .object (optionalField "actor" e.actor ++
    [("changes", .array (e.changes.map fun c => .array [.string c.1, c.2.toJson])),
      ("entity_id", .string e.entityId), ("entity_type", .string e.entityType),
      ("id", .string e.id), ("op", .string e.op)] ++
    optionalField "redone_id" e.redoneId ++ [("timestamp", .string (rfc3339 e.timestamp))] ++
    optionalField "transaction_id" e.transactionId ++ optionalField "undone_id" e.undoneId)

theorem lookup_optionalField {key k : String} (value : Option String) (h : k ≠ key)
    (rest : List (String × Json)) :
    (optionalField key value ++ rest).lookup k = rest.lookup k := by
  have hne : (k == key) = false := by simpa using h
  cases value <;> simp [optionalField, List.lookup_cons, hne]

end SwissArmyHammer.Entities

/-! The changelog reader: the text patches that the store has logged, replayed on a text
cursor into changes of fields. -/

namespace SwissArmyHammer.Entities

open Store

inductive LogLine
  | entity (entry : ChangeEntry)
  | store (record : ChangelogEntry)
  | malformed

def storeOpToString : ChangeOp → String
  | .create => "create"
  | .update => "update"
  | .delete => "delete"
  | .archive => "archive"
  | .unarchive => "unarchive"

def entryOf (entityType : String) (storeEntry : ChangelogEntry) (changes : Changes) :
    ChangeEntry where
  id := UndoEntryId.toString storeEntry.id
  timestamp := storeEntry.timestamp
  entityType := entityType
  entityId := storeEntry.itemId
  op := storeOpToString storeEntry.op
  actor := none
  changes := changes
  undoneId := none
  redoneId := none
  transactionId := storeEntry.transactionId

section

variable (D : Diffy) (Y : SerdeYaml) (entityType : String) (entityDef : EntityDef) (path : String)

def replayOneStoreEntry (storeEntry : ChangelogEntry) (cursor : String) :
    Except EntityError (ChangeEntry × String) := do
  let before ← parseEntityText Y cursor entityType storeEntry.itemId entityDef path
  let newText ←
    match applyPatch D cursor storeEntry.forwardPatch with
    | .ok newText => .ok newText
    | .error e => .error (.patchApply ("failed to apply store-format patch for " ++ entityType ++
        "/" ++ storeEntry.itemId ++ ": " ++ e.display))
  let after ← parseEntityText Y newText entityType storeEntry.itemId entityDef path
  let changes :=
    if storeEntry.op = .create then diffEntities D (Entity.new entityType storeEntry.itemId) after
    else diffEntities D before after
  return (entryOf entityType storeEntry changes, newText)

/-- The loop of `replay_store_log`. -/
def replayFrom (cursor : String) : List ChangelogEntry → Except EntityError (List ChangeEntry)
  | [] => .ok []
  | storeEntry :: rest => do
    let (entry, nextCursor) ← replayOneStoreEntry D Y entityType entityDef path storeEntry cursor
    let out ← replayFrom nextCursor rest
    return entry :: out

def replayStoreLog (storeEntries : List ChangelogEntry) : Except EntityError (List ChangeEntry) :=
  replayFrom D Y entityType entityDef path "" storeEntries

def readChangelogFor (content : Option (List LogLine)) : Except EntityError (List ChangeEntry) :=
  match content with
  | none => .ok []
  | some lines => do
    let storeEntries := lines.filterMap fun
      | .store record => some record
      | _ => none
    let entityEntries := lines.filterMap fun
      | .entity entry => some entry
      | _ => none
    let entries ← replayStoreLog D Y entityType entityDef path storeEntries
    return (entries ++ entityEntries).mergeSort fun a b => a.timestamp ≤ b.timestamp

end

def applyEntries (D : Diffy) (e : Entity) : List ChangeEntry → Except EntityError Entity
  | [] => .ok e
  | entry :: rest =>
    match applyChanges D e entry.changes with
    | .error err => .error err
    | .ok e => applyEntries D e rest

/-- The forward patches of the log lead from one text to another over texts that satisfy
`P`. A create starts from the empty text. -/
def Chain (D : Diffy) (P : String → Prop) : List ChangelogEntry → String → String → Prop
  | [], a, b => a = b
  | r :: rest, a, b => (r.op = .create → a = "") ∧
      ∃ m, applyPatch D a r.forwardPatch = .ok m ∧ P m ∧ Chain D P rest m b

theorem Chain.concat {D : Diffy} {P : String → Prop} {a b c : String} {r : ChangelogEntry}
    {rs : List ChangelogEntry} (h : Chain D P rs a b) (hcreate : r.op = .create → b = "")
    (hpatch : applyPatch D b r.forwardPatch = .ok c) (hc : P c) : Chain D P (rs ++ [r]) a c := by
  induction rs generalizing a with
  | nil =>
    obtain rfl : a = b := h
    exact ⟨hcreate, c, hpatch, hc, rfl⟩
  | cons r' rs ih =>
    obtain ⟨hop, m, hm, hp, hrest⟩ := h
    exact ⟨hop, m, hm, hp, ih hrest⟩

section

variable {D : Diffy} {Y : SerdeYaml} {entityType item path : String} {entityDef : EntityDef}
  {a b : String} {rs : List ChangelogEntry} {e ea : Entity}

def Parses (Y : SerdeYaml) (entityType item : String) (entityDef : EntityDef) (path text : String) :
    Prop := ∃ e, parseEntityText Y text entityType item entityDef path = .ok e

theorem parses_empty : Parses Y entityType item entityDef path "" :=
  ⟨Entity.new entityType item, rfl⟩

theorem replayOneStoreEntry_ok {r : ChangelogEntry} {em : Entity}
    (ha : parseEntityText Y a entityType r.itemId entityDef path = .ok ea)
    (hpatch : applyPatch D a r.forwardPatch = .ok b)
    (hb : parseEntityText Y b entityType r.itemId entityDef path = .ok em)
    (hcreate : r.op = .create → a = "") :
    ∃ entry, replayOneStoreEntry D Y entityType entityDef path r a = .ok (entry, b) ∧
      entry.timestamp = r.timestamp ∧ entry.changes = diffEntities D ea em := by
  -- a create is read against the empty entity, which is what its empty text parses to
  have hchanges : (if r.op = .create then diffEntities D (Entity.new entityType r.itemId) em
      else diffEntities D ea em) = diffEntities D ea em := by
    split
    · rename_i hop
      rw [hcreate hop] at ha
      rw [← Except.ok.inj ha]
    · rfl
  refine ⟨entryOf entityType r _, ?_, rfl, hchanges⟩
  simp only [replayOneStoreEntry, ha, hpatch, bind, Except.bind, hb]
  rfl

theorem replayFrom_of_chain (h : Chain D (Parses Y entityType item entityDef path) rs a b)
    (hitem : ∀ r ∈ rs, r.itemId = item)
    (ha : parseEntityText Y a entityType item entityDef path = .ok ea) (he : e.fields = ea.fields) :
    ∃ entries e' eb, replayFrom D Y entityType entityDef path a rs = .ok entries ∧
      entries.map ChangeEntry.timestamp = rs.map ChangelogEntry.timestamp ∧
      parseEntityText Y b entityType item entityDef path = .ok eb ∧
      applyEntries D e entries = .ok e' ∧ e'.fields = eb.fields := by
  -- the entity follows the cursor: it always has the fields that the cursor parses to
  induction rs generalizing a e ea with
  | nil =>
    obtain rfl : a = b := h
    exact ⟨[], e, ea, rfl, rfl, ha, rfl, he⟩
  | cons r rs ih =>
    obtain ⟨hcreate, m, hm, ⟨em, hem⟩, hrest⟩ := h
    have hr : r.itemId = item := hitem r (by simp)
    obtain ⟨e₁, he₁, hfields⟩ := apply_diffEntities D em he
    obtain ⟨entries, e', eb, hread, htimes, hb, happly, hlast⟩ :=
      ih hrest (fun r' hr' => hitem r' (by simp [hr'])) hem hfields
    obtain ⟨entry, hentry, htime, hchanges⟩ :=
      replayOneStoreEntry_ok (hr ▸ ha) hm (hr ▸ hem) hcreate
    refine ⟨entry :: entries, e', eb, ?_, by simp [htime, htimes], hb, ?_, hlast⟩
    · rw [replayFrom, hentry]
      simp only [bind, Except.bind, hread]
      rfl
    · rw [applyEntries, hchanges, he₁]
      exact happly

theorem readChangelogFor_of_replay {entries : List ChangeEntry}
    (hread : replayFrom D Y entityType entityDef path "" rs = .ok entries)
    (htime : entries.map ChangeEntry.timestamp = rs.map ChangelogEntry.timestamp)
    (htimes : (rs.map ChangelogEntry.timestamp).Pairwise (· ≤ ·)) :
    readChangelogFor D Y entityType entityDef path (some (rs.map LogLine.store)) =
      .ok entries := by
  have hstore : (rs.map LogLine.store).filterMap (fun
      | .store record => some record
      | _ => none) = rs := by
    simp [List.filterMap_map]
  have hentity : (rs.map LogLine.store).filterMap (fun
      | .entity entry => some entry
      | _ => none) = [] := by
    simp [List.filterMap_map]
  have hsorted : entries.Pairwise fun a b => a.timestamp ≤ b.timestamp := by
    rw [← htime] at htimes
    exact List.pairwise_map.mp htimes
  simp only [readChangelogFor, hstore, hentity, replayStoreLog, hread, bind, Except.bind,
    List.append_nil]
  rw [List.mergeSort_of_pairwise (by simpa using hsorted)]
  rfl

theorem readChangelogFor_of_chain
    (h : Chain D (Parses Y entityType item entityDef path) rs "" b)
    (hitem : ∀ r ∈ rs, r.itemId = item)
    (htimes : (rs.map ChangelogEntry.timestamp).Pairwise (· ≤ ·)) :
    ∃ entries e' eb,
      readChangelogFor D Y entityType entityDef path (some (rs.map LogLine.store)) = .ok entries ∧
      parseEntityText Y b entityType item entityDef path = .ok eb ∧
      applyEntries D (Entity.new entityType item) entries = .ok e' ∧ e'.fields = eb.fields := by
  obtain ⟨entries, e', eb, hread, htime, hb, happly, hlast⟩ :=
    @replayFrom_of_chain D Y entityType item path entityDef "" b rs _ _ h hitem rfl rfl
  exact ⟨entries, e', eb, readChangelogFor_of_replay hread htime htimes, hb, happly, hlast⟩

end
end SwissArmyHammer.Entities
