import SwissArmyHammer.Common.Diffy
import SwissArmyHammer.Store.Files

/-! Text patches and the per-item changelog. A changelog file is kept as the list of
the records on its lines. -/

namespace SwissArmyHammer.Store

def createPatches (D : Diffy) (old new : String) : String × String :=
  (D.toString (D.createPatch old new), D.toString (D.createPatch new old))

def applyPatch (D : Diffy) (text patch : String) : Except StoreError String :=
  match D.fromStr patch with
  | .error e => .error (.patchFailed ("parse error: " ++ e))
  | .ok parsed =>
    match D.apply text parsed with
    | .error e => .error (.patchFailed e)
    | .ok result => .ok result

theorem applyPatch_forward (D : Diffy) (old new : String) :
    applyPatch D old (createPatches D old new).1 = .ok new := by
  obtain ⟨p, hp, ha⟩ := D.round_trip old new
  simp [applyPatch, createPatches, hp, ha]

theorem applyPatch_reverse (D : Diffy) (old new : String) :
    applyPatch D new (createPatches D old new).2 = .ok old :=
  applyPatch_forward D new old

inductive ChangeOp
  | create
  | update
  | delete
  | archive
  | unarchive
  deriving DecidableEq, Repr

structure ChangelogEntry where
  id : UndoEntryId
  timestamp : DateTime
  op : ChangeOp
  itemId : StoredItemId
  forwardPatch : String
  reversePatch : String
  transactionId : Option String
  deriving DecidableEq, Repr

abbrev Changelog := List ChangelogEntry

/-- `Changelog::find_entry`, which reads the lines from the end. -/
def Changelog.findEntry (log : Changelog) (id : UndoEntryId) : Option ChangelogEntry :=
  log.reverse.find? (fun e => e.id == id)

theorem Changelog.findEntry_id {log : Changelog} {id : UndoEntryId} {r : ChangelogEntry}
    (h : log.findEntry id = some r) : r.id = id := by
  simpa using List.find?_some h

theorem Changelog.findEntry_mem {log : Changelog} {id : UndoEntryId} {r : ChangelogEntry}
    (h : log.findEntry id = some r) : r ∈ log :=
  List.mem_reverse.mp (List.mem_of_find?_eq_some h)

theorem Changelog.findEntry_append_of_ne {log extra : Changelog} {id : UndoEntryId}
    (h : ∀ r ∈ extra, r.id ≠ id) : Changelog.findEntry (log ++ extra) id = log.findEntry id := by
  have he : extra.reverse.find? (fun e => e.id == id) = none := by
    simpa using h
  simp [findEntry, he]

theorem Changelog.findEntry_append_self (log : Changelog) (r : ChangelogEntry) :
    Changelog.findEntry (log ++ [r]) r.id = some r := by
  simp [findEntry]

theorem Changelog.forall_mem_concat {P : ChangelogEntry → Prop} {log : Changelog}
    {r : ChangelogEntry} (hlog : ∀ x ∈ log, P x) (hr : P r) : ∀ x ∈ log ++ [r], P x :=
  List.forall_mem_append.mpr ⟨hlog, List.forall_mem_singleton.mpr hr⟩

theorem Changelog.findEntry_eq_none {log : Changelog} {id : UndoEntryId} :
    log.findEntry id = none ↔ ∀ r ∈ log, r.id ≠ id := by
  simp [findEntry]

end SwissArmyHammer.Store

/-! `StoreHandle`: writes, deletes, archives and their undo and redo. Each operation
returns its result with the files and the change events it leaves behind, also when it
fails half way. -/

namespace SwissArmyHammer.Store

/-- The trait `TrackedStore`: how one directory's items are named and serialized. -/
structure TrackedStore where
  Item : Type
  ItemId : Type
  itemId : Item → ItemId
  display : ItemId → String
  fromStr : String → Option ItemId
  serialize : Item → Except StoreError String
  deserialize : ItemId → String → Except StoreError Item
  storeName : String

def TrackedStore.read (S : TrackedStore) (item : StoredItemId) (text : String) :
    Except StoreError S.Item :=
  match S.fromStr item with
  | none => .error (.deserialize item)
  | some id => S.deserialize id text

def TrackedStore.plain : TrackedStore where
  Item := String × String
  ItemId := String
  itemId := Prod.fst
  display := id
  fromStr := some
  serialize x := .ok x.2
  deserialize name text := .ok (name, text)
  storeName := "plain"

structure ChangeEvent where
  eventName : String
  store : String
  id : String
  deriving DecidableEq, Repr

structure Files where
  data : StoredItemId → Slots String
  log : StoredItemId → Slots Changelog

def Files.empty : Files := ⟨fun _ => .empty, fun _ => .empty⟩

def Files.setData (f : Files) (item : StoredItemId) (s : Slots String) : Files :=
  { f with data := Function.update f.data item s }

def Files.setLog (f : Files) (item : StoredItemId) (s : Slots Changelog) : Files :=
  { f with log := Function.update f.log item s }

section

variable (f : Files) (item : StoredItemId)

@[simp] theorem Files.setData_data (s : Slots String) : (f.setData item s).data item = s := by
  simp [setData]

@[simp] theorem Files.setData_log (s : Slots String) : (f.setData item s).log = f.log := rfl

@[simp] theorem Files.setLog_log (l : Slots Changelog) : (f.setLog item l).log item = l := by
  simp [setLog]

@[simp] theorem Files.setLog_data (l : Slots Changelog) : (f.setLog item l).data = f.data := rfl

theorem Files.setData_data_of_ne {x : StoredItemId} (s : Slots String) (h : x ≠ item) :
    (f.setData item s).data x = f.data x := by
  simp [setData, h]

theorem Files.setLog_log_of_ne {x : StoredItemId} (l : Slots Changelog) (h : x ≠ item) :
    (f.setLog item l).log x = f.log x := by
  simp [setLog, h]

@[simp] theorem Files.setData_self : f.setData item (f.data item) = f := by
  simp [setData]

@[simp] theorem Files.setLog_self : f.setLog item (f.log item) = f := by
  simp [setLog]

@[simp] theorem Files.setData_setData (s t : Slots String) :
    (f.setData item s).setData item t = f.setData item t := by
  simp [setData]

@[simp] theorem Files.setLog_setLog (l m : Slots Changelog) :
    (f.setLog item l).setLog item m = f.setLog item m := by
  simp [setLog]

theorem Files.setLog_setData (s : Slots String) (l : Slots Changelog) :
    (f.setData item s).setLog item l = (f.setLog item l).setData item s := rfl

@[simp] theorem Files.setLog_setData_self (l : Slots Changelog) :
    (f.setLog item l).setData item (f.data item) = f.setLog item l := by
  simp [setLog, setData]

end

def Files.writeText (f : Files) (item : StoredItemId) (text : String) : Files :=
  f.setData item { f.data item with live := some text }

/-- `Changelog::append`, which creates the file when it is missing. -/
def Files.appendLog (f : Files) (item : StoredItemId) (r : ChangelogEntry) : Files :=
  f.setLog item { f.log item with live := some ((f.log item).live.getD [] ++ [r]) }

structure Outcome (α : Type) where
  result : Except StoreError α
  files : Files
  events : List ChangeEvent

def fail {α : Type} (e : StoreError) (f : Files) : Outcome α := ⟨.error e, f, []⟩

structure Stamp where
  id : UndoEntryId
  now : DateTime
  deriving DecidableEq, Repr

section

variable (D : Diffy) (S : TrackedStore)

def record (stamp : Stamp) (op : ChangeOp) (item : StoredItemId) (old new : String) :
    ChangelogEntry where
  id := stamp.id
  timestamp := stamp.now
  op := op
  itemId := item
  forwardPatch := (createPatches D old new).1
  reversePatch := (createPatches D old new).2
  transactionId := none

@[simp] theorem record_id (stamp : Stamp) (op : ChangeOp) (item : StoredItemId)
    (old new : String) : (record D stamp op item old new).id = stamp.id := rfl

@[simp] theorem record_itemId (stamp : Stamp) (op : ChangeOp) (item : StoredItemId)
    (old new : String) : (record D stamp op item old new).itemId = item := rfl

def event (name : String) (item : StoredItemId) : ChangeEvent := ⟨name, S.storeName, item⟩

def write (f : Files) (stamp : Stamp) (x : S.Item) : Outcome (Option UndoEntryId) :=
  let item := S.display (S.itemId x)
  match S.serialize x with
  | .error e => fail e f
  | .ok newText =>
    let oldText := (f.data item).live
    if oldText = some newText then ⟨.ok none, f, []⟩
    else
      let op := if oldText.isNone then ChangeOp.create else ChangeOp.update
      let r := record D stamp op item (oldText.getD "") newText
      let name := if oldText.isNone then "item-created" else "item-changed"
      ⟨.ok (some stamp.id), (f.appendLog item r).writeText item newText, [event S name item]⟩

def moveAway (b : Bin) (op : ChangeOp) (f : Files) (stamp : Stamp) (id : S.ItemId) :
    Outcome UndoEntryId :=
  let item := S.display id
  match (f.data item).live with
  | none => fail (.notFound item) f
  | some text =>
    let f := f.appendLog item (record D stamp op item text "")
    match (f.data item).moveToBin b stamp.id with
    | none => fail (.io "NotFound") f
    | some s =>
      let f := f.setData item s
      match (f.log item).moveToBin b stamp.id with
      | none => fail (.io "NotFound") f
      | some l => ⟨.ok stamp.id, f.setLog item l, [event S "item-removed" item]⟩

def delete (f : Files) (stamp : Stamp) (id : S.ItemId) : Outcome UndoEntryId :=
  moveAway D S .trash .delete f stamp id

def archive (f : Files) (stamp : Stamp) (id : S.ItemId) : Outcome UndoEntryId :=
  moveAway D S .archive .archive f stamp id

def unarchive (f : Files) (stamp : Stamp) (id : S.ItemId) (archiveEntry : UndoEntryId) :
    Outcome S.Item :=
  let item := S.display id
  match (f.log item).restoreArchivedFile archiveEntry with
  | none => fail (.io "NotFound") f
  | some l =>
    let f := f.setLog item l
    match (f.data item).restoreArchivedFile archiveEntry with
    | none => fail (.io "NotFound") f
    | some s =>
      let f := f.setData item s
      match (f.data item).live with
      | none => fail (.notFound item) f
      | some restored =>
        ⟨S.read item restored, f.appendLog item (record D stamp .unarchive item "" restored),
          [event S "item-created" item]⟩

def unarchiveLatest (f : Files) (stamp : Stamp) (id : S.ItemId) :
    Outcome (S.Item × UndoEntryId) :=
  let item := S.display id
  match (f.data item).findArchivedEntryId with
  | none => fail (.notFound item) f
  | some archiveEntry =>
    let o := unarchive D S f stamp id archiveEntry
    match o.result with
    | .error e => ⟨.error e, o.files, o.events⟩
    | .ok x =>
      match ((o.files.log item).live.getD []).reverse.find? (fun r => r.op == .unarchive) with
      | none => ⟨.error (.entryNotFound "unarchive entry not found"), o.files, o.events⟩
      | some r => ⟨.ok (x, r.id), o.files, o.events⟩

/-- What undo or redo does with the record it has found. The patch of `sendAway` and
`bringBack` is applied to the empty text, to rebuild the item that is returned. -/
inductive Arm
  | sendAway (b : Bin) (patch : String)
  | bringBack (b : Bin) (patch : String)
  | rewrite (patch : String) (conflict : String)
  deriving DecidableEq, Repr

def undoArm (r : ChangelogEntry) : Arm :=
  match r.op with
  | .create => .sendAway .trash r.forwardPatch
  | .update => .rewrite r.reversePatch
      "reverse patch failed to apply — file was concurrently modified"
  | .delete => .bringBack .trash r.reversePatch
  | .archive => .bringBack .archive r.reversePatch
  | .unarchive => .sendAway .archive r.forwardPatch

def redoArm (r : ChangelogEntry) : Arm :=
  match r.op with
  | .create => .bringBack .trash r.forwardPatch
  | .update => .rewrite r.forwardPatch
      "forward patch failed to apply — file was concurrently modified"
  | .delete => .sendAway .trash r.reversePatch
  | .archive => .sendAway .archive r.reversePatch
  | .unarchive => .bringBack .archive r.forwardPatch

/-- The three kinds of arm of the `match` in `undo` and in `redo`. The item's id is
parsed and its text deserialized only after the files have moved. -/
def runArm (f : Files) (r : ChangelogEntry) : Arm → Outcome S.Item
  | .sendAway b patch =>
    match applyPatch D "" patch with
    | .error e => fail e f
    | .ok text =>
      match (f.data r.itemId).moveToBin b r.id with
      | none => fail (.io "NotFound") f
      | some s =>
        let f := f.setData r.itemId s
        match (f.log r.itemId).moveToBin b r.id with
        | none => fail (.io "NotFound") f
        | some l =>
          ⟨S.read r.itemId text, f.setLog r.itemId l, [event S "item-removed" r.itemId]⟩
  | .bringBack b patch =>
    match (f.data r.itemId).moveFromBin b r.id with
    | none => fail (.io "NotFound") f
    | some s =>
      let f := f.setData r.itemId s
      match applyPatch D "" patch with
      | .error e => fail e f
      | .ok text => ⟨S.read r.itemId text, f, [event S "item-created" r.itemId]⟩
  | .rewrite patch conflict =>
    match (f.data r.itemId).live with
    | none => fail (.notFound r.itemId) f
    | some current =>
      match applyPatch D current patch with
      | .error _ => fail (.mergeConflict conflict) f
      | .ok target =>
        ⟨S.read r.itemId target, f.writeText r.itemId target,
          [event S "item-changed" r.itemId]⟩

/-- Bring the changelog back from the trash and then from the archive if it was moved
there under this entry; errors are ignored. -/
def restoreLogs (f : Files) (item : StoredItemId) (entry : UndoEntryId) : Files :=
  let l := ((f.log item).restoreFile entry).getD (f.log item)
  f.setLog item ((l.restoreArchivedFile entry).getD l)

def replay (arm : ChangelogEntry → Arm) (f : Files) (entry : UndoEntryId)
    (item : StoredItemId) : Outcome S.Item :=
  let f := restoreLogs f item entry
  match ((f.log item).live.getD []).findEntry entry with
  | none => fail (.entryNotFound (UndoEntryId.toString entry)) f
  | some r => runArm D S f r (arm r)

def undo (f : Files) (entry : UndoEntryId) (item : StoredItemId) : Outcome S.Item :=
  replay D S undoArm f entry item

def redo (f : Files) (entry : UndoEntryId) (item : StoredItemId) : Outcome S.Item :=
  replay D S redoArm f entry item

end

def hasEntry (f : Files) (entry : UndoEntryId) (item : StoredItemId) : Bool :=
  (((f.log item).live.getD []).findEntry entry).isSome ||
    (f.log item).isTrashed entry || (f.log item).isArchived entry

end SwissArmyHammer.Store
