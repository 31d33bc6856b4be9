import SwissArmyHammer.Common.IndexedVec
import SwissArmyHammer.Store.Handle

/-! `PerspectiveContext`: the perspectives of a directory held in memory, with the operations
that change them and the events that tell subscribers. Failures of the file system are left out. -/

namespace SwissArmyHammer.Perspectives

open Store

inductive SortDirection
  | asc
  | desc
  deriving DecidableEq, Repr

structure SortEntry where
  field : String
  direction : SortDirection
  deriving DecidableEq, Repr

structure PerspectiveFieldEntry where
  field : String
  caption : Option String
  width : Option UInt32
  editor : Option String
  display : Option String
  sortComparator : Option String
  deriving DecidableEq, Repr

structure Perspective where
  id : String
  name : String
  view : String
  viewId : Option String
  fields : List PerspectiveFieldEntry
  filter : Option String
  group : Option String
  sort : List SortEntry
  deriving DecidableEq, Repr

inductive PerspectiveEvent
  | perspectiveChanged (id : String) (changedFields : List String) (isCreate : Bool)
  | perspectiveDeleted (id : String)
  deriving DecidableEq, Repr

def PerspectiveEvent.id : PerspectiveEvent → String
  | perspectiveChanged id _ _ => id
  | perspectiveDeleted id => id

inductive PerspectiveError
  | notFound (resource id : String)
  | yaml (message : String)
  | store (error : StoreError)
  deriving DecidableEq, Repr

def PerspectiveError.display : PerspectiveError → String
  | notFound resource id => resource ++ " not found: " ++ id
  | yaml message => "YAML error: " ++ message
  | store error => "Store error: " ++ error.display

/-- `serde_yaml_ng` at the type `Perspective`. -/
structure SerdeYaml where
  toString : Perspective → String
  fromStr : String → Except String Perspective

def SerdeYaml.table (rows : List (Perspective × String)) : SerdeYaml where
  toString p := (rows.lookup p).getD ""
  fromStr text :=
    match rows.find? fun row => row.2 = text with
    | some row => .ok row.1
    | none => .error "no such document"

def perspectiveStore (Y : SerdeYaml) : TrackedStore where
  Item := Perspective
  ItemId := String
  itemId := Perspective.id
  display := id
  fromStr := some
  serialize p := .ok (Y.toString p)
  deserialize id text :=
    match Y.fromStr text with
    | .ok p => .ok { p with id }
    | .error message => .error (.yaml message)
  storeName := "perspective"

def diffPerspective (old : Option Perspective) (new : Perspective) : List String :=
  match old with
  | none => ["name", "view", "fields", "filter", "group", "sort"]
  | some old =>
    (if old.name ≠ new.name then ["name"] else []) ++
    (if old.view ≠ new.view then ["view"] else []) ++
    (if old.fields ≠ new.fields then ["fields"] else []) ++
    (if old.filter ≠ new.filter then ["filter"] else []) ++
    (if old.group ≠ new.group then ["group"] else []) ++
    (if old.sort ≠ new.sort then ["sort"] else [])

structure Pushed where
  entry : UndoEntryId
  label : String
  item : StoredItemId
  deriving DecidableEq, Repr

structure PerspectiveContext where
  cache : IndexedVec String Perspective
  hasStoreHandle : Bool
  hasStoreContext : Bool
  files : Files

structure Reply (α : Type) where
  result : Except PerspectiveError α
  context : PerspectiveContext
  pushed : List Pushed
  sent : List PerspectiveEvent

namespace PerspectiveContext

variable (D : Diffy) (Y : SerdeYaml)

def getById (c : PerspectiveContext) (id : String) : Option Perspective := c.cache.get id

def refuse {α : Type} (c : PerspectiveContext) (e : PerspectiveError) : Reply α :=
  ⟨.error e, c, [], []⟩

def push (c : PerspectiveContext) (entry : Option UndoEntryId) (label : String)
    (id : StoredItemId) : List Pushed :=
  if c.hasStoreContext then entry.toList.map fun e => ⟨e, label, id⟩ else []

def persist (c : PerspectiveContext) (stamp : Stamp) (p : Perspective) :
    Except StoreError (Option UndoEntryId) × Files :=
  if c.hasStoreHandle then
    let o := Store.write D (perspectiveStore Y) c.files stamp p
    (o.result, o.files)
  else (.ok none, c.files.writeText p.id (Y.toString p))

def write (c : PerspectiveContext) (stamp : Stamp) (p : Perspective) :
    Reply (Option UndoEntryId) :=
  let old := c.getById p.id
  match c.persist D Y stamp p with
  | (.error e, files) => { c with files }.refuse (.store e)
  | (.ok entry, files) =>
    let op := if old.isNone then "create" else "update"
    let changedFields := diffPerspective old p
    ⟨.ok entry, { c with files, cache := c.cache.upsert Perspective.id p },
      c.push entry (op ++ " perspective " ++ p.id) p.id,
      if changedFields ≠ [] then [.perspectiveChanged p.id changedFields old.isNone] else []⟩

def rename (c : PerspectiveContext) (stamp : Stamp) (id newName : String) : Reply Perspective :=
  match c.getById id with
  | none => c.refuse (.notFound "perspective" id)
  | some p =>
    let updated := { p with name := newName }
    let r := c.write D Y stamp updated
    ⟨r.result.map fun _ => updated, r.context, r.pushed, r.sent⟩

def unpersist (c : PerspectiveContext) (stamp : Stamp) (id : String) :
    Except StoreError (Option UndoEntryId) × Files :=
  if c.hasStoreHandle then
    let o := Store.delete D (perspectiveStore Y) c.files stamp id
    (o.result.map some, o.files)
  else (.ok none, c.files.setData id { c.files.data id with live := none })

def delete (c : PerspectiveContext) (stamp : Stamp) (id : String) :
    Reply (Perspective × Option UndoEntryId) :=
  match c.cache.index.get? id with
  | none => c.refuse (.notFound "perspective" id)
  | some i =>
    match c.cache.items[i]?, c.unpersist D Y stamp id with
    | some deleted, (.ok entry, files) =>
      ⟨.ok (deleted, entry), { c with files, cache := c.cache.removeAt Perspective.id i },
        c.push entry ("delete perspective " ++ id) id, [.perspectiveDeleted deleted.id]⟩
    | _, (.error e, files) => { c with files }.refuse (.store e)
    | none, _ => c.refuse (.notFound "perspective" id)

def reloadFromDisk (c : PerspectiveContext) (id : String) : Reply Unit :=
  match (c.files.data id).live with
  | some content =>
    match Y.fromStr content with
    | .error message => c.refuse (.yaml message)
    | .ok p =>
      ⟨.ok (), { c with cache := c.cache.upsert Perspective.id p }, [],
        [.perspectiveChanged p.id [] false]⟩
  | none =>
    match c.cache.index.get? id with
    | some i =>
      ⟨.ok (), { c with cache := c.cache.removeAt Perspective.id i }, [], [.perspectiveDeleted id]⟩
    | none => ⟨.ok (), c, [], []⟩

def setStoreHandle (c : PerspectiveContext) : PerspectiveContext :=
  { c with hasStoreHandle := true }

def setStoreContext (c : PerspectiveContext) : PerspectiveContext :=
  { c with hasStoreContext := true }

def loadOne (files : Files) (cache : IndexedVec String Perspective) (name : StoredItemId) :
    IndexedVec String Perspective :=
  match (files.data name).live.map Y.fromStr with
  | some (.ok p) => cache.push Perspective.id p
  | _ => cache

def openDir (files : Files) (names : List StoredItemId) : PerspectiveContext where
  cache := names.foldl (loadOne Y files) .empty
  hasStoreHandle := false
  hasStoreContext := false
  files := files

end PerspectiveContext

end SwissArmyHammer.Perspectives

/-! What a subscriber of a `PerspectiveContext` can rely on: the index, the agreement of the cache
with the files, and one event for each value that an operation changes. -/

namespace SwissArmyHammer.Perspectives

open Store

/-- `outside` stands for another program, and for undo and redo in the store layer: it leaves the
files of one item as they are given. -/
inductive Op
  | write (stamp : Stamp) (p : Perspective)
  | rename (stamp : Stamp) (id newName : String)
  | delete (stamp : Stamp) (id : String)
  | reloadFromDisk (id : String)
  | setStoreHandle
  | setStoreContext
  | outside (id : StoredItemId) (data : Slots String) (log : Slots Changelog)

structure Step where
  isOk : Bool
  context : PerspectiveContext
  sent : List PerspectiveEvent

def Reply.step {α : Type} (r : Reply α) : Step := ⟨r.result.toBool, r.context, r.sent⟩

def Op.item : Op → Option String
  | write _ p => some p.id
  | rename _ id _ | delete _ id | reloadFromDisk id => some id
  | setStoreHandle | setStoreContext | outside .. => none

section

variable (D : Diffy) (Y : SerdeYaml)

def step (c : PerspectiveContext) : Op → Step
  | .write stamp p => (c.write D Y stamp p).step
  | .rename stamp id newName => (c.rename D Y stamp id newName).step
  | .delete stamp id => (c.delete D Y stamp id).step
  | .reloadFromDisk id => (c.reloadFromDisk Y id).step
  | .setStoreHandle => ⟨true, c.setStoreHandle, []⟩
  | .setStoreContext => ⟨true, c.setStoreContext, []⟩
  | .outside id data log =>
    ⟨true, { c with files := (c.files.setData id data).setLog id log }, []⟩

structure Watched where
  context : PerspectiveContext
  stale : List String

def Watched.next (w : Watched) (op : Op) : Watched where
  context := (step D Y w.context op).context
  stale :=
    match op with
    | .outside id _ _ => id :: w.stale
    | _ => if (step D Y w.context op).isOk then w.stale.filter (some · ≠ op.item) else w.stale

def run (w : Watched) (ops : List Op) : Watched := ops.foldl (Watched.next D Y) w

def trace (c : PerspectiveContext) : List Op → List (PerspectiveContext × Op)
  | [] => []
  | op :: ops => (c, op) :: trace (step D Y c op).context ops

def diskAt (files : Files) (id : StoredItemId) : Option Perspective :=
  (files.data id).live.bind fun text => (Y.fromStr text).toOption

def Stems (files : Files) : Prop := ∀ id p, diskAt Y files id = some p → p.id = id

def RoundTrips (p : Perspective) : Prop := Y.fromStr (Y.toString p) = .ok p

/-- What is asked of a run: `serde_yaml_ng` reads back what it wrote, and a file that is changed
from outside keeps its stem as its id. -/
def Admissible (c : PerspectiveContext) : Op → Prop
  | .write _ p => RoundTrips Y p
  | .rename _ id newName =>
    ∀ p, c.getById id = some p → RoundTrips Y { p with name := newName }
  | .outside id data _ =>
    ∀ text p, data.live = some text → Y.fromStr text = .ok p → p.id = id
  | _ => True

end

def blank (id : String) : Perspective := ⟨id, "", "", none, [], none, none, []⟩

def Perspective.differing (old new : Perspective) : List String :=
  (if old.id ≠ new.id then ["id"] else []) ++
  (if old.name ≠ new.name then ["name"] else []) ++
  (if old.view ≠ new.view then ["view"] else []) ++
  (if old.viewId ≠ new.viewId then ["view_id"] else []) ++
  (if old.fields ≠ new.fields then ["fields"] else []) ++
  (if old.filter ≠ new.filter then ["filter"] else []) ++
  (if old.group ≠ new.group then ["group"] else []) ++
  (if old.sort ≠ new.sort then ["sort"] else [])

def Tells (old new : Option Perspective) : PerspectiveEvent → Prop
  | .perspectiveChanged id changedFields _ => ∃ p, new = some p ∧
      (changedFields = [] ∨ ∀ f ∈ (old.getD (blank id)).differing p, f ∈ changedFields)
  | .perspectiveDeleted _ => new = none

/-- Each value that changes has one event, and where none changes no event names a field. -/
def Faithful (c : PerspectiveContext) (s : Step) : Prop :=
  (∀ id, c.getById id ≠ s.context.getById id → ∃ e,
    s.sent.filter (fun e => e.id = id) = [e] ∧ Tells (c.getById id) (s.context.getById id) e) ∧
  ((∀ id, c.getById id = s.context.getById id) →
    ∀ id changedFields isCreate, .perspectiveChanged id changedFields isCreate ∈ s.sent →
      changedFields = [])

/-- A write keeps the view id that its perspective has in the cache, and creates none with one. -/
def KeepsViewId (c : PerspectiveContext) : Op → Prop
  | .write _ p => (c.getById p.id).bind Perspective.viewId = p.viewId
  | _ => True

section

/-- The files and the cache differ at one id at most, and there they agree afterwards. -/
structure Settles (Y : SerdeYaml) (c c' : PerspectiveContext) (id : String)
    (new : Option Perspective) : Prop where
  indexed : c'.cache.Indexed Perspective.id
  cached : c'.getById id = new
  onDisk : diskAt Y c'.files id = new
  elsewhere : ∀ x, x ≠ id →
    c'.getById x = c.getById x ∧ diskAt Y c'.files x = diskAt Y c.files x

structure Same (Y : SerdeYaml) (c c' : PerspectiveContext) : Prop where
  cache : c'.cache = c.cache
  onDisk : ∀ x, diskAt Y c'.files x = diskAt Y c.files x

inductive Effect (Y : SerdeYaml) (c : PerspectiveContext) (id : String) (keeps : Prop) :
    Step → Prop
  | refused (c' : PerspectiveContext) (h : Same Y c c') (hkeeps : keeps) :
      Effect Y c id keeps ⟨false, c', []⟩
  | stored (c' : PerspectiveContext) (p : Perspective) (hid : p.id = id)
      (h : Settles Y c c' id (some p))
      (hkeeps : keeps ↔ (c.getById id).bind Perspective.viewId = p.viewId) :
      Effect Y c id keeps ⟨true, c', if diffPerspective (c.getById id) p ≠ [] then
        [.perspectiveChanged id (diffPerspective (c.getById id) p) (c.getById id).isNone] else []⟩
  | refreshed (c' : PerspectiveContext) (p : Perspective) (h : Settles Y c c' id (some p))
      (hkeeps : keeps) : Effect Y c id keeps ⟨true, c', [.perspectiveChanged id [] false]⟩
  | removed (c' : PerspectiveContext) (h : Settles Y c c' id none) (hkeeps : keeps) :
      Effect Y c id keeps ⟨true, c', [.perspectiveDeleted id]⟩
  | absent (hnone : c.getById id = none) (h : diskAt Y c.files id = none) (hkeeps : keeps) :
      Effect Y c id keeps ⟨true, c, []⟩

variable {D : Diffy} {Y : SerdeYaml} {c c' : PerspectiveContext} {p : Perspective} {id : String}
  {stamp : Stamp} {f : Files} {op : Op}

theorem diskAt_of_live {g : Files} (h : (f.data id).live = (g.data id).live) :
    diskAt Y f id = diskAt Y g id := by
  rw [diskAt, diskAt, h]

theorem live_writeText (f : Files) (id x : StoredItemId) (text : String) :
    ((f.writeText id text).data x).live = if x = id then some text else (f.data x).live := by
  by_cases hx : x = id
  · rw [if_pos hx, hx, Files.writeText, Files.setData_data]
  · rw [if_neg hx, Files.writeText, Files.setData_data_of_ne _ _ _ hx]

theorem live_appendLog (f : Files) (id x : StoredItemId) (r : ChangelogEntry) :
    ((f.appendLog id r).data x).live = (f.data x).live := by
  rw [Files.appendLog, Files.setLog_data]

theorem live_write (S : TrackedStore) {x : S.Item} {text : String} (hx : S.serialize x = .ok text)
    (f : Files) (stamp : Stamp) : ∃ entry, (Store.write D S f stamp x).result = .ok entry ∧
      ∀ y, ((Store.write D S f stamp x).files.data y).live =
        if y = S.display (S.itemId x) then some text else (f.data y).live := by
  simp only [Store.write, hx]
  by_cases hsame : (f.data (S.display (S.itemId x))).live = some text
  · rw [if_pos hsame]
    refine ⟨none, rfl, fun y => ?_⟩
    by_cases hy : y = S.display (S.itemId x)
    · rw [if_pos hy, hy, hsame]
    · rw [if_neg hy]
  · rw [if_neg hsame]
    refine ⟨some stamp.id, rfl, fun y => ?_⟩
    rw [live_writeText, live_appendLog]

theorem live_delete (S : TrackedStore) (f : Files) (stamp : Stamp) (id : S.ItemId) :
    (∃ entry, (Store.delete D S f stamp id).result = .ok entry ∧
      ∀ y, ((Store.delete D S f stamp id).files.data y).live =
        if y = S.display id then none else (f.data y).live) ∨
    ∃ e, Store.delete D S f stamp id = fail e f := by
  simp only [Store.delete, moveAway]
  cases hlive : (f.data (S.display id)).live with
  | none => exact .inr ⟨_, rfl⟩
  | some text =>
    simp only [Slots.moveToBin, Files.appendLog, Files.setLog_data, hlive, Option.map_some,
      Files.setData_log, Files.setLog_log]
    refine .inl ⟨stamp.id, rfl, fun y => ?_⟩
    by_cases hy : y = S.display id
    · rw [if_pos hy, hy, Files.setData_data]
    · rw [if_neg hy, Files.setData_data_of_ne _ _ _ hy, Files.setLog_data]

theorem persist_spec (D : Diffy) (Y : SerdeYaml) (c : PerspectiveContext) (stamp : Stamp)
    (p : Perspective) : ∃ entry files, c.persist D Y stamp p = (.ok entry, files) ∧
      ∀ x, (files.data x).live =
        if x = p.id then some (Y.toString p) else (c.files.data x).live := by
  rw [PerspectiveContext.persist]
  by_cases hstore : c.hasStoreHandle
  · rw [if_pos hstore]
    obtain ⟨entry, hresult, hlive⟩ := live_write (D := D) (perspectiveStore Y) rfl c.files stamp
    exact ⟨entry, _, Prod.ext hresult rfl, hlive⟩
  · rw [if_neg hstore]
    exact ⟨none, _, rfl, fun x => live_writeText _ _ x _⟩

theorem unpersist_spec (D : Diffy) (Y : SerdeYaml) (c : PerspectiveContext) (stamp : Stamp)
    (id : String) :
    (∃ entry files, c.unpersist D Y stamp id = (.ok entry, files) ∧
      ∀ x, (files.data x).live = if x = id then none else (c.files.data x).live) ∨
    ∃ e, c.unpersist D Y stamp id = (.error e, c.files) := by
  rw [PerspectiveContext.unpersist]
  by_cases hstore : c.hasStoreHandle
  · rw [if_pos hstore]
    rcases live_delete (D := D) (perspectiveStore Y) c.files stamp id with
      ⟨entry, hresult, hlive⟩ | ⟨e, hfail⟩
    · exact .inl ⟨some entry, _, Prod.ext (congrArg (Except.map some) hresult) rfl, hlive⟩
    · refine .inr ⟨e, ?_⟩
      simp only [hfail]
      rfl
  · rw [if_neg hstore]
    refine .inl ⟨none, _, rfl, fun x => ?_⟩
    by_cases hx : x = id
    · rw [if_pos hx, hx, Files.setData_data]
    · rw [if_neg hx, Files.setData_data_of_ne _ _ _ hx]

theorem settles_upsert (h : c.cache.Indexed Perspective.id) {files : Files}
    (hdisk : diskAt Y files p.id = some p)
    (hframe : ∀ x, x ≠ p.id → diskAt Y files x = diskAt Y c.files x) :
    Settles Y c { c with files, cache := c.cache.upsert Perspective.id p } p.id (some p) := by
  refine ⟨h.upsert p, ?_, hdisk, fun x hx => ⟨?_, hframe x hx⟩⟩
  · exact (h.get_upsert p p.id).trans (if_pos rfl)
  · exact (h.get_upsert p x).trans (if_neg hx)

theorem settles_removeAt (h : c.cache.Indexed Perspective.id) {files : Files} {i : Nat}
    (hi : c.cache.items[i]? = some p) (hdisk : diskAt Y files p.id = none)
    (hframe : ∀ x, x ≠ p.id → diskAt Y files x = diskAt Y c.files x) :
    Settles Y c { c with files, cache := c.cache.removeAt Perspective.id i } p.id none := by
  refine ⟨h.removeAt hi, ?_, hdisk, fun x hx => ⟨?_, hframe x hx⟩⟩
  · exact (h.get_removeAt hi p.id).trans (if_pos rfl)
  · exact (h.get_removeAt hi x).trans (if_neg hx)

theorem write_effect (h : c.cache.Indexed Perspective.id) (hp : RoundTrips Y p) (stamp : Stamp) :
    Effect Y c p.id ((c.getById p.id).bind Perspective.viewId = p.viewId)
      (c.write D Y stamp p).step := by
  obtain ⟨entry, files, hpersist, hlive⟩ := persist_spec D Y c stamp p
  have hdisk : diskAt Y files p.id = some p := by
    rw [diskAt, hlive, if_pos rfl, Option.bind_some, hp]
    rfl
  have hframe : ∀ x, x ≠ p.id → diskAt Y files x = diskAt Y c.files x := by
    intro x hx
    apply diskAt_of_live
    rw [hlive, if_neg hx]
  rw [PerspectiveContext.write, hpersist]
  exact .stored _ p rfl (settles_upsert h hdisk hframe) Iff.rfl

theorem rename_effect (h : c.cache.Indexed Perspective.id) {newName : String}
    (hp : ∀ p, c.getById id = some p → RoundTrips Y { p with name := newName }) :
    Effect Y c id True (c.rename D Y stamp id newName).step := by
  rw [PerspectiveContext.rename]
  cases hget : c.getById id with
  | none => exact .refused _ ⟨rfl, fun _ => rfl⟩ trivial
  | some p =>
    obtain rfl : p.id = id := h.key_of_get hget
    have hkeeps : ((c.getById p.id).bind Perspective.viewId = p.viewId) = True :=
      eq_true (by rw [hget, Option.bind_some])
    have heffect := write_effect (D := D) h (hp p hget) stamp
    simp only [hkeeps] at heffect
    have hstep (r : Reply (Option UndoEntryId)) (x : Perspective) :
        Reply.step ⟨r.result.map fun _ => x, r.context, r.pushed, r.sent⟩ = r.step := by
      cases hr : r.result <;> simp [Reply.step, hr, Except.map, Except.toBool]
    exact (hstep _ _).symm ▸ heffect

theorem delete_effect (h : c.cache.Indexed Perspective.id) :
    Effect Y c id True (c.delete D Y stamp id).step := by
  rw [PerspectiveContext.delete]
  cases hindex : c.cache.index.get? id with
  | none => exact .refused _ ⟨rfl, fun _ => rfl⟩ trivial
  | some i =>
    obtain ⟨p, hi, rfl⟩ := (h id i).mp hindex
    simp only [hi]
    rcases unpersist_spec D Y c stamp p.id with ⟨entry, files, hun, hlive⟩ | ⟨e, hun⟩
    · rw [hun]
      have hdisk : diskAt Y files p.id = none := by
        rw [diskAt, hlive, if_pos rfl, Option.bind_none]
      have hframe : ∀ x, x ≠ p.id → diskAt Y files x = diskAt Y c.files x := by
        intro x hx
        apply diskAt_of_live
        rw [hlive, if_neg hx]
      exact .removed _ (settles_removeAt h hi hdisk hframe) trivial
    · rw [hun]
      exact .refused _ ⟨rfl, fun _ => rfl⟩ trivial

theorem reloadFromDisk_effect (h : c.cache.Indexed Perspective.id) (hstems : Stems Y c.files) :
    Effect Y c id True (c.reloadFromDisk Y id).step := by
  rw [PerspectiveContext.reloadFromDisk]
  cases hlive : (c.files.data id).live with
  | some content =>
    simp only
    cases hparse : Y.fromStr content with
    | error message => exact .refused _ ⟨rfl, fun _ => rfl⟩ trivial
    | ok p =>
      have hdisk : diskAt Y c.files id = some p := by
        rw [diskAt, hlive, Option.bind_some, hparse]
        rfl
      obtain rfl := hstems id p hdisk
      exact .refreshed _ p (settles_upsert h hdisk fun x _ => rfl) trivial
  | none =>
    have hdisk : diskAt Y c.files id = none := by rw [diskAt, hlive, Option.bind_none]
    cases hindex : c.cache.index.get? id with
    | none =>
      have hnone : c.getById id = none := by
        rw [PerspectiveContext.getById, IndexedVec.get, hindex, Option.bind_none]
      exact .absent hnone hdisk trivial
    | some i =>
      obtain ⟨p, hi, rfl⟩ := (h id i).mp hindex
      exact .removed _ (settles_removeAt h hi hdisk fun x _ => rfl) trivial

theorem forall_differing_iff {old : Perspective} (hid : old.id = p.id) :
    (∀ f ∈ old.differing p, f ∈ diffPerspective (some old) p) ↔ old.viewId = p.viewId := by
  constructor
  · intro hall
    by_contra hview
    have hmem : "view_id" ∈ old.differing p := by simp [Perspective.differing, hview]
    have hnot : "view_id" ∉ diffPerspective (some old) p := by simp [diffPerspective]
    exact hnot (hall _ hmem)
  · intro hview f hf
    simpa [Perspective.differing, diffPerspective, hid, hview] using hf

theorem eq_of_mem_ite {P : Prop} [Decidable P] {f g : String}
    (h : f ∈ if P then [g] else []) : f = g := by
  split_ifs at h
  · exact List.mem_singleton.mp h
  · cases h

theorem forall_differing_blank_iff :
    (∀ f ∈ (blank p.id).differing p, f ∈ diffPerspective none p) ↔ none = p.viewId := by
  constructor
  · intro hall
    by_contra hview
    have hmem : "view_id" ∈ (blank p.id).differing p := by
      simp [Perspective.differing, blank, hview]
    have hnot : "view_id" ∉ diffPerspective none p := by simp [diffPerspective]
    exact hnot (hall _ hmem)
  · intro hview f hf
    simp only [Perspective.differing, blank, ← hview, ne_eq, not_true_eq_false, if_false,
      List.nil_append, List.append_nil, List.mem_append] at hf
    rcases hf with ((((hf | hf) | hf) | hf) | hf) | hf <;>
      simp [diffPerspective, eq_of_mem_ite hf]

theorem diffPerspective_eq_nil {old : Perspective} (hid : old.id = p.id)
    (hview : old.viewId = p.viewId) (h : diffPerspective (some old) p = []) : old = p := by
  cases old
  cases p
  simp_all [diffPerspective]

theorem tells_stored_iff {old : Option Perspective} (hold : ∀ q, old = some q → q.id = p.id)
    {isCreate : Bool} (hdiff : diffPerspective old p ≠ []) :
    Tells old (some p) (.perspectiveChanged p.id (diffPerspective old p) isCreate) ↔
      old.bind Perspective.viewId = p.viewId := by
  simp only [Tells, Option.some.injEq, exists_eq_left', hdiff, false_or]
  cases old with
  | none => exact forall_differing_blank_iff
  | some q => exact forall_differing_iff (hold q rfl)

theorem filter_id_singleton {e : PerspectiveEvent} (h : e.id = id) :
    [e].filter (fun e => e.id = id) = [e] := by
  simp [h]

theorem faithful_of_same {s : Step} (h : s.context.cache = c.cache) (hsent : s.sent = []) :
    Faithful c s := by
  refine ⟨fun x hx => absurd ?_ hx, fun _ x fields isCreate hmem => ?_⟩
  · rw [PerspectiveContext.getById, PerspectiveContext.getById, h]
  · rw [hsent] at hmem
    exact absurd hmem List.not_mem_nil

theorem Settles.changed_at {new : Option Perspective} (h : Settles Y c c' id new) {x : String}
    (hx : c.getById x ≠ c'.getById x) : x = id :=
  by_contra fun hne => hx (h.elsewhere x hne).1.symm

theorem Effect.faithful_iff {keeps : Prop} {s : Step} (hc : c.cache.Indexed Perspective.id)
    (h : Effect Y c id keeps s) : Faithful c s ↔ keeps := by
  cases h with
  | refused c' h hkeeps => exact iff_of_true (faithful_of_same h.cache rfl) hkeeps
  | absent hnone h hkeeps => exact iff_of_true (faithful_of_same rfl rfl) hkeeps
  | refreshed c' p h hkeeps =>
    refine iff_of_true ⟨fun x hx => ?_, fun _ x fields isCreate hmem => ?_⟩ hkeeps
    · obtain rfl := h.changed_at hx
      exact ⟨_, filter_id_singleton rfl, p, h.cached, .inl rfl⟩
    · cases List.mem_singleton.mp hmem
      rfl
  | removed c' h hkeeps =>
    refine iff_of_true ⟨fun x hx => ?_, fun _ x fields isCreate hmem => ?_⟩ hkeeps
    · obtain rfl := h.changed_at hx
      exact ⟨_, filter_id_singleton rfl, h.cached⟩
    · cases List.mem_singleton.mp hmem
  | stored c' p hid h hkeeps =>
    subst hid
    rw [hkeeps]
    have hold : ∀ q, c.getById p.id = some q → q.id = p.id := fun q hq => hc.key_of_get hq
    by_cases hdiff : diffPerspective (c.getById p.id) p = []
    · rw [if_neg (by simpa using hdiff)]
      constructor
      · intro hfaithful
        have hsame : c.getById p.id = some p := by
          by_contra hne
          obtain ⟨e, hsent, -⟩ := hfaithful.1 p.id (h.cached ▸ hne)
          cases hsent
        rw [hsame, Option.bind_some]
      · intro hview
        have hsame : c.getById p.id = some p := by
          cases hget : c.getById p.id with
          | none => simp [hget, diffPerspective] at hdiff
          | some q =>
            rw [hget] at hdiff hview
            rw [diffPerspective_eq_nil (hold q hget) hview hdiff]
        refine ⟨fun x hx => ?_, fun _ x fields isCreate hmem => absurd hmem List.not_mem_nil⟩
        obtain rfl := h.changed_at hx
        exact absurd (hsame.trans h.cached.symm) hx
    · rw [if_pos hdiff]
      constructor
      · intro hfaithful
        by_cases hsame : c.getById p.id = some p
        · rw [hsame, Option.bind_some]
        · obtain ⟨e, hsent, htells⟩ := hfaithful.1 p.id (h.cached ▸ hsame)
          obtain rfl := List.singleton_inj.mp ((filter_id_singleton rfl).symm.trans hsent)
          replace htells : Tells (c.getById p.id) (some p) _ := h.cached ▸ htells
          exact (tells_stored_iff hold hdiff).mp htells
      · intro hview
        refine ⟨fun x hx => ?_, fun hall => ?_⟩
        · obtain rfl := h.changed_at hx
          exact ⟨_, filter_id_singleton rfl, h.cached.symm ▸ (tells_stored_iff hold hdiff).mpr hview⟩
        · have hsame : c.getById p.id = some p := (hall p.id).trans h.cached
          simp [hsame, diffPerspective] at hdiff

theorem step_effect (h : c.cache.Indexed Perspective.id) (hstems : Stems Y c.files)
    (hop : Admissible Y c op) :
    (∃ id, op.item = some id ∧ Effect Y c id (KeepsViewId c op) (step D Y c op)) ∨
    op.item = none ∧ KeepsViewId c op ∧ (step D Y c op).context.cache = c.cache ∧
      (step D Y c op).sent = [] := by
  cases op with
  | write stamp p => exact .inl ⟨p.id, rfl, write_effect h hop stamp⟩
  | rename stamp id newName => exact .inl ⟨id, rfl, rename_effect h hop⟩
  | delete stamp id => exact .inl ⟨id, rfl, delete_effect h⟩
  | reloadFromDisk id => exact .inl ⟨id, rfl, reloadFromDisk_effect h hstems⟩
  | setStoreHandle => exact .inr ⟨rfl, trivial, rfl, rfl⟩
  | setStoreContext => exact .inr ⟨rfl, trivial, rfl, rfl⟩
  | outside id data log => exact .inr ⟨rfl, trivial, rfl, rfl⟩

theorem faithful_step_iff (h : c.cache.Indexed Perspective.id) (hstems : Stems Y c.files)
    (hop : Admissible Y c op) : Faithful c (step D Y c op) ↔ KeepsViewId c op := by
  rcases step_effect (D := D) h hstems hop with ⟨id, -, heffect⟩ | ⟨-, hkeeps, hcache, hsent⟩
  · exact heffect.faithful_iff h
  · exact iff_of_true (faithful_of_same hcache hsent) hkeeps

structure Agrees (Y : SerdeYaml) (w : Watched) : Prop where
  indexed : w.context.cache.Indexed Perspective.id
  stems : Stems Y w.context.files
  fresh : ∀ id, id ∉ w.stale → w.context.getById id = diskAt Y w.context.files id

theorem Settles.agrees {w : Watched} {new : Option Perspective} (hw : Agrees Y w)
    (h : Settles Y w.context c' id new) :
    Agrees Y ⟨c', w.stale.filter (some · ≠ some id)⟩ := by
  refine ⟨h.indexed, fun x p hp => ?_, fun x hx => ?_⟩
  · by_cases hid : x = id
    · subst hid
      exact h.indexed.key_of_get (h.cached.trans (h.onDisk.symm.trans hp))
    · rw [(h.elsewhere x hid).2] at hp
      exact hw.stems x p hp
  · by_cases hid : x = id
    · rw [hid, h.onDisk]
      exact h.cached
    · obtain ⟨hcached, hdisk⟩ := h.elsewhere x hid
      have hfresh : x ∉ w.stale := fun hmem => hx (by simp [hmem, hid])
      rw [hcached, hdisk]
      exact hw.fresh x hfresh

theorem Effect.agrees {w : Watched} {keeps : Prop} {s : Step} (hw : Agrees Y w)
    (h : Effect Y w.context id keeps s) :
    Agrees Y ⟨s.context, if s.isOk then w.stale.filter (some · ≠ some id) else w.stale⟩ := by
  cases h with
  | refused c' h hkeeps =>
    refine ⟨?_, fun x p hp => ?_, fun x hx => ?_⟩
    · rw [h.cache]
      exact hw.indexed
    · rw [h.onDisk] at hp
      exact hw.stems x p hp
    · rw [PerspectiveContext.getById, h.cache, h.onDisk]
      exact hw.fresh x hx
  | stored c' p hid h hkeeps => exact h.agrees hw
  | refreshed c' p h hkeeps => exact h.agrees hw
  | removed c' h hkeeps => exact h.agrees hw
  | absent hnone h hkeeps =>
    refine ⟨hw.indexed, hw.stems, fun x hx => ?_⟩
    by_cases hid : x = id
    · rw [hid]
      exact hnone.trans h.symm
    · exact hw.fresh x fun hmem => hx (by simp [hmem, hid])

theorem Agrees.outside {w : Watched} (hw : Agrees Y w) {data : Slots String}
    {log : Slots Changelog}
    (hstem : ∀ text p, data.live = some text → Y.fromStr text = .ok p → p.id = id) :
    Agrees Y (w.next D Y (.outside id data log)) := by
  have hdisk : ∀ x, x ≠ id →
      diskAt Y ((w.context.files.setData id data).setLog id log) x =
        diskAt Y w.context.files x := by
    intro x hx
    apply diskAt_of_live
    rw [Files.setLog_data, Files.setData_data_of_ne _ _ _ hx]
  refine ⟨hw.indexed, fun x p hp => ?_, fun x hx => ?_⟩
  · change diskAt Y ((w.context.files.setData id data).setLog id log) x = some p at hp
    by_cases hid : x = id
    · subst hid
      rw [diskAt, Files.setLog_data, Files.setData_data, Option.bind_eq_some_iff] at hp
      obtain ⟨text, hlive, hparse⟩ := hp
      refine hstem text p hlive ?_
      cases hresult : Y.fromStr text with
      | error message => rw [hresult] at hparse; cases hparse
      | ok q => rw [hresult] at hparse; rw [Option.some.inj hparse]
    · rw [hdisk x hid] at hp
      exact hw.stems x p hp
  · change x ∉ id :: w.stale at hx
    rw [List.mem_cons, not_or] at hx
    exact (hw.fresh x hx.2).trans (hdisk x hx.1).symm

theorem Agrees.next {w : Watched} (hw : Agrees Y w) (hop : Admissible Y w.context op) :
    Agrees Y (w.next D Y op) := by
  cases op with
  | write stamp p => exact (write_effect hw.indexed hop stamp).agrees hw
  | rename stamp id newName => exact (rename_effect hw.indexed hop).agrees hw
  | delete stamp id => exact (delete_effect hw.indexed).agrees hw
  | reloadFromDisk id => exact (reloadFromDisk_effect hw.indexed hw.stems).agrees hw
  | setStoreHandle =>
    refine ⟨hw.indexed, hw.stems, fun x hx => hw.fresh x fun hmem => hx ?_⟩
    simp [Watched.next, step, Op.item, hmem]
  | setStoreContext =>
    refine ⟨hw.indexed, hw.stems, fun x hx => hw.fresh x fun hmem => hx ?_⟩
    simp [Watched.next, step, Op.item, hmem]
  | outside id data log => exact hw.outside hop

theorem Agrees.run {w : Watched} (hw : Agrees Y w) (ops : List Op)
    (hops : ∀ s ∈ trace D Y w.context ops, Admissible Y s.1 s.2) :
    Agrees Y (run D Y w ops) ∧
      ((∀ s ∈ trace D Y w.context ops, Faithful s.1 (step D Y s.1 s.2)) ↔
        ∀ s ∈ trace D Y w.context ops, KeepsViewId s.1 s.2) := by
  induction ops generalizing w with
  | nil => exact ⟨hw, by simp [trace]⟩
  | cons op ops ih =>
    have hop := hops (w.context, op) List.mem_cons_self
    obtain ⟨hagrees, hiff⟩ := ih (hw.next hop) fun s hs => hops s (List.mem_cons_of_mem _ hs)
    refine ⟨hagrees, ?_⟩
    simp only [trace, List.forall_mem_cons]
    exact and_congr (faithful_step_iff hw.indexed hw.stems hop) hiff

structure Directory (Y : SerdeYaml) (files : Files) (names : List StoredItemId) : Prop where
  nodup : names.Nodup
  listed : ∀ id, id ∈ names ↔ (files.data id).live.isSome
  stems : Stems Y files

theorem loadOne_eq (v : IndexedVec String Perspective) (name : StoredItemId) :
    PerspectiveContext.loadOne Y f v name =
      (diskAt Y f name).elim v (v.push Perspective.id) := by
  rw [PerspectiveContext.loadOne, diskAt]
  cases (f.data name).live with
  | none => rfl
  | some text =>
    simp only [Option.map_some, Option.bind_some]
    cases Y.fromStr text <;> rfl

theorem load_spec (hstems : Stems Y f) (names : List StoredItemId) (hnodup : names.Nodup)
    {v : IndexedVec String Perspective} (hv : v.Indexed Perspective.id)
    (hnew : ∀ id ∈ names, v.get id = none) :
    (names.foldl (PerspectiveContext.loadOne Y f) v).Indexed Perspective.id ∧
      ∀ id, (names.foldl (PerspectiveContext.loadOne Y f) v).get id =
        if id ∈ names then diskAt Y f id else v.get id := by
  induction names generalizing v with
  | nil => exact ⟨hv, fun id => (if_neg List.not_mem_nil).symm⟩
  | cons name names ih =>
    obtain ⟨hname, hrest⟩ := List.nodup_cons.mp hnodup
    have hnone := hnew name List.mem_cons_self
    obtain ⟨hindexed, hget⟩ : (PerspectiveContext.loadOne Y f v name).Indexed Perspective.id ∧
        ∀ id, (PerspectiveContext.loadOne Y f v name).get id =
          if id = name then diskAt Y f id else v.get id := by
      rw [loadOne_eq]
      cases hdisk : diskAt Y f name with
      | none =>
        grind
      | some p =>
        obtain rfl := hstems name p hdisk
        have habsent : ∀ y ∈ v.items, y.id ≠ p.id := by
          intro y hy hid
          rw [hv.get_iff.mpr ⟨hy, hid⟩] at hnone
          cases hnone
        refine ⟨hv.push habsent, fun id => (hv.get_push habsent id).trans ?_⟩
        by_cases hid : id = p.id
        · rw [if_pos hid, if_pos hid, hid, hdisk]
        · rw [if_neg hid, if_neg hid]
    have hnew' : ∀ id ∈ names, (PerspectiveContext.loadOne Y f v name).get id = none := by
      intro id hid
      have hne : id ≠ name := fun heq => hname (heq ▸ hid)
      rw [hget, if_neg hne]
      exact hnew id (List.mem_cons_of_mem name hid)
    obtain ⟨hfinal, hview⟩ := ih hrest hindexed hnew'
    refine ⟨hfinal, fun id => (hview id).trans ?_⟩
    rw [hget]
    by_cases hid : id = name
    · rw [if_neg (hid ▸ hname), if_pos hid, if_pos (hid ▸ List.mem_cons_self)]
    · grind

theorem Directory.agrees {names : List StoredItemId} (h : Directory Y f names) :
    Agrees Y ⟨PerspectiveContext.openDir Y f names, []⟩ := by
  have hempty : ∀ id ∈ names, (IndexedVec.empty : IndexedVec String Perspective).get id = none :=
    fun _ _ => rfl
  obtain ⟨hindexed, hget⟩ := load_spec h.stems names h.nodup IndexedVec.indexed_empty hempty
  refine ⟨hindexed, h.stems, fun id _ => (hget id).trans ?_⟩
  by_cases hid : id ∈ names
  · exact if_pos hid
  · have hlive : (f.data id).live = none := by
      rw [h.listed] at hid
      simpa using hid
    rw [if_neg hid]
    change none = (f.data id).live.bind _
    rw [hlive, Option.bind_none]

end

def sprint : Perspective := ⟨"p1", "Sprint", "board", none, [], none, none, []⟩

def sprintYaml : SerdeYaml := .table [(sprint, "id: p1\nname: Sprint\nview: board\n"),
  ({ sprint with name := "Active" }, "id: p1\nname: Active\nview: board\n"),
  ({ sprint with viewId := some "v1" }, "id: p1\nname: Sprint\nview: board\nview_id: v1\n")]

def sprintFiles : Files := Files.empty.writeText "p1" "id: p1\nname: Sprint\nview: board\n"

def sprintContext : PerspectiveContext := .openDir sprintYaml sprintFiles ["p1"]

theorem directory_sprint : Directory sprintYaml sprintFiles ["p1"] := by
  have hlive : ∀ id, (sprintFiles.data id).live =
      if id = "p1" then some "id: p1\nname: Sprint\nview: board\n" else none :=
    fun id => live_writeText _ _ id _
  refine ⟨List.nodup_singleton _, fun id => ?_, fun id p hp => ?_⟩
  · rw [hlive]
    by_cases hid : id = "p1" <;> simp [hid]
  · rw [diskAt, hlive] at hp
    by_cases hid : id = "p1"
    · rw [if_pos hid] at hp
      obtain rfl : sprint = p := Option.some.inj hp
      exact hid.symm
    · rw [if_neg hid] at hp
      cases hp

section

variable {Y : SerdeYaml} {files : Files} {names : List StoredItemId}

/-- In every run from an opened directory the index is exact and the cache agrees with the files.
Every operation of the run tells its subscribers what it changed exactly when none changes the view
id that is kept for a perspective. -/
theorem mirrored_iff_keepsViewId (D : Diffy) (h : Directory Y files names) (ops : List Op)
    (hops : ∀ s ∈ trace D Y (.openDir Y files names) ops, Admissible Y s.1 s.2) :
    (run D Y ⟨.openDir Y files names, []⟩ ops).context.cache.Indexed Perspective.id ∧
    (∀ id, id ∉ (run D Y ⟨.openDir Y files names, []⟩ ops).stale →
      (run D Y ⟨.openDir Y files names, []⟩ ops).context.getById id =
        diskAt Y (run D Y ⟨.openDir Y files names, []⟩ ops).context.files id) ∧
    ((∀ s ∈ trace D Y (.openDir Y files names) ops, Faithful s.1 (step D Y s.1 s.2)) ↔
      ∀ s ∈ trace D Y (.openDir Y files names) ops, KeepsViewId s.1 s.2) := by
  obtain ⟨hagrees, hiff⟩ := h.agrees.run (D := D) ops hops
  exact ⟨hagrees.indexed, hagrees.fresh, hiff⟩

theorem mirrored_iff_keepsViewId_sprint :
    let ops := [.write ⟨1, 0⟩ { sprint with name := "Active" }, .delete ⟨2, 0⟩ "p1"]
    ∀ s ∈ trace Diffy.verbatim sprintYaml sprintContext ops,
      Faithful s.1 (step Diffy.verbatim sprintYaml s.1 s.2) := by
  intro ops
  refine (mirrored_iff_keepsViewId Diffy.verbatim directory_sprint ops fun s hs => ?_).2.2.mpr
    fun s hs => ?_
  · rcases List.mem_pair.mp hs with rfl | rfl
    · rfl
    · trivial
  · rcases List.mem_pair.mp hs with rfl | rfl
    · rfl
    · trivial

theorem pinning_is_silent :
    let pinned := { sprint with viewId := some "v1" }
    let s := step Diffy.verbatim sprintYaml sprintContext (.write ⟨1, 0⟩ pinned)
    Directory sprintYaml sprintFiles ["p1"] ∧ RoundTrips sprintYaml pinned ∧
    sprintContext.getById "p1" = some sprint ∧ s.context.getById "p1" = some pinned ∧
    s.sent = [] ∧ ¬ Faithful sprintContext s := by
  intro pinned s
  have hbefore : sprintContext.getById "p1" = some sprint := by decide
  have hafter : s.context.getById "p1" = some pinned := by decide
  refine ⟨directory_sprint, rfl, hbefore, hafter, rfl, fun hfaithful => ?_⟩
  obtain ⟨e, hsent, -⟩ := hfaithful.1 "p1" (by rw [hbefore, hafter]; decide)
  cases hsent

end

end SwissArmyHammer.Perspectives
