import Mathlib.Logic.Function.Basic
import SwissArmyHammer.Common.IndexMap
import SwissArmyHammer.Concurrency.Interleaving
import SwissArmyHammer.Entities.Entity

/-! The entity cache and the file of one entity: the calls of the cache, cut where they wait for
the disk or for the lock of the map. -/

namespace SwissArmyHammer.Cache

open Entities Concurrency

structure CachedEntity where
  entity : Fields
  hash : UInt64
  version : Nat
  deriving DecidableEq

structure FieldChange where
  field : String
  value : Json
  deriving DecidableEq

inductive EntityEvent where
  | changed (version : Nat) (changes : List FieldChange)
  | deleted
  deriving DecidableEq

def diff (old : Option Fields) (new : Fields) : List FieldChange :=
  match old with
  | none => new.toList.map fun f => ⟨f.1, f.2⟩
  | some old =>
    (new.toList.filterMap fun f => if old[f.1]? = some f.2 then none else some ⟨f.1, f.2⟩) ++
      old.toList.filterMap fun f => if new.contains f.1 then none else some ⟨f.1, .null⟩

/-- `file` is what is read of the live file, `archived` what the archive holds, the latest
first. -/
structure State where
  file : Option Fields
  archived : List Fields
  cache : Option CachedEntity
  versionCounter : Nat
  events : List EntityEvent
  deriving DecidableEq

def State.bumpVersion (s : State) : State := { s with versionCounter := s.versionCounter + 1 }

def State.insert (s : State) (cached : CachedEntity) : State := { s with cache := some cached }

/-- Where a call stands. A write begins with the entity and what `write_internal` leaves of it in
the file, `none` where it refuses. -/
inductive Pc where
  | write (entity : Fields) (written : Option Fields)
  | writeFile (entity : Fields) (written : Option Fields) (old : Option CachedEntity)
  | writeReadBack (entity : Fields) (old : Option CachedEntity)
  | writeVersion (canonical : Fields)
  | writeInsert (canonical : Fields) (version : Nat) (event : Option EntityEvent)
  | refresh
  | refreshInsert (entity : Fields)
  | delete
  | archive
  | remove
  | unarchive
  | unarchiveReadBack
  | unarchiveInsert (entity : Fields) (version : Nat)
  | evict
  | send (event : EntityEvent)
  deriving DecidableEq

section

variable (hash : Fields → UInt64)

def advance (s : State) : Pc → State × Option Pc
  | .write entity written => (s, some (.writeFile entity written s.cache))
  | .writeFile entity written old =>
    match written with
    | none => (s, none)
    | some written => ({ s with file := some written }, some (.writeReadBack entity old))
  | .writeReadBack entity old =>
    -- A file that cannot be read back leaves the entity as the caller had it.
    let canonical := s.file.getD entity
    if old.map CachedEntity.hash ≠ some (hash canonical) then
      let changes := diff (old.map CachedEntity.entity) canonical
      (s.bumpVersion, some (.writeInsert canonical s.versionCounter
        (some (.changed s.versionCounter changes))))
    else (s, some (.writeVersion canonical))
  | .writeVersion canonical =>
    match s.cache with
    | some cached => (s, some (.writeInsert canonical cached.version none))
    | none => (s.bumpVersion, some (.writeInsert canonical s.versionCounter none))
  | .writeInsert canonical version event =>
    (s.insert ⟨canonical, hash canonical, version⟩, event.map .send)
  | .refresh =>
    match s.file with
    | none => (s, none)
    | some entity => (s, some (.refreshInsert entity))
  | .refreshInsert entity =>
    if s.cache.map CachedEntity.hash = some (hash entity) then (s, none)
    else
      let changes := diff (s.cache.map CachedEntity.entity) entity
      (s.bumpVersion.insert ⟨entity, hash entity, s.versionCounter⟩,
        some (.send (.changed s.versionCounter changes)))
  | .delete =>
    match s.file with
    | none => (s, none)
    | some _ => ({ s with file := none }, some .remove)
  | .archive =>
    match s.file with
    | none => (s, none)
    | some entity => ({ s with file := none, archived := entity :: s.archived }, some .remove)
  | .remove => ({ s with cache := none }, some (.send .deleted))
  | .unarchive =>
    match s.archived with
    | [] => (s, none)
    | entity :: archived =>
      ({ s with file := some entity, archived := archived }, some .unarchiveReadBack)
  | .unarchiveReadBack =>
    match s.file with
    | none => (s, none)
    | some entity => (s.bumpVersion, some (.unarchiveInsert entity s.versionCounter))
  | .unarchiveInsert entity version =>
    (s.insert ⟨entity, hash entity, version⟩, some (.send (.changed version (diff none entity))))
  | .evict =>
    ({ s with cache := none }, if s.cache.isSome then some (.send .deleted) else none)
  | .send event => ({ s with events := s.events ++ [event] }, none)

end

def Pc.accessesFile : Pc → Bool
  | .writeFile .. | .writeReadBack .. | .refresh | .delete | .archive | .unarchive
  | .unarchiveReadBack => true
  | _ => false

structure Call where
  pc : Pc
  seen : Option Fields
  deriving DecidableEq

section

variable (hash : Fields → UInt64)

def State.starts (s : State) (c : Call) : Bool :=
  c.seen = s.file &&
    match c.pc with
    | .write .. | .refresh | .delete | .archive | .unarchive => true
    | .evict => s.file.isNone
    | _ => false

def State.step (s : State) (c : Call) : State × Option Call :=
  let r := advance hash s c.pc
  (r.1, r.2.map fun pc => ⟨pc, if c.pc.accessesFile then r.1.file else c.seen⟩)

def protocol : Protocol State Call where
  starts := State.starts
  advance := State.step hash

end

/-- The map holds an entry exactly when the file exists, and then its fields. -/
def Settled (s : State) : Prop := s.cache.map CachedEntity.entity = s.file

instance (s : State) : Decidable (Settled s) :=
  inferInstanceAs (Decidable (s.cache.map CachedEntity.entity = s.file))

def Pc.owes : Pc → Bool
  | .writeReadBack .. | .writeVersion .. | .writeInsert .. | .refreshInsert .. | .remove
  | .unarchiveReadBack | .unarchiveInsert .. | .evict => true
  | _ => false

/-- When a call updates the map, the file is as the call last saw it. A write has found it, an
unarchive finds it again, and a refresh is not misled by equal hashes. -/
def UpToDate (hash : Fields → UInt64) (s : State) (c : Call) : Prop :=
  match c.pc with
  | .writeInsert .. => s.file = c.seen ∧ c.seen ≠ none
  | .refreshInsert entity => s.file = c.seen ∧
      ∀ cached, s.cache = some cached → cached.hash = hash entity → cached.entity = entity
  | .remove | .unarchiveInsert .. | .evict => s.file = c.seen
  | .unarchiveReadBack => s.file ≠ none ∨ s.cache = none
  | _ => True

/-- A call may also be late where another is sure to update the map after it. -/
def Timely (hash : Fields → UInt64) (s : State) (c : Call) (others : List Call) : Prop :=
  UpToDate hash s c ∨ ∃ other ∈ others, other.pc.owes = true

end SwissArmyHammer.Cache

/-! The entity cache of all entities: its operations, one at a time, with the events that they
send and the computed fields that they keep. -/

namespace SwissArmyHammer.Cache

open Entities

abbrev Key := String × String

structure CachedComputeInputs where
  changelog : Option Json
  fileCreated : Option Json

/-- The map, the slots of compute inputs and of derived outputs, and the events sent. A slot that
is not there is an empty one. -/
structure EntityCache where
  cache : IndexMap Key CachedEntity
  computeInputs : Key → CachedComputeInputs
  derived : Key → Option Fields
  versionCounter : Nat
  events : List (Key × EntityEvent)

structure Disk where
  entity : Key → Option Fields
  changelog : Key → Json
  fileCreated : Key → Json

inductive ReadError
  | notFound (key : Key)
  | unknownEntityType (entityType : String)
  | compute (error : FieldsError)

namespace EntityCache

def empty : EntityCache := ⟨.empty, fun _ => ⟨none, none⟩, fun _ => none, 1, []⟩

def get (c : EntityCache) (key : Key) : Option Fields :=
  (c.cache.get? key).map CachedEntity.entity

def getAll (c : EntityCache) (entityType : String) : List (Key × Fields) :=
  (c.cache.entries.filter fun e => e.1.1 = entityType).map fun e => (e.1, e.2.entity)

def send (c : EntityCache) (key : Key) (event : EntityEvent) : EntityCache :=
  { c with events := c.events ++ [(key, event)] }

section

variable (hash : Fields → UInt64) (ctx : FieldsContext)

def invalidateCrossTypeDerived (c : EntityCache) (triggerType : String) : EntityCache :=
  let dependents := (ctx.entityTypesDependingOn triggerType).filter fun t => t ≠ triggerType
  { c with derived := fun key => if key.1 ∈ dependents then none else c.derived key }

/-- The slots are cleared where `purge_entity_caches` removes them. -/
def invalidateEntityCaches (c : EntityCache) (key : Key) : EntityCache :=
  { c with
    computeInputs := Function.update c.computeInputs key ⟨none, none⟩
    derived := Function.update c.derived key none }.invalidateCrossTypeDerived ctx key.1

def insert (c : EntityCache) (key : Key) (cached : CachedEntity) : EntityCache :=
  { c with cache := c.cache.insert key cached }

def bumpVersion (c : EntityCache) : EntityCache :=
  { c with versionCounter := c.versionCounter + 1 }

/-- `written` is what is read back, `none` where `write_internal` refuses. -/
def write (c : EntityCache) (key : Key) (written : Option Fields) : EntityCache :=
  match written with
  | none => c
  | some canonical =>
    let old := c.cache.get? key
    if old.map CachedEntity.hash ≠ some (hash canonical) then
      let changes := diff (old.map CachedEntity.entity) canonical
      ((c.bumpVersion.insert key ⟨canonical, hash canonical, c.versionCounter⟩)
        |>.invalidateEntityCaches ctx key).send key (.changed c.versionCounter changes)
    else
      match old with
      | some cached =>
        (c.insert key ⟨canonical, hash canonical, cached.version⟩).invalidateEntityCaches ctx key
      | none => (c.bumpVersion.insert key ⟨canonical, hash canonical, c.versionCounter⟩)
        |>.invalidateEntityCaches ctx key

def remove (c : EntityCache) (key : Key) : EntityCache :=
  ({ c with cache := c.cache.shiftRemove key }.invalidateEntityCaches ctx key).send key .deleted

def delete (c : EntityCache) (key : Key) (deleted : Bool) : EntityCache :=
  if deleted then c.remove ctx key else c

def archive (c : EntityCache) (key : Key) (archived : Bool) : EntityCache :=
  if archived then c.remove ctx key else c

def unarchive (c : EntityCache) (key : Key) (restored : Option Fields) : EntityCache :=
  match restored with
  | none => c
  | some entity =>
    ((c.bumpVersion.insert key ⟨entity, hash entity, c.versionCounter⟩)
      |>.invalidateEntityCaches ctx key).send key (.changed c.versionCounter (diff none entity))

def evict (c : EntityCache) (key : Key) : EntityCache :=
  if (c.cache.get? key).isSome then c.remove ctx key else c

def refreshFromDisk (c : EntityCache) (key : Key) (file : Option Fields) : EntityCache :=
  match file with
  | none => c
  | some entity =>
    let old := c.cache.get? key
    if old.map CachedEntity.hash = some (hash entity) then c
    else
      let changes := diff (old.map CachedEntity.entity) entity
      ((c.bumpVersion.insert key ⟨entity, hash entity, c.versionCounter⟩)
        |>.invalidateEntityCaches ctx key).send key (.changed c.versionCounter changes)

end

section

variable (ctx : FieldsContext) (engine : ComputeEngine) (disk : Disk)

def queryFn (c : EntityCache) : EntityQueryFn := fun entityType =>
  (c.getAll entityType).map Prod.snd

def getOrLoadComputeInputs (c : EntityCache) (key : Key) (wantChangelog wantFileCreated : Bool) :
    CachedComputeInputs × EntityCache :=
  let slot := c.computeInputs key
  let inputs : CachedComputeInputs :=
    { changelog :=
        if wantChangelog && slot.changelog.isNone then some (disk.changelog key)
        else slot.changelog
      fileCreated :=
        if wantFileCreated && slot.fileCreated.isNone then some (disk.fileCreated key)
        else slot.fileCreated }
  (inputs, { c with computeInputs := Function.update c.computeInputs key inputs })

def injectComputeDependencies (c : EntityCache) (key : Key) (fields : Fields)
    (defs : List FieldDef) : Fields × EntityCache :=
  let wantChangelog := anyFieldDependsOn defs "_changelog"
  let wantFileCreated := anyFieldDependsOn defs "_file_created"
  if !wantChangelog && !wantFileCreated then (fields, c)
  else
    let (inputs, c) := c.getOrLoadComputeInputs disk key wantChangelog wantFileCreated
    let fields :=
      if wantChangelog then fields.insert "_changelog" (inputs.changelog.getD .null) else fields
    let fields :=
      if wantFileCreated then fields.insert "_file_created" (inputs.fileCreated.getD .null)
      else fields
    (fields, c)

def tryMemoizeFreshOutputs (c : EntityCache) (key : Key) (fresh : Option Fields) : EntityCache :=
  match fresh with
  | none => c
  | some fresh =>
    if fresh.isEmpty then c
    else { c with derived := Function.update c.derived key (some fresh) }

def deriveComputeFields (c : EntityCache) (key : Key) (fields : Fields) :
    Except FieldsError Fields × EntityCache :=
  let defs := ctx.fieldsForEntity key.1
  let cached := c.derived key
  let (fields, c) :=
    if cached.isSome then (fields, c) else c.injectComputeDependencies disk key fields defs
  let fresh := if cached.isSome then none else some ∅
  match engine.deriveFields c.queryFn cached defs fields fresh with
  | .error e => (.error e, c)
  | .ok (fields, fresh) =>
    (.ok ((fields.erase "_changelog").erase "_file_created"), c.tryMemoizeFreshOutputs key fresh)

def read (c : EntityCache) (key : Key) : Except ReadError Fields × EntityCache :=
  match c.get key with
  | some fields =>
    let (result, c) := c.deriveComputeFields ctx engine disk key fields
    (result.mapError .compute, c)
  | none =>
    match ctx.getEntity key.1, disk.entity key with
    | none, _ => (.error (.unknownEntityType key.1), c)
    | some _, none => (.error (.notFound key), c)
    | some _, some fields =>
      let (result, c) := c.deriveComputeFields ctx engine disk key fields
      (result.mapError .compute, c)

def applyComputeBatch (c : EntityCache) :
    List (Key × Fields) → List (Except FieldsError Fields) × EntityCache
  | [] => ([], c)
  | e :: es =>
    let (result, c) := c.deriveComputeFields ctx engine disk e.1 e.2
    let (results, c) := c.applyComputeBatch es
    (result :: results, c)

def list (c : EntityCache) (entityType : String) :
    Except ReadError (List Fields) × EntityCache :=
  match ctx.getEntity entityType with
  | none => (.error (.unknownEntityType entityType), c)
  | some _ =>
    let (results, c) := c.applyComputeBatch ctx engine disk (c.getAll entityType)
    ((results.mapM fun result => result).mapError .compute, c)

end

end EntityCache

inductive Op
  | write (key : Key) (written : Option Fields)
  | delete (key : Key) (deleted : Bool)
  | archive (key : Key) (archived : Bool)
  | unarchive (key : Key) (restored : Option Fields)
  | evict (key : Key)
  | refreshFromDisk (key : Key) (file : Option Fields)
  | read (key : Key) (disk : Disk)
  | list (entityType : String) (disk : Disk)

def EntityCache.apply (hash : Fields → UInt64) (ctx : FieldsContext) (engine : ComputeEngine)
    (c : EntityCache) : Op → EntityCache
  | .write key written => c.write hash ctx key written
  | .delete key deleted => c.delete ctx key deleted
  | .archive key archived => c.archive ctx key archived
  | .unarchive key restored => c.unarchive hash ctx key restored
  | .evict key => c.evict ctx key
  | .refreshFromDisk key file => c.refreshFromDisk hash ctx key file
  | .read key disk => (c.read ctx engine disk key).2
  | .list entityType disk => (c.list ctx engine disk entityType).2

def Runs (hash : Fields → UInt64) (ctx : FieldsContext) (engine : ComputeEngine)
    (ok : EntityCache → Op → Prop) : EntityCache → EntityCache → Prop :=
  Relation.ReflTransGen fun c c' => ∃ op, ok c op ∧ c.apply hash ctx engine op = c'

theorem runs_foldl {hash : Fields → UInt64} {ctx : FieldsContext} {engine : ComputeEngine}
    (ops : List Op) (c : EntityCache) :
    Runs hash ctx engine (fun _ _ => True) c (ops.foldl (EntityCache.apply hash ctx engine) c) := by
  induction ops generalizing c with
  | nil => exact .refl
  | cons op ops ih => exact .head ⟨op, trivial, rfl⟩ (ih _)

section

variable {ctx : FieldsContext} {engine : ComputeEngine} {disk : Disk} {c c' : EntityCache}

structure SameMap (c c' : EntityCache) : Prop where
  cache : c'.cache = c.cache
  versionCounter : c'.versionCounter = c.versionCounter
  events : c'.events = c.events

theorem SameMap.trans {c'' : EntityCache} (h : SameMap c c') (h' : SameMap c' c'') :
    SameMap c c'' :=
  ⟨h'.cache.trans h.cache, h'.versionCounter.trans h.versionCounter, h'.events.trans h.events⟩

theorem inject_snd (disk : Disk) (c : EntityCache) (key : Key) (fields : Fields)
    (defs : List FieldDef) : ∃ inputs, (c.injectComputeDependencies disk key fields defs).2 =
    { c with computeInputs := Function.update c.computeInputs key inputs } := by
  by_cases hwant : (!anyFieldDependsOn defs "_changelog" &&
      !anyFieldDependsOn defs "_file_created") = true
  · refine ⟨c.computeInputs key, ?_⟩
    rw [EntityCache.injectComputeDependencies, if_pos hwant, Function.update_eq_self]
  · refine ⟨(c.getOrLoadComputeInputs disk key (anyFieldDependsOn defs "_changelog")
      (anyFieldDependsOn defs "_file_created")).1, ?_⟩
    rw [EntityCache.injectComputeDependencies, if_neg hwant]
    rfl

theorem sameMap_derive (ctx : FieldsContext) (engine : ComputeEngine) (disk : Disk)
    (c : EntityCache) (key : Key) (fields : Fields) :
    SameMap c (c.deriveComputeFields ctx engine disk key fields).2 := by
  have hmemoize : ∀ (c : EntityCache) (fresh : Option Fields),
      SameMap c (c.tryMemoizeFreshOutputs key fresh) := by
    intro c fresh
    cases fresh with
    | none => exact ⟨rfl, rfl, rfl⟩
    | some fresh =>
      rw [EntityCache.tryMemoizeFreshOutputs]
      split_ifs
      · exact ⟨rfl, rfl, rfl⟩
      · exact ⟨rfl, rfl, rfl⟩
  have hinject : SameMap c
      (c.injectComputeDependencies disk key fields (ctx.fieldsForEntity key.1)).2 := by
    obtain ⟨inputs, hinputs⟩ := inject_snd disk c key fields (ctx.fieldsForEntity key.1)
    rw [hinputs]
    exact ⟨rfl, rfl, rfl⟩
  cases hcached : (c.derived key).isSome with
  | true =>
    simp only [EntityCache.deriveComputeFields, hcached, if_true]
    split
    · exact ⟨rfl, rfl, rfl⟩
    · exact hmemoize _ _
  | false =>
    simp only [EntityCache.deriveComputeFields, hcached, Bool.false_eq_true, if_false]
    split
    · exact hinject
    · exact hinject.trans (hmemoize _ _)

theorem sameMap_read (key : Key) : SameMap c (c.read ctx engine disk key).2 := by
  rw [EntityCache.read]
  split
  · exact sameMap_derive ctx engine disk c key _
  · split
    · exact ⟨rfl, rfl, rfl⟩
    · exact ⟨rfl, rfl, rfl⟩
    · exact sameMap_derive ctx engine disk c key _

theorem sameMap_batch (es : List (Key × Fields)) :
    SameMap c (c.applyComputeBatch ctx engine disk es).2 := by
  induction es generalizing c with
  | nil => exact ⟨rfl, rfl, rfl⟩
  | cons e es ih => exact (sameMap_derive ctx engine disk c e.1 e.2).trans ih

theorem sameMap_list (entityType : String) : SameMap c (c.list ctx engine disk entityType).2 := by
  rw [EntityCache.list]
  split
  · exact ⟨rfl, rfl, rfl⟩
  · exact sameMap_batch _

end

end SwissArmyHammer.Cache
