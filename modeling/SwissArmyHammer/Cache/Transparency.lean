import SwissArmyHammer.Cache.Operations
import SwissArmyHammer.Entities.Diff

/-! Memoization is transparent: what is kept of computed fields is what they would be now. -/

namespace SwissArmyHammer.Cache

open Entities

def EntityCache.unmemoized (c : EntityCache) : EntityCache := { c with derived := fun _ => none }

/-- A derivation of a field queries no types but those that the field depends on. -/
def QueriesDependencies (ctx : FieldsContext) (engine : ComputeEngine) : Prop :=
  ∀ field ∈ ctx.fields, ∀ fields query query',
    (∀ entityType, field.dependsOn entityType = true → query entityType = query' entityType) →
      engine.derive field fields (some query) = engine.derive field fields (some query')

def Op.mutates (hash : Fields → UInt64) (c : EntityCache) : Op → Option Key
  | .write key (some _) | .delete key true | .archive key true | .unarchive key (some _) =>
    some key
  | .evict key => if (c.cache.get? key).isSome then some key else none
  | .refreshFromDisk key (some entity) =>
    if (c.cache.get? key).map CachedEntity.hash = some (hash entity) then none else some key
  | _ => none

/-- A type that depends on itself is mutated only while nothing is memoized for the other entities
of the type. -/
def SelfDependencyCold (hash : Fields → UInt64) (ctx : FieldsContext) (c : EntityCache)
    (op : Op) : Prop :=
  ∀ key, op.mutates hash c = some key → key.1 ∈ ctx.entityTypesDependingOn key.1 →
    ∀ other fields, other.1 = key.1 → other ≠ key → c.get other = some fields →
      c.derived other = none

section

variable {hash : Fields → UInt64} {ctx : FieldsContext} {engine : ComputeEngine}
  {c c' : EntityCache} {key other : Key}

structure Mutated (ctx : FieldsContext) (c c' : EntityCache) (key : Key) : Prop where
  get : ∀ other, other ≠ key → c'.get other = c.get other
  getAll : ∀ entityType, entityType ≠ key.1 → c'.getAll entityType = c.getAll entityType
  computeInputs : ∀ other, other ≠ key → c'.computeInputs other = c.computeInputs other
  derived : ∀ other outputs, c'.derived other = some outputs →
    other ≠ key ∧ (other.1 ∈ ctx.entityTypesDependingOn key.1 → other.1 = key.1) ∧
      c.derived other = some outputs

theorem Mutated.send (h : Mutated ctx c c' key) (event : EntityEvent) :
    Mutated ctx c (c'.send key event) key :=
  ⟨h.get, h.getAll, h.computeInputs, h.derived⟩

theorem mutated_invalidate {cache : IndexMap Key CachedEntity} (versionCounter : Nat)
    (hget : ∀ other, other ≠ key → cache.get? other = c.cache.get? other)
    (hfilter : ∀ p : Key → Bool, p key = false →
      cache.entries.filter (fun e => p e.1) = c.cache.entries.filter fun e => p e.1) :
    Mutated ctx c (EntityCache.invalidateEntityCaches ctx
      { c with cache := cache, versionCounter := versionCounter } key) key := by
  refine ⟨fun other hne => ?_, fun entityType hne => ?_, fun other hne => ?_,
    fun other outputs hderived => ?_⟩
  · show (cache.get? other).map _ = (c.cache.get? other).map _
    rw [hget other hne]
  · show (cache.entries.filter _).map _ = (c.cache.entries.filter _).map _
    rw [hfilter (fun other => other.1 = entityType) (decide_eq_false (Ne.symm hne))]
  · exact Function.update_of_ne hne _ _
  · simp only [EntityCache.invalidateEntityCaches, EntityCache.invalidateCrossTypeDerived,
      List.mem_filter, decide_eq_true_eq] at hderived
    split_ifs at hderived with hdep
    have hne : other ≠ key := by
      rintro rfl
      simp at hderived
    rw [Function.update_of_ne hne] at hderived
    refine ⟨hne, fun hmem => ?_, hderived⟩
    by_contra htype
    exact hdep ⟨hmem, htype⟩

theorem mutated_insert (cached : CachedEntity) (versionCounter : Nat) :
    Mutated ctx c (EntityCache.invalidateEntityCaches ctx
      { c with cache := c.cache.insert key cached, versionCounter := versionCounter } key) key :=
  mutated_invalidate versionCounter (fun _ hne => IndexMap.get?_insert_of_ne hne _ _)
    fun _ hp => IndexMap.filter_insert hp _ _

theorem mutated_remove : Mutated ctx c (c.remove ctx key) key :=
  (mutated_invalidate c.versionCounter (fun _ hne => IndexMap.get?_shiftRemove_of_ne hne _)
    fun _ hp => IndexMap.filter_shiftRemove hp _).send _

theorem mutated_apply {op : Op} (h : op.mutates hash c = some key) :
    Mutated ctx c (c.apply hash ctx engine op) key := by
  cases op with
  | write k written =>
    cases written with
    | none => simp [Op.mutates] at h
    | some canonical =>
      obtain rfl := Option.some.inj h
      simp only [EntityCache.apply, EntityCache.write]
      split
      · exact (mutated_insert _ _).send _
      · split
        · exact mutated_insert _ _
        · exact mutated_insert _ _
  | delete k deleted =>
    cases deleted with
    | false => simp [Op.mutates] at h
    | true =>
      obtain rfl := Option.some.inj h
      exact mutated_remove
  | archive k archived =>
    cases archived with
    | false => simp [Op.mutates] at h
    | true =>
      obtain rfl := Option.some.inj h
      exact mutated_remove
  | unarchive k restored =>
    cases restored with
    | none => simp [Op.mutates] at h
    | some entity =>
      obtain rfl := Option.some.inj h
      exact (mutated_insert _ _).send _
  | evict k =>
    simp only [Op.mutates] at h
    split_ifs at h with hcached
    obtain rfl := Option.some.inj h
    rw [EntityCache.apply, EntityCache.evict, if_pos hcached]
    exact mutated_remove
  | refreshFromDisk k file =>
    cases file with
    | none => simp [Op.mutates] at h
    | some entity =>
      simp only [Op.mutates] at h
      split_ifs at h with hsame
      obtain rfl := Option.some.inj h
      simp only [EntityCache.apply, EntityCache.refreshFromDisk, if_neg hsame]
      exact (mutated_insert _ _).send _
  | _ => simp [Op.mutates] at h

def Op.isRead : Op → Bool
  | .read .. | .list .. => true
  | _ => false

theorem apply_of_mutates_none {op : Op} (hread : op.isRead = false)
    (h : op.mutates hash c = none) : c.apply hash ctx engine op = c := by
  cases op with
  | write k written =>
    cases written with
    | none => rfl
    | some canonical => simp [Op.mutates] at h
  | delete k deleted =>
    cases deleted with
    | false => rfl
    | true => simp [Op.mutates] at h
  | archive k archived =>
    cases archived with
    | false => rfl
    | true => simp [Op.mutates] at h
  | unarchive k restored =>
    cases restored with
    | none => rfl
    | some entity => simp [Op.mutates] at h
  | evict k =>
    simp only [Op.mutates] at h
    split_ifs at h with hcached
    rw [EntityCache.apply, EntityCache.evict, if_neg hcached]
  | refreshFromDisk k file =>
    cases file with
    | none => rfl
    | some entity =>
      simp only [Op.mutates] at h
      split_ifs at h with hsame
      simp only [EntityCache.apply, EntityCache.refreshFromDisk, if_pos hsame]
  | read k disk => simp [Op.isRead] at hread
  | list entityType disk => simp [Op.isRead] at hread

end

section

variable {ctx : FieldsContext} {engine : ComputeEngine} {disk : Disk} {c c' : EntityCache}
  {key other : Key} {fields : Fields} {defs : List FieldDef}

theorem inject_congr (h : c'.computeInputs key = c.computeInputs key) :
    (c'.injectComputeDependencies disk key fields defs).1 =
      (c.injectComputeDependencies disk key fields defs).1 := by
  simp only [EntityCache.injectComputeDependencies, EntityCache.getOrLoadComputeInputs, h]
  split_ifs <;> rfl

theorem inject_again (disk' : Disk) :
    ((c.injectComputeDependencies disk key fields defs).2.injectComputeDependencies disk' key
      fields defs).1 = (c.injectComputeDependencies disk key fields defs).1 := by
  cases hchangelog : anyFieldDependsOn defs "_changelog" with
  | false =>
    cases hcreated : anyFieldDependsOn defs "_file_created" with
    | false => simp [EntityCache.injectComputeDependencies, hchangelog, hcreated]
    | true =>
      cases hslot : (c.computeInputs key).fileCreated <;>
        simp [EntityCache.injectComputeDependencies, EntityCache.getOrLoadComputeInputs,
          hchangelog, hcreated, hslot]
  | true =>
    cases hcreated : anyFieldDependsOn defs "_file_created" with
    | false =>
      cases hslot : (c.computeInputs key).changelog <;>
        simp [EntityCache.injectComputeDependencies, EntityCache.getOrLoadComputeInputs,
          hchangelog, hcreated, hslot]
    | true =>
      cases hslot : (c.computeInputs key).changelog <;>
        cases hslot' : (c.computeInputs key).fileCreated <;>
          simp [EntityCache.injectComputeDependencies, EntityCache.getOrLoadComputeInputs,
            hchangelog, hcreated, hslot, hslot']

theorem queryFn_congr (h : c'.cache = c.cache) : c'.queryFn = c.queryFn := by
  funext entityType
  simp only [EntityCache.queryFn, EntityCache.getAll, h]

def strip (fields : Fields) : Fields := (fields.erase "_changelog").erase "_file_created"

theorem inject_get {k : String} (hchangelog : k ≠ "_changelog") (hcreated : k ≠ "_file_created") :
    (c.injectComputeDependencies disk key fields defs).1[k]? = fields[k]? := by
  rw [EntityCache.injectComputeDependencies]
  split_ifs <;> simp [Std.ExtTreeMap.getElem?_insert, Ne.symm hchangelog, Ne.symm hcreated, *]

theorem derive_warm {outputs : Fields} (h : c.derived key = some outputs) :
    c.deriveComputeFields ctx engine disk key fields =
      ((engine.deriveFields c.queryFn (some outputs) (ctx.fieldsForEntity key.1) fields none).map
        fun r => strip r.1, c) := by
  simp only [EntityCache.deriveComputeFields, h, Option.isSome_some, if_true]
  cases hderive : engine.deriveFields c.queryFn (some outputs) (ctx.fieldsForEntity key.1)
      fields none with
  | error e => rfl
  | ok r =>
    obtain ⟨fields', fresh⟩ := r
    have hfresh : fresh = none := ComputeEngine.deriveFields_none hderive
    rw [hfresh]
    rfl

def freshOutputs (r : Except FieldsError (Fields × Option Fields)) : Option Fields :=
  (r.toOption.bind Prod.snd).filter fun fresh => !fresh.isEmpty

def coldRun (ctx : FieldsContext) (engine : ComputeEngine) (disk : Disk) (c : EntityCache)
    (key : Key) (fields : Fields) : Except FieldsError (Fields × Option Fields) :=
  engine.deriveFields c.queryFn none (ctx.fieldsForEntity key.1)
    (c.injectComputeDependencies disk key fields (ctx.fieldsForEntity key.1)).1 (some ∅)

theorem derive_cold (h : c.derived key = none) :
    c.deriveComputeFields ctx engine disk key fields =
      ((coldRun ctx engine disk c key fields).map fun r => strip r.1,
        { (c.injectComputeDependencies disk key fields (ctx.fieldsForEntity key.1)).2 with
          derived := Function.update c.derived key
            (freshOutputs (coldRun ctx engine disk c key fields)) }) := by
  obtain ⟨inputs, hinputs⟩ := inject_snd disk c key fields (ctx.fieldsForEntity key.1)
  have hquery : (c.injectComputeDependencies disk key fields
      (ctx.fieldsForEntity key.1)).2.queryFn = c.queryFn := by
    rw [hinputs]
    rfl
  simp only [EntityCache.deriveComputeFields, h, Option.isSome_none, Bool.false_eq_true, if_false,
    hquery]
  cases hcold : coldRun ctx engine disk c key fields with
  | error e =>
    rw [coldRun] at hcold
    simp [hcold, hinputs, freshOutputs, Except.toOption, Except.map, h]
  | ok r =>
    rw [coldRun] at hcold
    obtain ⟨fields', fresh⟩ := r
    cases fresh with
    | none =>
      simp [hcold, hinputs, freshOutputs, Except.toOption, Except.map, h,
        EntityCache.tryMemoizeFreshOutputs, strip]
    | some fresh =>
      cases hempty : fresh.isEmpty with
      | true =>
        simp [hcold, hinputs, freshOutputs, Except.toOption, Except.map, h, hempty,
          EntityCache.tryMemoizeFreshOutputs, strip, Option.filter_some]
      | false =>
        simp [hcold, hinputs, freshOutputs, Except.toOption, Except.map, hempty,
          EntityCache.tryMemoizeFreshOutputs, strip, Option.filter_some]

def Memoized (ctx : FieldsContext) (engine : ComputeEngine) (c : EntityCache) : Prop :=
  ∀ key fields outputs, c.get key = some fields → c.derived key = some outputs →
    ∀ disk, ∃ fields', coldRun ctx engine disk c key fields = .ok (fields', some outputs)

theorem coldRun_congr (hquery : ∀ field ∈ ctx.fieldsForEntity key.1, ∀ fields,
      engine.derive field fields (some c'.queryFn) = engine.derive field fields (some c.queryFn))
    (hinputs : c'.computeInputs key = c.computeInputs key) :
    coldRun ctx engine disk c' key fields = coldRun ctx engine disk c key fields := by
  rw [coldRun, coldRun, inject_congr hinputs, ComputeEngine.deriveFields_congr hquery]

theorem derive_unmemoized : (c.unmemoized.deriveComputeFields ctx engine disk key fields).1 =
    (coldRun ctx engine disk c key fields).map fun r => strip r.1 := by
  have hunmemoized : c.unmemoized.derived key = none := rfl
  have hsame : coldRun ctx engine disk c.unmemoized key fields =
      coldRun ctx engine disk c key fields := coldRun_congr (fun _ _ _ => rfl) rfl
  rw [derive_cold hunmemoized, hsame]

theorem derive_eq_unmemoized (hmemo : Memoized ctx engine c) (hget : c.get key = some fields) :
    (c.deriveComputeFields ctx engine disk key fields).1 =
      (c.unmemoized.deriveComputeFields ctx engine disk key fields).1 := by
  rw [derive_unmemoized]
  cases hcached : c.derived key with
  | none => rw [derive_cold hcached]
  | some outputs =>
    obtain ⟨cold, hcold⟩ := hmemo key fields outputs hget hcached disk
    rw [hcold]
    obtain ⟨hcoldin, hcoldout⟩ := ComputeEngine.deriveFields_cold hcold
    have houtputs : ∀ k ∈ ComputeEngine.computedNames (ctx.fieldsForEntity key.1),
        (outputs[k]?).isSome := by
      intro k hk
      rw [(hcoldin k hk).1]
      exact (hcoldin k hk).2
    obtain ⟨warm, hwarm, hwarmin, hwarmout⟩ :=
      ComputeEngine.deriveFields_warm fields houtputs
    rw [derive_warm hcached, hwarm]
    refine congrArg Except.ok (Std.ExtTreeMap.ext_getElem? fun k => ?_)
    by_cases hchangelog : k = "_changelog"
    · simp [strip, hchangelog]
    · by_cases hcreated : k = "_file_created"
      · simp [strip, hcreated]
      · have hstay : warm[k]? = cold[k]? := by
          by_cases hk : k ∈ ComputeEngine.computedNames (ctx.fieldsForEntity key.1)
          · rw [hwarmin k hk, (hcoldin k hk).1]
          · rw [hwarmout k hk, (hcoldout k hk).2, inject_get hchangelog hcreated]
        simp [strip, Std.ExtTreeMap.getElem?_erase, hstay]

theorem freshOutputs_eq_some {r : Except FieldsError (Fields × Option Fields)} {outputs : Fields}
    (h : freshOutputs r = some outputs) : ∃ fields', r = .ok (fields', some outputs) := by
  cases r with
  | error e => simp [freshOutputs, Except.toOption] at h
  | ok r =>
    obtain ⟨fields', fresh⟩ := r
    have hfresh : fresh = some outputs := (Option.filter_eq_some_iff.mp h).1
    exact ⟨fields', by rw [hfresh]⟩

theorem derive_frame (ctx : FieldsContext) (engine : ComputeEngine) (disk : Disk)
    (c : EntityCache) (key : Key) (fields : Fields) :
    (c.deriveComputeFields ctx engine disk key fields).2.cache = c.cache ∧
    (∀ other, other ≠ key →
      (c.deriveComputeFields ctx engine disk key fields).2.computeInputs other =
        c.computeInputs other) ∧
      ∀ other, other ≠ key →
        (c.deriveComputeFields ctx engine disk key fields).2.derived other = c.derived other := by
  cases hcached : c.derived key with
  | some outputs => simp [derive_warm hcached]
  | none =>
    obtain ⟨inputs, hinputs⟩ := inject_snd disk c key fields (ctx.fieldsForEntity key.1)
    rw [derive_cold hcached, hinputs]
    exact ⟨rfl, fun other hne => Function.update_of_ne hne _ _,
      fun other hne => Function.update_of_ne hne _ _⟩

theorem memoized_derive (hmemo : Memoized ctx engine c)
    (hget : ∀ cached, c.get key = some cached → cached = fields) :
    Memoized ctx engine (c.deriveComputeFields ctx engine disk key fields).2 := by
  intro k kfields outputs hk hderived disk'
  obtain ⟨hcache, hinputs, hslots⟩ := derive_frame ctx engine disk c key fields
  have hgetk : c.get k = some kfields := by
    rw [EntityCache.get, ← hcache]
    exact hk
  have hquery : (c.deriveComputeFields ctx engine disk key fields).2.queryFn = c.queryFn :=
    queryFn_congr hcache
  by_cases hkey : k = key
  · subst hkey
    obtain rfl := hget kfields hgetk
    cases hcached : c.derived k with
    | some cached =>
      rw [derive_warm hcached] at hderived ⊢
      exact hmemo k kfields outputs hgetk hderived disk'
    | none =>
      have hslot : (c.deriveComputeFields ctx engine disk k kfields).2.computeInputs k =
          (c.injectComputeDependencies disk k kfields
            (ctx.fieldsForEntity k.1)).2.computeInputs k := by
        rw [derive_cold hcached]
      have hinject : ((c.deriveComputeFields ctx engine disk k kfields).2.injectComputeDependencies
          disk' k kfields (ctx.fieldsForEntity k.1)).1 =
            (c.injectComputeDependencies disk k kfields (ctx.fieldsForEntity k.1)).1 :=
        (inject_congr hslot).trans (inject_again disk')
      rw [derive_cold hcached] at hderived
      simp only [Function.update_self] at hderived
      obtain ⟨fields', hcold⟩ := freshOutputs_eq_some hderived
      refine ⟨fields', ?_⟩
      rw [← hcold, coldRun, coldRun, hinject, hquery]
  · rw [hslots k hkey] at hderived
    obtain ⟨fields', hcold⟩ := hmemo k kfields outputs hgetk hderived disk'
    refine ⟨fields', ?_⟩
    rw [← hcold]
    refine coldRun_congr (fun field _ fields => ?_) (hinputs k hkey)
    rw [hquery]

theorem memoized_read (hmemo : Memoized ctx engine c) :
    Memoized ctx engine (c.read ctx engine disk key).2 := by
  cases hget : c.get key with
  | some fields =>
    simp only [EntityCache.read, hget]
    exact memoized_derive hmemo fun cached hcached =>
      Option.some.inj (hcached.symm.trans hget)
  | none =>
    cases hentity : ctx.getEntity key.1 with
    | none =>
      simp only [EntityCache.read, hget, hentity]
      exact hmemo
    | some def_ =>
      cases hfile : disk.entity key with
      | none =>
        simp only [EntityCache.read, hget, hentity, hfile]
        exact hmemo
      | some fields =>
        simp only [EntityCache.read, hget, hentity, hfile]
        refine memoized_derive hmemo fun cached hcached => ?_
        rw [hget] at hcached
        simp at hcached

theorem mem_getAll {entityType : String} {e : Key × Fields} (h : e ∈ c.getAll entityType) :
    c.get e.1 = some e.2 := by
  obtain ⟨entry, hmem, rfl⟩ := List.mem_map.mp h
  have hentry : c.cache.get? entry.1 = some entry.2 :=
    IndexMap.get?_eq_some_iff.mpr (List.mem_filter.mp hmem).1
  simp only [EntityCache.get, hentry, Option.map_some]

theorem getAll_keys_nodup (c : EntityCache) (entityType : String) :
    ((c.getAll entityType).map Prod.fst).Nodup := by
  rw [EntityCache.getAll, List.map_map]
  exact c.cache.nodup.sublist (List.filter_sublist.map _)

theorem batch_cons (e : Key × Fields) (es : List (Key × Fields)) :
    c.applyComputeBatch ctx engine disk (e :: es) =
      ((c.deriveComputeFields ctx engine disk e.1 e.2).1 ::
        ((c.deriveComputeFields ctx engine disk e.1 e.2).2.applyComputeBatch ctx engine disk es).1,
        ((c.deriveComputeFields ctx engine disk e.1 e.2).2.applyComputeBatch ctx engine
          disk es).2) := rfl

theorem get_derive (other : Key) :
    (c.deriveComputeFields ctx engine disk key fields).2.get other = c.get other := by
  rw [EntityCache.get, EntityCache.get, (derive_frame ctx engine disk c key fields).1]

theorem memoized_batch {es : List (Key × Fields)} (hmemo : Memoized ctx engine c)
    (hes : ∀ e ∈ es, c.get e.1 = some e.2) :
    Memoized ctx engine (c.applyComputeBatch ctx engine disk es).2 := by
  induction es generalizing c with
  | nil => exact hmemo
  | cons e es ih =>
    have hget : c.get e.1 = some e.2 := hes e List.mem_cons_self
    rw [batch_cons]
    refine ih ?_ fun other hmem => ?_
    · exact memoized_derive hmemo fun cached hcached => Option.some.inj (hcached.symm.trans hget)
    · rw [get_derive]
      exact hes other (List.mem_cons_of_mem _ hmem)

theorem batch_eq_unmemoized {es : List (Key × Fields)} (hmemo : Memoized ctx engine c)
    (hes : ∀ e ∈ es, c.get e.1 = some e.2) (hnodup : (es.map Prod.fst).Nodup) :
    (c.applyComputeBatch ctx engine disk es).1 =
      es.map fun e => (c.unmemoized.deriveComputeFields ctx engine disk e.1 e.2).1 := by
  induction es generalizing c with
  | nil => rfl
  | cons e es ih =>
    have hget : c.get e.1 = some e.2 := hes e List.mem_cons_self
    obtain ⟨hnot, hrest⟩ := List.nodup_cons.mp hnodup
    obtain ⟨hcache, hinputs, -⟩ := derive_frame ctx engine disk c e.1 e.2
    have hmemo' : Memoized ctx engine (c.deriveComputeFields ctx engine disk e.1 e.2).2 :=
      memoized_derive hmemo fun cached hcached => Option.some.inj (hcached.symm.trans hget)
    have hes' : ∀ other ∈ es,
        (c.deriveComputeFields ctx engine disk e.1 e.2).2.get other.1 = some other.2 := by
      intro other hmem
      rw [get_derive]
      exact hes other (List.mem_cons_of_mem _ hmem)
    rw [batch_cons, ih hmemo' hes' hrest, derive_eq_unmemoized hmemo hget]
    refine congrArg _ (List.map_congr_left fun other hmem => ?_)
    have hne : other.1 ≠ e.1 := fun heq => hnot (List.mem_map.mpr ⟨other, hmem, heq⟩)
    rw [derive_unmemoized, derive_unmemoized]
    refine congrArg (Except.map fun r => strip r.1) (coldRun_congr (fun field _ fields => ?_) ?_)
    · rw [queryFn_congr]
      exact hcache
    · exact hinputs other.1 hne

theorem memoized_list {entityType : String} (hmemo : Memoized ctx engine c) :
    Memoized ctx engine (c.list ctx engine disk entityType).2 := by
  cases hentity : ctx.getEntity entityType with
  | none =>
    simp only [EntityCache.list, hentity]
    exact hmemo
  | some entity =>
    simp only [EntityCache.list, hentity]
    exact memoized_batch hmemo fun e hmem => mem_getAll hmem

theorem read_eq_unmemoized (hmemo : Memoized ctx engine c) (hget : c.get key = some fields) :
    (c.read ctx engine disk key).1 = (c.unmemoized.read ctx engine disk key).1 := by
  have hget' : c.unmemoized.get key = some fields := hget
  simp only [EntityCache.read, hget, hget']
  rw [derive_eq_unmemoized hmemo hget]

theorem memoized_unmemoized : Memoized ctx engine c.unmemoized := by
  intro key fields outputs hget hderived
  simp [EntityCache.unmemoized] at hderived

theorem list_eq_unmemoized {entityType : String} (hmemo : Memoized ctx engine c) :
    (c.list ctx engine disk entityType).1 = (c.unmemoized.list ctx engine disk entityType).1 := by
  cases hentity : ctx.getEntity entityType with
  | none => simp only [EntityCache.list, hentity]
  | some entity =>
    have hall : c.unmemoized.getAll entityType = c.getAll entityType := rfl
    have hbatch : (c.applyComputeBatch ctx engine disk (c.getAll entityType)).1 =
        (c.getAll entityType).map fun e =>
          (c.unmemoized.deriveComputeFields ctx engine disk e.1 e.2).1 :=
      batch_eq_unmemoized hmemo (fun e hmem => mem_getAll hmem) (getAll_keys_nodup c entityType)
    have hcold : (c.unmemoized.applyComputeBatch ctx engine disk (c.getAll entityType)).1 =
        (c.getAll entityType).map fun e =>
          (c.unmemoized.deriveComputeFields ctx engine disk e.1 e.2).1 :=
      batch_eq_unmemoized memoized_unmemoized (fun e hmem => mem_getAll hmem)
        (getAll_keys_nodup c entityType)
    simp only [EntityCache.list, hentity, hall, hbatch, hcold]

end

section

variable {hash : Fields → UInt64} {ctx : FieldsContext} {engine : ComputeEngine}
  {c c' : EntityCache} {key : Key}

theorem memoized_mutated (hqueries : QueriesDependencies ctx engine)
    (hmutated : Mutated ctx c c' key)
    (hcold : key.1 ∈ ctx.entityTypesDependingOn key.1 → ∀ other fields, other.1 = key.1 →
      other ≠ key → c.get other = some fields → c.derived other = none)
    (hmemo : Memoized ctx engine c) : Memoized ctx engine c' := by
  intro other fields outputs hget hderived disk
  obtain ⟨hne, htype, hbefore⟩ := hmutated.derived other outputs hderived
  rw [hmutated.get other hne] at hget
  obtain ⟨fields', hrun⟩ := hmemo other fields outputs hget hbefore disk
  refine ⟨fields', ?_⟩
  rw [← hrun]
  refine coldRun_congr (fun field hfield fields' => ?_) (hmutated.computeInputs other hne)
  refine hqueries field (FieldsContext.mem_fields_of_mem_fieldsForEntity hfield) fields' _ _
    fun entityType hdep => ?_
  have hentityType : entityType ≠ key.1 := by
    rintro rfl
    have hdepends := FieldsContext.mem_entityTypesDependingOn hfield hdep
    have hsame : other.1 = key.1 := htype hdepends
    rw [hsame] at hdepends
    rw [hcold hdepends other fields hsame hne hget] at hbefore
    simp at hbefore
  rw [EntityCache.queryFn, EntityCache.queryFn, hmutated.getAll entityType hentityType]

theorem memoized_apply {op : Op} (hqueries : QueriesDependencies ctx engine)
    (hok : SelfDependencyCold hash ctx c op) (hmemo : Memoized ctx engine c) :
    Memoized ctx engine (c.apply hash ctx engine op) := by
  cases hmutates : op.mutates hash c with
  | some key => exact memoized_mutated hqueries (mutated_apply hmutates) (hok key hmutates) hmemo
  | none =>
    cases hread : op.isRead with
    | false =>
      rw [apply_of_mutates_none hread hmutates]
      exact hmemo
    | true =>
      cases op with
      | read key disk => exact memoized_read hmemo
      | list entityType disk => exact memoized_list hmemo
      | _ => simp [Op.isRead] at hread

theorem memoized_run (hqueries : QueriesDependencies ctx engine)
    (h : Runs hash ctx engine (SelfDependencyCold hash ctx) c c')
    (hmemo : Memoized ctx engine c) : Memoized ctx engine c' := by
  induction h with
  | refl => exact hmemo
  | tail _ hlast ih =>
    obtain ⟨op, hok, rfl⟩ := hlast
    exact memoized_apply hqueries hok ih

/-- After any run in which no type is mutated while it depends on itself and others of it are
memoized, reads and lists of the cache return what is derived with nothing memoized. -/
theorem reads_transparent (hqueries : QueriesDependencies ctx engine)
    (h : Runs hash ctx engine (SelfDependencyCold hash ctx) c c')
    (hstart : ∀ key, c.derived key = none) :
    (∀ disk key fields, c'.get key = some fields →
      (c'.read ctx engine disk key).1 = (c'.unmemoized.read ctx engine disk key).1) ∧
      ∀ disk entityType, (c'.list ctx engine disk entityType).1 =
        (c'.unmemoized.list ctx engine disk entityType).1 := by
  have hmemo : Memoized ctx engine c' := by
    refine memoized_run hqueries h fun key fields outputs hget hderived => ?_
    rw [hstart key] at hderived
    simp at hderived
  exact ⟨fun disk key fields hget => read_eq_unmemoized hmemo hget,
    fun disk entityType => list_eq_unmemoized hmemo⟩

end

def crowdedEngine : ComputeEngine :=
  ⟨fun _ => none, fun name =>
    if name = "crowded" then some fun _ query => .bool (1 < (query "task").length) else none⟩

def crowdedField : FieldDef := ⟨"crowded", .computed "crowded" ["task"]⟩

def crowdedIn (entityType : String) : FieldsContext := ⟨[crowdedField], [⟨entityType, ["crowded"]⟩]⟩

theorem queriesDependencies_crowded (entityType : String) :
    QueriesDependencies (crowdedIn entityType) crowdedEngine := by
  intro field hfield fields query query' hagree
  obtain rfl : field = crowdedField := List.mem_singleton.mp hfield
  have htasks : query "task" = query' "task" := hagree "task" (by decide)
  simp [ComputeEngine.derive, crowdedField, crowdedEngine, htasks]

def emptyDisk : Disk := ⟨fun _ => none, fun _ => .null, fun _ => .null⟩

def sizeHash (fields : Fields) : UInt64 := UInt64.ofNat fields.size

theorem reads_transparent_board :
    let c := (EntityCache.empty.write sizeHash (crowdedIn "board") ("board", "1") (some ∅)).read
      (crowdedIn "board") crowdedEngine emptyDisk ("board", "1")
    let c' := (c.2.write sizeHash (crowdedIn "board") ("task", "1") (some ∅))
    c'.get ("board", "1") = some ∅ ∧
      (c'.read (crowdedIn "board") crowdedEngine emptyDisk ("board", "1")).1 =
        (c'.unmemoized.read (crowdedIn "board") crowdedEngine emptyDisk ("board", "1")).1 := by
  intro c c'
  have hself : ∀ entityType : String, entityType = "board" ∨ entityType = "task" →
      entityType ∉ (crowdedIn "board").entityTypesDependingOn entityType := by
    rintro entityType (rfl | rfl)
    · decide
    · decide
  have hrun : Runs sizeHash (crowdedIn "board") crowdedEngine
      (SelfDependencyCold sizeHash (crowdedIn "board")) .empty c' := by
    refine .head ⟨.write ("board", "1") (some ∅), ?_, rfl⟩ ?_
    · intro key hkey hself'
      obtain rfl := Option.some.inj hkey
      exact absurd hself' (hself _ (.inl rfl))
    refine .head ⟨.read ("board", "1") emptyDisk, ?_, rfl⟩ ?_
    · intro key hkey
      simp [Op.mutates] at hkey
    refine .single ⟨.write ("task", "1") (some ∅), ?_, rfl⟩
    intro key hkey hself'
    obtain rfl := Option.some.inj hkey
    exact absurd hself' (hself _ (.inr rfl))
  have hget : c'.get ("board", "1") = some ∅ := by decide
  exact ⟨hget, (reads_transparent (queriesDependencies_crowded "board") hrun
    fun _ => rfl).1 emptyDisk ("board", "1") ∅ hget⟩

theorem self_dependency_stale :
    let ctx := crowdedIn "task"
    QueriesDependencies ctx crowdedEngine ∧
      ∃ stop, Runs sizeHash ctx crowdedEngine (fun _ _ => True) .empty stop ∧
        stop.get ("task", "1") = some ∅ ∧
          (stop.read ctx crowdedEngine emptyDisk ("task", "1")).1 ≠
            (stop.unmemoized.read ctx crowdedEngine emptyDisk ("task", "1")).1 := by
  refine ⟨queriesDependencies_crowded "task", _, runs_foldl [.write ("task", "1") (some ∅),
    .read ("task", "1") emptyDisk, .write ("task", "2") (some ∅)] .empty, by decide, ?_⟩
  intro heq
  have hcrowded := congrArg (fun r => r.toOption.bind fun fields => fields["crowded"]?) heq
  revert hcrowded
  decide

end SwissArmyHammer.Cache
