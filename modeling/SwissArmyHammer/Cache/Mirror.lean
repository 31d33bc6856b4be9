import Mathlib.Data.Set.Function
import SwissArmyHammer.Cache.Operations

/-! A subscriber that applies the events of the cache, and the contents that it mirrors. -/

namespace SwissArmyHammer.Cache

open Entities

def dropNulls (fields : Fields) : Fields :=
  fields.filterMap fun _ value => if value = .null then none else some value

def applyFieldChange (fields : Fields) (change : FieldChange) : Fields :=
  if change.value = .null then fields.erase change.field
  else fields.insert change.field change.value

abbrev Mirror := Key → Option Fields

def Mirror.applyEvent (mirror : Mirror) (event : Key × EntityEvent) : Mirror :=
  Function.update mirror event.1 <|
    match event.2 with
    | .changed _ changes => some (changes.foldl applyFieldChange ((mirror event.1).getD ∅))
    | .deleted => none

def Mirror.ofEvents (events : List (Key × EntityEvent)) : Mirror :=
  events.foldl Mirror.applyEvent fun _ => none

section

variable {fields old new : Fields} {changes : List FieldChange} {k : String} {v : Json}

theorem dropNulls_get (fields : Fields) (k : String) :
    (dropNulls fields)[k]? = fields[k]?.bind fun v => if v = .null then none else some v := by
  rw [dropNulls, Std.ExtTreeMap.getElem?_filterMap']

theorem applyFieldChange_get (change : FieldChange) :
    (applyFieldChange fields change)[k]? =
      if change.field = k then (if change.value = .null then none else some change.value)
      else fields[k]? := by
  rw [applyFieldChange]
  split_ifs with hnull hk
  · simp [hk]
  · simp [Std.ExtTreeMap.getElem?_erase, hk]
  · rename_i hk
    simp [hk]
  · rename_i hk
    simp [Std.ExtTreeMap.getElem?_insert, hk]

theorem applyChanges_of_not_mem (h : ∀ change ∈ changes, change.field ≠ k) :
    (changes.foldl applyFieldChange fields)[k]? = fields[k]? := by
  induction changes generalizing fields with
  | nil => rfl
  | cons change changes ih =>
    rw [List.foldl_cons, ih fun other hmem => h other (List.mem_cons_of_mem _ hmem),
      applyFieldChange_get, if_neg (h change List.mem_cons_self)]

theorem applyChanges_of_mem (hall : ∀ change ∈ changes, change.field = k → change.value = v)
    (hmem : ∃ change ∈ changes, change.field = k) :
    (changes.foldl applyFieldChange fields)[k]? = if v = .null then none else some v := by
  induction changes generalizing fields with
  | nil => simp at hmem
  | cons change changes ih =>
    have hrest : ∀ other ∈ changes, other.field = k → other.value = v := fun other hother =>
      hall other (List.mem_cons_of_mem _ hother)
    rw [List.foldl_cons]
    by_cases hlater : ∃ other ∈ changes, other.field = k
    · exact ih hrest hlater
    · have hnone : ∀ other ∈ changes, other.field ≠ k := fun other hother hk =>
        hlater ⟨other, hother, hk⟩
      have hk : change.field = k := by
        obtain ⟨other, hother, hk⟩ := hmem
        rcases List.mem_cons.mp hother with rfl | hother
        · exact hk
        · exact absurd hk (hnone other hother)
      have hvalue : change.value = v := hall change List.mem_cons_self hk
      rw [applyChanges_of_not_mem hnone, applyFieldChange_get, if_pos hk, hvalue]

theorem mem_diff_none {change : FieldChange} :
    change ∈ diff none new ↔ new[change.field]? = some change.value := by
  rw [← Std.ExtTreeMap.mem_toList_iff_getElem?_eq_some]
  simp only [diff, List.mem_map]
  constructor
  · rintro ⟨f, hf, rfl⟩
    exact hf
  · intro h
    exact ⟨(change.field, change.value), h, rfl⟩

theorem mem_diff_some {change : FieldChange} : change ∈ diff (some old) new ↔
    (new[change.field]? = some change.value ∧ old[change.field]? ≠ some change.value) ∨
      (change.value = .null ∧ change.field ∈ old ∧ change.field ∉ new) := by
  obtain ⟨field, value⟩ := change
  simp only [diff, List.mem_append, List.mem_filterMap]
  refine or_congr ⟨?_, ?_⟩ ⟨?_, ?_⟩
  · simp
  · rintro ⟨hnew, hold⟩
    exact ⟨(field, value), Std.ExtTreeMap.mem_toList_iff_getElem?_eq_some.mpr hnew, if_neg hold⟩
  · rintro ⟨⟨k, v⟩, hmem, hsome⟩
    split_ifs at hsome with hnew
    obtain ⟨rfl, rfl⟩ := FieldChange.mk.inj (Option.some.inj hsome)
    have hold : old[k]? = some v := Std.ExtTreeMap.mem_toList_iff_getElem?_eq_some.mp hmem
    refine ⟨rfl, ?_, ?_⟩
    · rw [Std.ExtTreeMap.mem_iff_isSome_getElem?, hold]
      rfl
    · exact hnew
  · rintro ⟨rfl, hold, hnew⟩
    rw [Std.ExtTreeMap.mem_iff_isSome_getElem?] at hold
    obtain ⟨v, hv⟩ := Option.isSome_iff_exists.mp hold
    refine ⟨(field, v), Std.ExtTreeMap.mem_toList_iff_getElem?_eq_some.mpr hv, if_neg ?_⟩
    exact hnew

theorem applyChanges_diff (old new : Fields) :
    (diff (some old) new).foldl applyFieldChange (dropNulls old) = dropNulls new := by
  refine Std.ExtTreeMap.ext_getElem? fun k => ?_
  rw [dropNulls_get]
  cases hnew : new[k]? with
  | some v =>
    by_cases hold : old[k]? = some v
    · rw [applyChanges_of_not_mem, dropNulls_get, hold]
      rintro change hmem rfl
      rcases mem_diff_some.mp hmem with ⟨hsome, hne⟩ | ⟨-, -, hnot⟩
      · rw [hnew, ← hold] at hsome
        exact hne hsome
      · rw [Std.ExtTreeMap.mem_iff_isSome_getElem?, hnew] at hnot
        exact hnot rfl
    · refine applyChanges_of_mem ?_ ⟨⟨k, v⟩, mem_diff_some.mpr (.inl ⟨hnew, hold⟩), rfl⟩
      rintro change hmem rfl
      rcases mem_diff_some.mp hmem with ⟨hsome, -⟩ | ⟨-, -, hnot⟩
      · exact Option.some.inj (hsome.symm.trans hnew)
      · rw [Std.ExtTreeMap.mem_iff_isSome_getElem?, hnew] at hnot
        exact absurd rfl hnot
  | none =>
    have hnot : k ∉ new := by
      rw [Std.ExtTreeMap.mem_iff_isSome_getElem?, hnew]
      simp
    by_cases hold : k ∈ old
    · rw [applyChanges_of_mem (v := .null) ?_
        ⟨⟨k, .null⟩, mem_diff_some.mpr (.inr ⟨rfl, hold, hnot⟩), rfl⟩]
      · rfl
      · rintro change hmem rfl
        rcases mem_diff_some.mp hmem with ⟨hsome, -⟩ | ⟨hnull, -, -⟩
        · rw [hnew] at hsome
          simp at hsome
        · exact hnull
    · have hold' : old[k]? = none := by
        rw [Std.ExtTreeMap.mem_iff_isSome_getElem?] at hold
        simpa using hold
      rw [applyChanges_of_not_mem, dropNulls_get, hold']
      rintro change hmem rfl
      rcases mem_diff_some.mp hmem with ⟨hsome, -⟩ | ⟨-, hmem', -⟩
      · rw [hnew] at hsome
        simp at hsome
      · exact hold hmem'

theorem applyChanges_all (new : Fields)
    (h : ∀ k v, fields[k]? = some v → k ∈ new) :
    (diff none new).foldl applyFieldChange fields = dropNulls new := by
  refine Std.ExtTreeMap.ext_getElem? fun k => ?_
  rw [dropNulls_get]
  cases hnew : new[k]? with
  | some v =>
    refine applyChanges_of_mem ?_ ⟨⟨k, v⟩, mem_diff_none.mpr hnew, rfl⟩
    rintro change hmem rfl
    exact Option.some.inj ((mem_diff_none.mp hmem).symm.trans hnew)
  | none =>
    rw [applyChanges_of_not_mem]
    · grind
    · rintro change hmem rfl
      rw [mem_diff_none, hnew] at hmem
      simp at hmem

end

def Op.content : Op → Option Fields
  | .write _ content | .unarchive _ content | .refreshFromDisk _ content => content
  | _ => none

def UnarchivesCleanly (c : EntityCache) (op : Op) : Prop :=
  ∀ key entity, op = .unarchive key (some entity) → ∀ old, c.get key = some old →
    old ≠ entity ∧ ∀ k v, (dropNulls old)[k]? = some v → k ∈ entity

def EntityEvent.version : EntityEvent → Option Nat
  | .changed version _ => some version
  | .deleted => none

def versions (events : List (Key × EntityEvent)) : List Nat :=
  events.filterMap fun event => event.2.version

section

variable {hash : Fields → UInt64} {contents : Set Fields} {ctx : FieldsContext}
  {engine : ComputeEngine} {c c' : EntityCache} {key : Key} {cached : CachedEntity} {op : Op}

inductive Effect (hash : Fields → UInt64) (c c' : EntityCache) (op : Op) : Prop
  | same (hcache : c'.cache = c.cache) (hcounter : c'.versionCounter = c.versionCounter)
      (hevents : c'.events = c.events)
  | kept (key : Key) (cached : CachedEntity) (entity : Fields) (hcontent : op.content = some entity)
      (hold : c.cache.get? key = some cached) (hhash : cached.hash = hash entity)
      (hcache : c'.cache = c.cache.insert key ⟨entity, hash entity, cached.version⟩)
      (hcounter : c'.versionCounter = c.versionCounter) (hevents : c'.events = c.events)
  | changed (key : Key) (entity : Fields) (hcontent : op.content = some entity)
      (hhash : (c.cache.get? key).map CachedEntity.hash ≠ some (hash entity))
      (hcache : c'.cache = c.cache.insert key ⟨entity, hash entity, c.versionCounter⟩)
      (hcounter : c'.versionCounter = c.versionCounter + 1)
      (hevents : c'.events =
        c.events ++ [(key, .changed c.versionCounter (diff (c.get key) entity))])
  | restored (key : Key) (entity : Fields) (hop : op = .unarchive key (some entity))
      (hcache : c'.cache = c.cache.insert key ⟨entity, hash entity, c.versionCounter⟩)
      (hcounter : c'.versionCounter = c.versionCounter + 1)
      (hevents : c'.events = c.events ++ [(key, .changed c.versionCounter (diff none entity))])
  | removed (key : Key) (hcache : c'.cache = c.cache.shiftRemove key)
      (hcounter : c'.versionCounter = c.versionCounter)
      (hevents : c'.events = c.events ++ [(key, .deleted)])

theorem effect_apply (hash : Fields → UInt64) (ctx : FieldsContext) (engine : ComputeEngine)
    (c : EntityCache) (op : Op) : Effect hash c (c.apply hash ctx engine op) op := by
  cases op with
  | write key written =>
    cases written with
    | none => exact .same rfl rfl rfl
    | some canonical =>
      cases hold : c.cache.get? key with
      | none =>
        have hhash : (c.cache.get? key).map CachedEntity.hash ≠ some (hash canonical) := by
          simp [hold]
        refine .changed key canonical rfl hhash ?_ ?_ ?_
        all_goals simp only [EntityCache.apply, EntityCache.write, if_pos hhash]
        all_goals rfl
      | some cached =>
        by_cases hhash : cached.hash = hash canonical
        · have hwrite : c.write hash ctx key (some canonical) =
              (c.insert key ⟨canonical, hash canonical, cached.version⟩).invalidateEntityCaches
                ctx key := by
            simp [EntityCache.write, hold, hhash]
          refine .kept key cached canonical rfl hold hhash ?_ ?_ ?_
          all_goals rw [EntityCache.apply, hwrite]
          all_goals rfl
        · have hne : (c.cache.get? key).map CachedEntity.hash ≠ some (hash canonical) := by
            simp [hold, hhash]
          refine .changed key canonical rfl hne ?_ ?_ ?_
          all_goals simp only [EntityCache.apply, EntityCache.write, if_pos hne]
          all_goals rfl
  | delete key deleted =>
    cases deleted with
    | false => exact .same rfl rfl rfl
    | true => exact .removed key rfl rfl rfl
  | archive key archived =>
    cases archived with
    | false => exact .same rfl rfl rfl
    | true => exact .removed key rfl rfl rfl
  | unarchive key restored =>
    cases restored with
    | none => exact .same rfl rfl rfl
    | some entity => exact .restored key entity rfl rfl rfl rfl
  | evict key =>
    by_cases hcached : (c.cache.get? key).isSome = true
    · refine .removed key ?_ ?_ ?_
      all_goals rw [EntityCache.apply, EntityCache.evict, if_pos hcached]
      all_goals rfl
    · refine .same ?_ ?_ ?_
      all_goals rw [EntityCache.apply, EntityCache.evict, if_neg hcached]
  | refreshFromDisk key file =>
    cases file with
    | none => exact .same rfl rfl rfl
    | some entity =>
      by_cases hhash : (c.cache.get? key).map CachedEntity.hash = some (hash entity)
      · refine .same ?_ ?_ ?_
        all_goals simp only [EntityCache.apply, EntityCache.refreshFromDisk, if_pos hhash]
      · refine .changed key entity rfl hhash ?_ ?_ ?_
        all_goals simp only [EntityCache.apply, EntityCache.refreshFromDisk, if_neg hhash]
        all_goals rfl
  | read key disk =>
    have hread : SameMap c (c.read ctx engine disk key).2 := sameMap_read key
    exact .same hread.cache hread.versionCounter hread.events
  | list entityType disk =>
    have hlist : SameMap c (c.list ctx engine disk entityType).2 := sameMap_list entityType
    exact .same hlist.cache hlist.versionCounter hlist.events

structure InSync (hash : Fields → UInt64) (contents : Set Fields) (c : EntityCache) : Prop where
  hashes : ∀ key cached, c.cache.get? key = some cached →
    cached.hash = hash cached.entity ∧ cached.entity ∈ contents
  mirror : ∀ key, Mirror.ofEvents c.events key = (c.get key).map dropNulls
  below : ∀ version ∈ versions c.events, version < c.versionCounter
  increasing : (versions c.events).Pairwise (· < ·)

theorem ofEvents_append (events : List (Key × EntityEvent)) (event : Key × EntityEvent) :
    Mirror.ofEvents (events ++ [event]) = (Mirror.ofEvents events).applyEvent event := by
  rw [Mirror.ofEvents, List.foldl_append]
  rfl

theorem versions_append_changed (events : List (Key × EntityEvent)) (key : Key) (version : Nat)
    (changes : List FieldChange) :
    versions (events ++ [(key, .changed version changes)]) = versions events ++ [version] := by
  simp [versions, List.filterMap_append, EntityEvent.version]

theorem versions_append_deleted (events : List (Key × EntityEvent)) (key : Key) :
    versions (events ++ [(key, .deleted)]) = versions events := by
  simp [versions, List.filterMap_append, EntityEvent.version]

theorem get_insert (hcache : c'.cache = c.cache.insert key cached) (other : Key) :
    c'.get other = if other = key then some cached.entity else c.get other := by
  rw [EntityCache.get, hcache]
  split_ifs with hkey
  · rw [hkey, IndexMap.get?_insert_self]
    rfl
  · rw [IndexMap.get?_insert_of_ne hkey]
    rfl

theorem get_shiftRemove (hcache : c'.cache = c.cache.shiftRemove key) (other : Key) :
    c'.get other = if other = key then none else c.get other := by
  rw [EntityCache.get, hcache]
  split_ifs with hkey
  · rw [hkey, IndexMap.get?_shiftRemove_self]
    rfl
  · rw [IndexMap.get?_shiftRemove_of_ne hkey]
    rfl

theorem hashes_insert {entity : Fields} {version : Nat} (h : InSync hash contents c)
    (hmem : entity ∈ contents)
    (hcache : c'.cache = c.cache.insert key ⟨entity, hash entity, version⟩) (other : Key)
    (hget : c'.cache.get? other = some cached) :
    cached.hash = hash cached.entity ∧ cached.entity ∈ contents := by
  rw [hcache] at hget
  by_cases hkey : other = key
  · rw [hkey, IndexMap.get?_insert_self] at hget
    rw [← Option.some.inj hget]
    exact ⟨rfl, hmem⟩
  · rw [IndexMap.get?_insert_of_ne hkey] at hget
    exact h.hashes other cached hget

theorem inSync_changed {entity : Fields} {changes : List FieldChange} (h : InSync hash contents c)
    (hmem : entity ∈ contents)
    (hcache : c'.cache = c.cache.insert key ⟨entity, hash entity, c.versionCounter⟩)
    (hcounter : c'.versionCounter = c.versionCounter + 1)
    (hevents : c'.events = c.events ++ [(key, .changed c.versionCounter changes)])
    (hchanges : changes.foldl applyFieldChange (((c.get key).map dropNulls).getD ∅) =
      dropNulls entity) : InSync hash contents c' := by
  refine ⟨fun other cached hget => hashes_insert h hmem hcache other hget, fun other => ?_,
    fun version hversion => ?_, ?_⟩
  · rw [hevents, ofEvents_append, get_insert hcache]
    by_cases hkey : other = key
    · rw [hkey, Mirror.applyEvent, Function.update_self, if_pos rfl, h.mirror key]
      exact congrArg some hchanges
    · rw [Mirror.applyEvent, Function.update_of_ne hkey, if_neg hkey, h.mirror other]
  · rw [hevents, versions_append_changed, List.mem_append, List.mem_singleton] at hversion
    rcases hversion with hversion | rfl
    · have hbelow := h.below version hversion
      omega
    · omega
  · rw [hevents, versions_append_changed, List.pairwise_append]
    refine ⟨h.increasing, List.pairwise_singleton _ _, fun version hversion next hnext => ?_⟩
    rw [List.mem_singleton.mp hnext]
    exact h.below version hversion

theorem inSync_step (hinj : Set.InjOn hash contents) (heffect : Effect hash c c' op)
    (hcontent : ∀ entity, op.content = some entity → entity ∈ contents)
    (hclean : UnarchivesCleanly c op) (h : InSync hash contents c) :
    InSync hash contents c' := by
  cases heffect with
  | same hcache hcounter hevents =>
    refine ⟨?_, fun key => ?_, ?_, ?_⟩
    · rw [hcache]
      exact h.hashes
    · rw [hevents, EntityCache.get, hcache]
      exact h.mirror key
    · rw [hevents, hcounter]
      exact h.below
    · rw [hevents]
      exact h.increasing
  | kept key cached entity hop hold hhash hcache hcounter hevents =>
    have hmem := hcontent entity hop
    obtain ⟨hcached, hcachedmem⟩ := h.hashes key cached hold
    have hsame : cached.entity = entity := hinj hcachedmem hmem (hcached.symm.trans hhash)
    refine ⟨fun other cached hget => hashes_insert h hmem hcache other hget, fun other => ?_,
      ?_, ?_⟩
    · rw [hevents, h.mirror other, get_insert hcache]
      by_cases hkey : other = key
      · rw [hkey, if_pos rfl, EntityCache.get, hold, ← hsame]
        rfl
      · rw [if_neg hkey]
    · rw [hevents, hcounter]
      exact h.below
    · rw [hevents]
      exact h.increasing
  | changed key entity hop hhash hcache hcounter hevents =>
    refine inSync_changed h (hcontent entity hop) hcache hcounter hevents ?_
    cases hold : c.get key with
    | none => exact applyChanges_all entity fun k v hk => by simp at hk
    | some old => exact applyChanges_diff old entity
  | restored key entity hop hcache hcounter hevents =>
    have hmem : entity ∈ contents := hcontent entity (by rw [hop, Op.content])
    refine inSync_changed h hmem hcache hcounter hevents ?_
    refine applyChanges_all entity fun k v hk => ?_
    cases hold : c.get key with
    | none => simp [hold] at hk
    | some old =>
      rw [hold] at hk
      exact (hclean key entity hop old hold).2 k v hk
  | removed key hcache hcounter hevents =>
    refine ⟨fun other cached hget => ?_, fun other => ?_, ?_, ?_⟩
    · rw [hcache] at hget
      by_cases hkey : other = key
      · rw [hkey] at hget
        simp at hget
      · rw [IndexMap.get?_shiftRemove_of_ne hkey] at hget
        exact h.hashes other cached hget
    · rw [hevents, ofEvents_append, get_shiftRemove hcache]
      by_cases hkey : other = key
      · rw [hkey, Mirror.applyEvent, Function.update_self, if_pos rfl]
        rfl
      · rw [Mirror.applyEvent, Function.update_of_ne hkey, if_neg hkey, h.mirror other]
    · rw [hevents, versions_append_deleted, hcounter]
      exact h.below
    · rw [hevents, versions_append_deleted]
      exact h.increasing

theorem changed_of_sent {sent : List (Key × EntityEvent)} {version : Nat}
    {changes : List FieldChange} (heffect : Effect hash c c' op)
    (hclean : UnarchivesCleanly c op) (h : InSync hash contents c)
    (hsent : c'.events = c.events ++ sent) (hmem : (key, .changed version changes) ∈ sent) :
    c'.get key ≠ c.get key := by
  have hfresh : ∀ events, c'.events = c.events ++ events → sent = events := by
    intro events hevents
    exact List.append_cancel_left (hsent.symm.trans hevents)
  cases heffect with
  | same hcache hcounter hevents =>
    rw [hfresh [] (by rw [hevents, List.append_nil])] at hmem
    simp at hmem
  | kept k cached entity hop hold hhash hcache hcounter hevents =>
    rw [hfresh [] (by rw [hevents, List.append_nil])] at hmem
    simp at hmem
  | changed k entity hop hhash hcache hcounter hevents =>
    rw [hfresh _ hevents] at hmem
    obtain rfl : key = k := (Prod.mk.inj (List.mem_singleton.mp hmem)).1
    rw [get_insert hcache, if_pos rfl]
    intro hget
    obtain ⟨cached, hcached, hentity⟩ := Option.map_eq_some_iff.mp hget.symm
    have hentity' : cached.entity = entity := hentity
    refine hhash ?_
    rw [hcached, Option.map_some, (h.hashes key cached hcached).1, hentity']
  | restored k entity hop hcache hcounter hevents =>
    rw [hfresh _ hevents] at hmem
    obtain rfl : key = k := (Prod.mk.inj (List.mem_singleton.mp hmem)).1
    rw [get_insert hcache, if_pos rfl]
    intro hget
    exact (hclean key entity hop entity hget.symm).1 rfl
  | removed k hcache hcounter hevents =>
    rw [hfresh _ hevents] at hmem
    simp at hmem

end

section

variable {hash : Fields → UInt64} {contents : Set Fields} {ctx : FieldsContext}
  {engine : ComputeEngine} {c : EntityCache}

/-- An operation brings in the given contents only, and unarchives cleanly. -/
def Clean (contents : Set Fields) (c : EntityCache) (op : Op) : Prop :=
  (∀ entity, op.content = some entity → entity ∈ contents) ∧ UnarchivesCleanly c op

theorem inSync_empty : InSync hash contents .empty := by
  refine ⟨fun key cached hget => ?_, fun key => rfl, fun version hversion => ?_, .nil⟩
  · simp [EntityCache.empty, IndexMap.get?, IndexMap.empty, IndexMap.lookup] at hget
  · simp [EntityCache.empty, versions] at hversion

theorem inSync_run (hinj : Set.InjOn hash contents)
    (h : Runs hash ctx engine (Clean contents) .empty c) : InSync hash contents c := by
  induction h with
  | refl => exact inSync_empty
  | tail _ hlast ih =>
    obtain ⟨op, hok, rfl⟩ := hlast
    exact inSync_step hinj (effect_apply hash ctx engine _ op) hok.1 hok.2 ih

def versionsOf (key : Key) (events : List (Key × EntityEvent)) : List Nat :=
  versions (events.filter fun event => event.1 = key)

/-- After every operation of a run that unarchives cleanly the mirror is the contents of the map,
the versions of an entity have grown, and the next operation sends no change of an entity that it
leaves as it is. -/
theorem mirror_in_sync (hinj : Set.InjOn hash contents)
    (h : Runs hash ctx engine (Clean contents) .empty c) :
    (∀ key, Mirror.ofEvents c.events key = (c.get key).map dropNulls) ∧
      (∀ key, (versionsOf key c.events).Pairwise (· < ·)) ∧
        ∀ op, Clean contents c op → ∀ sent,
          (c.apply hash ctx engine op).events = c.events ++ sent →
            ∀ key version changes, (key, .changed version changes) ∈ sent →
              (c.apply hash ctx engine op).get key ≠ c.get key := by
  have hsync := inSync_run hinj h
  refine ⟨hsync.mirror, fun key => ?_, fun op hok sent hsent key version changes hmem => ?_⟩
  · exact hsync.increasing.sublist (List.filter_sublist.filterMap _)
  · exact changed_of_sent (effect_apply hash ctx engine c op) hok.2 hsync hsent hmem

end

def noFields : FieldsContext := ⟨[], []⟩

def noDerivations : ComputeEngine := ⟨fun _ => none, fun _ => none⟩

def titledA : Fields := (∅ : Fields).insert "title" (.string "a")

def bodyB : Fields := (∅ : Fields).insert "body" (.string "b")

def titleHash (fields : Fields) : UInt64 := if fields.contains "title" then 1 else 0

theorem titleHash_injOn : Set.InjOn titleHash {titledA, bodyB} := by
  have hne : titleHash titledA ≠ titleHash bodyB := by decide
  rintro x (rfl | rfl) y (rfl | rfl) heq
  · rfl
  · exact absurd heq hne
  · exact absurd heq hne.symm
  · rfl

abbrev archived : EntityCache :=
  (EntityCache.empty.write titleHash noFields ("task", "1") (some titledA)).archive noFields
    ("task", "1") true

theorem mirror_in_sync_unarchive :
    Mirror.ofEvents (archived.unarchive titleHash noFields ("task", "1") (some titledA)).events
        ("task", "1") =
      ((archived.unarchive titleHash noFields ("task", "1") (some titledA)).get
        ("task", "1")).map dropNulls := by
  have hrun : Runs titleHash noFields noDerivations (Clean {titledA, bodyB}) .empty
      (archived.unarchive titleHash noFields ("task", "1") (some titledA)) := by
    refine .head ⟨.write ("task", "1") (some titledA), ⟨?_, ?_⟩, rfl⟩ ?_
    · intro entity hcontent
      exact .inl (Option.some.inj hcontent).symm
    · intro key entity hop
      simp at hop
    refine .head ⟨.archive ("task", "1") true, ⟨?_, ?_⟩, rfl⟩ ?_
    · intro entity hcontent
      simp [Op.content] at hcontent
    · intro key entity hop
      simp at hop
    refine .single ⟨.unarchive ("task", "1") (some titledA), ⟨?_, ?_⟩, rfl⟩
    · intro entity hcontent
      exact .inl (Option.some.inj hcontent).symm
    · intro key entity hop old hget
      obtain ⟨rfl, -⟩ := Op.unarchive.inj hop
      have hnone : archived.get ("task", "1") = none := by decide
      have hsome : archived.get ("task", "1") = some old := hget
      rw [hnone] at hsome
      simp at hsome
  exact (mirror_in_sync titleHash_injOn hrun).1 ("task", "1")

theorem unarchive_over_entry_drifts :
    Set.InjOn titleHash {titledA, bodyB} ∧
      ∃ stop, Runs titleHash noFields noDerivations
          (fun _ op => ∀ entity, op.content = some entity →
            entity ∈ ({titledA, bodyB} : Set Fields)) .empty stop ∧
        Mirror.ofEvents stop.events ("task", "1") ≠ (stop.get ("task", "1")).map dropNulls := by
  refine ⟨titleHash_injOn,
    (archived.write titleHash noFields ("task", "1") (some bodyB)).unarchive titleHash noFields
      ("task", "1") (some titledA), ?_, by decide +kernel⟩
  refine .head ⟨.write ("task", "1") (some titledA), fun entity hcontent => ?_, rfl⟩ ?_
  · exact .inl (Option.some.inj hcontent).symm
  refine .head ⟨.archive ("task", "1") true, fun entity hcontent => ?_, rfl⟩ ?_
  · simp [Op.content] at hcontent
  refine .head ⟨.write ("task", "1") (some bodyB), fun entity hcontent => ?_, rfl⟩ ?_
  · exact .inr (Option.some.inj hcontent).symm
  refine .single ⟨.unarchive ("task", "1") (some titledA), fun entity hcontent => ?_, rfl⟩
  exact .inl (Option.some.inj hcontent).symm

end SwissArmyHammer.Cache
