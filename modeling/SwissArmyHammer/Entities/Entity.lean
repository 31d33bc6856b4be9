import Mathlib.Data.Finmap
import SwissArmyHammer.Common.Json

/-! Entities: a type, an id and a bag of named fields. -/

namespace SwissArmyHammer.Entities

abbrev Fields := Std.ExtTreeMap String Json

theorem keys_nodup (fields : Fields) : (fields.toList.map Prod.fst).Nodup := by
  rw [Std.ExtTreeMap.map_fst_toList_eq_keys]
  exact fields.nodup_keys

structure Entity where
  entityType : String
  id : String
  fields : Fields

namespace Entity

def new (entityType id : String) : Entity := ⟨entityType, id, ∅⟩

def get (e : Entity) (field : String) : Option Json := e.fields[field]?

def getStr (e : Entity) (field : String) : Option String := (e.get field).bind Json.asStr

def getStringList (e : Entity) (field : String) : List String :=
  (((e.get field).bind Json.asArray).map fun elems => elems.filterMap Json.asStr).getD []

def set (e : Entity) (field : String) (value : Json) : Entity :=
  { e with fields := e.fields.insert field value }

def remove (e : Entity) (field : String) : Entity :=
  { e with fields := e.fields.erase field }

variable {e e' : Entity} {field other : String} {value : Json}

@[simp] theorem set_id (e : Entity) (field : String) (value : Json) : (e.set field value).id = e.id :=
  rfl

@[simp] theorem get_set_self (e : Entity) (field : String) (value : Json) :
    (e.set field value).get field = some value := by
  simp [get, set]

theorem get_set_of_ne (h : other ≠ field) (e : Entity) (value : Json) :
    (e.set field value).get other = e.get other := by
  simp [get, set, Std.ExtTreeMap.getElem?_insert, h.symm]

theorem getStr_congr (h : e.get field = e'.get field) : e.getStr field = e'.getStr field := by
  rw [getStr, getStr, h]

theorem getStringList_congr (h : e.get field = e'.get field) :
    e.getStringList field = e'.getStringList field := by
  rw [getStringList, getStringList, h]

theorem getStr_set_of_ne (h : other ≠ field) (e : Entity) (value : Json) :
    (e.set field value).getStr other = e.getStr other :=
  getStr_congr (get_set_of_ne h e value)

theorem getStringList_set_of_ne (h : other ≠ field) (e : Entity) (value : Json) :
    (e.set field value).getStringList other = e.getStringList other :=
  getStringList_congr (get_set_of_ne h e value)

theorem getStringList_set_self (e : Entity) (field : String) (ss : List String) :
    (e.set field (.ofStrings ss)).getStringList field = ss := by
  simp [getStringList, Json.ofStrings, Json.asArray, List.filterMap_map, Function.comp_def,
    Json.asStr]

end Entity

inductive EntityError
  | invalidFrontmatter (path : String)
  | yaml (path source : String)
  | patchApply (message : String)
  | staleChange (field : String) (expected actual : Json)
  | io (message : String)
  deriving DecidableEq

end SwissArmyHammer.Entities

/-! Computed fields: the engine that derives one of them, and the derivation of all that an entity
has, with and without memoized outputs. -/

namespace SwissArmyHammer.Entities

inductive FieldType
  | computed (derive : String) (dependsOn : List String)
  /-- All the types whose values are stored. -/
  | stored

structure FieldDef where
  name : String
  type : FieldType

def FieldDef.dependsOn (field : FieldDef) (dependency : String) : Bool :=
  match field.type with
  | .computed _ dependsOn => dependsOn.contains dependency
  | .stored => false

def anyFieldDependsOn (defs : List FieldDef) (dependency : String) : Bool :=
  defs.any fun field => field.dependsOn dependency

structure EntityTemplate where
  name : String
  fields : List String

structure FieldsContext where
  fields : List FieldDef
  entities : List EntityTemplate

namespace FieldsContext

variable (ctx : FieldsContext)

def getFieldByName (name : String) : Option FieldDef :=
  ctx.fields.find? fun field => field.name = name

def getEntity (name : String) : Option EntityTemplate :=
  ctx.entities.find? fun entity => entity.name = name

def fieldsForEntity (entityName : String) : List FieldDef :=
  match ctx.getEntity entityName with
  | some entity => entity.fields.filterMap ctx.getFieldByName
  | none => []

def entityTypesDependingOn (triggerType : String) : List String :=
  (ctx.entities.filter fun entity =>
    anyFieldDependsOn (ctx.fieldsForEntity entity.name) triggerType).map EntityTemplate.name

variable {ctx}

theorem mem_entityTypesDependingOn {entityType triggerType : String} {field : FieldDef}
    (hfield : field ∈ ctx.fieldsForEntity entityType)
    (hdep : field.dependsOn triggerType = true) :
    entityType ∈ ctx.entityTypesDependingOn triggerType := by
  cases hentity : ctx.getEntity entityType with
  | none => simp [fieldsForEntity, hentity] at hfield
  | some entity =>
    have hname : entity.name = entityType := by simpa using List.find?_some hentity
    have hmem : entity ∈ ctx.entities := List.mem_of_find?_eq_some hentity
    refine List.mem_map.mpr ⟨entity, List.mem_filter.mpr ⟨hmem, ?_⟩, hname⟩
    rw [hname]
    exact List.any_eq_true.mpr ⟨field, hfield, hdep⟩

theorem mem_fields_of_mem_fieldsForEntity {entityType : String} {field : FieldDef}
    (h : field ∈ ctx.fieldsForEntity entityType) : field ∈ ctx.fields := by
  cases hentity : ctx.getEntity entityType with
  | none => simp [fieldsForEntity, hentity] at h
  | some entity =>
    simp only [fieldsForEntity, hentity, List.mem_filterMap] at h
    obtain ⟨name, -, hname⟩ := h
    exact List.mem_of_find?_eq_some hname

end FieldsContext

structure FieldsError where
  field : String
  message : String
  deriving DecidableEq

abbrev EntityQueryFn := String → List Fields

structure ComputeEngine where
  derivations : String → Option (Fields → Json)
  aggregations : String → Option (Fields → EntityQueryFn → Json)

namespace ComputeEngine

variable (engine : ComputeEngine)

def derive (field : FieldDef) (fields : Fields) (query : Option EntityQueryFn) :
    Except FieldsError Json :=
  match field.type with
  | .computed derive _ =>
    match engine.derivations derive, engine.aggregations derive, query with
    | some f, _, _ => .ok (f fields)
    | none, some f, some query => .ok (f fields query)
    | none, some _, none => .error ⟨field.name, "aggregate derivation '" ++ derive ++
        "' requires an entity query function"⟩
    | none, none, _ => .error ⟨field.name, "unregistered derivation: " ++ derive⟩
  | .stored => .ok .null

/-- The loop of `derive_compute_fields`: the fields with the computed ones set, and the outputs
that were not memoized, where they are collected. -/
def deriveFields (query : EntityQueryFn) (cached : Option Fields) :
    List FieldDef → Fields → Option Fields → Except FieldsError (Fields × Option Fields)
  | [], fields, fresh => .ok (fields, fresh)
  | field :: defs, fields, fresh =>
    match field.type with
    | .stored => deriveFields query cached defs fields fresh
    | .computed .. =>
      match cached.bind fun outputs => outputs[field.name]? with
      | some value => deriveFields query cached defs (fields.insert field.name value) fresh
      | none =>
        match engine.derive field fields (some query) with
        | .error e => .error e
        | .ok value => deriveFields query cached defs (fields.insert field.name value)
            (fresh.map fun outputs => outputs.insert field.name value)

variable {engine}

theorem deriveFields_none {query : EntityQueryFn} {cached fresh : Option Fields}
    {defs : List FieldDef} {fields fields' : Fields}
    (h : engine.deriveFields query cached defs fields none = .ok (fields', fresh)) :
    fresh = none := by
  induction defs generalizing fields with
  | nil =>
    simp only [deriveFields, Except.ok.injEq, Prod.mk.injEq] at h
    exact h.2.symm
  | cons field defs ih =>
    rw [deriveFields] at h
    split at h
    · exact ih h
    · grind

def computedNames (defs : List FieldDef) : List String :=
  defs.filterMap fun field =>
    match field.type with
    | .computed .. => some field.name
    | .stored => none

theorem deriveFields_cold {query : EntityQueryFn} {defs : List FieldDef}
    {fields fields' fresh fresh' : Fields}
    (h : engine.deriveFields query none defs fields (some fresh) = .ok (fields', some fresh')) :
    (∀ k ∈ computedNames defs, fresh'[k]? = fields'[k]? ∧ (fields'[k]?).isSome) ∧
      ∀ k ∉ computedNames defs, fresh'[k]? = fresh[k]? ∧ fields'[k]? = fields[k]? := by
  induction defs generalizing fields fresh with
  | nil =>
    obtain ⟨rfl, rfl⟩ := h
    simp [computedNames]
  | cons field defs ih =>
    cases htype : field.type with
    | stored =>
      have hnames : computedNames (field :: defs) = computedNames defs := by
        simp [computedNames, htype]
      rw [hnames]
      simp only [deriveFields, htype] at h
      exact ih h
    | computed derive dependsOn =>
      have hnames : computedNames (field :: defs) = field.name :: computedNames defs := by
        simp [computedNames, htype]
      rw [hnames]
      simp only [deriveFields, htype, Option.bind_none] at h
      split at h
      · simp at h
      · obtain ⟨hin, hout⟩ := ih h
        refine ⟨fun k hk => ?_, fun k hk => ?_⟩
        · by_cases hrest : k ∈ computedNames defs
          · exact hin k hrest
          · obtain rfl : k = field.name := (List.mem_cons.mp hk).resolve_right hrest
            obtain ⟨hfresh, hfields⟩ := hout field.name hrest
            rw [hfresh, hfields]
            simp
        · obtain ⟨hne, hrest⟩ := not_or.mp (mt List.mem_cons.mpr hk)
          obtain ⟨hfresh, hfields⟩ := hout k hrest
          rw [hfresh, hfields]
          simp [Std.ExtTreeMap.getElem?_insert, Ne.symm hne]

theorem deriveFields_warm {query : EntityQueryFn} {defs : List FieldDef} {outputs : Fields}
    (fields : Fields) (hmemo : ∀ k ∈ computedNames defs, (outputs[k]?).isSome) :
    ∃ fields', engine.deriveFields query (some outputs) defs fields none = .ok (fields', none) ∧
      (∀ k ∈ computedNames defs, fields'[k]? = outputs[k]?) ∧
        ∀ k ∉ computedNames defs, fields'[k]? = fields[k]? := by
  induction defs generalizing fields with
  | nil => exact ⟨fields, rfl, by simp [computedNames], by simp⟩
  | cons field defs ih =>
    cases htype : field.type with
    | stored =>
      have hnames : computedNames (field :: defs) = computedNames defs := by
        simp [computedNames, htype]
      rw [hnames] at hmemo ⊢
      simp only [deriveFields, htype]
      exact ih fields hmemo
    | computed derive dependsOn =>
      have hnames : computedNames (field :: defs) = field.name :: computedNames defs := by
        simp [computedNames, htype]
      rw [hnames] at hmemo ⊢
      obtain ⟨value, hvalue⟩ := Option.isSome_iff_exists.mp (hmemo field.name List.mem_cons_self)
      obtain ⟨fields', hderive, hin, hout⟩ := ih (fields.insert field.name value)
        fun k hk => hmemo k (List.mem_cons_of_mem _ hk)
      refine ⟨fields', ?_, fun k hk => ?_, fun k hk => ?_⟩
      · simp only [deriveFields, htype, Option.bind_some, hvalue]
        exact hderive
      · grind
      · grind

theorem deriveFields_congr {query query' : EntityQueryFn} {cached : Option Fields}
    {defs : List FieldDef} (h : ∀ field ∈ defs, ∀ fields,
      engine.derive field fields (some query) = engine.derive field fields (some query'))
    (fields : Fields) (fresh : Option Fields) :
    engine.deriveFields query cached defs fields fresh =
      engine.deriveFields query' cached defs fields fresh := by
  induction defs generalizing fields fresh with
  | nil => rfl
  | cons field defs ih =>
    have hrest := ih fun other hmem => h other (List.mem_cons_of_mem _ hmem)
    simp only [deriveFields, h field List.mem_cons_self, hrest]

end ComputeEngine

end SwissArmyHammer.Entities
