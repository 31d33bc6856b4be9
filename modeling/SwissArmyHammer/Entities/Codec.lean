import SwissArmyHammer.Common.Frontmatter
import SwissArmyHammer.Entities.Entity
import SwissArmyHammer.Store.Handle

/-! The text of an entity: YAML frontmatter and a body, or plain YAML. The store and the
changelog reader each have a decoder of their own. -/

namespace SwissArmyHammer.Entities

open Store

/-- The calls of `serde_yaml_ng`. A mapping is the list of its entries: `toString` writes
them in that order, `toMap` reads them in the order of the text, and `toHashMap` in the
order in which a `HashMap` yields them. -/
structure SerdeYaml where
  toString : List (String × Json) → Except String String
  toMap : String → Except String (List (String × Json))
  toHashMap : String → Except String (List (String × Json))

/-- The mapping is written as lines, none of which is three hyphens, and reads back. -/
structure SerdeYaml.RoundTrips (Y : SerdeYaml) (m : Fields) (text : String) : Prop where
  emits : Y.toString m.toList = .ok text
  newline : text.toList.getLast? = some '\n'
  no_fence : fence ∉ Text.lines text.toList
  reads : ∃ entries, Y.toMap text = .ok entries ∧ entries.Perm m.toList
  hash_reads : ∃ entries, Y.toHashMap text = .ok entries ∧ entries.Perm m.toList

def SerdeYaml.table (rows : List (List (String × Json) × String)) : SerdeYaml where
  toString m :=
    match rows.find? fun r => r.1 = m with
    | some r => .ok r.2
    | none => .error "not in the table"
  toMap text :=
    match rows.find? fun r => r.2 = text with
    | some r => .ok r.1
    | none => .error "not in the table"
  toHashMap text :=
    match rows.find? fun r => r.2 = text with
    | some r => .ok r.1.reverse
    | none => .error "not in the table"

structure EntityDef where
  bodyField : Option String

structure EntityTypeStore where
  entityTypeName : String
  entityDef : EntityDef
  computedFieldNames : List String

def flattenInto (e : Entity) (key : String) (value : Json) : Entity :=
  match value with
  | .object map => map.foldl (fun e s => e.set (key ++ "_" ++ s.1) s.2) e
  | value => e.set key value

def buildEntityFromYaml (entityType id : String) (yamlMap : List (String × Json)) : Entity :=
  yamlMap.foldl (fun e f => flattenInto e f.1 f.2) (Entity.new entityType id)

section

variable (Y : SerdeYaml)

def parseFrontmatterBody (content entityType id bodyField path : String) :
    Except EntityError Entity :=
  match splitFrontmatterBody content.toList with
  | none => .error (.invalidFrontmatter path)
  | some (frontmatter, body) =>
    match Y.toHashMap (String.ofList frontmatter) with
    | .error e => .error (.yaml path e)
    | .ok yamlMap =>
      .ok ((buildEntityFromYaml entityType id yamlMap).set bodyField (.string (String.ofList body)))

def parsePlainYaml (content entityType id path : String) : Except EntityError Entity :=
  match Y.toHashMap content with
  | .error e => .error (.yaml path e)
  | .ok yamlMap => .ok (buildEntityFromYaml entityType id yamlMap)

def parseEntityText (text entityType id : String) (entityDef : EntityDef) (path : String) :
    Except EntityError Entity :=
  if text = "" then .ok (Entity.new entityType id)
  else
    match entityDef.bodyField with
    | some bodyField => parseFrontmatterBody Y text entityType id bodyField path
    | none => parsePlainYaml Y text entityType id path

end

namespace EntityTypeStore

variable (Y : SerdeYaml) (S : EntityTypeStore)

def isComputed (fieldName : String) : Bool := S.computedFieldNames.contains fieldName

def written (e : Entity) : Fields :=
  e.fields.filter fun k _ => !(S.entityDef.bodyField == some k) && !S.isComputed k

def serialize (e : Entity) : Except StoreError String :=
  match S.entityDef.bodyField with
  | some bodyField =>
    let body := (e.getStr bodyField).getD ""
    match Y.toString (S.written e).toList with
    | .error err => .error (.yaml err)
    | .ok frontmatterYaml => .ok ("---\n" ++ frontmatterYaml ++ "---\n" ++ body)
  | none =>
    match Y.toString (S.written e).toList with
    | .error err => .error (.yaml err)
    | .ok yaml => .ok yaml

def deserialize (id text : String) : Except StoreError Entity :=
  match S.entityDef.bodyField with
  | some bodyField =>
    match splitFrontmatterBody text.toList with
    | none => .error (.deserialize "invalid frontmatter format")
    | some (frontmatter, body) =>
      match Y.toMap (String.ofList frontmatter) with
      | .error e => .error (.deserialize e)
      | .ok yamlMap =>
        .ok ((buildEntityFromYaml S.entityTypeName id yamlMap).set bodyField
          (.string (String.ofList body)))
  | none =>
    match Y.toMap text with
    | .error e => .error (.deserialize e)
    | .ok yamlMap => .ok (buildEntityFromYaml S.entityTypeName id yamlMap)

def tracked : TrackedStore where
  Item := Entity
  ItemId := String
  itemId e := e.id
  display := id
  fromStr := some
  serialize := S.serialize Y
  deserialize := S.deserialize Y
  storeName := S.entityTypeName

end EntityTypeStore

section

variable {entityType id : String} {e : Entity} {entries : List (String × Json)} {m : Fields}

def Flat (m : Fields) : Prop := ∀ (k : String) (fields : List (String × Json)),
  m[k]? ≠ some (.object fields)

theorem flattenInto_of_ne {key : String} {value : Json} (h : ∀ fields, value ≠ .object fields) :
    flattenInto e key value = e.set key value := by
  cases value with
  | object fields => exact absurd rfl (h fields)
  | null | bool | number | string | array => rfl

theorem get_set (e : Entity) (key k : String) (value : Json) :
    (e.set key value).get k = if key = k then some value else e.get k := by
  simp [Entity.get, Entity.set, Std.ExtTreeMap.getElem?_insert]

theorem get_foldl_flattenInto (hflat : ∀ f ∈ entries, ∀ fields, f.2 ≠ .object fields)
    (hkeys : (entries.map Prod.fst).Nodup) (k : String) :
    (entries.foldl (fun e f => flattenInto e f.1 f.2) e).get k =
      (entries.lookup k).or (e.get k) := by
  induction entries generalizing e with
  | nil => rfl
  | cons f entries ih =>
    obtain ⟨key, value⟩ := f
    obtain ⟨hf, hrest⟩ := List.nodup_cons.mp hkeys
    rw [List.foldl_cons, ih (fun f' hf' => hflat f' (by simp [hf'])) hrest,
      flattenInto_of_ne (hflat (key, value) (by simp)), get_set, List.lookup_cons]
    by_cases hk : key = k
    · grind
    · have hk' : (k == key) = false := by simpa using fun h : k = key => hk h.symm
      simp [hk, hk']

theorem buildEntityFromYaml_fields (hflat : Flat m) (hperm : entries.Perm m.toList) :
    (buildEntityFromYaml entityType id entries).fields = m := by
  have hmem : ∀ f ∈ entries, m[f.1]? = some f.2 := by
    intro f hf
    exact Std.ExtTreeMap.mem_toList_iff_getElem?_eq_some.mp (hperm.subset hf)
  have hkeys : (entries.map Prod.fst).Nodup := by
    rw [(hperm.map Prod.fst).nodup_iff]
    exact keys_nodup m
  apply Std.ExtTreeMap.ext_getElem?
  intro k
  have hget := @get_foldl_flattenInto (Entity.new entityType id) entries
    (fun f hf fields heq => hflat f.1 fields (by rw [hmem f hf, heq])) hkeys k
  have hempty : (Entity.new entityType id).get k = none := by simp [Entity.new, Entity.get]
  refine Eq.trans hget ?_
  cases hlookup : entries.lookup k with
  | none =>
    rw [List.lookup_eq_none_iff] at hlookup
    cases hk : m[k]? with
    | none => rfl
    | some v =>
      have hin := hperm.symm.subset (Std.ExtTreeMap.mem_toList_iff_getElem?_eq_some.mpr hk)
      simpa using hlookup _ hin
  | some v =>
    obtain ⟨before, after, rfl, -⟩ := List.lookup_eq_some_iff.mp hlookup
    exact (hmem (k, v) (by simp)).symm

end

section

variable {Y : SerdeYaml} {S : EntityTypeStore} {e : Entity} {yaml : String}

theorem toList_fence_line : "---\n".toList = fence ++ ['\n'] := by decide

theorem splitFrontmatterBody_text (h : Y.RoundTrips (S.written e) yaml) (body : String) :
    splitFrontmatterBody ("---\n" ++ yaml ++ "---\n" ++ body).toList =
      some (yaml.toList, body.toList) := by
  have hsplit := splitFrontmatterBody_fence h.newline h.no_fence body.toList
  simpa [String.toList_append, toList_fence_line] using hsplit

theorem flat_written (h : ∀ k v, e.get k = some v → S.entityDef.bodyField ≠ some k →
    ∀ fields, v ≠ .object fields) : Flat (S.written e) := by
  intro k fields hk
  rw [EntityTypeStore.written, Std.ExtTreeMap.getElem?_filter', Option.filter_eq_some_iff] at hk
  obtain ⟨hget, hkeep⟩ := hk
  have hbody : S.entityDef.bodyField ≠ some k := by
    intro hb
    simp [hb] at hkeep
  exact h k _ hget hbody fields rfl

theorem set_body_fields {bodyField body : String} {e' : Entity}
    (hdef : S.entityDef.bodyField = some bodyField) (hcomputed : S.isComputed bodyField = false)
    (hbody : e.get bodyField = some (.string body)) (he' : e'.fields = S.written e) :
    (e'.set bodyField (.string body)).fields = e.fields.filter fun k _ => !S.isComputed k := by
  apply Std.ExtTreeMap.ext_getElem?
  intro k
  have hset : (e'.set bodyField (.string body)).fields[k]? =
      if bodyField = k then some (.string body) else (S.written e)[k]? := by
    rw [← he']
    exact get_set e' bodyField k _
  rw [hset, Std.ExtTreeMap.getElem?_filter']
  by_cases hk : bodyField = k
  · subst hk
    have hget : e.fields[bodyField]? = some (.string body) := hbody
    simp [hget, hcomputed, Option.filter]
  · rw [if_neg hk, EntityTypeStore.written, Std.ExtTreeMap.getElem?_filter', hdef]
    congr 1
    funext v
    simp [hk]

theorem written_of_no_body (hdef : S.entityDef.bodyField = none) :
    S.written e = e.fields.filter fun k _ => !S.isComputed k := by
  simp [EntityTypeStore.written, hdef]

/-- Both decoders invert the encoder: they give back every field that is not computed. -/
theorem serialize_deserialize (Y : SerdeYaml) (S : EntityTypeStore) (e : Entity)
    (id entityType path yaml : String) (hyaml : Y.RoundTrips (S.written e) yaml)
    (hbody : ∀ bodyField, S.entityDef.bodyField = some bodyField →
      S.isComputed bodyField = false ∧ ∃ body, e.get bodyField = some (.string body))
    (hflat : ∀ k v, e.get k = some v → S.entityDef.bodyField ≠ some k →
      ∀ fields, v ≠ .object fields) :
    ∃ text, S.serialize Y e = .ok text ∧
      (∃ e₁, S.deserialize Y id text = .ok e₁ ∧
        e₁.fields = e.fields.filter fun k _ => !S.isComputed k) ∧
      ∃ e₂, parseEntityText Y text entityType id S.entityDef path = .ok e₂ ∧
        e₂.fields = e.fields.filter fun k _ => !S.isComputed k := by
  obtain ⟨entries, hread, hperm⟩ := hyaml.reads
  obtain ⟨hashed, hhash, hhashPerm⟩ := hyaml.hash_reads
  have hfields := fun ty => @buildEntityFromYaml_fields ty id entries _ (flat_written hflat) hperm
  have hhashFields := fun ty =>
    @buildEntityFromYaml_fields ty id hashed _ (flat_written hflat) hhashPerm
  cases hdef : S.entityDef.bodyField with
  | some bodyField =>
    obtain ⟨hcomputed, body, hget⟩ := hbody bodyField hdef
    have hstr : (e.getStr bodyField).getD "" = body := by simp [Entity.getStr, hget, Json.asStr]
    have hsplit := splitFrontmatterBody_text hyaml body
    have hne : "---\n" ++ yaml ++ "---\n" ++ body ≠ "" := by
      intro h
      have := congrArg String.length h
      simp [String.length_append] at this
    refine ⟨"---\n" ++ yaml ++ "---\n" ++ body,
      by simp only [EntityTypeStore.serialize, hdef, hyaml.emits, hstr], ?_, ?_⟩
    · refine ⟨_, ?_, set_body_fields hdef hcomputed hget (hfields S.entityTypeName)⟩
      simp only [EntityTypeStore.deserialize, hdef, hsplit, String.ofList_toList, hread]
    · refine ⟨_, ?_, set_body_fields hdef hcomputed hget (hhashFields entityType)⟩
      simp only [parseEntityText, if_neg hne, hdef, parseFrontmatterBody, hsplit,
        String.ofList_toList, hhash]
  | none =>
    have hne : yaml ≠ "" := by
      rintro rfl
      have := hyaml.newline
      simp at this
    refine ⟨yaml, by simp only [EntityTypeStore.serialize, hdef, hyaml.emits], ?_, ?_⟩
    · exact ⟨_, by simp only [EntityTypeStore.deserialize, hdef, hread],
        (hfields S.entityTypeName).trans (written_of_no_body hdef)⟩
    · exact ⟨_, by simp only [parseEntityText, if_neg hne, hdef, parsePlainYaml, hhash],
        (hhashFields entityType).trans (written_of_no_body hdef)⟩

theorem serialize_deserialize_task :
    let Y := SerdeYaml.table
      [([("done", .bool true), ("title", .string "a")], "done: true\ntitle: a\n")]
    let S : EntityTypeStore := ⟨"task", ⟨some "body"⟩, ["age"]⟩
    let e := ((((Entity.new "task" "1").set "title" (.string "a")).set "done" (.bool true)).set
      "age" (.number "3")).set "body" (.string "---\r\nx\n---\n")
    ∃ text, S.serialize Y e = .ok text ∧
      (∃ e₁, S.deserialize Y "1" text = .ok e₁ ∧
        e₁.fields = e.fields.filter fun k _ => !S.isComputed k) ∧
      ∃ e₂, parseEntityText Y text "task" "1" S.entityDef "task/1.md" = .ok e₂ ∧
        e₂.fields = e.fields.filter fun k _ => !S.isComputed k := by
  intro Y S e
  apply serialize_deserialize Y S e "1" "task" "task/1.md" "done: true\ntitle: a\n"
  · exact ⟨by decide +kernel, by decide +kernel, by decide +kernel,
      ⟨_, rfl, by decide +kernel⟩, ⟨_, rfl, by decide +kernel⟩⟩
  · intro bodyField h
    obtain rfl : "body" = bodyField := Option.some.inj h
    exact ⟨by decide, "---\r\nx\n---\n", by decide⟩
  · intro k v hv hk fields
    rintro rfl
    have hnew : (Entity.new "task" "1").get k = none := by simp [Entity.new, Entity.get]
    simp only [e, get_set, hnew] at hv
    split_ifs at hv <;> simp at hv

end
end SwissArmyHammer.Entities
