import Mathlib.Data.List.MinMax
import SwissArmyHammer.Entities.Replay
import SwissArmyHammer.Merge.Yaml

/-! The changelog that the entities write, read by the merge driver to settle conflicts. -/

namespace SwissArmyHammer.Merge

open Text Entities

mutual

def ofJson : Json → Yaml
  | .null => .null
  | .bool b => .bool b
  | .number text => .number text
  | .string s => .string s
  | .array elems => .sequence (ofJsonElems elems)
  | .object fields => .mapping (ofJsonFields fields)

def ofJsonElems : List Json → List Yaml
  | [] => []
  | v :: vs => ofJson v :: ofJsonElems vs

def ofJsonFields : List (String × Json) → List (Yaml × Yaml)
  | [] => []
  | (k, v) :: fs => (.string k, ofJson v) :: ofJsonFields fs

end

def recordsOf (field : String) (entries : List ChangelogEntry) : List (String × Json) :=
  entries.flatMap fun e => e.changes.filterMap fun c =>
    if c.field = field then c.newValue.map fun v => (e.timestamp, v) else none

section

variable (J : SerdeJson) {field : String}

def later (best : Option (String × Json)) (r : String × Json) : Option (String × Json) :=
  match best with
  | none => some r
  | some b => if b.1 < r.1 then some r else some b

theorem foldl_later (rs : List (String × Json)) : rs.foldl later none = rs.argmax Prod.fst := by
  have hstep : later = List.argAux fun b c => c.1 < b.1 := by
    funext best r
    cases best <;> rfl
  rw [hstep]
  rfl

def logged (r : String × Json) : String × String := (loggedText J r.2, r.1)

theorem recordChange_get {map : Timestamps} {best : Option (String × Json)} (ts : String)
    (change : FieldChange) (h : map[field]? = best.map (logged J)) :
    (recordChange J ts map change)[field]? =
      (((if change.field = field then change.newValue.map fun v => (ts, v) else none).toList.foldl
        later best).map (logged J)) := by
  obtain ⟨name, newValue⟩ := change
  cases newValue with
  | none => by_cases hf : name = field <;> simp [recordChange, hf, h]
  | some v =>
    by_cases hf : name = field
    · cases best with
      | none => simp_all [recordChange, later, logged]
      | some b =>
        by_cases hlt : b.1 < ts
        · simp_all [recordChange, later, logged]
        · simp_all [recordChange, later, logged]
    · simp only [recordChange, hf, if_false, Option.toList_none, List.foldl_nil]
      cases map[name]? with
      | none => simp [Std.ExtTreeMap.getElem?_insert, hf, h]
      | some existing =>
        by_cases hgt : ts > existing.2 <;>
          simp [hgt, Std.ExtTreeMap.getElem?_insert, hf, h]

theorem recordChanges_get {map : Timestamps} {best : Option (String × Json)} (ts : String)
    (changes : List FieldChange) (h : map[field]? = best.map (logged J)) :
    (changes.foldl (recordChange J ts) map)[field]? =
      ((changes.filterMap fun c =>
        if c.field = field then c.newValue.map fun v => (ts, v) else none).foldl
        later best).map (logged J) := by
  induction changes generalizing map best with
  | nil => exact h
  | cons c changes ih =>
    rw [List.foldl_cons, ih (recordChange_get J ts c h)]
    cases hc : (if c.field = field then c.newValue.map fun v => (ts, v) else none) <;>
      simp [hc]

theorem entries_get {map : Timestamps} {best : Option (String × Json)}
    (entries : List ChangelogEntry) (h : map[field]? = best.map (logged J)) :
    (entries.foldl (fun map e => e.changes.foldl (recordChange J e.timestamp) map) map)[field]? =
      ((recordsOf field entries).foldl later best).map (logged J) := by
  induction entries generalizing map best with
  | nil => exact h
  | cons e entries ih =>
    rw [List.foldl_cons, ih (recordChanges_get J e.timestamp e.changes h)]
    simp [recordsOf, List.foldl_append]

theorem latestValueTimestamps_get (entries : List ChangelogEntry) :
    (latestValueTimestamps J entries)[field]? =
      ((recordsOf field entries).argmax Prod.fst).map (logged J) := by
  have hget := @entries_get J field ∅ none entries (by simp)
  rwa [foldl_later] at hget

end

section

variable (J : SerdeJson) (rfc3339 : Store.DateTime → String) {D : Diffy} {field : String}
  {entry : ChangeEntry} {line : List Char} {old new : Entity}

/-- The value that the merge driver finds in a change: only `Changed` has a `new_value`. -/
def newValueOf : Entities.FieldChange → Option Json
  | .changed _ newValue => some newValue
  | _ => none

theorem parseChange_toJson (c : String × Entities.FieldChange) :
    parseChange (.array [.string c.1, c.2.toJson]) = some ⟨c.1, newValueOf c.2⟩ := by
  obtain ⟨name, change⟩ := c
  cases change <;> rfl

theorem parseChangelogLine_toJson (hne : trim line ≠ [])
    (hparse : J.fromStr (trim line) = some (entry.toJson rfc3339)) :
    parseChangelogLine J line = some
      { timestamp := rfc3339 entry.timestamp
        changes := entry.changes.map fun c => ⟨c.1, newValueOf c.2⟩ } := by
  have hts : jsonGet "timestamp" (entry.toJson rfc3339) =
      some (.string (rfc3339 entry.timestamp)) := by
    simp only [ChangeEntry.toJson, jsonGet, List.append_assoc]
    rw [lookup_optionalField _ (by decide)]
    simp only [List.cons_append, List.nil_append, List.lookup_cons, String.reduceBEq]
    rw [lookup_optionalField _ (by decide)]
    simp
  have hchanges : jsonGet "changes" (entry.toJson rfc3339) =
      some (.array (entry.changes.map fun c => .array [.string c.1, c.2.toJson])) := by
    simp only [ChangeEntry.toJson, jsonGet, List.append_assoc]
    rw [lookup_optionalField _ (by decide)]
    simp
  have hall : (entry.changes.map fun c => Json.array [.string c.1, c.2.toJson]).filterMap
      parseChange = entry.changes.map fun c => ⟨c.1, newValueOf c.2⟩ := by
    rw [List.filterMap_map, ← List.filterMap_eq_map]
    congr 1
    funext c
    exact parseChange_toJson c
  simp [parseChangelogLine, hne, hparse, hts, hchanges, Json.asStr, jsonAsArray, hall]

theorem filterMap_newValue {changes : Changes} {ts : String} {c : Entities.FieldChange}
    (hkeys : (changes.map Prod.fst).Nodup) (hc : (field, c) ∈ changes) :
    ((changes.map fun c => (⟨c.1, newValueOf c.2⟩ : FieldChange)).filterMap fun c =>
      if c.field = field then c.newValue.map fun v => (ts, v) else none) =
      ((newValueOf c).map fun v => (ts, v)).toList := by
  induction changes with
  | nil => simp at hc
  | cons x changes ih =>
    obtain ⟨hx, hrest⟩ := List.nodup_cons.mp hkeys
    rcases List.mem_cons.mp hc with rfl | hc
    · have hother : (changes.map fun c => (⟨c.1, newValueOf c.2⟩ : FieldChange)).filterMap (fun c =>
          if c.field = field then c.newValue.map fun v => (ts, v) else none) = [] := by
        rw [List.filterMap_eq_nil_iff]
        intro a ha
        obtain ⟨y, hy, rfl⟩ := List.mem_map.mp ha
        have hne : y.1 ≠ field := by
          rintro rfl
          exact hx (List.mem_map.mpr ⟨y, hy, rfl⟩)
        simp [hne]
      cases hv : newValueOf c <;> simp [hv, hother]
    · grind

end

section

/-- The last entry of the changelog that touches the field is a written one, with the
changes from `old` to `new`. -/
structure LastTouch (J : SerdeJson) (rfc3339 : Store.DateTime → String) (D : Diffy)
    (field : String) (content : List Char) (earlier : List (List Char)) (entry : ChangeEntry)
    (old new : Entity) (value : Json) : Prop where
  written : ∃ line after, lines content = earlier ++ line :: after ∧ trim line ≠ [] ∧
    J.fromStr (trim line) = some (entry.toJson rfc3339) ∧
    ∀ l ∈ after, ∀ e, parseChangelogLine J l = some e → ∀ c ∈ e.changes, c.field ≠ field
  changes : entry.changes = diffEntities D old new
  differs : old.get field ≠ new.get field
  has : new.get field = some value

def Conflict (field : String) (base ours theirs : Mapping) (side other : Yaml) : Prop :=
  ((ours[field]? = some side ∧ theirs[field]? = some other) ∨
    (ours[field]? = some other ∧ theirs[field]? = some side)) ∧
  base[field]? ≠ some side ∧ base[field]? ≠ some other ∧ side ≠ other

/-- The record that the last entry itself leaves: it has one when the field was there
before and not both of its values are strings. -/
def ownRecord (rfc3339 : Store.DateTime → String) (entry : ChangeEntry) (before : Option Json)
    (value : Json) : List (String × Json) :=
  match before with
  | none => []
  | some v =>
    if v.asStr.isSome ∧ value.asStr.isSome then [] else [(rfc3339 entry.timestamp, value)]

variable {J : SerdeJson} {rfc3339 : Store.DateTime → String} {D : Diffy} {field : String}
  {content : List Char} {earlier : List (List Char)} {entry : ChangeEntry} {old new : Entity}
  {value : Json} {base ours theirs : Mapping} {side other : Yaml} {ts : Timestamps}

theorem recordsOf_append (es es' : List ChangelogEntry) :
    recordsOf field (es ++ es') = recordsOf field es ++ recordsOf field es' := by
  simp [recordsOf]

theorem ownRecord_of_changeBetween {before : Option Json} {c : Entities.FieldChange}
    (hne : before ≠ some value) (hc : changeBetween D before (some value) = some c) :
    ((newValueOf c).map fun v => (rfc3339 entry.timestamp, v)).toList =
      ownRecord rfc3339 entry before value := by
  cases before with
  | none =>
    obtain rfl : Entities.FieldChange.set value = c := by
      simpa [changeBetween, changeOf] using hc
    rfl
  | some v =>
    have hvne : v ≠ value := fun heq => hne (congrArg some heq)
    simp only [changeBetween, changeOf, hvne, if_false] at hc
    cases hv : v.asStr <;> cases hvalue : value.asStr <;> simp only [hv, hvalue] at hc <;>
      obtain rfl := Option.some.inj hc <;> simp [ownRecord, newValueOf, hv, hvalue]

theorem recordsOf_content (h : LastTouch J rfc3339 D field content earlier entry old new value) :
    recordsOf field (parseChangelog J content) =
      recordsOf field (earlier.filterMap (parseChangelogLine J)) ++
        ownRecord rfc3339 entry (old.get field) value := by
  obtain ⟨line, after, hlines, hne, hparse, hafter⟩ := h.written
  have hdiffers : old.get field ≠ some value := fun heq => h.differs (heq.trans h.has.symm)
  obtain ⟨c, hc⟩ : ∃ c, changeBetween D (old.get field) (some value) = some c := by
    cases hbetween : changeBetween D (old.get field) (some value) with
    | some c => exact ⟨c, rfl⟩
    | none =>
      rw [changeBetween_eq_none] at hbetween
      exact absurd hbetween hdiffers
  have hmem : (field, c) ∈ entry.changes := by
    rw [h.changes, mem_diffEntities, h.has]
    exact hc
  have hkeys : (entry.changes.map Prod.fst).Nodup := by
    rw [h.changes]
    exact diffEntities_nodup D old new
  have hlast : recordsOf field (after.filterMap (parseChangelogLine J)) = [] := by
    rw [recordsOf, List.flatMap_eq_nil_iff]
    intro e he
    obtain ⟨l, hl, hle⟩ := List.mem_filterMap.mp he
    rw [List.filterMap_eq_nil_iff]
    intro c hc
    rw [if_neg (hafter l hl e hle c hc)]
  have hline := parseChangelogLine_toJson J rfc3339 hne hparse
  rw [parseChangelog, hlines, List.filterMap_append, List.filterMap_cons, hline, recordsOf_append]
  simp only
  rw [← List.singleton_append, recordsOf_append, hlast, List.append_nil]
  simp only [recordsOf, List.flatMap_singleton]
  rw [filterMap_newValue hkeys hmem, ownRecord_of_changeBetween hdiffers hc]

theorem mergeMappings_conflict (Y : SerdeYaml) {precedence : Precedence} {o t : Yaml}
    (ho : ours[field]? = some o) (ht : theirs[field]? = some t) (hbo : base[field]? ≠ some o)
    (hbt : base[field]? ≠ some t) (hne : o ≠ t) :
    (mergeMappings Y ts precedence base ours theirs)[field]? =
      some (resolveConflict Y field o t ts precedence) := by
  rw [mergeMappings_get, ho, ht,
    ThreeWay.merge_conflict (Ne.symm hbo) (Ne.symm hbt) (by simp [hne])]
  rfl

theorem forall_resolveConflict_iff (Y : SerdeYaml) {o t : Yaml} (hne : o ≠ t) :
    (∀ precedence, resolveConflict Y field o t ts precedence = o) ↔
      ∃ logged, ts[field]? = some logged ∧ logged.1 = yamlValToString Y o ∧
        logged.1 ≠ yamlValToString Y t := by
  constructor
  · intro h
    have htheirs := h .theirs
    cases hlogged : ts[field]? with
    | none => exact absurd htheirs (by simpa [resolveConflict, hlogged] using Ne.symm hne)
    | some logged =>
      refine ⟨logged, rfl, ?_⟩
      cases ho : yamlValToString Y o == logged.1 <;> cases ht : yamlValToString Y t == logged.1
      all_goals simp only [resolveConflict, hlogged, ho, ht] at htheirs
      case true.false =>
        grind
      all_goals exact absurd htheirs (Ne.symm hne)
  · rintro ⟨logged, hlogged, ho, ht⟩ precedence
    have hours : (yamlValToString Y o == logged.1) = true := beq_iff_eq.mpr ho.symm
    have htheirs : (yamlValToString Y t == logged.1) = false :=
      beq_eq_false_iff_ne.mpr (Ne.symm ht)
    simp only [resolveConflict, hlogged, hours, htheirs]

theorem forall_precedence_iff (Y : SerdeYaml) (h : Conflict field base ours theirs side other) :
    (∀ precedence, (mergeMappings Y ts precedence base ours theirs)[field]? = some side) ↔
      ∃ logged, ts[field]? = some logged ∧ logged.1 = yamlValToString Y side ∧
        logged.1 ≠ yamlValToString Y other := by
  obtain ⟨hsides, hbs, hbo, hne⟩ := h
  rw [← forall_resolveConflict_iff Y hne]
  rcases hsides with ⟨ho, ht⟩ | ⟨ho, ht⟩
  · simp only [mergeMappings_conflict Y ho ht hbs hbo hne, Option.some.injEq]
  · simp only [mergeMappings_conflict Y ho ht hbo hbs (Ne.symm hne), Option.some.injEq]
    constructor
    · intro hall precedence
      rw [← resolveConflict_swap]
      exact hall precedence.flip
    · intro hall precedence
      rw [← resolveConflict_swap]
      exact hall precedence.flip

/-- The side that has the newest value is chosen under either precedence exactly when the
first of the readable records with the largest timestamp has that side's text and not the
other's. -/
theorem newestWins_iff (Y : SerdeYaml)
    (h : LastTouch J rfc3339 D field content earlier entry old new value)
    (hconflict : Conflict field base ours theirs (ofJson value) other) :
    (∀ precedence, (mergeMappings Y (valueTimestamps J ⟨some content, precedence⟩) precedence
        base ours theirs)[field]? = some (ofJson value)) ↔
      ∃ r, (recordsOf field (earlier.filterMap (parseChangelogLine J)) ++
          ownRecord rfc3339 entry (old.get field) value).argmax Prod.fst = some r ∧
        loggedText J r.2 = yamlValToString Y (ofJson value) ∧
        loggedText J r.2 ≠ yamlValToString Y other := by
  have hts := @latestValueTimestamps_get J field (parseChangelog J content)
  rw [recordsOf_content h] at hts
  have hiff := @forall_precedence_iff field base ours theirs (ofJson value) other
    (latestValueTimestamps J (parseChangelog J content)) Y hconflict
  refine hiff.trans ?_
  rw [hts]
  simp only [Option.map_eq_some_iff, logged]
  constructor
  · rintro ⟨_, ⟨r, hr, rfl⟩, hside, hother⟩
    exact ⟨r, hr, hside, hother⟩
  · rintro ⟨r, hr, hside, hother⟩
    exact ⟨_, ⟨r, hr, rfl⟩, hside, hother⟩

theorem LastTouch.single {l : List Char} (hlines : lines content = [l]) (hne : trim l ≠ [])
    (hparse : J.fromStr (trim l) = some (entry.toJson rfc3339))
    (hchanges : entry.changes = diffEntities D old new) (hdiffers : old.get field ≠ new.get field)
    (hhas : new.get field = some value) :
    LastTouch J rfc3339 D field content [] entry old new value :=
  ⟨⟨l, [], hlines, hne, hparse, by simp⟩, hchanges, hdiffers, hhas⟩

theorem newestWins_iff_estimate :
    let D := Diffy.verbatim
    let rfc3339 : Store.DateTime → String := fun _ => "2026-01-01T00:00:00Z"
    let old := (Entity.new "task" "1").set "estimate" (.number "1")
    let new := (Entity.new "task" "1").set "estimate" (.number "2")
    let entry : ChangeEntry := ⟨"01", 0, "task", "1", "update", none, diffEntities D old new, none,
      none, none⟩
    let text :=
      "\x7b\"id\":\"01\",\"timestamp\":\"2026-01-01T00:00:00Z\",\"entity_type\":".toList ++
      "\"task\",\"entity_id\":\"1\",\"op\":\"update\",\"changes\":[[\"estimate\",".toList ++
      "\x7b\"kind\":\"changed\",\"old_value\":1,\"new_value\":2\x7d]]\x7d".toList
    let J : SerdeJson := ⟨fun l => if l = text then some (entry.toJson rfc3339) else none,
      fun v => if v = .number "2" then "2" else ""⟩
    let Y := SerdeYaml.table []
    let base : Mapping := (∅ : Mapping).insert "estimate" (.number "1")
    let ours : Mapping := (∅ : Mapping).insert "estimate" (.number "2")
    let theirs : Mapping := (∅ : Mapping).insert "estimate" (.number "3")
    (∀ precedence, (mergeMappings Y (valueTimestamps J ⟨some text, precedence⟩) precedence
        base ours theirs)["estimate"]? = some (ofJson (.number "2"))) ↔
      ∃ r, (recordsOf "estimate" (List.filterMap (parseChangelogLine J) []) ++
          ownRecord rfc3339 entry (old.get "estimate") (.number "2")).argmax Prod.fst = some r ∧
        loggedText J r.2 = yamlValToString Y (ofJson (.number "2")) ∧
        loggedText J r.2 ≠ yamlValToString Y (.number "3") := by
  intro D rfc3339 old new entry text J Y base ours theirs
  have hold : old.get "estimate" = some (.number "1") := by simp [old, Entity.get, Entity.set]
  have hnew : new.get "estimate" = some (.number "2") := by simp [new, Entity.get, Entity.set]
  have htext : text = _ := congrArg₂ (· ++ ·) (congrArg₂ (· ++ ·) (toList_eq rfl) (toList_eq rfl))
    (toList_eq rfl)
  have htrim : trim text = text := by
    rw [htext]
    decide +kernel
  have htouch : LastTouch J rfc3339 D "estimate" text [] entry old new (.number "2") :=
    LastTouch.single (l := text) (by rw [htext]; decide +kernel) (by rw [htext]; decide +kernel)
      (by simp [J, htrim]) rfl (by simp [hold, hnew]) hnew
  refine newestWins_iff Y htouch ?_
  exact ⟨.inl ⟨by simp [ours, ofJson], by simp [theirs]⟩, by simp [base, ofJson],
    by simp [base], by simp [ofJson]⟩

theorem not_newestWins_set :
    let D := Diffy.verbatim
    let rfc3339 : Store.DateTime → String := fun _ => "2026-01-01T00:00:00Z"
    let old := Entity.new "tag" "bug"
    let new := (Entity.new "tag" "bug").set "color" (.string "red")
    let entry : ChangeEntry := ⟨"01", 0, "tag", "bug", "create", none, diffEntities D old new, none,
      none, none⟩
    let text :=
      "\x7b\"id\":\"01\",\"timestamp\":\"2026-01-01T00:00:00Z\",\"entity_type\":".toList ++
      "\"tag\",\"entity_id\":\"bug\",\"op\":\"create\",\"changes\":[[\"color\",".toList ++
      "\x7b\"kind\":\"set\",\"value\":\"red\"\x7d]]\x7d".toList
    let J : SerdeJson := ⟨fun l => if l = text then some (entry.toJson rfc3339) else none,
      fun _ => ""⟩
    let Y := SerdeYaml.table []
    let ours : Mapping := (∅ : Mapping).insert "color" (.string "red")
    let theirs : Mapping := (∅ : Mapping).insert "color" (.string "blue")
    LastTouch J rfc3339 D "color" text [] entry old new (.string "red") ∧
      Conflict "color" ∅ ours theirs (ofJson (.string "red")) (.string "blue") ∧
      ¬ ∀ precedence, (mergeMappings Y (valueTimestamps J ⟨some text, precedence⟩) precedence
        ∅ ours theirs)["color"]? = some (ofJson (.string "red")) := by
  intro D rfc3339 old new entry text J Y ours theirs
  have hold : old.get "color" = none := by simp [old, Entity.get, Entity.new]
  have hnew : new.get "color" = some (.string "red") := by simp [new, Entity.get, Entity.set]
  have htext : text = _ := congrArg₂ (· ++ ·) (congrArg₂ (· ++ ·) (toList_eq rfl) (toList_eq rfl))
    (toList_eq rfl)
  have htrim : trim text = text := by
    rw [htext]
    decide
  have htouch : LastTouch J rfc3339 D "color" text [] entry old new (.string "red") :=
    LastTouch.single (l := text) (by rw [htext]; decide +kernel) (by rw [htext]; decide +kernel)
      (by simp [J, htrim]) rfl (by simp [hold, hnew]) hnew
  have hconflict : Conflict "color" ∅ ours theirs (ofJson (.string "red")) (.string "blue") :=
    ⟨.inl ⟨by simp [ours, ofJson], by simp [theirs]⟩, by simp, by simp, by simp [ofJson]⟩
  refine ⟨htouch, hconflict, fun hall => ?_⟩
  have hrecords := recordsOf_content htouch
  rw [hold] at hrecords
  have hts : ∀ precedence, (mergeMappings Y (latestValueTimestamps J
      (parseChangelog J text)) precedence ∅ ours theirs)["color"]? =
        some (ofJson (.string "red")) := fun precedence => hall precedence
  obtain ⟨logged, hlogged, -⟩ := (forall_precedence_iff Y hconflict).mp hts
  rw [latestValueTimestamps_get, hrecords] at hlogged
  simp [recordsOf, ownRecord] at hlogged

end
end SwissArmyHammer.Merge
