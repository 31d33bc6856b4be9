import Mathlib.Data.Finmap
import SwissArmyHammer.Merge.Value
import SwissArmyHammer.Text.Lines

/-! `merge_yaml`: a three-way merge of the fields of a flat mapping, where a conflict is
decided by the changelog or else by a fixed precedence. -/

namespace SwissArmyHammer.Merge

open Text

inductive Precedence
  | theirs
  | ours
  deriving DecidableEq, Repr

/-- `jsonl` is the content of the file at `jsonl_path`; a file that cannot be read counts
as empty. -/
structure MergeOpts where
  jsonl : Option (List Char)
  fallbackPrecedence : Precedence

structure SerdeJson where
  fromStr : List Char → Option Json
  toString : Json → String

/-- `serde_yaml_ng` with the `Debug` text of a value. -/
structure SerdeYaml where
  fromStr : List Char → Except String Yaml
  toString : Yaml → Except String (List Char)
  debug : Yaml → String

def SerdeYaml.table (rows : List (Yaml × List Char)) : SerdeYaml where
  fromStr text :=
    match rows.find? fun r => trim r.2 = trim text with
    | some r => .ok r.1
    | none => .error "not in the table"
  toString v :=
    match rows.find? fun r => r.1 = v with
    | some r => .ok r.2
    | none => .error "not in the table"
  debug _ := "Debug"

def jsonGet (key : String) : Json → Option Json
  | .object fields => fields.lookup key
  | _ => none

def jsonAsArray : Json → Option (List Json)
  | .array elems => some elems
  | _ => none

structure FieldChange where
  field : String
  newValue : Option Json

structure ChangelogEntry where
  timestamp : String
  changes : List FieldChange

section

variable (J : SerdeJson)

def parseChange (item : Json) : Option FieldChange := do
  let arr ← jsonAsArray item
  let field ← arr.head?.bind Json.asStr
  let newValue := arr[1]?.bind (jsonGet "new_value")
  return { field, newValue }

def parseChangelogLine (line : List Char) : Option ChangelogEntry := do
  let line := trim line
  if line = [] then none
  let value ← J.fromStr line
  let timestamp ← (jsonGet "timestamp" value).bind Json.asStr
  let changes := (((jsonGet "changes" value).bind jsonAsArray).map
    (List.filterMap parseChange)).getD []
  return { timestamp, changes }

def parseChangelog (content : List Char) : List ChangelogEntry :=
  (lines content).filterMap (parseChangelogLine J)

def loggedText : Json → String
  | .string s => s
  | other => J.toString other

abbrev Timestamps := Std.ExtTreeMap String (String × String)

def recordChange (timestamp : String) (map : Timestamps) (change : FieldChange) : Timestamps :=
  match change.newValue with
  | none => map
  | some newVal =>
    let valStr := loggedText J newVal
    match map[change.field]? with
    | none => map.insert change.field (valStr, timestamp)
    | some existing =>
      if timestamp > existing.2 then map.insert change.field (valStr, timestamp) else map

def latestValueTimestamps (entries : List ChangelogEntry) : Timestamps :=
  entries.foldl (fun map entry => entry.changes.foldl (recordChange J entry.timestamp) map) ∅

end

abbrev Mapping := Std.ExtTreeMap String Yaml

section

variable (Y : SerdeYaml) (J : SerdeJson)

def yamlValToString : Yaml → String
  | .string s => s
  | .number text => text
  | .bool b => if b then "true" else "false"
  | .null => "null"
  | other => Y.debug other

def resolveConflict (key : String) (ours theirs : Yaml) (valueTimestamps : Timestamps)
    (fallbackPrecedence : Precedence) : Yaml :=
  let fallback := match fallbackPrecedence with
    | .ours => ours
    | .theirs => theirs
  match valueTimestamps[key]? with
  | some (loggedVal, _) =>
    match yamlValToString Y ours == loggedVal, yamlValToString Y theirs == loggedVal with
    | true, false => ours
    | false, true => theirs
    | _, _ => fallback
  | none => fallback

def readEntries (m : List (Yaml × Yaml)) : Mapping :=
  m.foldl (fun map kv =>
    match kv.1 with
    | .string key => map.insert key kv.2
    | k => map.insert (Y.debug k) kv.2) ∅

def parseMapping (yaml : List Char) : Except String Mapping :=
  let trimmed := trim yaml
  if trimmed = [] then .ok ∅
  else
    match Y.fromStr trimmed with
    | .error e => .error ("YAML parse error: " ++ e)
    | .ok (.mapping m) => .ok (readEntries Y m)
    | .ok .null => .ok ∅
    | .ok other => .error ("expected YAML mapping, got: " ++ Y.debug other)

/-- The arms of the match on the three values of a field, in order. An arm that does not
match, or whose guard fails, is `none`. -/
def arms (resolve : Yaml → Yaml → Yaml) (base ours theirs : Option Yaml) :
    List (Option (Option Yaml)) :=
  [ match base, ours, theirs with | _, none, none => some none | _, _, _ => none,
    match base, ours, theirs with | none, some v, none => some (some v) | _, _, _ => none,
    match base, ours, theirs with | none, none, some v => some (some v) | _, _, _ => none,
    match base, ours, theirs with
      | some b, none, some t => if t = b then some none else none
      | _, _, _ => none,
    match base, ours, theirs with
      | some b, some o, none => if o = b then some none else none
      | _, _, _ => none,
    match base, ours, theirs with
      | some b, some o, some t => if o ≠ b ∧ t = b then some (some o) else none
      | _, _, _ => none,
    match base, ours, theirs with
      | some b, some o, some t => if o = b ∧ t ≠ b then some (some t) else none
      | _, _, _ => none,
    match base, ours, theirs with
      | some b, some o, some t => if o = b ∧ t = b then some (some b) else none
      | _, _, _ => none,
    match ours, theirs with
      | some o, some t => if o = t then some (some o) else none
      | _, _ => none,
    match ours, theirs with | some o, some t => some (some (resolve o t)) | _, _ => none,
    match ours, theirs with | none, some t => some (some t) | _, _ => none,
    match ours, theirs with | some o, none => some (some o) | _, _ => none ]

def chosen (resolve : Yaml → Yaml → Yaml) (base ours theirs : Option Yaml) : Option Yaml :=
  ((arms resolve base ours theirs).findSome? id).join

def allKeys (base ours theirs : Mapping) : List String :=
  ((base.keys ++ ours.keys ++ theirs.keys).foldl (fun (all : Std.ExtTreeMap String Unit) k =>
    all.insert k ()) ∅).keys

def Mapping.put (result : Mapping) (key : String) : Option Yaml → Mapping
  | some v => result.insert key v
  | none => result

def mergeMappings (valueTimestamps : Timestamps) (fallbackPrecedence : Precedence)
    (base ours theirs : Mapping) : Mapping :=
  (allKeys base ours theirs).foldl (fun result key =>
    let resolve o t := resolveConflict Y key o t valueTimestamps fallbackPrecedence
    Mapping.put result key (chosen resolve base[key]? ours[key]? theirs[key]?)) ∅

def valueTimestamps (opts : MergeOpts) : Timestamps :=
  match opts.jsonl with
  | some content => latestValueTimestamps J (parseChangelog J content)
  | none => ∅

def Mapping.entries (m : Mapping) : List (Yaml × Yaml) :=
  m.toList.map fun f => (.string f.1, f.2)

def mergeYaml (base ours theirs : List Char) (opts : MergeOpts) :
    Except MergeError (List Char) :=
  match parseMapping Y base with
  | .error e => .error (.parseFailure e)
  | .ok baseMap =>
  match parseMapping Y ours with
  | .error e => .error (.parseFailure e)
  | .ok oursMap =>
  match parseMapping Y theirs with
  | .error e => .error (.parseFailure e)
  | .ok theirsMap =>
    let result := mergeMappings Y (valueTimestamps J opts) opts.fallbackPrecedence
      baseMap oursMap theirsMap
    if result.isEmpty then .ok []
    else
      match Y.toString (.mapping result.entries) with
      | .error e => .error (.parseFailure ("YAML serialize error: " ++ e))
      | .ok text => .ok text

end
end SwissArmyHammer.Merge

/-! `merge_yaml` is a three-way merge of every field, whose state is a value or absence. -/

namespace SwissArmyHammer.Merge

section

variable {resolve : Yaml → Yaml → Yaml} {base ours theirs : Option Yaml}

def resolveState (resolve : Yaml → Yaml → Yaml) : Option Yaml → Option Yaml → Option Yaml
  | some o, some t => some (resolve o t)
  | none, some t => some t
  | some o, none => some o
  | none, none => none

theorem chosen_eq_merge (resolve : Yaml → Yaml → Yaml) (base ours theirs : Option Yaml) :
    chosen resolve base ours theirs = ThreeWay.merge (resolveState resolve) base ours theirs := by
  rcases base with _ | b <;> rcases ours with _ | o <;> rcases theirs with _ | t
  all_goals simp only [chosen, arms, ThreeWay.merge, resolveState]
  · simp
  · simp
  · simp
  · by_cases h : o = t <;> simp [h]
  · simp
  · by_cases h : t = b <;> simp [h]
  · by_cases h : o = b <;> simp [h]
  · by_cases ho : o = b
    · by_cases ht : t = b <;> simp [ho, ht]
    · by_cases ht : t = b
      · simp [ho, ht]
      · by_cases h : o = t <;> simp [ho, ht, h]

theorem resolveState_eq_or (h : ∀ o t, resolve o t = o ∨ resolve o t = t) (o t : Option Yaml) :
    resolveState resolve o t = o ∨ resolveState resolve o t = t := by
  cases o with
  | none => cases t <;> simp [resolveState]
  | some o => cases t <;> simp [resolveState, h]

end

section

variable (Y : SerdeYaml) {key : String} {ours theirs : Yaml} {ts : Timestamps}
  {precedence : Precedence}

theorem resolveConflict_eq_or :
    resolveConflict Y key ours theirs ts precedence = ours ∨
      resolveConflict Y key ours theirs ts precedence = theirs := by
  unfold resolveConflict
  cases precedence <;> cases ts[key]? <;> simp only [or_true, true_or]
  all_goals split <;> simp

def Precedence.flip : Precedence → Precedence
  | .ours => .theirs
  | .theirs => .ours

theorem resolveConflict_swap :
    resolveConflict Y key theirs ours ts precedence.flip =
      resolveConflict Y key ours theirs ts precedence := by
  unfold resolveConflict
  cases hlogged : ts[key]? with
  | none => cases precedence <;> rfl
  | some logged =>
    obtain ⟨loggedVal, loggedTs⟩ := logged
    simp only
    cases yamlValToString Y ours == loggedVal <;> cases yamlValToString Y theirs == loggedVal <;>
      cases precedence <;> rfl

end

section

variable (Y : SerdeYaml) (ts : Timestamps) (precedence : Precedence) {base ours theirs : Mapping}

theorem mem_foldl_insert_unit {keys : List String} {all : Std.ExtTreeMap String Unit} {k : String} :
    k ∈ keys.foldl (fun (all : Std.ExtTreeMap String Unit) k => all.insert k ()) all ↔
      k ∈ keys ∨ k ∈ all := by
  induction keys generalizing all with
  | nil => simp
  | cons key keys ih =>
    grind

theorem mem_allKeys {k : String} :
    k ∈ allKeys base ours theirs ↔ k ∈ base ∨ k ∈ ours ∨ k ∈ theirs := by
  simp [allKeys, mem_foldl_insert_unit]
  tauto

theorem getElem?_foldl_put {keys : List String} (f : String → Option Yaml) {m : Mapping}
    {k : String} : (keys.foldl (fun result key => Mapping.put result key (f key)) m)[k]? =
      if k ∈ keys then (f k).or m[k]? else m[k]? := by
  induction keys generalizing m with
  | nil => simp
  | cons key keys ih =>
    rw [List.foldl_cons, ih]
    by_cases hk : k = key
    · subst hk
      cases hf : f k <;> by_cases hmem : k ∈ keys <;> simp [Mapping.put, hmem]
    · have hk' : ¬ key = k := fun h => hk h.symm
      cases hf : f key <;> simp [Mapping.put, hk, hk', Std.ExtTreeMap.getElem?_insert]

theorem mergeMappings_get (k : String) :
    (mergeMappings Y ts precedence base ours theirs)[k]? =
      ThreeWay.merge (resolveState fun o t => resolveConflict Y k o t ts precedence)
        base[k]? ours[k]? theirs[k]? := by
  rw [mergeMappings, getElem?_foldl_put fun key =>
    chosen (fun o t => resolveConflict Y key o t ts precedence) base[key]? ours[key]? theirs[key]?,
    ← chosen_eq_merge]
  by_cases hmem : k ∈ allKeys base ours theirs
  · simp [hmem]
  · have hnone : base[k]? = none ∧ ours[k]? = none ∧ theirs[k]? = none := by
      rw [mem_allKeys] at hmem
      simpa [not_or] using hmem
    rw [hnone.1, hnone.2.1, hnone.2.2]
    simp [chosen, arms]

theorem mergeMappings_swap :
    mergeMappings Y ts precedence.flip base theirs ours =
      mergeMappings Y ts precedence base ours theirs := by
  apply Std.ExtTreeMap.ext_getElem?
  intro k
  rw [mergeMappings_get, mergeMappings_get]
  apply ThreeWay.merge_swap
  intro hne
  cases ho : ours[k]? with
  | none => cases ht : theirs[k]? <;> rfl
  | some o =>
    cases ht : theirs[k]? with
    | none => rfl
    | some t => simp only [resolveState, resolveConflict_swap]

end

section

variable (Y : SerdeYaml) (J : SerdeJson)

/-- The mapping that an emitted text stands for. An empty mapping is an empty text. -/
def SerdeYaml.Denotes (text : List Char) (m : Mapping) : Prop :=
  (text = [] ∧ m = ∅) ∨
    ∃ entries, Y.fromStr text = .ok (.mapping entries) ∧ entries.Perm m.entries

def SerdeYaml.RoundTrips (m : Mapping) : Prop :=
  ∃ text entries, Y.toString (.mapping m.entries) = .ok text ∧
    Y.fromStr text = .ok (.mapping entries) ∧ entries.Perm m.entries

def MergeOpts.flip (opts : MergeOpts) : MergeOpts :=
  { opts with fallbackPrecedence := opts.fallbackPrecedence.flip }

structure IsFieldMerge (base ours theirs result : Mapping) : Prop where
  ours_unmoved : ∀ k : String, ours[k]? = base[k]? → result[k]? = theirs[k]?
  theirs_unmoved : ∀ k : String, theirs[k]? = base[k]? → result[k]? = ours[k]?
  agree : ∀ k : String, ours[k]? = theirs[k]? → result[k]? = ours[k]?
  ours_removed : ∀ (k : String) (v : Yaml), ours[k]? = none → theirs[k]? = some v →
    base[k]? ≠ some v → result[k]? = some v
  theirs_removed : ∀ (k : String) (v : Yaml), theirs[k]? = none → ours[k]? = some v →
    base[k]? ≠ some v → result[k]? = some v
  from_inputs : ∀ (k : String) (v : Yaml), result[k]? = some v →
    base[k]? = some v ∨ ours[k]? = some v ∨ theirs[k]? = some v

variable {Y J} {base ours theirs : Mapping} {ts : Timestamps} {precedence : Precedence}

theorem mergeMappings_isFieldMerge :
    IsFieldMerge base ours theirs (mergeMappings Y ts precedence base ours theirs) where
  ours_unmoved k h := by rw [mergeMappings_get, ThreeWay.merge_ours_unmoved h]
  theirs_unmoved k h := by rw [mergeMappings_get, ThreeWay.merge_theirs_unmoved h]
  agree k h := by rw [mergeMappings_get, ThreeWay.merge_agree h]
  ours_removed k v ho ht hb := by
    rw [mergeMappings_get, ho, ht]
    by_cases hnone : none = base[k]?
    · rw [ThreeWay.merge_ours_unmoved hnone]
    · rw [ThreeWay.merge_conflict hnone (Ne.symm hb) (by simp)]
      rfl
  theirs_removed k v ht ho hb := by
    rw [mergeMappings_get, ho, ht]
    by_cases hnone : none = base[k]?
    · rw [ThreeWay.merge_theirs_unmoved hnone]
    · rw [ThreeWay.merge_conflict (Ne.symm hb) hnone (by simp)]
      rfl
  from_inputs k v h := by
    rw [mergeMappings_get] at h
    have hside := @ThreeWay.merge_eq_or _ _
      (resolveState fun o t => resolveConflict Y k o t ts precedence) base[k]? ours[k]? theirs[k]?
      (resolveState_eq_or fun o t => resolveConflict_eq_or Y)
    rcases hside with hside | hside
    · exact .inr (.inl (hside.symm.trans h))
    · exact .inr (.inr (hside.symm.trans h))

theorem mergeYaml_denotes {baseText oursText theirsText : List Char} {opts : MergeOpts}
    (hb : parseMapping Y baseText = .ok base) (ho : parseMapping Y oursText = .ok ours)
    (ht : parseMapping Y theirsText = .ok theirs)
    (hY : Y.RoundTrips (mergeMappings Y (valueTimestamps J opts) opts.fallbackPrecedence
      base ours theirs)) :
    ∃ out, mergeYaml Y J baseText oursText theirsText opts = .ok out ∧
      Y.Denotes out (mergeMappings Y (valueTimestamps J opts) opts.fallbackPrecedence
        base ours theirs) := by
  obtain ⟨text, entries, hemit, hread, hperm⟩ := hY
  simp only [mergeYaml, hb, ho, ht, hemit]
  split
  · rename_i hempty
    exact ⟨[], rfl, .inl ⟨rfl, Std.ExtTreeMap.isEmpty_iff.mp hempty⟩⟩
  · exact ⟨text, rfl, .inr ⟨entries, hread, hperm⟩⟩

/-- `merge_yaml` is a three-way merge of the fields of its three mappings. -/
theorem mergeYaml_threeWay (Y : SerdeYaml) (J : SerdeJson) (opts : MergeOpts)
    (baseText oursText theirsText : List Char) (base ours theirs : Mapping)
    (hb : parseMapping Y baseText = .ok base) (ho : parseMapping Y oursText = .ok ours)
    (ht : parseMapping Y theirsText = .ok theirs)
    (hY : Y.RoundTrips (mergeMappings Y (valueTimestamps J opts) opts.fallbackPrecedence
      base ours theirs)) :
    ∃ out result, mergeYaml Y J baseText oursText theirsText opts = .ok out ∧
      Y.Denotes out result ∧ IsFieldMerge base ours theirs result ∧
      (ours = base → result = theirs) ∧ (theirs = base → result = ours) ∧
      (ours = theirs → result = ours) ∧
      ∃ out', mergeYaml Y J baseText theirsText oursText opts.flip = .ok out' ∧
        Y.Denotes out' result := by
  obtain ⟨out, hout, hdenotes⟩ := mergeYaml_denotes hb ho ht hY
  have hmerge := @mergeMappings_isFieldMerge Y base ours theirs (valueTimestamps J opts)
    opts.fallbackPrecedence
  have hswap := @mergeMappings_swap Y (valueTimestamps J opts) opts.fallbackPrecedence
    base ours theirs
  have hflip : Y.RoundTrips (mergeMappings Y (valueTimestamps J opts.flip)
      opts.flip.fallbackPrecedence base theirs ours) := by
    rw [← hswap] at hY
    exact hY
  obtain ⟨out', hout', hdenotes'⟩ := mergeYaml_denotes hb ht ho hflip
  refine ⟨out, _, hout, hdenotes, hmerge, ?_, ?_, ?_, out', hout', ?_⟩
  · rintro rfl
    exact Std.ExtTreeMap.ext_getElem? fun {k} => hmerge.ours_unmoved k rfl
  · rintro rfl
    exact Std.ExtTreeMap.ext_getElem? fun {k} => hmerge.theirs_unmoved k rfl
  · rintro rfl
    exact Std.ExtTreeMap.ext_getElem? fun {k} => hmerge.agree k rfl
  · rw [← hswap]
    exact hdenotes'

theorem mergeYaml_threeWay_rename :
    let base := [(Yaml.string "title", Yaml.string "a")]
    let ours := [(Yaml.string "title", Yaml.string "b")]
    let theirs := [(Yaml.string "title", Yaml.string "a"), (Yaml.string "color", Yaml.string "red")]
    let merged := [(Yaml.string "color", Yaml.string "red"), (Yaml.string "title", Yaml.string "b")]
    let Y := SerdeYaml.table [(.mapping base, "title: a\n".toList),
      (.mapping ours, "title: b\n".toList), (.mapping theirs, "title: a\ncolor: red\n".toList),
      (.mapping merged, "color: red\ntitle: b\n".toList)]
    let J : SerdeJson := ⟨fun _ => none, fun _ => ""⟩
    let opts : MergeOpts := ⟨none, .theirs⟩
    ∃ out result, mergeYaml Y J "title: a\n".toList "title: b\n".toList
        "title: a\ncolor: red\n".toList opts = .ok out ∧ Y.Denotes out result ∧
      IsFieldMerge (readEntries Y base) (readEntries Y ours) (readEntries Y theirs) result ∧
      (readEntries Y ours = readEntries Y base → result = readEntries Y theirs) ∧
      (readEntries Y theirs = readEntries Y base → result = readEntries Y ours) ∧
      (readEntries Y ours = readEntries Y theirs → result = readEntries Y ours) ∧
      ∃ out', mergeYaml Y J "title: a\n".toList "title: a\ncolor: red\n".toList
          "title: b\n".toList opts.flip = .ok out' ∧ Y.Denotes out' result := by
  intro base ours theirs merged Y J opts
  have hread : ∀ m text, Text.trim text ≠ [] → Y.fromStr (Text.trim text) = .ok (.mapping m) →
      parseMapping Y text = .ok (readEntries Y m) := by
    intro m text hne hm
    simp [parseMapping, hne, hm]
  exact mergeYaml_threeWay Y J opts _ _ _ _ _ _
    (hread base _ (by decide) (by decide))
    (hread ours _ (by decide) (by decide))
    (hread theirs _ (by decide) (by decide))
    ⟨"color: red\ntitle: b\n".toList, merged, by decide, by decide,
      by decide⟩

end
end SwissArmyHammer.Merge
