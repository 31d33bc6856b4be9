import Mathlib.Data.String.Basic
import SwissArmyHammer.Common.Folds
import SwissArmyHammer.Common.SortedMap
import SwissArmyHammer.Review.Batches

/-! The tool rules that review files in the place of an agent, and the tasks that put the rules
that are left in front of one. -/

namespace SwissArmyHammer.Review.FanOut

structure ValidatorMatch where
  tools : List String
  files : List String
  projectTypes : List String

structure MatchContext where
  toolName : Option String
  filePath : Option String
  eventContext : Option String
  changedFiles : Option (List String)
  projectTypes : Option (List String)

structure Matchers where
  trigger : String → String → Bool
  tool : String → String → Bool
  glob : String → String → Bool

structure Rule (σ : Type) where
  name : String
  matchCriteria : Option ValidatorMatch
  supersedes : List String
  tool : Option σ

structure RuleSet (σ : Type) where
  name : String
  triggerMatcher : Option String
  matchCriteria : Option ValidatorMatch
  rules : List (Rule σ)

variable {σ : Type}

def eqIgnoreAsciiCase (a b : String) : Bool := a.toList.map Char.toLower = b.toList.map Char.toLower

def ValidatorMatch.projectTypesMatch (criteria : ValidatorMatch) (detected : List String) : Bool :=
  criteria.projectTypes.isEmpty ||
    criteria.projectTypes.any fun wanted => detected.any fun key => eqIgnoreAsciiCase key wanted

section

variable (matchers : Matchers)

def matchesTriggerRegex (triggerMatcher : Option String) (ctx : MatchContext) : Bool :=
  match triggerMatcher with
  | none => true
  | some trigger =>
    match ctx.eventContext with
    | none => false
    | some context => matchers.trigger trigger context

def matchesTools (criteria : ValidatorMatch) (ctx : MatchContext) : Bool :=
  criteria.tools.isEmpty ||
    match ctx.toolName with
    | none => false
    | some name => criteria.tools.any fun pattern => matchers.tool pattern name

def matchesAnyPattern (path : String) (patterns : List String) : Bool :=
  patterns.any fun pattern => matchers.glob pattern path

def matchesFiles (criteria : ValidatorMatch) (ctx : MatchContext) : Bool :=
  criteria.files.isEmpty ||
    match ctx.changedFiles with
    | some files => files.any fun file => matchesAnyPattern matchers file criteria.files
    | none =>
      match ctx.filePath with
      | none => false
      | some path => matchesAnyPattern matchers path criteria.files

def matchesProjectTypes (criteria : ValidatorMatch) (ctx : MatchContext) : Bool :=
  criteria.projectTypes.isEmpty ||
    match ctx.projectTypes with
    | none => false
    | some detected => criteria.projectTypesMatch detected

def matchesCriteria (criteria : ValidatorMatch) (ctx : MatchContext) : Bool :=
  matchesTools matchers criteria ctx && matchesFiles matchers criteria ctx &&
    matchesProjectTypes criteria ctx

def RuleSet.matches (ruleset : RuleSet σ) (ctx : MatchContext) : Bool :=
  matchesTriggerRegex matchers ruleset.triggerMatcher ctx &&
    ruleset.matchCriteria.all fun criteria => matchesCriteria matchers criteria ctx

def Rule.matches (rule : Rule σ) (ruleset : RuleSet σ) (ctx : MatchContext) : Bool :=
  ruleset.matches matchers ctx &&
    rule.matchCriteria.all fun criteria => matchesCriteria matchers criteria ctx

end

def Rule.isToolRule (rule : Rule σ) : Bool := rule.tool.isSome

structure ValidatorLoader (σ : Type) where
  rulesets : SortedMap String (RuleSet σ)
  named : ∀ name ruleset, rulesets.get? name = some ruleset → ruleset.name = name
  nodup : ∀ name ruleset, rulesets.get? name = some ruleset →
    (ruleset.rules.map Rule.name).Nodup

def ValidatorLoader.getRuleset (loader : ValidatorLoader σ) (name : String) : Option (RuleSet σ) :=
  loader.rulesets.get? name

inductive ToolPresence
  | present
  | missing (detail : String)
  deriving DecidableEq

inductive FixtureOutcome
  | passed
  | failed (detail : String)
  | missingFixtures (detail : String)
  | skipped
  deriving DecidableEq

structure ToolRuleStatus where
  presence : ToolPresence
  fixtures : FixtureOutcome

def ToolRuleStatus.usable (status : ToolRuleStatus) : Bool :=
  status.presence = .present && status.fixtures = .passed

def ToolRuleStatus.degradedDetail (status : ToolRuleStatus) : String :=
  match status.presence, status.fixtures with
  | .missing detail, _ => "tool missing: " ++ detail
  | .present, .failed detail => "fixtures failed: " ++ detail
  | .present, .missingFixtures detail => "fixtures missing: " ++ detail
  | .present, .skipped => "fixture check skipped"
  | .present, .passed => ""

abbrev ToolSuppression := SortedMap String (SortedMap String (SortedMap String Unit))

def ToolSuppression.insert (s : ToolSuppression) (validator file rule : String) : ToolSuppression :=
  s.modify validator .empty fun files =>
    files.modify file .empty fun rules => SortedMap.insert rules rule ()

def ToolSuppression.suppressedRules (s : ToolSuppression) (validator file : String) : List String :=
  (((s.get? validator).bind fun files => files.get? file).getD .empty).keys

structure ToolRun (σ : Type) where
  validator : String
  rule : String
  spec : σ
  files : List String

structure ToolFallback where
  validator : String
  rule : String
  supersedes : List String
  detail : String

structure ToolPlan (σ : Type) where
  runs : List (ToolRun σ)
  fallbacks : List ToolFallback
  suppression : ToolSuppression

structure MatchedToolRule (σ : Type) where
  ruleset : RuleSet σ
  rule : Rule σ
  spec : σ
  files : List String

section

variable (matchers : Matchers) (projectTypes : List String)

def fileContext (path : String) : MatchContext :=
  ⟨none, some path, none, none, some projectTypes⟩

def matchedRuleFiles (validator : ValidatorWork) (ruleset : RuleSet σ) (rule : Rule σ) :
    List String :=
  (validator.files.map FileWork.path).filter fun path =>
    rule.matches matchers ruleset (fileContext projectTypes path)

def matchedToolRule (validator : ValidatorWork) (ruleset : RuleSet σ) (rule : Rule σ) :
    Option (MatchedToolRule σ) :=
  rule.tool.bind fun spec =>
    let files := matchedRuleFiles matchers projectTypes validator ruleset rule
    if files.isEmpty then none else some ⟨ruleset, rule, spec, files⟩

def matchedToolRules (work : WorkList) (loader : ValidatorLoader σ) : List (MatchedToolRule σ) :=
  work.validators.flatMap fun validator =>
    match loader.getRuleset validator.validatorName with
    | none => []
    | some ruleset =>
      ruleset.rules.filterMap (matchedToolRule matchers projectTypes validator ruleset)

abbrev Health (σ : Type) := String → Rule σ → σ → ToolRuleStatus

variable (health : Health σ)

def suppress (s : ToolSuppression) (validator : String) (files superseded : List String) :
    ToolSuppression :=
  superseded.foldl (fun s rule => files.foldl (fun s file => s.insert validator file rule) s) s

def planRuleByHealth (plan : ToolPlan σ) (matched : MatchedToolRule σ) : ToolPlan σ :=
  let status := health matched.ruleset.name matched.rule matched.spec
  if status.usable then
    { plan with
      suppression :=
        suppress plan.suppression matched.ruleset.name matched.files matched.rule.supersedes
      runs := plan.runs ++
        [⟨matched.ruleset.name, matched.rule.name, matched.spec, matched.files⟩] }
  else
    { plan with
      fallbacks := plan.fallbacks ++ [⟨matched.ruleset.name, matched.rule.name,
        matched.rule.supersedes, status.degradedDetail⟩] }

def planToolRules (work : WorkList) (loader : ValidatorLoader σ) : ToolPlan σ :=
  (matchedToolRules matchers projectTypes work loader).foldl (planRuleByHealth health)
    ⟨[], [], .empty⟩

end

structure ValidatorTask (σ : Type) where
  validator : ValidatorWork
  ruleset : RuleSet σ
  roster : List String

def promptRulesFor (ruleset : RuleSet σ) (suppressedRules : List String) : List (Rule σ) :=
  ruleset.rules.filter fun rule => !rule.isToolRule && !(suppressedRules.contains rule.name)

def groupFilesBySuppression (validator : ValidatorWork) (suppressed : ToolSuppression) :
    List (List String × List FileWork) :=
  (SortedMap.group
    (fun file => suppressed.suppressedRules validator.validatorName file.path)
    validator.files).entries

def groupTask (validator : ValidatorWork) (ruleset : RuleSet σ)
    (group : List String × List FileWork) : Option (ValidatorTask σ) :=
  let rules := promptRulesFor ruleset group.1
  if rules.isEmpty && !ruleset.rules.isEmpty then none
  else some
    { validator :=
        { validatorName := validator.validatorName
          rules := rules.map Rule.name
          probes := validator.probes
          files := group.2
          sharedProbeResults := validator.sharedProbeResults }
      ruleset := { ruleset with rules }
      roster := ruleset.rules.map Rule.name }

def planFanOut (work : WorkList) (loader : ValidatorLoader σ) (suppressed : ToolSuppression) :
    List (ValidatorTask σ) :=
  work.validators.flatMap fun validator =>
    match loader.getRuleset validator.validatorName with
    | none => []
    | some ruleset =>
      (groupFilesBySuppression validator suppressed).filterMap (groupTask validator ruleset)

def RuleSet.dropRule (ruleset : RuleSet σ) (rule : String) : RuleSet σ :=
  { ruleset with rules := ruleset.rules.filter fun r => r.name ≠ rule }

def ValidatorLoader.dropRule (loader : ValidatorLoader σ) (validator rule : String) :
    ValidatorLoader σ where
  rulesets := loader.rulesets.mapValues fun name ruleset =>
    if name = validator then ruleset.dropRule rule else ruleset
  named := by
    intro name ruleset h
    rw [SortedMap.get?_mapValues] at h
    obtain ⟨old, hold, rfl⟩ := Option.map_eq_some_iff.mp h
    have hname := loader.named name old hold
    split_ifs
    · exact hname
    · exact hname
  nodup := by
    intro name ruleset h
    rw [SortedMap.get?_mapValues] at h
    obtain ⟨old, hold, rfl⟩ := Option.map_eq_some_iff.mp h
    have hnodup := loader.nodup name old hold
    split_ifs
    · exact hnodup.sublist (List.filter_sublist.map Rule.name)
    · exact hnodup

section

variable {s : ToolSuppression} {validator file rule v f name : String}
  {files superseded : List String}

theorem mem_suppressedRules :
    name ∈ s.suppressedRules v f ↔
      ∃ byFile, s.get? v = some byFile ∧ ∃ rules, byFile.get? f = some rules ∧
        ∃ u, rules.get? name = some u := by
  rw [ToolSuppression.suppressedRules, SortedMap.mem_keys_iff]
  cases hv : s.get? v with
  | none => simp
  | some byFile =>
    cases hf : byFile.get? f with
    | none => simp [hf]
    | some rules => simp [hf]

theorem mem_suppressedRules_insert :
    name ∈ (s.insert validator file rule).suppressedRules v f ↔
      (v = validator ∧ f = file ∧ name = rule) ∨ name ∈ s.suppressedRules v f := by
  rw [mem_suppressedRules, mem_suppressedRules, ToolSuppression.insert, SortedMap.get?_modify]
  by_cases hv : v = validator
  · subst hv
    rw [if_pos rfl]
    simp only [Option.some.injEq, exists_eq_left', SortedMap.get?_modify]
    by_cases hf : f = file
    · subst hf
      rw [if_pos rfl]
      simp only [Option.some.injEq, exists_eq_left', SortedMap.get?_insert]
      by_cases hname : name = rule
      · simp [hname]
      · cases hs : s.get? v with
        | none => simp [hname]
        | some byFile =>
          cases hbyFile : byFile.get? f with
          | none => simp [hname, hbyFile]
          | some rules => simp [hname, hbyFile]
    · cases hs : s.get? v with
      | none => simp [hf]
      | some byFile => simp [hf]
  · simp [hv]

theorem mem_suppressedRules_files :
    name ∈ (files.foldl (fun s file => s.insert validator file rule) s).suppressedRules v f ↔
      (v = validator ∧ f ∈ files ∧ name = rule) ∨ name ∈ s.suppressedRules v f := by
  induction files generalizing s with
  | nil => simp
  | cons file files ih =>
    rw [List.foldl_cons, ih, mem_suppressedRules_insert, List.mem_cons]
    tauto

theorem mem_suppressedRules_suppress :
    name ∈ (suppress s validator files superseded).suppressedRules v f ↔
      (v = validator ∧ f ∈ files ∧ name ∈ superseded) ∨ name ∈ s.suppressedRules v f := by
  induction superseded generalizing s with
  | nil => simp [suppress]
  | cons rule superseded ih =>
    have hstep : suppress s validator files (rule :: superseded) =
        suppress (files.foldl (fun s file => s.insert validator file rule) s) validator files
          superseded := rfl
    rw [hstep, ih, mem_suppressedRules_files, List.mem_cons]
    tauto

end

section

variable {matchers : Matchers} {projectTypes : List String} {health : Health σ}
  {work : WorkList} {loader : ValidatorLoader σ} {validator : ValidatorWork} {ruleset : RuleSet σ}
  {rule r : Rule σ} {m : MatchedToolRule σ} {plan : ToolPlan σ} {file : FileWork}
  {path name v f : String}

def Rule.reviews (matchers : Matchers) (projectTypes : List String) (health : Health σ)
    (ruleset : RuleSet σ) (rule : Rule σ) (path : String) : Bool :=
  rule.tool.any fun spec => (health ruleset.name rule spec).usable &&
    rule.matches matchers ruleset (fileContext projectTypes path)

def MatchedToolRule.usable (health : Health σ) (m : MatchedToolRule σ) : Bool :=
  (health m.ruleset.name m.rule m.spec).usable

def MatchedToolRule.run (m : MatchedToolRule σ) : ToolRun σ :=
  ⟨m.ruleset.name, m.rule.name, m.spec, m.files⟩

def ToolRun.listsFile (validator path : String) (run : ToolRun σ) : Bool :=
  run.validator = validator && run.files.contains path

def MatchedToolRule.runsFor (health : Health σ) (validator path : String) (m : MatchedToolRule σ) :
    Bool :=
  m.run.listsFile validator path && m.usable health

theorem MatchedToolRule.runsFor_iff :
    m.runsFor health v path = true ↔
      (m.ruleset.name = v ∧ path ∈ m.files) ∧ m.usable health = true := by
  rw [MatchedToolRule.runsFor, ToolRun.listsFile, Bool.and_eq_true, Bool.and_eq_true,
    decide_eq_true_iff, List.contains_iff_mem]
  rfl

theorem planRuleByHealth_runs (plan : ToolPlan σ) (m : MatchedToolRule σ) :
    (planRuleByHealth health plan m).runs =
      plan.runs ++ ([m].filter (MatchedToolRule.usable health)).map MatchedToolRule.run := by
  by_cases h : (health m.ruleset.name m.rule m.spec).usable = true
  · simp [planRuleByHealth, h, MatchedToolRule.usable, MatchedToolRule.run]
  · simp [planRuleByHealth, h, MatchedToolRule.usable]

theorem mem_suppressedRules_planRuleByHealth :
    name ∈ (planRuleByHealth health plan m).suppression.suppressedRules v f ↔
      (m.usable health = true ∧ v = m.ruleset.name ∧ f ∈ m.files ∧ name ∈ m.rule.supersedes) ∨
        name ∈ plan.suppression.suppressedRules v f := by
  by_cases h : (health m.ruleset.name m.rule m.spec).usable = true
  · simp only [planRuleByHealth, h, if_true, MatchedToolRule.usable, mem_suppressedRules_suppress,
      true_and]
  · simp [planRuleByHealth, h, MatchedToolRule.usable]

theorem runs_foldl (ms : List (MatchedToolRule σ)) (plan : ToolPlan σ) :
    (ms.foldl (planRuleByHealth health) plan).runs =
      plan.runs ++ (ms.filter (MatchedToolRule.usable health)).map MatchedToolRule.run := by
  induction ms generalizing plan with
  | nil => simp
  | cons m ms ih =>
    have hcons : m :: ms = [m] ++ ms := rfl
    rw [List.foldl_cons, ih, planRuleByHealth_runs, hcons, List.filter_append, List.map_append,
      List.append_assoc]

theorem mem_suppressedRules_foldl (ms : List (MatchedToolRule σ)) :
    name ∈ (ms.foldl (planRuleByHealth health) plan).suppression.suppressedRules v f ↔
      (∃ m ∈ ms, m.usable health = true ∧ v = m.ruleset.name ∧ f ∈ m.files ∧
        name ∈ m.rule.supersedes) ∨ name ∈ plan.suppression.suppressedRules v f := by
  induction ms generalizing plan with
  | nil => simp
  | cons m ms ih =>
    rw [List.foldl_cons, ih, mem_suppressedRules_planRuleByHealth, List.exists_mem_cons_iff,
      or_left_comm, or_assoc]

theorem matchedToolRule_eq_some :
    matchedToolRule matchers projectTypes validator ruleset rule = some m ↔
      ∃ spec, rule.tool = some spec ∧
        matchedRuleFiles matchers projectTypes validator ruleset rule ≠ [] ∧
        m = ⟨ruleset, rule, spec,
          matchedRuleFiles matchers projectTypes validator ruleset rule⟩ := by
  rw [matchedToolRule, Option.bind_eq_some_iff]
  by_cases h : matchedRuleFiles matchers projectTypes validator ruleset rule = []
  · simp [h]
  · grind

theorem mem_matchedToolRules :
    m ∈ matchedToolRules matchers projectTypes work loader ↔
      ∃ validator ∈ work.validators, ∃ ruleset,
        loader.getRuleset validator.validatorName = some ruleset ∧ ∃ rule ∈ ruleset.rules,
          matchedToolRule matchers projectTypes validator ruleset rule = some m := by
  rw [matchedToolRules, List.mem_flatMap]
  refine exists_congr fun validator => and_congr_right fun _ => ?_
  cases loader.getRuleset validator.validatorName with
  | none => simp
  | some ruleset => simp [List.mem_filterMap]

theorem mem_matchedRuleFiles :
    path ∈ matchedRuleFiles matchers projectTypes validator ruleset rule ↔
      path ∈ validator.files.map FileWork.path ∧
        rule.matches matchers ruleset (fileContext projectTypes path) = true := by
  rw [matchedRuleFiles, List.mem_filter]

variable (hnames : (work.validators.map ValidatorWork.validatorName).Nodup)
  (hv : validator ∈ work.validators)
  (hget : loader.getRuleset validator.validatorName = some ruleset)

include hnames hv hget

theorem mem_suppressedRules_planToolRules (hpath : path ∈ validator.files.map FileWork.path) :
    name ∈ (planToolRules matchers projectTypes health work loader).suppression.suppressedRules
        validator.validatorName path ↔
      ∃ r ∈ ruleset.rules, r.reviews matchers projectTypes health ruleset path = true ∧
        name ∈ r.supersedes := by
  have hempty : name ∉ ToolSuppression.suppressedRules .empty validator.validatorName path := by
    rw [mem_suppressedRules]
    simp
  rw [planToolRules, mem_suppressedRules_foldl, or_iff_left hempty]
  constructor
  · rintro ⟨m, hm, husable, hname, hf, hsup⟩
    obtain ⟨w, hw, rs, hrs, r, hr, hmatched⟩ := mem_matchedToolRules.mp hm
    obtain ⟨spec, hspec, -, rfl⟩ := matchedToolRule_eq_some.mp hmatched
    have hwname : validator.validatorName = w.validatorName :=
      hname.trans (loader.named _ _ hrs)
    obtain rfl := List.inj_on_of_nodup_map hnames hv hw hwname
    obtain rfl := Option.some.inj (hget.symm.trans hrs)
    refine ⟨r, hr, ?_, hsup⟩
    have hmatches := (mem_matchedRuleFiles.mp hf).2
    rw [Rule.reviews, hspec, Option.any_some, hmatches, Bool.and_true]
    exact husable
  · rintro ⟨r, hr, hreviews, hsup⟩
    obtain ⟨spec, hspec, hboth⟩ := (Option.any_eq_true _ _).mp hreviews
    obtain ⟨husable, hmatches⟩ := Bool.and_eq_true_iff.mp hboth
    have hf : path ∈ matchedRuleFiles matchers projectTypes validator ruleset r :=
      mem_matchedRuleFiles.mpr ⟨hpath, hmatches⟩
    refine ⟨⟨ruleset, r, spec, matchedRuleFiles matchers projectTypes validator ruleset r⟩, ?_,
      husable, (loader.named _ _ hget).symm, hf, hsup⟩
    exact mem_matchedToolRules.mpr ⟨validator, hv, ruleset, hget, r, hr,
      matchedToolRule_eq_some.mpr ⟨spec, hspec, List.ne_nil_of_mem hf, rfl⟩⟩

theorem filter_matchedToolRules :
    (matchedToolRules matchers projectTypes work loader).filter
        (MatchedToolRule.runsFor health validator.validatorName path) =
      (ruleset.rules.filterMap (matchedToolRule matchers projectTypes validator ruleset)).filter
        (MatchedToolRule.runsFor health validator.validatorName path) := by
  have hother : ∀ w ∈ work.validators, w.validatorName ≠ validator.validatorName →
      ((match loader.getRuleset w.validatorName with
        | none => []
        | some rs => rs.rules.filterMap (matchedToolRule matchers projectTypes w rs)).filter
          (MatchedToolRule.runsFor health validator.validatorName path)) = [] := by
    intro w _ hne
    cases hw : loader.getRuleset w.validatorName with
    | none => rfl
    | some rs =>
      refine List.filter_eq_nil_iff.mpr fun m hm hruns => hne ?_
      obtain ⟨r, -, hmatched⟩ := List.mem_filterMap.mp hm
      obtain ⟨spec, -, -, rfl⟩ := matchedToolRule_eq_some.mp hmatched
      obtain ⟨⟨hvalidator, -⟩, -⟩ := MatchedToolRule.runsFor_iff.mp hruns
      rw [← loader.named _ _ hw]
      exact hvalidator
  rw [matchedToolRules, filter_flatMap_of_mem hnames hv hother, hget]

variable (matchers projectTypes health) in
theorem runs_planToolRules (hpath : path ∈ validator.files.map FileWork.path) :
    (planToolRules matchers projectTypes health work loader).runs.filter
        (ToolRun.listsFile validator.validatorName path) =
      ruleset.rules.filterMap fun r =>
        if r.reviews matchers projectTypes health ruleset path = true then
          r.tool.map fun spec => ⟨validator.validatorName, r.name, spec,
            matchedRuleFiles matchers projectTypes validator ruleset r⟩
        else none := by
  have hruns : ∀ ms : List (MatchedToolRule σ),
      (ms.filter (MatchedToolRule.usable health)).filter
          (ToolRun.listsFile validator.validatorName path ∘ MatchedToolRule.run) =
        ms.filter (MatchedToolRule.runsFor health validator.validatorName path) := by
    intro ms
    rw [List.filter_filter]
    rfl
  rw [planToolRules, runs_foldl, List.nil_append, List.filter_map, hruns,
    filter_matchedToolRules hnames hv hget, List.filter_filterMap, List.map_filterMap]
  refine List.filterMap_congr fun r _ => ?_
  have hname := loader.named _ _ hget
  have hmatches : r.matches matchers ruleset (fileContext projectTypes path) = true ↔
      path ∈ matchedRuleFiles matchers projectTypes validator ruleset r :=
    ⟨fun h => mem_matchedRuleFiles.mpr ⟨hpath, h⟩, fun h => (mem_matchedRuleFiles.mp h).2⟩
  refine Option.ext fun run => ?_
  rw [Option.map_eq_some_iff, Option.ite_none_right_eq_some, Option.map_eq_some_iff, Rule.reviews,
    Option.any_eq_true]
  simp only [Option.filter_eq_some_iff, matchedToolRule_eq_some, MatchedToolRule.runsFor_iff]
  constructor
  · rintro ⟨m, ⟨⟨spec, htool, -, rfl⟩, ⟨-, hmem⟩, husable⟩, rfl⟩
    refine ⟨⟨spec, htool, ?_⟩, spec, htool, ?_⟩
    · rw [hmatches.mpr hmem, Bool.and_true]
      exact husable
    · rw [MatchedToolRule.run, ← hname]
  · rintro ⟨⟨spec, htool, hboth⟩, spec', htool', rfl⟩
    obtain rfl := Option.some.inj (htool.symm.trans htool')
    obtain ⟨husable, hmatch⟩ := Bool.and_eq_true_iff.mp hboth
    have hmem := hmatches.mp hmatch
    refine ⟨_, ⟨⟨spec, htool, List.ne_nil_of_mem hmem, rfl⟩, ⟨hname, hmem⟩, husable⟩, ?_⟩
    rw [MatchedToolRule.run, ← hname]

end

section

variable {work : WorkList} {loader : ValidatorLoader σ} {validator : ValidatorWork}
  {ruleset : RuleSet σ} {suppressed : ToolSuppression} {group : List String × List FileWork}
  {task : ValidatorTask σ} {rule : Rule σ} {file : FileWork} {path name : String}

def ValidatorTask.listsFile (validator path : String) (task : ValidatorTask σ) : Bool :=
  task.validator.validatorName = validator &&
    (task.validator.files.map FileWork.path).contains path

def fileGroup (validator : ValidatorWork) (suppressed : ToolSuppression) (path : String) :
    List String × List FileWork :=
  (suppressed.suppressedRules validator.validatorName path,
    validator.files.filter fun file =>
      suppressed.suppressedRules validator.validatorName file.path =
        suppressed.suppressedRules validator.validatorName path)

theorem ValidatorTask.listsFile_iff {v : String} :
    task.listsFile v path = true ↔
      task.validator.validatorName = v ∧ path ∈ task.validator.files.map FileWork.path := by
  rw [ValidatorTask.listsFile, Bool.and_eq_true, decide_eq_true_iff, List.contains_iff_mem]

theorem mem_groupFilesBySuppression :
    group ∈ groupFilesBySuppression validator suppressed ↔
      ∃ file ∈ validator.files, group = fileGroup validator suppressed file.path := by
  obtain ⟨key, files⟩ := group
  rw [groupFilesBySuppression, SortedMap.mem_entries_group]
  constructor
  · rintro ⟨⟨file, hfile, rfl⟩, rfl⟩
    refine ⟨file, hfile, Prod.ext rfl ?_⟩
    exact List.filter_congr fun _ _ => decide_eq_decide.mpr Iff.rfl
  · rintro ⟨file, hfile, heq⟩
    cases heq
    refine ⟨⟨file, hfile, rfl⟩, ?_⟩
    exact List.filter_congr fun _ _ => decide_eq_decide.mpr Iff.rfl

theorem mem_promptRulesFor {skip : List String} :
    rule ∈ promptRulesFor ruleset skip ↔
      rule ∈ ruleset.rules ∧ rule.isToolRule = false ∧ rule.name ∉ skip := by
  rw [promptRulesFor]
  simp

theorem groupTask_eq_some :
    groupTask validator ruleset group = some task ↔
      (promptRulesFor ruleset group.1 = [] → ruleset.rules = []) ∧
        task = ⟨⟨validator.validatorName, (promptRulesFor ruleset group.1).map Rule.name,
            validator.probes, group.2, validator.sharedProbeResults⟩,
          { ruleset with rules := promptRulesFor ruleset group.1 },
          ruleset.rules.map Rule.name⟩ := by
  rw [groupTask]
  by_cases hrules : promptRulesFor ruleset group.1 = []
  · grind
  · grind

theorem mem_planFanOut :
    task ∈ planFanOut work loader suppressed ↔
      ∃ validator ∈ work.validators, ∃ ruleset,
        loader.getRuleset validator.validatorName = some ruleset ∧ ∃ file ∈ validator.files,
          groupTask validator ruleset (fileGroup validator suppressed file.path) = some task := by
  rw [planFanOut, List.mem_flatMap]
  refine exists_congr fun validator => and_congr_right fun _ => ?_
  cases loader.getRuleset validator.validatorName with
  | none => simp
  | some ruleset =>
    rw [List.mem_filterMap]
    simp only [Option.some.injEq, exists_eq_left']
    constructor
    · rintro ⟨group, hgroup, htask⟩
      obtain ⟨file, hfile, rfl⟩ := mem_groupFilesBySuppression.mp hgroup
      exact ⟨file, hfile, htask⟩
    · rintro ⟨file, hfile, htask⟩
      exact ⟨_, mem_groupFilesBySuppression.mpr ⟨file, hfile, rfl⟩, htask⟩

theorem listsFile_groupTask {w : FileWork} (hw : w ∈ validator.files)
    (htask : groupTask validator ruleset (fileGroup validator suppressed w.path) = some task) :
    task.listsFile validator.validatorName w.path = true := by
  obtain ⟨-, rfl⟩ := groupTask_eq_some.mp htask
  refine ValidatorTask.listsFile_iff.mpr ⟨rfl, List.mem_map_of_mem ?_⟩
  exact List.mem_filter.mpr ⟨hw, decide_eq_true rfl⟩

theorem tasks_planFanOut (hnames : (work.validators.map ValidatorWork.validatorName).Nodup)
    (hv : validator ∈ work.validators)
    (hget : loader.getRuleset validator.validatorName = some ruleset)
    (hfile : file ∈ validator.files) :
    (planFanOut work loader suppressed).filter
        (ValidatorTask.listsFile validator.validatorName file.path) =
      (groupTask validator ruleset (fileGroup validator suppressed file.path)).toList := by
  have hothers : ∀ w ∈ work.validators, w.validatorName ≠ validator.validatorName →
      ((match loader.getRuleset w.validatorName with
        | none => []
        | some rs => (groupFilesBySuppression w suppressed).filterMap (groupTask w rs)).filter
          (ValidatorTask.listsFile validator.validatorName file.path)) = [] := by
    intro w _ hne
    cases loader.getRuleset w.validatorName with
    | none => rfl
    | some rs =>
      refine List.filter_eq_nil_iff.mpr fun task htask hlists => hne ?_
      obtain ⟨group, -, hgroup⟩ := List.mem_filterMap.mp htask
      obtain ⟨-, rfl⟩ := groupTask_eq_some.mp hgroup
      exact (ValidatorTask.listsFile_iff.mp hlists).1
  have hgroups : ∀ group ∈ groupFilesBySuppression validator suppressed,
      group.1 ≠ (fileGroup validator suppressed file.path).1 →
        (groupTask validator ruleset group).toList.filter
          (ValidatorTask.listsFile validator.validatorName file.path) = [] := by
    intro group hgroup hne
    obtain ⟨w, -, rfl⟩ := mem_groupFilesBySuppression.mp hgroup
    refine List.filter_eq_nil_iff.mpr fun task htask hlists => hne ?_
    obtain ⟨-, rfl⟩ := groupTask_eq_some.mp (Option.mem_toList.mp htask)
    obtain ⟨other, hother, hpath⟩ := List.mem_map.mp (ValidatorTask.listsFile_iff.mp hlists).2
    have hkey := of_decide_eq_true (List.mem_filter.mp hother).2
    rw [hpath] at hkey
    exact hkey.symm
  rw [planFanOut, filter_flatMap_of_mem hnames hv hothers, hget]
  show ((groupFilesBySuppression validator suppressed).filterMap
    (groupTask validator ruleset)).filter _ = _
  have hkeys : ((groupFilesBySuppression validator suppressed).map Prod.fst).Nodup :=
    SortedMap.nodup_keys _
  rw [List.filterMap_eq_flatMap_toList, filter_flatMap_of_mem hkeys
    (mem_groupFilesBySuppression.mpr ⟨file, hfile, rfl⟩) hgroups]
  refine List.filter_eq_self.mpr fun task htask => ?_
  exact listsFile_groupTask hfile (Option.mem_toList.mp htask)

end

section

variable (matchers : Matchers) (projectTypes : List String) (health : Health σ)

def ValidatorTask.lists (validator path rule : String) (task : ValidatorTask σ) : Bool :=
  task.listsFile validator path && task.validator.rules.contains rule

def rulesRead (plan : List (ValidatorTask σ)) (validator path : String) : List String :=
  (plan.filter (ValidatorTask.listsFile validator path)).flatMap fun task => task.validator.rules

def fanOut (work : WorkList) (loader : ValidatorLoader σ) : List (ValidatorTask σ) :=
  planFanOut work loader (planToolRules matchers projectTypes health work loader).suppression

def toolRuns (work : WorkList) (loader : ValidatorLoader σ) (validator path : String) :
    List (ToolRun σ) :=
  (planToolRules matchers projectTypes health work loader).runs.filter
    (ToolRun.listsFile validator path)

structure FileReviewed (work : WorkList) (loader : ValidatorLoader σ) (validator : String)
    (ruleset : RuleSet σ) (path : String) : Prop where
  read : ∀ rule ∈ ruleset.rules, rule.isToolRule = false →
    (∀ r ∈ ruleset.rules, r.reviews matchers projectTypes health ruleset path = true →
      rule.name ∉ r.supersedes) →
    (fanOut matchers projectTypes health work loader).countP
      (ValidatorTask.lists validator path rule.name) = 1
  superseded : ∀ rule ∈ ruleset.rules, ∀ r ∈ ruleset.rules,
    r.reviews matchers projectTypes health ruleset path = true → rule.name ∈ r.supersedes →
    (fanOut matchers projectTypes health work loader).countP
      (ValidatorTask.lists validator path rule.name) = 0
  run : ∀ r ∈ ruleset.rules, r.reviews matchers projectTypes health ruleset path = true →
    (planToolRules matchers projectTypes health work loader).runs.countP
      (fun run => run.listsFile validator path && run.rule = r.name) = 1
  idle : ∀ r ∈ ruleset.rules, r.isToolRule = true →
    r.reviews matchers projectTypes health ruleset path = false →
    rulesRead (fanOut matchers projectTypes health work (loader.dropRule validator r.name))
        validator path =
      rulesRead (fanOut matchers projectTypes health work loader) validator path ∧
    toolRuns matchers projectTypes health work (loader.dropRule validator r.name) validator path =
      toolRuns matchers projectTypes health work loader validator path

structure PromptTask (ruleset : RuleSet σ) (task : ValidatorTask σ) : Prop where
  names : task.ruleset.rules.map Rule.name = task.validator.rules
  prompts : ∀ rule ∈ ruleset.rules, rule.isToolRule = true → rule.name ∉ task.validator.rules
  nonempty : ruleset.rules ≠ [] → task.validator.rules ≠ []

structure ReviewedOnce (work : WorkList) (loader : ValidatorLoader σ) : Prop where
  files : ∀ validator ∈ work.validators, ∀ ruleset,
    loader.getRuleset validator.validatorName = some ruleset → ∀ file ∈ validator.files,
      FileReviewed matchers projectTypes health work loader validator.validatorName ruleset
        file.path
  tasks : ∀ task ∈ fanOut matchers projectTypes health work loader, ∀ ruleset,
    loader.getRuleset task.validator.validatorName = some ruleset → PromptTask ruleset task

variable {matchers projectTypes health} {work : WorkList} {loader : ValidatorLoader σ}
  {validator : ValidatorWork} {ruleset : RuleSet σ} {suppressed : ToolSuppression}
  {task : ValidatorTask σ} {rule r : Rule σ} {file : FileWork} {path name : String}

theorem getRuleset_dropRule (hget : loader.getRuleset validator.validatorName = some ruleset)
    (rule : String) :
    (loader.dropRule validator.validatorName rule).getRuleset validator.validatorName =
      some (ruleset.dropRule rule) := by
  have hmap : (loader.dropRule validator.validatorName rule).getRuleset validator.validatorName =
      (loader.getRuleset validator.validatorName).map fun ruleset =>
        if validator.validatorName = validator.validatorName then ruleset.dropRule rule
        else ruleset := SortedMap.get?_mapValues _ _ _
  rw [hmap, hget, Option.map_some, if_pos rfl]

section

variable (hnames : (work.validators.map ValidatorWork.validatorName).Nodup)
  (hv : validator ∈ work.validators)
  (hget : loader.getRuleset validator.validatorName = some ruleset)
  (hfile : file ∈ validator.files)

include hnames hv hget hfile

variable (matchers projectTypes health) in
theorem mem_suppression_of_file :
    name ∈ (planToolRules matchers projectTypes health work loader).suppression.suppressedRules
        validator.validatorName file.path ↔
      ∃ r ∈ ruleset.rules, r.reviews matchers projectTypes health ruleset file.path = true ∧
        name ∈ r.supersedes :=
  mem_suppressedRules_planToolRules hnames hv hget (List.mem_map_of_mem hfile)

variable (suppressed) in
theorem rulesRead_planFanOut :
    rulesRead (planFanOut work loader suppressed) validator.validatorName file.path =
      (promptRulesFor ruleset
        (suppressed.suppressedRules validator.validatorName file.path)).map Rule.name := by
  rw [rulesRead, tasks_planFanOut hnames hv hget hfile]
  cases htask : groupTask validator ruleset (fileGroup validator suppressed file.path) with
  | none =>
    have hempty : promptRulesFor ruleset
        (suppressed.suppressedRules validator.validatorName file.path) = [] := by
      by_contra hne
      have hsome : groupTask validator ruleset
          (fileGroup validator suppressed file.path) = some _ :=
        groupTask_eq_some.mpr ⟨fun h => absurd h hne, rfl⟩
      rw [htask] at hsome
      cases hsome
    rw [hempty]
    rfl
  | some task =>
    obtain ⟨-, rfl⟩ := groupTask_eq_some.mp htask
    simp [fileGroup]

theorem countP_lists :
    (planFanOut work loader suppressed).countP
        (ValidatorTask.lists validator.validatorName file.path name) =
      if name ∈ (promptRulesFor ruleset
        (suppressed.suppressedRules validator.validatorName file.path)).map Rule.name then 1
      else 0 := by
  have hlists : (planFanOut work loader suppressed).countP
      (ValidatorTask.lists validator.validatorName file.path name) =
        ((planFanOut work loader suppressed).filter
          (ValidatorTask.listsFile validator.validatorName file.path)).countP
            fun task => task.validator.rules.contains name := by
    rw [List.countP_filter]
    exact List.countP_congr fun task _ => by rw [ValidatorTask.lists, Bool.and_comm]
  rw [hlists, tasks_planFanOut hnames hv hget hfile]
  cases htask : groupTask validator ruleset (fileGroup validator suppressed file.path) with
  | none =>
    have hread := rulesRead_planFanOut suppressed hnames hv hget hfile
    rw [rulesRead, tasks_planFanOut hnames hv hget hfile, htask] at hread
    rw [← hread]
    rfl
  | some task =>
    obtain ⟨-, rfl⟩ := groupTask_eq_some.mp htask
    rw [Option.toList_some, List.countP_singleton]
    exact if_congr List.contains_iff_mem rfl rfl

theorem countP_runs (hr : r ∈ ruleset.rules)
    (hreviews : r.reviews matchers projectTypes health ruleset file.path = true) :
    (planToolRules matchers projectTypes health work loader).runs.countP
      (fun run => run.listsFile validator.validatorName file.path && run.rule = r.name) = 1 := by
  have hruns := runs_planToolRules matchers projectTypes health hnames hv hget
    (List.mem_map_of_mem hfile)
  obtain ⟨spec, hspec, -⟩ := (Option.any_eq_true _ _).mp hreviews
  have hcount : (planToolRules matchers projectTypes health work loader).runs.countP
      (fun run => run.listsFile validator.validatorName file.path && run.rule = r.name) =
        ((planToolRules matchers projectTypes health work loader).runs.filter
          (ToolRun.listsFile validator.validatorName file.path)).countP
            fun run => run.rule = r.name := by
    rw [List.countP_filter]
    exact List.countP_congr fun run _ => by rw [Bool.and_comm]
  rw [hcount, hruns, List.countP_eq_length_filter, List.filterMap_eq_flatMap_toList,
    filter_flatMap_of_mem (loader.nodup _ _ hget) hr]
  · rw [if_pos hreviews, hspec]
    simp
  · intro other _ hne
    refine List.filter_eq_nil_iff.mpr fun run hrun heq => hne ?_
    obtain ⟨-, hmap⟩ := Option.ite_none_right_eq_some.mp (Option.mem_toList.mp hrun)
    obtain ⟨spec', -, rfl⟩ := Option.map_eq_some_iff.mp hmap
    exact of_decide_eq_true heq

theorem rulesRead_dropRule (hr : r ∈ ruleset.rules) (htool : r.isToolRule = true)
    (hidle : r.reviews matchers projectTypes health ruleset file.path = false) :
    rulesRead (fanOut matchers projectTypes health work
        (loader.dropRule validator.validatorName r.name)) validator.validatorName file.path =
      rulesRead (fanOut matchers projectTypes health work loader) validator.validatorName
        file.path := by
  have hget' := getRuleset_dropRule hget r.name
  have hinj := List.inj_on_of_nodup_map (loader.nodup _ _ hget)
  rw [fanOut, fanOut, rulesRead_planFanOut _ hnames hv hget' hfile,
    rulesRead_planFanOut _ hnames hv hget hfile, promptRulesFor, RuleSet.dropRule,
    List.filter_filter]
  congr 1
  refine List.filter_congr fun rule hrule => ?_
  by_cases hname : rule.name = r.name
  · rw [hinj hrule hr hname, htool]
    simp
  · have hiff : (∃ s ∈ (ruleset.dropRule r.name).rules,
          s.reviews matchers projectTypes health (ruleset.dropRule r.name) file.path = true ∧
            rule.name ∈ s.supersedes) ↔
        ∃ s ∈ ruleset.rules, s.reviews matchers projectTypes health ruleset file.path = true ∧
          rule.name ∈ s.supersedes := by
      constructor
      · rintro ⟨s, hs, hreviews, hsup⟩
        exact ⟨s, (List.mem_filter.mp hs).1, hreviews, hsup⟩
      · rintro ⟨s, hs, hreviews, hsup⟩
        refine ⟨s, List.mem_filter.mpr ⟨hs, decide_eq_true fun heq => ?_⟩, hreviews, hsup⟩
        rw [hinj hs hr heq, hidle] at hreviews
        cases hreviews
    have hmem := (mem_suppression_of_file matchers projectTypes health hnames hv hget' hfile).trans
      (hiff.trans (mem_suppression_of_file matchers projectTypes health hnames hv hget hfile).symm)
    simp [hname, hmem]

theorem toolRuns_dropRule (hr : r ∈ ruleset.rules)
    (hidle : r.reviews matchers projectTypes health ruleset file.path = false) :
    toolRuns matchers projectTypes health work (loader.dropRule validator.validatorName r.name)
        validator.validatorName file.path =
      toolRuns matchers projectTypes health work loader validator.validatorName file.path := by
  have hpath := List.mem_map_of_mem (f := FileWork.path) hfile
  have hinj := List.inj_on_of_nodup_map (loader.nodup _ _ hget)
  rw [toolRuns, toolRuns, runs_planToolRules _ _ _ hnames hv
    (getRuleset_dropRule hget r.name) hpath, runs_planToolRules _ _ _ hnames hv hget hpath, RuleSet.dropRule, List.filterMap_filter]
  refine List.filterMap_congr fun rule hrule => ?_
  by_cases hname : rule.name = r.name
  · rw [hinj hrule hr hname, hidle]
    simp
  · rw [if_pos (decide_eq_true hname)]
    rfl

end

theorem promptTask_of_groupTask (hget : loader.getRuleset validator.validatorName = some ruleset)
    {group : List String × List FileWork}
    (htask : groupTask validator ruleset group = some task) : PromptTask ruleset task := by
  obtain ⟨hempty, rfl⟩ := groupTask_eq_some.mp htask
  refine ⟨rfl, ?_, ?_⟩
  · intro rule hrule htool hmem
    obtain ⟨other, hother, hname⟩ := List.mem_map.mp hmem
    obtain ⟨hin, hprompt, -⟩ := mem_promptRulesFor.mp hother
    rw [List.inj_on_of_nodup_map (loader.nodup _ _ hget) hin hrule hname, htool] at hprompt
    cases hprompt
  · intro hset hnil
    exact hset (hempty (List.map_eq_nil_iff.mp hnil))

/-- No rule is lost between the two planners, and none is read twice. -/
theorem reviewedOnce (hnames : (work.validators.map ValidatorWork.validatorName).Nodup) :
    ReviewedOnce matchers projectTypes health work loader := by
  constructor
  · intro validator hv ruleset hget file hfile
    constructor
    · intro rule hrule hprompt hfree
      rw [fanOut, countP_lists hnames hv hget hfile, if_pos]
      refine List.mem_map_of_mem (mem_promptRulesFor.mpr ⟨hrule, hprompt, fun hmem => ?_⟩)
      obtain ⟨r, hr, hreviews, hsup⟩ := (mem_suppression_of_file _ _ _ hnames hv hget hfile).mp hmem
      exact hfree r hr hreviews hsup
    · intro rule _ r hr hreviews hsup
      rw [fanOut, countP_lists hnames hv hget hfile, if_neg]
      intro hmem
      obtain ⟨other, hother, hname⟩ := List.mem_map.mp hmem
      refine (mem_promptRulesFor.mp hother).2.2 ?_
      rw [hname]
      exact (mem_suppression_of_file _ _ _ hnames hv hget hfile).mpr ⟨r, hr, hreviews, hsup⟩
    · intro r hr hreviews
      exact countP_runs hnames hv hget hfile hr hreviews
    · intro r hr htool hidle
      exact ⟨rulesRead_dropRule hnames hv hget hfile hr htool hidle,
        toolRuns_dropRule hnames hv hget hfile hr hidle⟩
  · intro task htask ruleset hget
    obtain ⟨validator, -, rs, hrs, file, -, hgroup⟩ := mem_planFanOut.mp htask
    obtain ⟨-, rfl⟩ := groupTask_eq_some.mp hgroup
    obtain rfl := Option.some.inj (hrs.symm.trans hget)
    exact promptTask_of_groupTask hrs hgroup

def lintRules : RuleSet String :=
  ⟨"rust", none, none, [⟨"naming", none, [], none⟩, ⟨"unwrap", none, [], none⟩,
    ⟨"clippy", none, ["unwrap"], some "cargo clippy"⟩]⟩

def lintLoader : ValidatorLoader String where
  rulesets := SortedMap.insert .empty lintRules.name lintRules
  named := by
    intro name ruleset h
    rw [SortedMap.get?_insert, SortedMap.get?_empty, Option.ite_none_right_eq_some] at h
    obtain ⟨rfl, h⟩ := h
    rw [← Option.some.inj h]
  nodup := by
    intro name ruleset h
    rw [SortedMap.get?_insert, SortedMap.get?_empty, Option.ite_none_right_eq_some] at h
    rw [← Option.some.inj h.2]
    decide

def lintWork : WorkList :=
  ⟨"", [⟨"rust", ["naming", "unwrap", "clippy"], [], [⟨"src/lib.rs", [], "", [], []⟩], []⟩], [], 1,
    .files⟩

def noMatch : Matchers := ⟨fun _ _ => false, fun _ _ => false, fun _ _ => false⟩

def healthy : Health String := fun _ _ _ => ⟨.present, .passed⟩

theorem lintWork_reviewedOnce : ReviewedOnce noMatch ["rust"] healthy lintWork lintLoader :=
  reviewedOnce (by decide)

example : rulesRead (fanOut noMatch ["rust"] healthy lintWork lintLoader) "rust" "src/lib.rs" =
    ["naming"] := rfl

end

end SwissArmyHammer.Review.FanOut
