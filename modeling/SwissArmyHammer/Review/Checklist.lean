import Mathlib.Data.Finset.Card
import Mathlib.Data.List.Dedup
import Mathlib.Data.Prod.Lex
import Mathlib.Data.String.Basic
import SwissArmyHammer.Common.StableSort
import SwissArmyHammer.Review.Guard

/-! The report of a review: what it says about the run, and the checklist of its findings. -/

namespace SwissArmyHammer.Review

structure FleetTally where
  attempted : Nat
  failed : Nat
  deriving DecidableEq, Repr

structure ToolRunError where
  validator : String
  rule : String
  detail : String
  deriving DecidableEq, Repr

structure ToolDiagnostic where
  validator : String
  rule : String
  message : String
  deriving DecidableEq, Repr

structure ToolFallback where
  validator : String
  rule : String
  supersedes : List String
  detail : String
  deriving DecidableEq, Repr

structure ToolReport where
  attempted : Nat
  errors : List ToolRunError
  diagnostics : List ToolDiagnostic
  fallbacks : List ToolFallback
  deriving DecidableEq, Repr

def ToolReport.isInert (tools : ToolReport) : Bool :=
  tools.attempted = 0 ∧ tools.errors = [] ∧ tools.fallbacks = [] ∧ tools.diagnostics = []

structure ReviewedScope where
  op : String
  subject : ReviewSubject
  files : Nat
  resolved : Nat
  deriving DecidableEq, Repr

structure ReviewCounts where
  findings : Nat
  confirmed : Nat
  refuted : Nat
  tasksAttempted : Nat
  tasksFailed : Nat
  skipped : Nat
  skippedFiles : List String
  toolErrors : Nat
  deriving DecidableEq, Repr

structure ReviewReport where
  markdown : String
  counts : ReviewCounts
  deriving DecidableEq, Repr

structure SkipGroup where
  largest : Nat
  cap : Nat
  validators : List String
  deriving DecidableEq, Repr

def sortAsc {α R : Type} [LinearOrder R] (value : α → R) (l : List α) : List α :=
  sortDesc (fun a => OrderDual.toDual (value a)) l

def addSkip (groups : IndexMap String SkipGroup) (skip : SkippedFile) :
    IndexMap String SkipGroup :=
  let group := (groups.get? skip.path).getD ⟨0, skip.cap, []⟩
  groups.insert skip.path
    ⟨max group.largest skip.size, group.cap, group.validators ++ [skip.validator]⟩

def groupSkipsByPath (skipped : List SkippedFile) : List (String × SkipGroup) :=
  (sortAsc Prod.fst (skipped.foldl addSkip .empty).entries).map fun e =>
    (e.1, { e.2 with validators := sortAsc id e.2.validators })

def fileStartLine : Nat := 1

def skipFindingValidator : String := "review-engine"

def skipFindingRule : String := "prompt-cap"

def joinComma (names : List String) : String := String.intercalate ", " names

def skipFinding (entry : String × SkipGroup) : VerifiedFinding where
  finding :=
    { file := entry.1
      line := fileStartLine
      validator := skipFindingValidator
      rule := some skipFindingRule
      claim := "This file exceeds the review prompt cap — " ++ toString entry.2.largest ++
        " rendered bytes against the " ++ toString entry.2.cap ++
        "-byte per-file cap — so these validators could not review it: " ++
        joinComma entry.2.validators
      evidence := "batch packer: the file's rendered block alone is " ++
        toString entry.2.largest ++ " bytes, over the " ++ toString entry.2.cap ++
        "-byte per-file cap"
      suggestion := some "Split the file into smaller modules that fit the review prompt cap" }
  confirmed := true
  reason := "the batch packer measured the rendered block over the per-file cap — " ++
    "a deterministic measurement, not a judgement"
  decidedBy := none

def skipFindings (byPath : List (String × SkipGroup)) : List VerifiedFinding :=
  byPath.map skipFinding

def notReviewedPaths (byPath : List (String × SkipGroup)) (excluded : List ExcludedFile) :
    List String :=
  sortAsc id (dedupByKey id (byPath.map Prod.fst ++ excluded.map ExcludedFile.path))

def ReviewSubject.describe : ReviewSubject → String
  | diffs => "the diffs only — lines this change added or modified"
  | files => "the whole of each named file"

def renderScope (scope : ReviewedScope) (notReviewed : Nat) : String :=
  "\n> Scope: `" ++ scope.op ++ "` — reviewed " ++ scope.subject.describe ++ ". " ++
    toString scope.files ++ " file(s) reviewed, " ++ toString notReviewed ++ " not reviewed."

def renderFailedTasks (tally : FleetTally) : List String :=
  if 0 < tally.failed then
    ["\n> ⚠️ " ++ toString tally.failed ++ "/" ++ toString tally.attempted ++
      " review tasks failed — results are INCOMPLETE."]
  else []

def renderSkips (byPath : List (String × SkipGroup)) : List String :=
  if byPath = [] then []
  else
    ("\n> ⚠️ " ++ toString byPath.length ++
        " file(s) not reviewed — the rendered prompt would exceed the agent's prompt cap:") ::
      byPath.map fun e =>
        "> - `" ++ e.1 ++ "` — " ++ toString e.2.largest ++ " rendered bytes, over the " ++
          toString e.2.cap ++ "-byte per-file cap; not reviewed by: " ++
          joinComma e.2.validators ++ " (split the file)"

def countByReason (excluded : List ExcludedFile) (kind : ExclusionKind) : List (String × Nat) :=
  let reasons := (excluded.filter fun file => file.kind = kind).map ExcludedFile.reason
  (sortAsc id (dedupByKey id reasons)).map fun reason => (reason, reasons.count reason)

def renderIgnoredFiles (excluded : List ExcludedFile) : List String :=
  let byPattern := countByReason excluded .reviewIgnore
  if byPattern = [] then []
  else
    ("\n> " ++ toString (byPattern.map Prod.snd).sum ++
        " file(s) not reviewed — excluded by an ignore rule:") ::
      byPattern.map fun e => "> - `" ++ e.1 ++ "` — " ++ toString e.2 ++ " file(s)"

def renderFixtureFiles (excluded : List ExcludedFile) : List String :=
  let fixtures := excluded.filter fun file => file.kind = .validatorFixture
  if fixtures = [] then []
  else
    ("\n> " ++ toString fixtures.length ++
        " file(s) not reviewed — excluded from the review scope:") ::
      fixtures.map fun file => "> - `" ++ file.path ++ "` — " ++ file.reason

def renderFullExclusion (scope : ReviewedScope) (excluded : List ExcludedFile) : List String :=
  if scope.resolved = 0 ∨ excluded.length < scope.resolved then []
  else
    [String.join ["\n> Every file in scope was excluded — ", toString excluded.length, " of ",
      toString scope.resolved, " file(s) — so nothing was left to review. The exclusions above ",
      "are deliberate: this is a clean review, not an empty scope, a failed run, or a size-cap ",
      "skip."]]

def quoteLines (text : String) : List String :=
  (Text.lines text.toList).map fun line => "> " ++ String.ofList line

def renderToolErrors (tools : ToolReport) : List String :=
  tools.errors.flatMap fun error =>
    ("\n> ⚠️ tool rule '" ++ error.validator ++ "/" ++ error.rule ++
      "' failed — the tool judged nothing, so its findings are missing:") ::
        quoteLines error.detail

def renderToolDiagnostics (tools : ToolReport) : List String :=
  tools.diagnostics.flatMap fun diagnostic =>
    ("\n> ⚠️ tool rule '" ++ diagnostic.validator ++ "/" ++ diagnostic.rule ++
      "' declined an item — it judged the rest of the code, and this it could not judge:") ::
        quoteLines diagnostic.message

def promptRulePhrase (supersedes : List String) : String :=
  if supersedes = [] then ""
  else
    "prompt " ++ (if supersedes.length = 1 then "rule" else "rules") ++ " " ++
      joinComma (supersedes.map fun name => "'" ++ name ++ "'")

def renderToolFallbacks (tools : ToolReport) : List String :=
  tools.fallbacks.map fun fallback =>
    let note := if fallback.supersedes = [] then "no prompt rule is named to run instead"
      else promptRulePhrase fallback.supersedes ++ " ran instead"
    "\n> tool rule '" ++ fallback.validator ++ "/" ++ fallback.rule ++ "' is unavailable (" ++
      fallback.detail ++ "); " ++ note ++ "."

def unattributedRule : String := "unattributed"

def Finding.attribution (finding : Finding) : String :=
  finding.validator ++ "/" ++ finding.rule.getD unattributedRule

def sentence (text : String) : String :=
  let trimmed := trim text
  if trimmed.toList.getLast?.any fun c => c = '.' || c = '!' || c = '?' then trimmed
  else trimmed ++ "."

def renderItemBody (finding : Finding) : String :=
  sentence finding.claim ++
    finding.suggestion.elim "" fun suggestion =>
      if trim suggestion = "" then "" else " " ++ sentence (trim suggestion)

def itemPlace (finding : Finding) : String :=
  "- [ ] `" ++ finding.file ++ ":" ++ toString finding.line ++ "` "

def renderItem (finding : Finding) : String :=
  itemPlace finding ++ "`" ++ finding.attribution ++ "` — " ++ renderItemBody finding

abbrev FindingKey := String × Nat × String × Option String × String

def Finding.key (f : Finding) : FindingKey := (f.file, f.line, f.validator, f.rule, f.claim)

def dedupExact (findings : List VerifiedFinding) : List VerifiedFinding :=
  dedupByKey (fun v => v.finding.key) findings

def Finding.place (f : Finding) : String ×ₗ Nat := toLex (f.file, f.line)

section

variable (verified : List VerifiedFinding) (tally : FleetTally) (skipped : List SkippedFile)
  (excluded : List ExcludedFile) (tools : ToolReport) (scope : ReviewedScope) (now : String)

def allFindings : List VerifiedFinding := verified ++ skipFindings (groupSkipsByPath skipped)

def keptFindings : List VerifiedFinding :=
  dedupExact ((allFindings verified skipped).filter VerifiedFinding.confirmed)

def orderedFindings : List Finding :=
  (sortAsc (fun v => v.finding.place) (keptFindings verified skipped)).map VerifiedFinding.finding

def preamble : List String :=
  let byPath := groupSkipsByPath skipped
  ["## Review Findings (" ++ now ++ ")",
    renderScope scope (notReviewedPaths byPath excluded).length] ++
  renderFailedTasks tally ++ renderSkips byPath ++ renderIgnoredFiles excluded ++
  renderFixtureFiles excluded ++ renderToolErrors tools ++ renderToolDiagnostics tools ++
  renderToolFallbacks tools ++ renderFullExclusion scope excluded ++
  if tally.attempted = 0 ∧ keptFindings verified skipped = [] ∧ skipped = [] ∧ excluded = [] ∧
      tools.isInert then ["\nNothing in scope to review."]
  else []

def writelns (texts : List String) : String := String.join (texts.map fun text => text ++ "\n")

def synthesize : ReviewReport :=
  let byPath := groupSkipsByPath skipped
  let all := allFindings verified skipped
  let ordered := orderedFindings verified skipped
  let confirmed := (all.filter VerifiedFinding.confirmed).length
  { markdown := writelns (preamble verified tally skipped excluded tools scope now ++
      if ordered = [] then [] else "" :: ordered.map renderItem)
    counts :=
      { findings := ordered.length
        confirmed
        refuted := all.length - confirmed
        tasksAttempted := tally.attempted
        tasksFailed := tally.failed
        skipped := byPath.length
        skippedFiles := notReviewedPaths byPath excluded
        toolErrors := tools.errors.length } }

end

end SwissArmyHammer.Review

/-! The checklist of a review report has one line for each finding that is kept, unless some other
text of the report makes a line that looks like one. -/

namespace SwissArmyHammer.Review

section

def box : List Char := ['-', ' ', '[', ' ', ']', ' ']

def checklist (markdown : String) : List (List Char) :=
  (Text.lines markdown.toList).filter fun line => box <+: line

def linesOf (text : String) : List (List Char) := Text.lines (text.toList ++ ['\n'])

variable {text : String} {texts : List String} {r l p : List Char}

theorem lines_writelns (texts : List String) :
    Text.lines (writelns texts).toList = texts.flatMap linesOf := by
  induction texts with
  | nil => rfl
  | cons text texts ih =>
    have hcons : (writelns (text :: texts)).toList =
        (text.toList ++ ['\n']) ++ (writelns texts).toList := by
      rw [writelns, List.map_cons, String.join_cons, String.toList_append, String.toList_append]
      rfl
    rw [hcons, Text.lines, Text.splitInclusive_append (.inr (by simp)), List.map_append]
    exact congrArg _ ih

theorem prefix_stripCr (hlast : p.getLast? ≠ some '\r') :
    p <+: (Text.stripSuffix '\r' l).getD l ↔ p <+: l := by
  cases hstrip : Text.stripSuffix '\r' l with
  | none => rfl
  | some l' =>
    rw [Text.stripSuffix_eq_some] at hstrip
    rw [hstrip, List.prefix_concat_iff]
    refine ⟨.inr, fun h => h.resolve_left fun heq => hlast ?_⟩
    rw [heq, List.getLast?_concat]

theorem linesOf_eq_cons (text : String) : ∃ line rest, linesOf text = line :: rest ∧
    ∀ p : List Char, p.getLast? ≠ some '\r' →
      (p <+: line ↔ p <+: text.toList ∧ '\n' ∉ p) := by
  have hin : '\n' ∈ text.toList ++ ['\n'] := by simp
  obtain ⟨l, rest, hsplit, hl⟩ := List.eq_append_cons_of_mem hin
  refine ⟨(Text.stripSuffix '\r' l).getD l, Text.lines rest, ?_, fun p hlast => ?_⟩
  · rw [linesOf, hsplit, Text.lines, Text.splitInclusive_line hl, List.map_cons,
      Text.stripEol_concat, Text.lines]
  · have hprefix : l ++ ['\n'] <+: text.toList ++ ['\n'] := ⟨rest, by rw [hsplit]; simp⟩
    have hlen := hprefix.length_le
    simp only [List.length_append, List.length_singleton, Nat.add_le_add_iff_right] at hlen
    rw [prefix_stripCr hlast]
    constructor
    · intro hp
      have hl' : l <+: text.toList := List.prefix_of_prefix_length_le
        ((List.prefix_append l ['\n']).trans hprefix) (List.prefix_append _ _) hlen
      exact ⟨hp.trans hl', fun hmem => hl (hp.subset hmem)⟩
    · rintro ⟨hp, hmem⟩
      have hp' := hp.trans (List.prefix_append text.toList ['\n'])
      rcases Nat.lt_or_ge l.length p.length with hlt | hge
      · have hlp := List.prefix_of_prefix_length_le hprefix hp' (by
          rw [List.length_append]
          exact hlt)
        exact absurd (hlp.subset (by simp)) hmem
      · exact List.prefix_of_prefix_length_le hp'
          ((List.prefix_append l ['\n']).trans hprefix) hge

def boxes (text : String) : List (List Char) := (linesOf text).filter fun line => box <+: line

theorem checklist_writelns (texts : List String) :
    checklist (writelns texts) = texts.flatMap boxes := by
  rw [checklist, lines_writelns, List.filter_flatMap]
  rfl

def laterBoxes (finding : Finding) : List (List Char) :=
  (linesOf (renderItem finding)).tail.filter fun line => box <+: line

theorem itemPlace_prefix (f : Finding) : (itemPlace f).toList <+: (renderItem f).toList := by
  rw [renderItem, String.toList_append, String.toList_append, String.toList_append,
    String.toList_append]
  simp only [List.append_assoc]
  exact List.prefix_append _ _

def tick : Char := Char.ofNat 96

theorem itemPlace_toList (f : Finding) : (itemPlace f).toList =
    box ++ (tick :: (f.file.toList ++ ':' :: (Nat.toDigits 10 f.line ++ [tick]))) ++ [' '] := by
  have hopen : "- [ ] `".toList = box ++ [tick] := Text.toList_eq rfl
  have hcolon : ":".toList = [':'] := Text.toList_eq rfl
  have hclose : "` ".toList = [tick, ' '] := Text.toList_eq rfl
  rw [itemPlace, String.toList_append, String.toList_append, String.toList_append,
    String.toList_append, hopen, hclose, Nat.toString_eq_repr, Nat.toList_repr]
  simp

theorem not_mem_itemPlace (f : Finding) :
    '\n' ∉ (itemPlace f).toList ↔ '\n' ∉ f.file.toList := by
  have hdigits : '\n' ∉ Nat.toDigits 10 f.line := fun hmem =>
    absurd (Nat.isDigit_of_mem_toDigits (by decide) (by decide) hmem) (by decide)
  have htick : '\n' ≠ tick := by decide
  have hbox : '\n' ∉ box := by decide
  rw [itemPlace_toList]
  simp [hdigits, htick, hbox]

theorem boxes_renderItem (f : Finding) : ∃ line, boxes (renderItem f) = line :: laterBoxes f ∧
    ((itemPlace f).toList <+: line ↔ '\n' ∉ f.file.toList) := by
  obtain ⟨line, rest, hlines, hline⟩ := linesOf_eq_cons (renderItem f)
  have hplace := itemPlace_prefix f
  have hstart : box <+: (itemPlace f).toList := by
    rw [itemPlace_toList, List.append_assoc]
    exact List.prefix_append _ _
  have hlast : (itemPlace f).toList.getLast? ≠ some '\r' := by
    rw [itemPlace_toList, List.getLast?_concat]
    decide
  have hbox : box <+: line := (hline box (by decide)).mpr ⟨hstart.trans hplace, by decide⟩
  refine ⟨line, ?_, ?_⟩
  · rw [boxes, laterBoxes, hlines, List.filter_cons_of_pos (by simpa using hbox), List.tail_cons]
  · rw [hline _ hlast, not_mem_itemPlace]
    exact and_iff_right hplace

theorem laterBoxes_eq_nil {f : Finding} : laterBoxes f = [] ↔
    ∀ line ∈ (linesOf (renderItem f)).tail, ¬ box <+: line := by
  simp [laterBoxes, List.filter_eq_nil_iff]

theorem boxes_eq_nil : boxes text = [] ↔ ∀ line ∈ linesOf text, ¬ box <+: line := by
  simp [boxes, List.filter_eq_nil_iff]

theorem length_boxes_items (findings : List Finding) :
    (findings.flatMap fun f => boxes (renderItem f)).length =
      findings.length + (findings.map fun f => (laterBoxes f).length).sum := by
  induction findings with
  | nil => rfl
  | cons f findings ih =>
    obtain ⟨line, hboxes, -⟩ := boxes_renderItem f
    rw [List.flatMap_cons, List.length_append, hboxes, List.length_cons, List.length_cons,
      List.map_cons, List.sum_cons]
    omega

theorem listed_items_iff (findings : List Finding) (h : ∀ f ∈ findings, laterBoxes f = []) :
    List.Forall₂ (fun f line => (itemPlace f).toList <+: line) findings
        (findings.flatMap fun f => boxes (renderItem f)) ↔
      ∀ f ∈ findings, '\n' ∉ f.file.toList := by
  induction findings with
  | nil => simp
  | cons f findings ih =>
    obtain ⟨line, hboxes, hplace⟩ := boxes_renderItem f
    rw [List.flatMap_cons, hboxes, h f List.mem_cons_self, List.singleton_append,
      List.forall₂_cons, hplace, ih fun g hg => h g (List.mem_cons_of_mem f hg),
      List.forall_mem_cons]

end

section

variable {verified : List VerifiedFinding} {skipped : List SkippedFile}

theorem mem_keys_addSkip (skipped : List SkippedFile) (groups : IndexMap String SkipGroup)
    (path : String) : (∃ group, (skipped.foldl addSkip groups).get? path = some group) ↔
      (∃ group, groups.get? path = some group) ∨ path ∈ skipped.map SkippedFile.path := by
  induction skipped generalizing groups with
  | nil => simp
  | cons skip skipped ih =>
    rw [List.foldl_cons, ih, List.map_cons, List.mem_cons]
    rw [addSkip]
    by_cases hpath : path = skip.path
    · simp [hpath]
    · simp [hpath, IndexMap.get?_insert_of_ne hpath]

theorem map_fst_groupSkips (skipped : List SkippedFile) :
    ((groupSkipsByPath skipped).map Prod.fst).Nodup ∧
      ∀ path, path ∈ (groupSkipsByPath skipped).map Prod.fst ↔
        path ∈ skipped.map SkippedFile.path := by
  have hmap : (groupSkipsByPath skipped).map Prod.fst =
      (sortAsc Prod.fst (skipped.foldl addSkip .empty).entries).map Prod.fst := by
    rw [groupSkipsByPath, List.map_map]
    rfl
  have hperm := (sortDesc_perm (fun e : String × SkipGroup => OrderDual.toDual e.1)
    (skipped.foldl addSkip .empty).entries).map Prod.fst
  rw [hmap]
  refine ⟨hperm.nodup_iff.mpr (skipped.foldl addSkip .empty).nodup, fun path => ?_⟩
  have hkeys := mem_keys_addSkip skipped .empty path
  have hempty : ¬ ∃ group, (IndexMap.empty : IndexMap String SkipGroup).get? path = some group := by
    simp [IndexMap.get?, IndexMap.empty, IndexMap.lookup]
  rw [or_iff_right hempty] at hkeys
  rw [sortAsc, hperm.mem_iff, ← hkeys, List.mem_map]
  simp only [IndexMap.get?_eq_some_iff, Prod.exists, exists_and_right, exists_eq_right]

theorem nodup_keys_skipFindings (skipped : List SkippedFile) :
    ((skipFindings (groupSkipsByPath skipped)).map fun v => v.finding.key).Nodup := by
  rw [skipFindings, List.map_map]
  refine List.Nodup.of_map (fun key : FindingKey => key.1) ?_
  rw [List.map_map]
  exact (map_fst_groupSkips skipped).1

theorem filter_confirmed_all (verified : List VerifiedFinding) (skipped : List SkippedFile) :
    (allFindings verified skipped).filter VerifiedFinding.confirmed =
      verified.filter VerifiedFinding.confirmed ++ skipFindings (groupSkipsByPath skipped) := by
  rw [allFindings, List.filter_append]
  refine congrArg _ (List.filter_eq_self.mpr fun v hv => ?_)
  obtain ⟨e, -, rfl⟩ := List.mem_map.mp hv
  rfl

theorem orderedFindings_perm (verified : List VerifiedFinding) (skipped : List SkippedFile) :
    (orderedFindings verified skipped).Perm
      ((keptFindings verified skipped).map VerifiedFinding.finding) :=
  (sortDesc_perm _ _).map _

theorem length_orderedFindings (verified : List VerifiedFinding) (skipped : List SkippedFile) :
    (orderedFindings verified skipped).length =
      ((verified.filter VerifiedFinding.confirmed).map fun v => v.finding.key).dedup.length +
        ((skipFindings (groupSkipsByPath skipped)).filter fun v => v.finding.key ∉
          (verified.filter VerifiedFinding.confirmed).map fun v => v.finding.key).length := by
  have hkept : (orderedFindings verified skipped).length =
      (((allFindings verified skipped).filter VerifiedFinding.confirmed).map
        fun v => v.finding.key).dedup.length := by
    rw [(orderedFindings_perm verified skipped).length_eq, List.length_map, keptFindings,
      dedupExact, ← List.length_map (fun v : VerifiedFinding => v.finding.key)]
    have hnodup : ((dedupByKey (fun v : VerifiedFinding => v.finding.key)
        ((allFindings verified skipped).filter VerifiedFinding.confirmed)).map
          fun v => v.finding.key).Nodup := nodup_dedupByKey _
    refine (List.perm_of_nodup_nodup_toFinset_eq hnodup (List.nodup_dedup _) ?_).length_eq
    ext key
    simp only [List.mem_toFinset, List.mem_dedup]
    refine ⟨fun h => ((dedupByKey_sublist _).map _).subset h, fun h => ?_⟩
    obtain ⟨v, hv, rfl⟩ := List.mem_map.mp h
    exact key_mem_dedupByKey hv
  rw [hkept, filter_confirmed_all, ← List.length_map (fun v : VerifiedFinding => v.finding.key), ← List.length_append]
  refine (List.perm_of_nodup_nodup_toFinset_eq (List.nodup_dedup _) ?_ ?_).length_eq
  · refine List.nodup_append.mpr ⟨List.nodup_dedup _,
      (nodup_keys_skipFindings skipped).sublist (List.filter_sublist.map _), ?_⟩
    intro key hkey key' hkey' heq
    obtain ⟨v, hv, rfl⟩ := List.mem_map.mp hkey'
    exact of_decide_eq_true (List.mem_filter.mp hv).2 (heq ▸ List.mem_dedup.mp hkey)
  · ext key
    simp only [List.mem_toFinset, List.mem_dedup, List.mem_append]
    constructor
    · grind
    · grind

theorem mem_keptFindings {v : VerifiedFinding} (h : v ∈ keptFindings verified skipped) :
    v ∈ allFindings verified skipped ∧ v.confirmed = true :=
  List.mem_filter.mp ((dedupByKey_sublist _).subset h)

theorem keys_orderedFindings (verified : List VerifiedFinding) (skipped : List SkippedFile) :
    ((orderedFindings verified skipped).map Finding.key).Nodup ∧
      ∀ key, key ∈ (orderedFindings verified skipped).map Finding.key ↔
        ∃ v ∈ allFindings verified skipped, v.confirmed = true ∧ v.finding.key = key := by
  have hperm := (orderedFindings_perm verified skipped).map Finding.key
  rw [List.map_map] at hperm
  refine ⟨hperm.nodup_iff.mpr (nodup_dedupByKey _), fun key => ?_⟩
  rw [hperm.mem_iff]
  constructor
  · intro h
    obtain ⟨v, hv, rfl⟩ := List.mem_map.mp h
    exact ⟨v, (mem_keptFindings hv).1, (mem_keptFindings hv).2, rfl⟩
  · rintro ⟨v, hv, hconfirmed, rfl⟩
    exact key_mem_dedupByKey (List.mem_filter.mpr ⟨hv, hconfirmed⟩)

theorem pairwise_orderedFindings (verified : List VerifiedFinding) (skipped : List SkippedFile) :
    (orderedFindings verified skipped).Pairwise fun f g => f.place ≤ g.place :=
  List.pairwise_map.mpr (pairwise_sortDesc (fun v : VerifiedFinding =>
    OrderDual.toDual v.finding.place) _)

theorem filter_orderedFindings (place : String ×ₗ Nat) :
    (orderedFindings verified skipped).filter (fun f => f.place = place) =
      ((keptFindings verified skipped).map VerifiedFinding.finding).filter
        fun f => f.place = place := by
  rw [orderedFindings, List.filter_map, List.filter_map, sortAsc, filter_sortDesc]
  refine congrArg _ ?_
  have hall : ∀ v ∈ (keptFindings verified skipped).filter
      ((fun f => decide (f.place = place)) ∘ VerifiedFinding.finding),
      v.finding.place = place := fun v hv => of_decide_eq_true (List.mem_filter.mp hv).2
  rw [sortDesc]
  exact (List.pairwise_of_forall_mem_list fun v hv w hw => by
    rw [hall v hv, hall w hw]).insertionSort_eq

end

section

variable (verified : List VerifiedFinding) (tally : FleetTally) (skipped : List SkippedFile)
  (excluded : List ExcludedFile) (tools : ToolReport) (scope : ReviewedScope) (now : String)

/-- The checklist of a report is that of its findings. `counted` counts the distinct keys of the
confirmed findings and the distinct skipped paths that are not already reported so, and `listed`
gives each kept finding its line, in order. -/
structure Faithful (report : ReviewReport) : Prop where
  boxes : (checklist report.markdown).length = report.counts.findings
  counted : report.counts.findings =
    ((verified.filter VerifiedFinding.confirmed).map fun v => v.finding.key).dedup.length +
      ((skipFindings (groupSkipsByPath skipped)).filter fun v => v.finding.key ∉
        (verified.filter VerifiedFinding.confirmed).map fun v => v.finding.key).length
  paths : ((groupSkipsByPath skipped).map Prod.fst).Nodup ∧
    ∀ path, path ∈ (groupSkipsByPath skipped).map Prod.fst ↔ path ∈ skipped.map SkippedFile.path
  keys : ((orderedFindings verified skipped).map Finding.key).Nodup ∧
    ∀ key, key ∈ (orderedFindings verified skipped).map Finding.key ↔
      ∃ v ∈ allFindings verified skipped, v.confirmed = true ∧ v.finding.key = key
  listed : List.Forall₂ (fun f line => (itemPlace f).toList <+: line)
    (orderedFindings verified skipped) (checklist report.markdown)
  ordered : (orderedFindings verified skipped).Pairwise fun f g => f.place ≤ g.place
  stable : ∀ place, (orderedFindings verified skipped).filter (fun f => f.place = place) =
    ((keptFindings verified skipped).map VerifiedFinding.finding).filter fun f => f.place = place
  confirmed : ∀ f ∈ orderedFindings verified skipped,
    ∃ v ∈ allFindings verified skipped, v.confirmed = true ∧ v.finding = f

/-- No text but the first line of an item makes a line that looks like an item, and each finding
names a file on one line. -/
structure OnlyItems : Prop where
  preamble : ∀ text ∈ preamble verified tally skipped excluded tools scope now,
    ∀ line ∈ linesOf text, ¬ box <+: line
  later : ∀ f ∈ orderedFindings verified skipped, ∀ line ∈ (linesOf (renderItem f)).tail,
    ¬ box <+: line
  oneLine : ∀ f ∈ orderedFindings verified skipped, '\n' ∉ f.file.toList

theorem checklist_synthesize :
    checklist (synthesize verified tally skipped excluded tools scope now).markdown =
      (preamble verified tally skipped excluded tools scope now).flatMap boxes ++
        (orderedFindings verified skipped).flatMap fun f => boxes (renderItem f) := by
  have hempty : boxes "" = [] := rfl
  rw [synthesize]
  rw [checklist_writelns, List.flatMap_append]
  split
  · rename_i hnone
    rw [hnone]
    rfl
  · rw [List.flatMap_cons, hempty, List.nil_append, List.flatMap_map]

def boxedClaim : Finding := ⟨"a.rs", 1, "v", none, "x\n- [ ] y", "", none⟩

theorem laterBoxes_boxedClaim : laterBoxes boxedClaim = [['-', ' ', '[', ' ', ']', ' ', 'y', '.']] := by
  decide

end

end SwissArmyHammer.Review
