import SwissArmyHammer.Review.Batches

/-! Every text that a review prompts its agents with: the shared prime of a run, the suffix and the
whole prompt of one validator, and the measures of their framing. -/

namespace SwissArmyHammer.Review

structure Rule where
  name : String
  body : String
  isToolRule : Bool
  deriving DecidableEq, Repr

structure RuleSet where
  description : String
  manifestBody : String
  rules : List Rule
  deriving DecidableEq, Repr

/-- `get_ruleset`. -/
abbrev ValidatorLoader := String → Option RuleSet

def agentPromptCap : Nat := 512 * 1024

def maxFileBlockBytes : Nat := agentPromptCap / 2

def maxFramingBytes : Nat := agentPromptCap - maxFileBlockBytes

def maxSharedEvidenceBytes : Nat := maxFramingBytes / 2

structure FleetConfig where
  batchSize : Nat
  deriving DecidableEq, Repr

def FleetConfig.new (batchSize : Nat) : FleetConfig := ⟨min batchSize agentPromptCap⟩

def FleetConfig.default : FleetConfig := .new agentPromptCap

def FleetConfig.filePayloadBudget (config : FleetConfig) (framing : Nat) : Nat :=
  min config.batchSize (agentPromptCap - framing)

def FleetConfig.fileBlockCap (config : FleetConfig) : Nat := min config.batchSize maxFileBlockBytes

def FleetConfig.batchBudget (config : FleetConfig) (framing : Nat) : BatchBudget :=
  ⟨config.fileBlockCap, config.filePayloadBudget framing⟩

def changePurposeHeader : String := "# Change purpose\n\n"

def primeHandoff : String :=
  "Reply with exactly OK. The rules to review against arrive in the next message.\n"

def validatorHeader : String := "# Validator: "

def mandateHeader : String := "## Mandate\n\n"

def focusFilesDiffs : String :=
  String.join [
    "## Files in scope\n\nApply the rules below to the lines these files' blocks mark with `+` ",
    "— the lines this change added or modified. Those lines are what you REVIEW: every finding ",
    "must land on one of them. The unmarked lines around them are there to CONSIDER — read them ",
    "to judge the change correctly, and never report a finding on one. A defect that was ",
    "already there before this change is out of scope, however real it is and whatever rule ",
    "matches it.\n\n"]

def focusFilesWhole : String :=
  String.join [
    "## Files in scope\n\nApply the rules below to the WHOLE current contents of each file ",
    "listed here — their complete current source is already provided above. Review every line ",
    "of these files: the caller asked about these files themselves, so a rule that fires ",
    "anywhere in one of them is in scope and must be reported now.\n\n"]

def filePayloadHeader : String := "# Files under review\n\n"

def sharedEvidenceHeader : String := "# Shared evidence\n\n"

def diffBlockHeader : String :=
  String.join [
    "### The change in this file\n\nThe lines marked `+` below are the lines this change added ",
    "or modified. Those lines are what you REVIEW: every finding you report on this file must ",
    "land on one of them. The unmarked lines are printed around them as context to CONSIDER — ",
    "read them to judge the marked lines correctly, and never report a finding on one. A defect ",
    "that was already there before this change is out of scope, however real it is and whatever ",
    "rule matches it.\n\nLong unchanged stretches are elided; `read_file` this path when you ",
    "need more of the file to judge a marked line.\n\n"]

def wholeFileBlockHeader : String :=
  String.join [
    "### Full current contents\n\nThis is the COMPLETE current source of the file. You do not ",
    "need to read this file — it is provided here in full. The caller asked about this file ",
    "itself, so the whole file is what you REVIEW: report every place a rule fires anywhere in ",
    "it, including instances that sit outside the change described below.\n\n"]

def diffSemanticHeader : String :=
  String.join [
    "### What changed (semantic diff)\n\nThe entities below are the ones this change touched — ",
    "the same change the marked lines above carry, named at entity level.\n\n"]

def wholeFileSemanticHeader : String :=
  String.join [
    "### What changed (semantic diff — orientation only, NOT the review boundary)\n\nThe ",
    "entities below are what this change touched, to orient you. They are context to CONSIDER, ",
    "not the review boundary: do NOT limit findings to these lines. Review the whole file above ",
    "and report every instance of every rule.\n\n"]

def lineFormatLegend : String :=
  String.join [
    "Each line below is numbered and shows the commit that last changed it, in this exact ",
    "layout: `\x7bline:>6\x7d | \x7bsha:8\x7d \x7bmark\x7d | \x7btext\x7d`.\n\n- `line` — the ",
    "1-based line number. READ this number for any `Finding.line` you report — do NOT count ",
    "lines yourself; counting is exactly how a cited line number drifts wrong, worse the deeper ",
    "into the file it sits.\n- `sha` — the first 8 characters of the commit that last changed ",
    "the line, or `worktree` (an uncommitted line — including every line of a brand-new file), ",
    "`untrackd` (git does not track this file), or `????????` (blame could not be determined).\n",
    "- `mark` — `+` when THIS review's change touched the line, a space when it did not. A rule ",
    "that excludes pre-existing code reads this mark, never the sha (the sha attributes a line ",
    "to a commit; only the mark says whether this change touched it).\n- Everything after the ",
    "second `|` is the unmodified source line, exactly as it appears in the file.\n\n"]

def noChangedLines : String :=
  String.join [
    "_This change added or modified no line in this file, so there is nothing here to REVIEW. ",
    "Report no finding on it._\n\n"]

def readingFilesDiffs : String :=
  String.join [
    "## Reading files\n\nThe change under review is already provided — each file's added and ",
    "modified lines are inlined above, with the unchanged lines around them for context, and ",
    "long unchanged stretches elided. `read_file`/`glob`/`grep` are available: reach for them ",
    "when you need more of a file than its block shows in order to judge a marked line, or for ",
    "another file entirely — cross-file duplication evidence, a changed symbol's callers, a ",
    "type defined elsewhere.\n\n"]

def readingFilesWhole : String :=
  String.join [
    "## Reading files\n\nThe files under review are already provided in full — their COMPLETE ",
    "current contents are inlined above, so do NOT `read_file` (or `glob`/`grep`) them; you ",
    "already have them. `read_file`/`glob`/`grep` remain available, but only for OTHER files: ",
    "cross-file duplication evidence, a changed symbol's callers, or a type defined elsewhere. ",
    "Reach for them only when a finding genuinely depends on a file that is not already inlined ",
    "here.\n\n"]

def reviewScopeDiffs : String :=
  String.join [
    "## Review scope\n\nREVIEW the lines marked `+` — the lines this change added or modified. ",
    "Every finding you report must land on one of them; a finding that lands anywhere else is ",
    "refuted before it reaches the report.\n\nCONSIDER everything else: the unmarked lines ",
    "printed around the change, the \"What changed\" semantic diff, the probe evidence, and any ",
    "file you read. Context is what you judge the change against, and it is never itself the ",
    "subject of a finding. A defect that was already there before this change is out of scope, ",
    "however real it is, and even when a rule below plainly matches it.\n\n"]

def reviewScopeWhole : String :=
  String.join [
    "## Review scope\n\nREVIEW the whole current file, not only the changed lines. The caller ",
    "asked about these files themselves, so each is inlined above in full: review every line of ",
    "it. Pre-existing instances of a rule — ones that were already there before the last ",
    "change, anywhere in a named file — are in scope and must be reported now, in this same ",
    "pass, alongside instances in the changed region.\n\nCONSIDER the \"What changed\" semantic ",
    "diff and the probe evidence: they are orientation only. The diff tells you what the last ",
    "change touched; it is NOT the review boundary and NOT where to limit your search.\n\n"]

def findingFields : String :=
  String.join [
    "## Output contract\n\nOnce you have reviewed what the section above puts in scope (reading ",
    "other files only if needed), reply with your findings as a JSON array, written directly as ",
    "the plain text of your reply — the reply is parsed as JSON. The findings reply itself must ",
    "be plain JSON text, never a tool call: a tool call is not a valid way to report findings.\n",
    "\nEach finding is one object with these fields:\n\n- `file`: the path of the file the ",
    "finding is about.\n- `line`: the 1-based line number the finding points at.\n- `rule`: ",
    "which rule of this validator fired — copy one of the `### Rule:` names listed above, ",
    "spelled exactly as it appears there. A name that is not one of them cannot be traced back ",
    "to a rule.\n- `claim`: what is wrong AND why it matters — one concern per finding.\n- ",
    "`evidence`: the proof the issue is real — cite the injected probe result (e.g. \"per ",
    "`duplicates`: 0.94 at `bar.rs:88`\") or a `file:line` citation.\n- `suggestion`: the fix.\n",
    "\n"]

def completenessDiffs : String :=
  String.join [
    "Report every occurrence of every rule that fires, in this single pass — across every ",
    "marked line, not just the first: when a rule matches on several marked lines, emit a ",
    "separate finding for each match — one finding per `file:line`. Do not stop at the first ",
    "match and do not collapse repeated matches into one finding; list them ALL, so the change ",
    "can be fixed in one go rather than re-reviewed match by match.\n\nReport only real issues. ",
    "If you find none, emit an empty array `[]`.\n"]

def completenessWhole : String :=
  String.join [
    "Report every occurrence of every rule that fires, in this single pass — across the WHOLE ",
    "file, not just the changed lines: when a rule matches on several lines, emit a separate ",
    "finding for each match — one finding per `file:line`. Do not stop at the first match and ",
    "do not collapse repeated matches into one finding; list them ALL, including instances that ",
    "sit outside the changed region, so the whole file can be fixed in one go rather than ",
    "re-reviewed match by match.\n\nReport only real issues. If you find none, emit an empty ",
    "array `[]`.\n"]

def sharedEvidenceIntro : String :=
  String.join [
    "The evidence below spans the WHOLE change under review, not any single file, so it is ",
    "shown ONCE here rather than repeated per file above. It still applies to any file a row ",
    "below names.\n\n"]

inductive SourceView
  | whole
  | changedRegions
  deriving DecidableEq, Repr

def diffContextLines : Nat := 20

def regionMergeGap : Nat := 1

def trim (s : String) : String := String.ofList (Text.trim s.toList)

def addRegion (totalLines : Nat) (regions : List (Nat × Nat)) (line : Nat) : List (Nat × Nat) :=
  let start := max (line - diffContextLines) 1
  let stop := min (line + diffContextLines) totalLines
  match regions.getLast? with
  | some last =>
    if start ≤ last.2 + regionMergeGap then
      regions.dropLast ++ [(last.1, max last.2 stop)]
    else regions ++ [(start, stop)]
  | none => [(start, stop)]

def changedRegions (annotations : List LineAnnotation) (totalLines : Nat) : List (Nat × Nat) :=
  ((annotations.take totalLines).zipIdx.filter fun a => a.1.touched).foldl
    (fun regions a => addRegion totalLines regions (a.2 + 1)) []

def elisionLine (count : Nat) : String :=
  "       … " ++ toString count ++ " unchanged line(s) not shown …\n"

def padding (width : Nat) (s : String) : String :=
  String.ofList (List.replicate (width - s.length) ' ')

def renderNumberedLine (line : Nat) (text : List Char) (blame : Option LineAnnotation) :
    String :=
  let sha := blame.elim "????????" LineAnnotation.sha
  let mark := if blame.elim false LineAnnotation.touched then "+" else " "
  padding 6 (toString line) ++ toString line ++ " | " ++ sha ++ padding 8 sha ++ " " ++ mark ++
    " | " ++ String.ofList text ++ "\n"

def renderRegion (lines : List (List Char)) (annotations : List LineAnnotation)
    (s : String × Nat) (region : Nat × Nat) : String × Nat :=
  let skipped := if s.2 + 1 < region.1 then elisionLine (region.1 - s.2 - 1) else ""
  let printed := (List.range' region.1 (region.2 + 1 - region.1)).map fun line =>
    renderNumberedLine line (lines.getD (line - 1) []) annotations[line - 1]?
  (s.1 ++ skipped ++ String.join printed, region.2)

def renderRegions (lines : List (List Char)) (annotations : List LineAnnotation)
    (regions : List (Nat × Nat)) : String :=
  let s := regions.foldl (renderRegion lines annotations) ("", 0)
  s.1 ++ if s.2 < lines.length then elisionLine (lines.length - s.2) else ""

def SourceView.regions (view : SourceView) (annotations : List LineAnnotation) (totalLines : Nat) :
    List (Nat × Nat) :=
  match view with
  | whole => [(1, totalLines)]
  | changedRegions => Review.changedRegions annotations totalLines

def renderNumberedLines (source : String) (annotations : List LineAnnotation)
    (view : SourceView) : String :=
  let source := Text.trimEnd source.toList
  if source = [] then "```\n\n```\n\n"
  else
    let lines := Text.lines source
    let regions := view.regions annotations lines.length
    if regions = [] then noChangedLines
    else lineFormatLegend ++ "```\n" ++ renderRegions lines annotations regions ++ "```\n\n"

def ChangeType.display : ChangeType → String
  | added => "added"
  | modified => "modified"
  | deleted => "deleted"
  | moved => "moved"
  | renamed => "renamed"

def renderSemanticDiff (file : FileWork) : String :=
  if file.semanticDiff = [] then "_No structured entity changes._\n\n"
  else
    String.join (file.semanticDiff.map fun change =>
      "- " ++ change.changeType.display ++ " " ++ change.entityType ++ " `" ++ change.entityName ++
        "`\n") ++ "\n"

def renderFileBlock (file : FileWork) (subject : ReviewSubject) : String :=
  let (blockHeader, semanticHeader, view) :=
    match subject with
    | .diffs => (diffBlockHeader, diffSemanticHeader, SourceView.changedRegions)
    | .files => (wholeFileBlockHeader, wholeFileSemanticHeader, SourceView.whole)
  "## File: " ++ file.path ++ "\n\n" ++ blockHeader ++
    renderNumberedLines file.sourceSlice file.lineAnnotations view ++ semanticHeader ++
    renderSemanticDiff file ++ "### Probe evidence\n\n" ++
    renderProbeEvidence file.probeResults false

def focusFileLine (file : FileWork) : String := "- `" ++ file.path ++ "`\n"

def renderedFileBlockBytes (subject : ReviewSubject) (file : FileWork) : Nat :=
  (renderFileBlock file subject).utf8ByteSize + (focusFileLine file).utf8ByteSize

def renderFilePayload (files : List FileWork) (subject : ReviewSubject) : String :=
  filePayloadHeader ++ String.join (files.map fun file => renderFileBlock file subject)

def maxOmittedRowsNoticeBytes : Nat := 320

def omittedRowsNotice (omitted : Nat) : String :=
  "_" ++ toString omitted ++ " further evidence rows are NOT shown. This shared block is capped " ++
    "at " ++ toString maxSharedEvidenceBytes ++ " bytes so every batch's prompt fits the agent's " ++
    "prompt cap. Treat the rows above as a sample of the duplicate evidence, not the whole " ++
    "list._\n\n"

def sharedRowBudget : Nat :=
  maxSharedEvidenceBytes -
    ((sharedEvidenceHeader ++ sharedEvidenceIntro).utf8ByteSize + maxOmittedRowsNoticeBytes)

def renderSharedProbeEvidence (results : List ProbeResult) : String :=
  if results = [] then ""
  else
    let r := renderProbeEvidenceWithin results false (some sharedRowBudget)
    sharedEvidenceHeader ++ sharedEvidenceIntro ++ r.1 ++
      if 0 < r.2 then omittedRowsNotice r.2 else ""

def outputContract : ReviewSubject → String
  | .diffs => readingFilesDiffs ++ reviewScopeDiffs ++ findingFields ++ completenessDiffs
  | .files => readingFilesWhole ++ reviewScopeWhole ++ findingFields ++ completenessWhole

def renderValidatorGuidance (body : String) : String :=
  if trim body = "" then "" else "## Guidance\n\n" ++ trim body ++ "\n\n"

def renderFocusFiles (files : List FileWork) (subject : ReviewSubject) : String :=
  (match subject with
    | .diffs => focusFilesDiffs
    | .files => focusFilesWhole) ++ String.join (files.map focusFileLine) ++ "\n"

def renderRule (rule : Rule) : String :=
  "### Rule: " ++ rule.name ++ "\n\n" ++ trim rule.body ++ "\n\n"

def renderSuffix (validatorName : String) (ruleset : RuleSet) (files : List FileWork)
    (subject : ReviewSubject) : String :=
  validatorHeader ++ validatorName ++ "\n\n" ++ mandateHeader ++ trim ruleset.description ++
    "\n\n" ++ renderValidatorGuidance ruleset.manifestBody ++ renderFocusFiles files subject ++
    "## Rules\n\n" ++
    String.join ((ruleset.rules.filter fun rule => !rule.isToolRule).map renderRule) ++
    outputContract subject ++ "\n"

def renderValidatorSuffix (validator : ValidatorWork) (ruleset : RuleSet)
    (subject : ReviewSubject) : String :=
  renderSuffix validator.validatorName ruleset validator.files subject

def validatorSuffixFramingBytes (validator : ValidatorWork) (ruleset : RuleSet)
    (subject : ReviewSubject) : Nat :=
  (renderSuffix validator.validatorName ruleset [] subject).utf8ByteSize

def renderFleetPrompt (changePurpose : String) (validator : ValidatorWork) (ruleset : RuleSet)
    (subject : ReviewSubject) : String :=
  changePurposeHeader ++ trim changePurpose ++ "\n\n" ++
    renderFilePayload validator.files subject ++
    renderSharedProbeEvidence validator.sharedProbeResults ++
    renderValidatorSuffix validator ruleset subject

def renderRunPrime (work : WorkList) : String :=
  changePurposeHeader ++ trim work.changePurpose ++ "\n\n" ++
    renderFilePayload work.distinctFiles work.subject ++
    renderSharedProbeEvidence work.sharedProbeResults ++ primeHandoff

structure PromptFraming where
  purpose : Nat
  sharedEvidence : Nat
  validatorSuffix : Nat
  largestValidator : Option String
  deriving DecidableEq, Repr

def PromptFraming.total (framing : PromptFraming) : Nat :=
  framing.purpose + framing.sharedEvidence + framing.validatorSuffix

/-- `max_by_key`, which takes the last of several largest. -/
def larger (best : Option (Nat × String)) (x : Nat × String) : Option (Nat × String) :=
  match best with
  | some b => if x.1 < b.1 then some b else some x
  | none => some x

def promptFraming (work : WorkList) (loader : ValidatorLoader) : PromptFraming :=
  let largest := (work.validators.filterMap fun validator =>
    (loader validator.validatorName).map fun ruleset =>
      (validatorSuffixFramingBytes validator ruleset work.subject,
        validator.validatorName)).foldl larger none
  { purpose := changePurposeHeader.utf8ByteSize + (trim work.changePurpose).utf8ByteSize +
      "\n\n".utf8ByteSize + filePayloadHeader.utf8ByteSize
    sharedEvidence := (renderSharedProbeEvidence work.sharedProbeResults).utf8ByteSize
    validatorSuffix := max (largest.elim 0 Prod.fst) primeHandoff.utf8ByteSize
    largestValidator := largest.map Prod.snd }

def promptFramingBytes (work : WorkList) (loader : ValidatorLoader) : Nat :=
  (promptFraming work loader).total

def reviewBatches (work : WorkList) (loader : ValidatorLoader) : List WorkList :=
  (batchWorkList (FleetConfig.default.batchBudget (promptFramingBytes work loader))
    (renderedFileBlockBytes work.subject) work).1

end SwissArmyHammer.Review

/-! The prompt that asks an agent to disprove one finding. -/

namespace SwissArmyHammer.Review

structure Finding where
  file : String
  line : Nat
  validator : String
  rule : Option String
  claim : String
  evidence : String
  suggestion : Option String
  deriving DecidableEq, Repr

structure Candidate where
  finding : Finding
  sourceSlice : String
  probeResults : List ProbeResult
  lineAnnotations : List LineAnnotation
  deriving DecidableEq, Repr

def buildCandidates (work : WorkList) (findings : List Finding) : List Candidate :=
  findings.map fun finding =>
    let context := (work.validators.find? fun v => v.validatorName = finding.validator).bind
      fun v => v.files.find? fun f => f.path = finding.file
    match context with
    | some file => ⟨finding, file.sourceSlice, file.probeResults, file.lineAnnotations⟩
    | none => ⟨finding, "", [], []⟩

def verificationHeader : String := "# Adversarial verification\n\n"

def claimHeader : String := "# The claim under test\n\n"

def sourceHeader : String := "\n# Source slice\n\n"

def groundTruthHeader : String := "# Probe evidence (ground truth)\n\n"

def adversaryIntro : String :=
  String.join [
    "You are the adversary. A reviewer has made the claim below. Your job is to try to DISPROVE ",
    "it using only the ground-truth evidence provided — the file's source and the engine-run ",
    "probe results. Do not take the claim on faith.\n\n"]

def verifyOutputContract : String :=
  String.join [
    "# Output contract\n\nFirst, read the printed `line` column above and find the row matching ",
    "the claim's cited line — do NOT count lines yourself. Compare what is ACTUALLY on that ",
    "line against what the claim describes. A claim whose cited line does not match its own ",
    "description is disproven by mislocation alone: set `confirmed` to `false` and say so in ",
    "`reason`, even if the described issue is real somewhere else in the file.\n\nEmit exactly ",
    "one JSON object:\n\n- `confirmed`: `true` only if the evidence positively substantiates ",
    "the claim AT the line it cites; `false` if you can disprove it, OR the cited line does not ",
    "match the claim, OR you cannot positively substantiate it.\n- `reason`: one sentence — ",
    "what in the evidence confirmed or disproved the claim.\n\nIf you are uncertain, set ",
    "`confirmed` to `false`. The claim must be proven, not merely plausible.\n"]

def renderRuleField (rule : Option String) : String :=
  rule.elim "" fun rule => "- Rule: " ++ rule ++ "\n"

def renderClaim (finding : Finding) : String :=
  "- File: `" ++ finding.file ++ "`\n- Line: " ++ toString finding.line ++ "\n- Validator: " ++
    finding.validator ++ "\n" ++ renderRuleField finding.rule ++ "- Claim: " ++ finding.claim ++
    "\n- Cited evidence: " ++ finding.evidence ++ "\n"

def renderVerifyPrompt (candidate : Candidate) : String :=
  verificationHeader ++ adversaryIntro ++ claimHeader ++ renderClaim candidate.finding ++
    sourceHeader ++
    renderNumberedLines candidate.sourceSlice candidate.lineAnnotations .whole ++
    groundTruthHeader ++ renderProbeEvidence candidate.probeResults true ++ verifyOutputContract

end SwissArmyHammer.Review
