import SwissArmyHammer.Review.PromptBytes

/-! Whether every prompt of a review fits the cap of its agents. The packer guarantees it for the
framing that was measured and for the blocks that were charged; the evidence that a batch renders
and the source that the verifier is shown are neither. -/

namespace SwissArmyHammer.Review

section

variable {b : WorkList} {v : ValidatorWork} {file : FileWork}

def verifyFixedTexts : List String :=
  [verificationHeader, adversaryIntro, claimHeader, sourceHeader, groundTruthHeader,
    verifyOutputContract]

def verifyFixedBytes : Nat := (verifyFixedTexts.map String.utf8ByteSize).sum

def wholeBytes (file : FileWork) : Nat :=
  (renderNumberedLines file.sourceSlice file.lineAnnotations .whole).utf8ByteSize +
    (renderProbeEvidence file.probeResults true).utf8ByteSize

def briefFinding (v : ValidatorWork) (file : FileWork) (claim : String) : Finding :=
  ⟨file.path, 0, v.validatorName, none, claim, "", none⟩

theorem utf8ByteSize_join_le {texts : List String} {n : Nat}
    (h : ∀ text ∈ texts, text.utf8ByteSize ≤ n) :
    (String.join texts).utf8ByteSize ≤ texts.length * n := by
  rw [utf8ByteSize_join]
  have hsum := List.sum_le_card_nsmul (texts.map String.utf8ByteSize) n (List.forall_mem_map.mpr h)
  rwa [List.length_map] at hsum

theorem utf8ByteSize_pieces_le (pieces : List String) (hlen : pieces.length ≤ 20)
    (h : ∀ piece ∈ pieces, piece.utf8ByteSize ≤ 400) :
    (String.join pieces).utf8ByteSize ≤ 20 * 400 :=
  (utf8ByteSize_join_le h).trans (Nat.mul_le_mul_right 400 hlen)

theorem utf8ByteSize_chars_le (cs : List Char) {n : Nat} (h : 4 * cs.length ≤ n) :
    (String.ofList cs).utf8ByteSize ≤ n := by
  suffices hchars : (String.ofList cs).utf8ByteSize ≤ 4 * cs.length from hchars.trans h
  clear h
  induction cs with
  | nil => decide
  | cons c cs ih =>
    have hchar := c.utf8Size_le_four
    have hone : (String.singleton c).utf8ByteSize = c.utf8Size := by simp
    rw [String.ofList_cons, String.utf8ByteSize_append, List.length_cons]
    omega

theorem pieces_cons_le (cs : List Char) {pieces : List String} (hlen : 4 * cs.length ≤ 400)
    (h : ∀ piece ∈ pieces, piece.utf8ByteSize ≤ 400) :
    ∀ piece ∈ String.ofList cs :: pieces, piece.utf8ByteSize ≤ 400 :=
  List.forall_mem_cons.mpr ⟨utf8ByteSize_chars_le cs hlen, h⟩

theorem verifyFixedBytes_le : verifyFixedBytes ≤ 6 * (20 * 400) := by
  have hintro : adversaryIntro.utf8ByteSize ≤ 20 * 400 := by
    refine utf8ByteSize_pieces_le _ (by decide) ?_
    repeat refine pieces_cons_le _ (by decide) ?_
    exact List.forall_mem_nil _
  have hcontract : verifyOutputContract.utf8ByteSize ≤ 20 * 400 := by
    refine utf8ByteSize_pieces_le _ (by decide) ?_
    repeat refine pieces_cons_le _ (by decide) ?_
    exact List.forall_mem_nil _
  have htexts : ∀ bytes ∈ verifyFixedTexts.map String.utf8ByteSize, bytes ≤ 20 * 400 := by
    simp only [verifyFixedTexts, List.map_cons, List.map_nil, List.forall_mem_cons]
    exact ⟨utf8ByteSize_chars_le _ (by decide), hintro, utf8ByteSize_chars_le _ (by decide), utf8ByteSize_chars_le _ (by decide),
      utf8ByteSize_chars_le _ (by decide), hcontract, List.forall_mem_nil _⟩
  exact List.sum_le_card_nsmul _ _ htexts

theorem utf8ByteSize_around (a b c d e f claim source evidence : String) :
    (a ++ b ++ c ++ claim ++ d ++ source ++ e ++ evidence ++ f).utf8ByteSize =
      ([a, b, c, d, e, f].map String.utf8ByteSize).sum + claim.utf8ByteSize +
        (source.utf8ByteSize + evidence.utf8ByteSize) := by
  simp only [String.utf8ByteSize_append, List.map_cons, List.map_nil, List.sum_cons, List.sum_nil]
  omega

theorem renderVerifyPrompt_mk (finding : Finding) (file : FileWork) :
    renderVerifyPrompt ⟨finding, file.sourceSlice, file.probeResults, file.lineAnnotations⟩ =
      verificationHeader ++ adversaryIntro ++ claimHeader ++ renderClaim finding ++
        sourceHeader ++ renderNumberedLines file.sourceSlice file.lineAnnotations .whole ++
        groundTruthHeader ++ renderProbeEvidence file.probeResults true ++
        verifyOutputContract := rfl

theorem utf8ByteSize_verifyPrompt (finding : Finding) (file : FileWork) :
    (renderVerifyPrompt ⟨finding, file.sourceSlice, file.probeResults,
        file.lineAnnotations⟩).utf8ByteSize =
      verifyFixedBytes + (renderClaim finding).utf8ByteSize + wholeBytes file := by
  exact utf8ByteSize_around verificationHeader adversaryIntro claimHeader sourceHeader
    groundTruthHeader verifyOutputContract _ _ _

def claimLabelBytes : Nat :=
  "- File: `".utf8ByteSize + "`\n- Line: ".utf8ByteSize + "\n- Validator: ".utf8ByteSize +
    "\n".utf8ByteSize + "- Claim: ".utf8ByteSize + "\n- Cited evidence: ".utf8ByteSize +
    "\n".utf8ByteSize

theorem utf8ByteSize_fields (a b c d e f g file line validator rule claim evidence : String) :
    (a ++ file ++ b ++ line ++ c ++ validator ++ d ++ rule ++ e ++ claim ++ f ++ evidence ++
        g).utf8ByteSize =
      a.utf8ByteSize + b.utf8ByteSize + c.utf8ByteSize + d.utf8ByteSize + e.utf8ByteSize +
        f.utf8ByteSize + g.utf8ByteSize +
      (file.utf8ByteSize + validator.utf8ByteSize) + line.utf8ByteSize + rule.utf8ByteSize +
        claim.utf8ByteSize + evidence.utf8ByteSize := by
  simp only [String.utf8ByteSize_append]
  omega

theorem utf8ByteSize_claim (finding : Finding) :
    (renderClaim finding).utf8ByteSize =
      claimLabelBytes + (finding.file.utf8ByteSize + finding.validator.utf8ByteSize) +
        (toString finding.line).utf8ByteSize + (renderRuleField finding.rule).utf8ByteSize +
        finding.claim.utf8ByteSize + finding.evidence.utf8ByteSize :=
  utf8ByteSize_fields "- File: `" "`\n- Line: " "\n- Validator: " "\n" "- Claim: "
    "\n- Cited evidence: " "\n" _ _ _ _ _ _

theorem utf8ByteSize_briefFinding (v : ValidatorWork) (file : FileWork) (claim : String) :
    (renderClaim (briefFinding v file claim)).utf8ByteSize =
      claimLabelBytes + (file.path.utf8ByteSize + v.validatorName.utf8ByteSize) + 1 +
        claim.utf8ByteSize := by
  have hline : (toString 0).utf8ByteSize = 1 := rfl
  have hrule : (renderRuleField none).utf8ByteSize = 0 := rfl
  have hevidence : ("" : String).utf8ByteSize = 0 := rfl
  rw [utf8ByteSize_claim]
  simp only [briefFinding, hline, hrule, hevidence]
  omega

theorem briefFinding_le {finding : Finding} (hvalidator : finding.validator = v.validatorName)
    (hpath : finding.file = file.path) :
    (renderClaim (briefFinding v file "")).utf8ByteSize ≤ (renderClaim finding).utf8ByteSize := by
  have hnone : ("" : String).utf8ByteSize = 0 := rfl
  have hline : (toString finding.line).utf8ByteSize ≠ 0 := by
    rw [ne_eq, String.utf8ByteSize_eq_zero_iff]
    exact Nat.repr_ne_empty
  rw [utf8ByteSize_briefFinding, utf8ByteSize_claim, hvalidator, hpath]
  omega

theorem find?_of_nodup {α κ : Type} [DecidableEq κ] {key : α → κ} {xs : List α} {x : α}
    (hnodup : (xs.map key).Nodup) (hx : x ∈ xs) : xs.find? (fun y => key y = key x) = some x := by
  cases hfind : xs.find? (fun y => key y = key x) with
  | none =>
    have hnot := List.find?_eq_none.mp hfind x hx
    simp at hnot
  | some y =>
    have hkey : key y = key x := by simpa using List.find?_some hfind
    rw [List.inj_on_of_nodup_map hnodup (List.mem_of_find?_eq_some hfind) hx hkey]

theorem buildCandidates_eq {finding : Finding}
    (hnames : (b.validators.map ValidatorWork.validatorName).Nodup)
    (hpaths : (v.files.map FileWork.path).Nodup) (hv : v ∈ b.validators) (hfile : file ∈ v.files)
    (hvalidator : finding.validator = v.validatorName) (hpath : finding.file = file.path) :
    buildCandidates b [finding] =
      [⟨finding, file.sourceSlice, file.probeResults, file.lineAnnotations⟩] := by
  have hfound : (b.validators.find? fun v => v.validatorName = finding.validator) = some v := by
    rw [hvalidator]
    exact find?_of_nodup hnames hv
  have hin : (v.files.find? fun f => f.path = finding.file) = some file := by
    rw [hpath]
    exact find?_of_nodup hpaths hfile
  simp only [buildCandidates, List.map_cons, List.map_nil, hfound, Option.bind_some, hin]

theorem findings_fit_iff (hnames : (b.validators.map ValidatorWork.validatorName).Nodup)
    (hpaths : (v.files.map FileWork.path).Nodup) (hv : v ∈ b.validators) (hfile : file ∈ v.files) :
    (∀ finding : Finding, finding.validator = v.validatorName → finding.file = file.path →
      (renderClaim finding).utf8ByteSize ≤ maxFramingBytes - verifyFixedBytes →
      ∀ candidate ∈ buildCandidates b [finding],
        (renderVerifyPrompt candidate).utf8ByteSize ≤ agentPromptCap) ↔
    ((renderClaim (briefFinding v file "")).utf8ByteSize ≤ maxFramingBytes - verifyFixedBytes →
      wholeBytes file ≤ maxFileBlockBytes) := by
  have hcap : maxFramingBytes + maxFileBlockBytes = agentPromptCap := rfl
  have hfixed : verifyFixedBytes ≤ maxFramingBytes := verifyFixedBytes_le.trans (by decide)
  constructor
  · intro hall hbrief
    set n := maxFramingBytes - verifyFixedBytes -
      (renderClaim (briefFinding v file "")).utf8ByteSize with hn
    have hempty := utf8ByteSize_briefFinding v file ""
    have hclaim := utf8ByteSize_briefFinding v file (String.ofList (List.replicate n 'x'))
    rw [utf8ByteSize_replicate] at hclaim
    have hnone : ("" : String).utf8ByteSize = 0 := rfl
    have hprompt := hall (briefFinding v file (String.ofList (List.replicate n 'x'))) rfl rfl
      (by omega)
    rw [buildCandidates_eq hnames hpaths hv hfile rfl rfl] at hprompt
    have hle := hprompt _ List.mem_cons_self
    rw [utf8ByteSize_verifyPrompt] at hle
    omega
  · intro hwhole finding hvalidator hpath hfields candidate hcandidate
    rw [buildCandidates_eq hnames hpaths hv hfile hvalidator hpath] at hcandidate
    obtain rfl := List.mem_singleton.mp hcandidate
    have hle := hwhole ((briefFinding_le hvalidator hpath).trans hfields)
    rw [utf8ByteSize_verifyPrompt]
    omega

end

section

variable {work b : WorkList} {loader : ValidatorLoader} {v : ValidatorWork} {rs : RuleSet}

/-- Every prompt that a batch submits, to its validators and to the verifiers of what they find. -/
structure PromptsFit (loader : ValidatorLoader) (b : WorkList) : Prop where
  prime : (renderRunPrime b).utf8ByteSize ≤ agentPromptCap
  monolithic : ∀ v ∈ b.validators, ∀ rs, loader v.validatorName = some rs →
    (renderFleetPrompt b.changePurpose v rs b.subject).utf8ByteSize ≤ agentPromptCap
  suffix : ∀ v ∈ b.validators, ∀ rs, loader v.validatorName = some rs →
    (renderValidatorSuffix v rs b.subject).utf8ByteSize ≤ agentPromptCap
  verify : ∀ v ∈ b.validators, ∀ file ∈ v.files, ∀ finding : Finding,
    finding.validator = v.validatorName → finding.file = file.path →
    (renderClaim finding).utf8ByteSize ≤ maxFramingBytes - verifyFixedBytes →
    ∀ candidate ∈ buildCandidates b [finding],
      (renderVerifyPrompt candidate).utf8ByteSize ≤ agentPromptCap

def evidenceRoom (framing : PromptFraming) (rest : Nat) : Nat :=
  framing.sharedEvidence + (agentPromptCap - (framing.purpose + framing.sharedEvidence + rest))

/-- The shared evidence that a batch renders, for its prime and for each of its validators, is no
longer than what was measured for the whole run, by more than the room that is left. -/
structure EvidenceFits (work : WorkList) (loader : ValidatorLoader) (b : WorkList) : Prop where
  prime : (renderSharedProbeEvidence b.sharedProbeResults).utf8ByteSize ≤
    evidenceRoom (promptFraming work loader)
      (primeHandoff.utf8ByteSize + blockBytes work.subject b.distinctFiles)
  validators : ∀ v ∈ b.validators, ∀ rs, loader v.validatorName = some rs →
    (renderSharedProbeEvidence v.sharedProbeResults).utf8ByteSize ≤
      evidenceRoom (promptFraming work loader)
        (validatorSuffixFramingBytes v rs work.subject + chargedBytes work.subject v.files)

/-- Every file whose block was charged stays within the share of a file when it is printed whole. -/
def WholeFilesFit (work : WorkList) : Prop :=
  ∀ v ∈ work.validators, ∀ file ∈ v.files,
    renderedFileBlockBytes work.subject file ≤ maxFileBlockBytes →
    (renderClaim (briefFinding v file "")).utf8ByteSize ≤ maxFramingBytes - verifyFixedBytes →
    wholeBytes file ≤ maxFileBlockBytes

theorem prime_fits_iff (h : work.Assembled)
    (hframing : promptFramingBytes work loader ≤ maxFramingBytes)
    (hb : b ∈ reviewBatches work loader) :
    (renderRunPrime b).utf8ByteSize ≤ agentPromptCap ↔
      (renderSharedProbeEvidence b.sharedProbeResults).utf8ByteSize ≤
        evidenceRoom (promptFraming work loader)
          (primeHandoff.utf8ByteSize + blockBytes work.subject b.distinctFiles) := by
  obtain ⟨group, hgroup⟩ := batchOf_of_mem h hb
  have hpacked := packed_prime h hframing hb
  rw [utf8ByteSize_runPrime loader hgroup.purpose, hgroup.subject, evidenceRoom]
  omega

theorem fleetPrompt_fits_iff (h : work.Assembled)
    (hframing : promptFramingBytes work loader ≤ maxFramingBytes)
    (hb : b ∈ reviewBatches work loader) (hv : v ∈ b.validators)
    (hrs : loader v.validatorName = some rs) :
    (renderFleetPrompt b.changePurpose v rs b.subject).utf8ByteSize ≤ agentPromptCap ↔
      (renderSharedProbeEvidence v.sharedProbeResults).utf8ByteSize ≤
        evidenceRoom (promptFraming work loader)
          (validatorSuffixFramingBytes v rs work.subject + chargedBytes work.subject v.files) := by
  obtain ⟨group, hgroup⟩ := batchOf_of_mem h hb
  have hpacked := packed_validator h hframing hb hv hrs
  rw [hgroup.purpose, hgroup.subject, utf8ByteSize_fleetPrompt work loader, evidenceRoom]
  omega

theorem suffix_fits (h : work.Assembled)
    (hframing : promptFramingBytes work loader ≤ maxFramingBytes)
    (hb : b ∈ reviewBatches work loader) (hv : v ∈ b.validators)
    (hrs : loader v.validatorName = some rs) :
    (renderValidatorSuffix v rs b.subject).utf8ByteSize ≤ agentPromptCap := by
  obtain ⟨group, hgroup⟩ := batchOf_of_mem h hb
  have hpacked := packed_validator h hframing hb hv hrs
  rw [chargedBytes_eq] at hpacked
  rw [hgroup.subject, utf8ByteSize_suffix]
  omega

theorem evidenceFits_of_uncut (h : work.Assembled)
    (huncut : resultsBytes false work.sharedProbeResults ≤ sharedRowBudget)
    (hb : b ∈ reviewBatches work loader) : EvidenceFits work loader b := by
  obtain ⟨group, hgroup⟩ := batchOf_of_mem h hb
  have hmeasured : (promptFraming work loader).sharedEvidence =
      (renderSharedProbeEvidence work.sharedProbeResults).utf8ByteSize := rfl
  have hshared : ∀ v ∈ b.validators, v.sharedProbeResults ⊆ work.sharedProbeResults := by
    intro v hv
    obtain ⟨w, hw, -, hsame, -⟩ := hgroup.origin v hv
    rw [hsame]
    exact shared_subset h hw
  constructor
  · have hsub : b.sharedProbeResults ⊆ work.sharedProbeResults := by
      intro r hr
      obtain ⟨v, hv, hin⟩ := List.mem_flatMap.mp ((dedupByKey_sublist _).subset hr)
      exact hshared v hv hin
    have hle : (renderSharedProbeEvidence b.sharedProbeResults).utf8ByteSize ≤ _ :=
      sharedEvidence_le huncut (nodup_dedupByKey _) hsub
    rw [evidenceRoom]
    omega
  · intro v hv rs hrs
    obtain ⟨w, hw, -, hsame, -⟩ := hgroup.origin v hv
    have hnodup : (v.sharedProbeResults.map ProbeResult.key).Nodup := by
      rw [hsame]
      exact h.shared w hw
    have hle := sharedEvidence_le huncut hnodup (hshared v hv)
    rw [evidenceRoom]
    omega

theorem mem_batch_iff (h : work.Assembled) {file : FileWork} {w : ValidatorWork}
    (hw : w ∈ work.validators) (hfile : file ∈ w.files) :
    (∃ b ∈ reviewBatches work loader, ∃ v ∈ b.validators,
      v.validatorName = w.validatorName ∧ file ∈ v.files) ↔
    renderedFileBlockBytes work.subject file ≤ maxFileBlockBytes := by
  have hcap : (FleetConfig.default.batchBudget (promptFramingBytes work loader)).fileCap =
      maxFileBlockBytes := rfl
  constructor
  · intro hin
    obtain ⟨b, hb, v, hv, -, hfile⟩ := hin
    obtain ⟨group, hgroup⟩ := batchOf_of_mem h hb
    have hle := hgroup.affordable v hv file hfile
    rwa [hcap] at hle
  · intro hle
    exact exists_mem_batchWorkList hw hfile hle

theorem briefFinding_congr {w : ValidatorWork} (hname : v.validatorName = w.validatorName)
    (file : FileWork) (claim : String) : briefFinding v file claim = briefFinding w file claim := by
  rw [briefFinding, briefFinding, hname]

end

theorem utf8ByteSize_append_le {a b : String} {m n : Nat} (ha : a.utf8ByteSize ≤ m)
    (hb : b.utf8ByteSize ≤ n) : (a ++ b).utf8ByteSize ≤ m + n := by
  rw [String.utf8ByteSize_append]
  exact Nat.add_le_add ha hb

theorem utf8ByteSize_le_append_left (a b : String) :
    b.utf8ByteSize ≤ (a ++ b).utf8ByteSize := by
  rw [String.utf8ByteSize_append]
  exact Nat.le_add_left _ _

theorem utf8ByteSize_le_append_right (a b : String) :
    a.utf8ByteSize ≤ (a ++ b).utf8ByteSize := by
  rw [String.utf8ByteSize_append]
  exact Nat.le_add_right _ _

theorem le_renderNumberedLine (line : Nat) (text : List Char) (blame : Option LineAnnotation) :
    (String.ofList text).utf8ByteSize ≤ (renderNumberedLine line text blame).utf8ByteSize :=
  (utf8ByteSize_le_append_left _ _).trans (utf8ByteSize_le_append_right _ _)

theorem le_renderRegions_whole {lines : List (List Char)} {text : List Char}
    (annotations : List LineAnnotation) (h : text ∈ lines) :
    (String.ofList text).utf8ByteSize ≤
      (renderRegions lines annotations [(1, lines.length)]).utf8ByteSize := by
  obtain ⟨i, hi, htext⟩ := List.mem_iff_getElem.mp h
  refine le_trans ?_ (utf8ByteSize_le_append_right _ _)
  refine le_trans ?_ (utf8ByteSize_le_append_left _ _)
  rw [utf8ByteSize_join]
  refine le_trans (le_renderNumberedLine (i + 1) text annotations[i]?)
    (List.single_le_sum (fun _ _ => Nat.zero_le _) _ (List.mem_map.mpr ⟨_, List.mem_map.mpr
      ⟨i + 1, List.mem_range'_1.mpr (by omega), rfl⟩, ?_⟩))
  rw [Nat.add_sub_cancel, List.getD_eq_getElem?_getD, List.getElem?_eq_getElem hi,
    Option.getD_some, htext]

theorem le_wholeBytes {file : FileWork} {text : List Char}
    (h : text ∈ Text.lines (Text.trimEnd file.sourceSlice.toList)) :
    (String.ofList text).utf8ByteSize ≤ wholeBytes file := by
  refine le_trans ?_ (Nat.le_add_right _ _)
  have hne : Text.trimEnd file.sourceSlice.toList ≠ [] := by
    intro hnil
    rw [hnil] at h
    exact absurd h List.not_mem_nil
  have hregions : SourceView.whole.regions file.lineAnnotations
      (Text.lines (Text.trimEnd file.sourceSlice.toList)).length ≠ [] := List.cons_ne_nil _ _
  simp only [renderNumberedLines, if_neg hne, if_neg hregions]
  refine (le_renderRegions_whole file.lineAnnotations h).trans ?_
  exact (utf8ByteSize_le_append_left _ _).trans (utf8ByteSize_le_append_right _ _)

def sampleAnnotations : List LineAnnotation :=
  ⟨"worktree", true⟩ :: List.replicate 22 ⟨"c6d4f0a1", false⟩

def sampleFile (n : Nat) : FileWork where
  path := "words.txt"
  semanticDiff := []
  sourceSlice := String.ofList ('a' :: List.replicate 22 '\n' ++ List.replicate (n + 1) 'x')
  probeResults := []
  lineAnnotations := sampleAnnotations

def sampleValidator (n : Nat) : ValidatorWork := ⟨"spelling", [], [], [sampleFile n], []⟩

def sampleWork (n : Nat) : WorkList where
  changePurpose := "Change the first word"
  validators := [sampleValidator n]
  excluded := []
  resolvedFiles := 1
  subject := .diffs

theorem splitInclusive_replicate (n : Nat) (s : List Char) :
    Text.splitInclusive (List.replicate n '\n' ++ s) =
      List.replicate n ['\n'] ++ Text.splitInclusive s := by
  induction n with
  | zero => rfl
  | succ n ih =>
    rw [List.replicate_succ, List.cons_append, Text.splitInclusive, ih]
    rfl

def sampleLines (n : Nat) : List (List Char) :=
  ['a'] :: List.replicate 21 [] ++ [List.replicate (n + 1) 'x']

theorem lines_sampleFile (n : Nat) :
    Text.lines (Text.trimEnd (sampleFile n).sourceSlice.toList) = sampleLines n := by
  have hx : '\n' ∉ List.replicate (n + 1) 'x' := by simp
  have htrim : Text.trimEnd (sampleFile n).sourceSlice.toList =
      'a' :: List.replicate 22 '\n' ++ List.replicate (n + 1) 'x' := by
    have hend : List.replicate (n + 1) 'x' = List.replicate n 'x' ++ ['x'] := List.replicate_succ'
    rw [sampleFile, String.toList_ofList, Text.trimEnd, hend, ← List.append_assoc]
    exact List.rdropWhile_concat_neg _ _ _ (by decide)
  have hsplit : Text.splitInclusive (List.replicate (n + 1) 'x') = [List.replicate (n + 1) 'x'] :=
    Text.splitInclusive_of_not_mem hx (by simp)
  have hfirst := Text.splitInclusive_line (l := ['a']) (by decide)
    (List.replicate 21 '\n' ++ List.replicate (n + 1) 'x')
  rw [splitInclusive_replicate, hsplit] at hfirst
  have hlast : Text.stripEol (List.replicate (n + 1) 'x') = List.replicate (n + 1) 'x' := by
    rw [Text.stripEol, Text.stripSuffix_of_not_mem hx]
  rw [htrim]
  refine (congrArg (List.map Text.stripEol) hfirst).trans ?_
  rw [List.map_cons, List.map_append, List.map_singleton, hlast]
  rfl

theorem length_sampleLines (n : Nat) : (sampleLines n).length = 23 := by
  simp [sampleLines]

theorem regions_sampleFile (n : Nat) :
    SourceView.changedRegions.regions sampleAnnotations (sampleLines n).length = [(1, 21)] := by
  rw [length_sampleLines]
  decide

theorem renderRegions_sampleLines (n : Nat) :
    (renderRegions (sampleLines n) sampleAnnotations [(1, 21)]).utf8ByteSize ≤ 21 * 100 + 100 := by
  have hlines : ∀ line ∈ List.range' 1 21, (renderNumberedLine line
      ((sampleLines n).getD (line - 1) []) sampleAnnotations[line - 1]?).utf8ByteSize ≤ 100 := by
    have hshort : ∀ line ∈ List.range' 1 21, (sampleLines n).getD (line - 1) [] =
        (['a'] :: List.replicate 21 []).getD (line - 1) [] := by
      intro line hline
      have hlt : line - 1 < (['a'] :: List.replicate 21 []).length := by
        have hrange := List.mem_range'_1.mp hline
        simp only [List.length_cons, List.length_replicate]
        omega
      rw [sampleLines, List.getD_eq_getElem?_getD, List.getElem?_append_left hlt,
        List.getD_eq_getElem?_getD]
    intro line hline
    rw [hshort line hline]
    revert line
    decide
  have hprinted := utf8ByteSize_join_le (List.forall_mem_map.mpr hlines)
  rw [List.length_map, List.length_range'] at hprinted
  have helided : (elisionLine 2).utf8ByteSize ≤ 100 := by decide
  have hstart : ("" ++ "" : String).utf8ByteSize ≤ 0 := Nat.le_refl 0
  refine (utf8ByteSize_append_le (utf8ByteSize_append_le hstart hprinted) helided).trans ?_
  exact Nat.le_of_eq (by rw [Nat.zero_add])

theorem diffTexts_le : ∀ text ∈ [diffBlockHeader, lineFormatLegend, diffSemanticHeader,
    focusFilesDiffs, readingFilesDiffs, reviewScopeDiffs, findingFields, completenessDiffs],
    text.utf8ByteSize ≤ 20 * 400 := by
  simp only [List.forall_mem_cons]
  refine ⟨?_, ?_, ?_, ?_, ?_, ?_, ?_, ?_, List.forall_mem_nil _⟩
  all_goals
    refine utf8ByteSize_pieces_le _ (by decide) ?_
    repeat refine pieces_cons_le _ (by decide) ?_
    exact List.forall_mem_nil _

theorem renderNumberedLines_sampleFile (n : Nat) :
    (renderNumberedLines (sampleFile n).sourceSlice sampleAnnotations
      .changedRegions).utf8ByteSize ≤ 20 * 400 + 100 + (21 * 100 + 100) + 100 := by
  have hlegend := diffTexts_le lineFormatLegend (by simp)
  have hne : Text.trimEnd (sampleFile n).sourceSlice.toList ≠ [] := by
    intro hnil
    have hlines := lines_sampleFile n
    rw [hnil] at hlines
    cases hlines
  have hregions : [(1, 21)] ≠ ([] : List (Nat × Nat)) := List.cons_ne_nil _ _
  simp only [renderNumberedLines, if_neg hne, lines_sampleFile, regions_sampleFile, if_neg hregions]
  exact utf8ByteSize_append_le (utf8ByteSize_append_le (utf8ByteSize_append_le hlegend
    (by decide)) (renderRegions_sampleLines n)) (by decide)

theorem charged_sampleFile (n : Nat) :
    renderedFileBlockBytes .diffs (sampleFile n) ≤ maxFileBlockBytes := by
  have hheader := diffTexts_le diffBlockHeader (by simp)
  have hsemantic := diffTexts_le diffSemanticHeader (by simp)
  have hopening : ("## File: " ++ (sampleFile n).path ++ "\n\n").utf8ByteSize ≤ 100 := by
    change ("## File: " ++ "words.txt" ++ "\n\n").utf8ByteSize ≤ 100
    decide
  have hdiff : (renderSemanticDiff (sampleFile n)).utf8ByteSize ≤ 100 := by
    have hnone : (sampleFile n).semanticDiff = [] := rfl
    rw [renderSemanticDiff, if_pos hnone]
    decide
  have hfocus : (focusFileLine (sampleFile n)).utf8ByteSize ≤ 100 := by
    change ("- `" ++ "words.txt" ++ "`\n").utf8ByteSize ≤ 100
    decide
  have htitle : "### Probe evidence\n\n".utf8ByteSize ≤ 100 := by decide
  have hevidence : (renderProbeEvidence [] false).utf8ByteSize ≤ 100 := by decide
  have hblock := utf8ByteSize_append_le (utf8ByteSize_append_le (utf8ByteSize_append_le
    (utf8ByteSize_append_le (utf8ByteSize_append_le (utf8ByteSize_append_le hopening hheader)
      (renderNumberedLines_sampleFile n)) hsemantic) hdiff) htitle) hevidence
  exact (Nat.add_le_add hblock hfocus).trans (by decide)

def sampleRules : RuleSet :=
  ⟨"Words are spelled right.", "", [⟨"typo", "No word has a typo.", false⟩]⟩

def sampleLoader : ValidatorLoader := fun _ => some sampleRules

theorem suffix_sampleRules (v : ValidatorWork) (hname : v.validatorName = "spelling") :
    validatorSuffixFramingBytes v sampleRules .diffs ≤ 50000 := by
  have hopening : (validatorHeader ++ "spelling" ++ "\n\n" ++ mandateHeader ++
      trim sampleRules.description ++ "\n\n" ++
      renderValidatorGuidance sampleRules.manifestBody).utf8ByteSize ≤ 1000 := by
    decide
  have hfocus : (renderFocusFiles [] .diffs).utf8ByteSize ≤ 20 * 400 + 0 + 100 :=
    utf8ByteSize_append_le (utf8ByteSize_append_le (diffTexts_le focusFilesDiffs (by simp))
      (by decide)) (by decide)
  have hrules : (String.join ((sampleRules.rules.filter fun rule =>
      !rule.isToolRule).map renderRule)).utf8ByteSize ≤ 1000 := by
    decide
  have hcontract : (outputContract .diffs).utf8ByteSize ≤
      20 * 400 + 20 * 400 + 20 * 400 + 20 * 400 :=
    utf8ByteSize_append_le (utf8ByteSize_append_le (utf8ByteSize_append_le
      (diffTexts_le readingFilesDiffs (by simp)) (diffTexts_le reviewScopeDiffs (by simp)))
      (diffTexts_le findingFields (by simp))) (diffTexts_le completenessDiffs (by simp))
  have htitle : "## Rules\n\n".utf8ByteSize ≤ 100 := by decide
  have hend : "\n".utf8ByteSize ≤ 100 := by decide
  rw [validatorSuffixFramingBytes, hname]
  exact (utf8ByteSize_append_le (utf8ByteSize_append_le (utf8ByteSize_append_le
    (utf8ByteSize_append_le (utf8ByteSize_append_le hopening hfocus) htitle) hrules) hcontract)
    hend).trans (by decide)

theorem framing_sampleWork (n : Nat) :
    promptFramingBytes (sampleWork n) sampleLoader ≤ maxFramingBytes := by
  have hpurpose : (promptFraming (sampleWork n) sampleLoader).purpose ≤ 1000 := by
    change changePurposeHeader.utf8ByteSize + (trim "Change the first word").utf8ByteSize +
      "\n\n".utf8ByteSize + filePayloadHeader.utf8ByteSize ≤ 1000
    decide
  have hshared : (promptFraming (sampleWork n) sampleLoader).sharedEvidence ≤ 0 := by
    change (renderSharedProbeEvidence []).utf8ByteSize ≤ 0
    decide
  have hhandoff : primeHandoff.utf8ByteSize ≤ 50000 := utf8ByteSize_chars_le _ (by decide)
  have hsuffix : (promptFraming (sampleWork n) sampleLoader).validatorSuffix ≤ 50000 := by
    simp only [promptFraming, sampleWork, List.filterMap_cons, List.filterMap_nil, sampleLoader,
      Option.map_some, List.foldl_cons, List.foldl_nil, larger, Option.elim_some]
    exact max_le (suffix_sampleRules (sampleValidator n) rfl) hhandoff
  exact (Nat.add_le_add (Nat.add_le_add hpurpose hshared) hsuffix).trans (by decide)

theorem assembled_sampleWork (n : Nat) : (sampleWork n).Assembled := by
  have hone : ∀ v ∈ (sampleWork n).validators, v = sampleValidator n :=
    fun v hv => List.mem_singleton.mp hv
  refine ⟨List.nodup_singleton _, fun v hv => ?_, fun v hv => ?_, fun v hv w _ r hr => ?_⟩
  · rw [hone v hv]
    exact List.nodup_singleton _
  · rw [hone v hv]
    exact List.nodup_nil
  · rw [hone v hv] at hr
    exact absurd hr List.not_mem_nil

section

variable {work : WorkList} {loader : ValidatorLoader}

end

end SwissArmyHammer.Review
