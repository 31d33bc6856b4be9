import Mathlib.Data.List.Perm.Subperm
import SwissArmyHammer.Review.Render

/-! How long the prompts of a batch are. The packer bounds the framing that was measured for the
run with the blocks that were charged, and evidence that is not cut grows with its results. -/

namespace SwissArmyHammer.Review

section

variable {work b : WorkList} {v : ValidatorWork} {rs : RuleSet} {subject : ReviewSubject}

theorem utf8ByteSize_join (texts : List String) :
    (String.join texts).utf8ByteSize = (texts.map String.utf8ByteSize).sum := by
  have hfold : ∀ s : String, (texts.foldl (fun r s => r ++ s) s).utf8ByteSize =
      s.utf8ByteSize + (texts.map String.utf8ByteSize).sum := by
    induction texts with
    | nil => exact fun s => rfl
    | cons text texts ih =>
      intro s
      rw [List.foldl_cons, ih, String.utf8ByteSize_append, List.map_cons, List.sum_cons]
      omega
  have hstart := hfold ""
  rw [String.join, hstart]
  exact Nat.zero_add _

theorem utf8ByteSize_replicate (n : Nat) :
    (String.ofList (List.replicate n 'x')).utf8ByteSize = n := by
  induction n with
  | zero => rfl
  | succ n ih =>
    rw [List.replicate_succ, ← List.singleton_append, String.ofList_append,
      String.utf8ByteSize_append, ih, Nat.add_comm]
    rfl

def blockBytes (subject : ReviewSubject) (files : List FileWork) : Nat :=
  (files.map fun file => (renderFileBlock file subject).utf8ByteSize).sum

def chargedBytes (subject : ReviewSubject) (files : List FileWork) : Nat :=
  (files.map (renderedFileBlockBytes subject)).sum

theorem blockBytes_le (subject : ReviewSubject) (files : List FileWork) :
    blockBytes subject files ≤ chargedBytes subject files :=
  List.sum_le_sum fun _ _ => Nat.le_add_right _ _

theorem chargedBytes_eq (subject : ReviewSubject) (files : List FileWork) :
    chargedBytes subject files = blockBytes subject files +
      (files.map fun file => (focusFileLine file).utf8ByteSize).sum :=
  List.sum_map_add

theorem utf8ByteSize_payload (files : List FileWork) (subject : ReviewSubject) :
    (renderFilePayload files subject).utf8ByteSize =
      filePayloadHeader.utf8ByteSize + blockBytes subject files := by
  rw [renderFilePayload, String.utf8ByteSize_append, utf8ByteSize_join, List.map_map]
  rfl

theorem utf8ByteSize_suffix (v : ValidatorWork) (rs : RuleSet) (subject : ReviewSubject) :
    (renderValidatorSuffix v rs subject).utf8ByteSize = validatorSuffixFramingBytes v rs subject +
      (v.files.map fun file => (focusFileLine file).utf8ByteSize).sum := by
  have hfocus : (renderFocusFiles v.files subject).utf8ByteSize =
      (renderFocusFiles [] subject).utf8ByteSize +
        (v.files.map fun file => (focusFileLine file).utf8ByteSize).sum := by
    have hempty : (String.join (List.map focusFileLine [])).utf8ByteSize = 0 := rfl
    simp only [renderFocusFiles, String.utf8ByteSize_append, hempty]
    rw [utf8ByteSize_join, List.map_map]
    simp only [Function.comp_def]
    omega
  simp only [renderValidatorSuffix, validatorSuffixFramingBytes, renderSuffix,
    String.utf8ByteSize_append, hfocus]
  omega

theorem utf8ByteSize_fleetPrompt (work : WorkList) (loader : ValidatorLoader) (v : ValidatorWork)
    (rs : RuleSet) (subject : ReviewSubject) :
    (renderFleetPrompt work.changePurpose v rs subject).utf8ByteSize =
      (promptFraming work loader).purpose + chargedBytes subject v.files +
        (renderSharedProbeEvidence v.sharedProbeResults).utf8ByteSize +
        validatorSuffixFramingBytes v rs subject := by
  simp only [renderFleetPrompt, promptFraming, String.utf8ByteSize_append, utf8ByteSize_payload,
    utf8ByteSize_suffix, chargedBytes_eq]
  omega

theorem utf8ByteSize_runPrime (loader : ValidatorLoader) (h : b.changePurpose = work.changePurpose) :
    (renderRunPrime b).utf8ByteSize =
      (promptFraming work loader).purpose + blockBytes b.subject b.distinctFiles +
        (renderSharedProbeEvidence b.sharedProbeResults).utf8ByteSize +
        primeHandoff.utf8ByteSize := by
  simp only [renderRunPrime, promptFraming, String.utf8ByteSize_append, utf8ByteSize_payload, h]
  omega

theorem le_foldl_larger (xs : List (Nat × String)) (best : Option (Nat × String)) :
    best.elim 0 Prod.fst ≤ (xs.foldl larger best).elim 0 Prod.fst ∧
      ∀ x ∈ xs, x.1 ≤ (xs.foldl larger best).elim 0 Prod.fst := by
  induction xs generalizing best with
  | nil => exact ⟨Nat.le_refl _, fun _ hx => absurd hx List.not_mem_nil⟩
  | cons x xs ih =>
    have hstep : best.elim 0 Prod.fst ≤ (larger best x).elim 0 Prod.fst ∧
        x.1 ≤ (larger best x).elim 0 Prod.fst := by
      cases best with
      | none => exact ⟨Nat.zero_le _, Nat.le_refl _⟩
      | some y =>
        by_cases hlt : x.1 < y.1
        · simp only [larger, hlt, if_true, Option.elim_some]
          omega
        · simp only [larger, hlt, if_false, Option.elim_some]
          omega
    obtain ⟨hbest, hmem⟩ := ih (larger best x)
    refine ⟨hstep.1.trans hbest, fun y hy => ?_⟩
    rcases List.mem_cons.mp hy with rfl | hy
    · exact hstep.2.trans hbest
    · exact hmem y hy

theorem suffix_le_framing {loader : ValidatorLoader} {w : ValidatorWork}
    (hw : w ∈ work.validators) (hname : v.validatorName = w.validatorName)
    (hrs : loader v.validatorName = some rs) :
    validatorSuffixFramingBytes v rs work.subject ≤ (promptFraming work loader).validatorSuffix := by
  have hsame : validatorSuffixFramingBytes v rs work.subject =
      validatorSuffixFramingBytes w rs work.subject := by
    rw [validatorSuffixFramingBytes, validatorSuffixFramingBytes, hname]
  rw [hname] at hrs
  refine le_trans ?_ (le_max_left _ _)
  rw [hsame]
  refine (le_foldl_larger _ none).2 (validatorSuffixFramingBytes w rs work.subject,
    w.validatorName) (List.mem_filterMap.mpr ⟨w, hw, ?_⟩)
  rw [hrs, Option.map_some]

end

section

variable {work b : WorkList} {loader : ValidatorLoader} {v : ValidatorWork} {rs : RuleSet}
  {group : List (String × Nat)}

theorem framing_add_group_le {cost : FileWork → Nat} {framing : Nat} (h : framing ≤ maxFramingBytes)
    (hb : BatchOf (FleetConfig.default.batchBudget framing) cost work b group) :
    framing + (group.map Prod.snd).sum ≤ agentPromptCap := by
  have hcap : maxFramingBytes + maxFileBlockBytes = agentPromptCap := rfl
  rcases hb.bytes with hbytes | hbytes
  · have hle : (group.map Prod.snd).sum ≤ agentPromptCap - framing :=
      hbytes.trans (min_le_right _ _)
    omega
  · have hle : (group.map Prod.snd).sum ≤ maxFileBlockBytes := hbytes.trans (min_le_right _ _)
    omega

theorem sum_le_group {cost : FileWork → Nat} {budget : BatchBudget}
    (hb : BatchOf budget cost work b group) (files : List FileWork)
    (hnodup : (files.map FileWork.path).Nodup)
    (hfiles : ∀ file ∈ files, ∃ v ∈ b.validators, file ∈ v.files) :
    (files.map cost).sum ≤ (group.map Prod.snd).sum := by
  refine sum_le_of_charged files hnodup group fun file hfile => ?_
  obtain ⟨v, hv, hin⟩ := hfiles file hfile
  exact hb.charged v hv file hin

theorem packed_validator (h : work.Assembled)
    (hframing : promptFramingBytes work loader ≤ maxFramingBytes)
    (hb : b ∈ reviewBatches work loader) (hv : v ∈ b.validators)
    (hrs : loader v.validatorName = some rs) :
    (promptFraming work loader).purpose + (promptFraming work loader).sharedEvidence +
      validatorSuffixFramingBytes v rs work.subject + chargedBytes work.subject v.files ≤
        agentPromptCap := by
  obtain ⟨group, hgroup⟩ := batchOf_of_mem h hb
  have hpacked := framing_add_group_le hframing hgroup
  have hsum := sum_le_group hgroup v.files (hgroup.paths v hv) fun file hfile => ⟨v, hv, hfile⟩
  obtain ⟨w, hw, hname, -⟩ := hgroup.origin v hv
  have hsuffix : validatorSuffixFramingBytes v rs work.subject ≤
      (promptFraming work loader).validatorSuffix := suffix_le_framing hw hname hrs
  rw [promptFramingBytes, PromptFraming.total] at hpacked
  rw [chargedBytes]
  omega

theorem packed_prime (h : work.Assembled)
    (hframing : promptFramingBytes work loader ≤ maxFramingBytes)
    (hb : b ∈ reviewBatches work loader) :
    (promptFraming work loader).purpose + (promptFraming work loader).sharedEvidence +
      primeHandoff.utf8ByteSize + blockBytes work.subject b.distinctFiles ≤ agentPromptCap := by
  obtain ⟨group, hgroup⟩ := batchOf_of_mem h hb
  have hpacked := framing_add_group_le hframing hgroup
  have hsum := sum_le_group hgroup b.distinctFiles (nodup_dedupByKey _) fun file hfile => by
    obtain ⟨v, hv, hin⟩ := List.mem_flatMap.mp ((dedupByKey_sublist _).subset hfile)
    exact ⟨v, hv, hin⟩
  have hblocks := blockBytes_le work.subject b.distinctFiles
  have hhandoff : primeHandoff.utf8ByteSize ≤ (promptFraming work loader).validatorSuffix :=
    le_max_right _ _
  rw [promptFramingBytes, PromptFraming.total] at hpacked
  rw [chargedBytes] at hblocks
  omega

end

section

variable {work b : WorkList} {loader : ValidatorLoader} {v : ValidatorWork}
  {results all : List ProbeResult}

def ProbeResult.key (result : ProbeResult) : String × String := (result.name, result.target)

theorem resultsBytes_le (hnodup : (results.map ProbeResult.key).Nodup) (hsub : results ⊆ all) :
    resultsBytes false results ≤ resultsBytes false all := by
  obtain ⟨sub, hperm, hsublist⟩ := List.subperm_of_subset hnodup.of_map hsub
  have hsum : resultsBytes false sub = resultsBytes false results :=
    (hperm.map (resultBytes false)).sum_eq
  rw [← hsum]
  exact (hsublist.map (resultBytes false)).sum_le_sum fun _ _ => Nat.zero_le _

theorem utf8ByteSize_sharedEvidence (h : resultsBytes false results ≤ sharedRowBudget) :
    (renderSharedProbeEvidence results).utf8ByteSize =
      if results = [] then 0
      else (sharedEvidenceHeader ++ sharedEvidenceIntro).utf8ByteSize +
        (resultsBytes false results + 1) := by
  rw [renderSharedProbeEvidence]
  by_cases hempty : results = []
  · rw [if_pos hempty, if_pos hempty]
    rfl
  · obtain ⟨homitted, hbytes⟩ := renderProbeEvidenceWithin_full (some sharedRowBudget) false
      results fun max hmax => (Option.some.inj hmax) ▸ h
    simp only [homitted, Nat.lt_irrefl, if_false, String.utf8ByteSize_append, hbytes,
      evidenceBytes, hempty]
    have hnone : ("" : String).utf8ByteSize = 0 := rfl
    omega

theorem sharedEvidence_le (h : resultsBytes false all ≤ sharedRowBudget)
    (hnodup : (results.map ProbeResult.key).Nodup) (hsub : results ⊆ all) :
    (renderSharedProbeEvidence results).utf8ByteSize ≤
      (renderSharedProbeEvidence all).utf8ByteSize := by
  have hle := resultsBytes_le hnodup hsub
  rw [utf8ByteSize_sharedEvidence (hle.trans h), utf8ByteSize_sharedEvidence h]
  by_cases hresults : results = []
  · rw [if_pos hresults]
    exact Nat.zero_le _
  · have hall : all ≠ [] := by
      rintro rfl
      exact hresults (List.subset_nil.mp hsub)
    rw [if_neg hresults, if_neg hall]
    omega

theorem shared_subset (h : work.Assembled) {w : ValidatorWork} (hw : w ∈ work.validators) :
    w.sharedProbeResults ⊆ work.sharedProbeResults := by
  intro r hr
  have hmem : r.key ∈ work.sharedProbeResults.map ProbeResult.key :=
    key_mem_dedupByKey (List.mem_flatMap.mpr ⟨w, hw, hr⟩)
  obtain ⟨s, hs, hkey⟩ := List.mem_map.mp hmem
  obtain ⟨w', hw', hs'⟩ := List.mem_flatMap.mp ((dedupByKey_sublist _).subset hs)
  obtain ⟨hname, htarget⟩ := Prod.mk.inj hkey
  rwa [h.oneRun w hw w' hw' r hr s hs' hname.symm htarget.symm]

end

end SwissArmyHammer.Review
