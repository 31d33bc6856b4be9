import SwissArmyHammer.Common.Json
import SwissArmyHammer.Text.Lines

/-! What hooks answer, what is decided from an answer, and what the agent makes of the decisions. -/

namespace SwissArmyHammer.Hooks

inductive HookEventKind
  | sessionStart
  | userPromptSubmit
  | preToolUse
  | postToolUse
  | postToolUseFailure
  | stop
  | notification
  | postCompact
  | teammateIdle
  | taskCompleted
  | elicitation
  | elicitationResult
  | instructionsLoaded
  | configChange
  | worktreeCreate
  | worktreeRemove
  deriving DecidableEq

inductive HookDecision
  | allow
  | block (reason : String)
  | allowWithContext (context : String)
  | cancel (reason : String)
  | shouldContinue (reason : String)
  | allowWithUpdatedInput (updatedInput : Json)
  deriving DecidableEq

inductive HookDecisionValue
  | allow
  | block
  | ask
  deriving DecidableEq

inductive HookSpecificOutput
  | preToolUse (permissionDecision permissionDecisionReason : Option String)
      (updatedInput : Option Json) (additionalContext : Option String)
  | postToolUse (additionalContext : Option String)
  | postToolUseFailure (additionalContext : Option String)
  | userPromptSubmit (additionalContext : Option String)
  | stop (reason : Option String)
  | sessionStart (additionalContext : Option String)
  | notification (additionalContext : Option String)

structure HookOutput where
  shouldContinue : Bool
  stopReason : Option String
  decision : Option HookDecisionValue
  reason : Option String
  hookSpecificOutput : Option HookSpecificOutput
  additionalContext : Option String

structure PromptHookResponse where
  ok : Bool
  reason : Option String

def isBlockable (kind : HookEventKind) : Bool :=
  decide (kind = .preToolUse ∨ kind = .userPromptSubmit)

def feedsStderrToAgent (kind : HookEventKind) : Bool :=
  decide (kind = .postToolUse ∨ kind = .postToolUseFailure)

def decideByEventKind (kind : HookEventKind) (reason : String) : HookDecision :=
  if isBlockable kind then .block reason
  else if kind = .stop then .shouldContinue reason
  else if feedsStderrToAgent kind then .allowWithContext reason
  else .allow

def interpretPreToolUseSpecific (permissionDecision permissionDecisionReason : Option String)
    (updatedInput : Option Json) (additionalContext : Option String) : Option HookDecision :=
  if permissionDecision = some "deny" ∨ permissionDecision = some "block" then
    some (.block (permissionDecisionReason.getD "Denied by hook"))
  else if permissionDecision = some "allow" then
    some (additionalContext.elim .allow .allowWithContext)
  else
    match updatedInput with
    | some input => some (.allowWithUpdatedInput input)
    | none => additionalContext.map .allowWithContext

def interpretSpecificOutput : HookSpecificOutput → Option HookDecision
  | .preToolUse permissionDecision permissionDecisionReason updatedInput additionalContext =>
    interpretPreToolUseSpecific permissionDecision permissionDecisionReason updatedInput
      additionalContext
  | .postToolUse additionalContext | .postToolUseFailure additionalContext
  | .userPromptSubmit additionalContext | .sessionStart additionalContext
  | .notification additionalContext => additionalContext.map .allowWithContext
  | .stop reason => reason.map .shouldContinue

def HookSpecificOutput.context : HookSpecificOutput → Option String
  | .preToolUse _ _ _ additionalContext | .postToolUse additionalContext
  | .postToolUseFailure additionalContext | .userPromptSubmit additionalContext
  | .sessionStart additionalContext | .notification additionalContext => additionalContext
  | .stop _ => none

def extractSpecificContext (specific : Option HookSpecificOutput) : Option String :=
  specific.bind HookSpecificOutput.context

def HookOutput.blockReason (output : HookOutput) : String :=
  output.reason.getD "Blocked by hook"

def interpretTopLevel (output : HookOutput) (kind : HookEventKind) : HookDecision :=
  if output.decision = some .block then
    if kind = .stop then .shouldContinue output.blockReason else .block output.blockReason
  else
    match output.additionalContext.or (extractSpecificContext output.hookSpecificOutput) with
    | some context => .allowWithContext context
    | none => .allow

def interpretOutput (output : HookOutput) (kind : HookEventKind) : HookDecision :=
  if !output.shouldContinue then .cancel (output.stopReason.getD "Hook requested stop")
  else
    match output.hookSpecificOutput.bind interpretSpecificOutput with
    | some decision => decision
    | none => interpretTopLevel output kind

def interpretPromptResponse (response : PromptHookResponse) (kind : HookEventKind) :
    HookDecision :=
  if response.ok then .allow
  else decideByEventKind kind (response.reason.getD "Blocked by prompt hook")

section

def trim (s : String) : String := String.ofList (Text.trim s.toList)

/-- How a command or an evaluator ended. A process that a signal ended has no exit code, and an
evaluator's answer that does not parse is `none`. -/
inductive HookAnswer
  | command (command : String) (code : Option Int) (stdout stderr : String)
  | commandSpawnFailed
  | commandTimedOut (command : String)
  | evaluated (response : Option PromptHookResponse)
  | evaluatorFailed
  | evaluatorTimedOut (isAgent : Bool)

variable (parse : String → Option HookOutput)

def interpretExit0Stdout (stdout : String) (kind : HookEventKind) : HookDecision :=
  if trim stdout = "" then .allow
  else
    match parse (trim stdout) with
    | some output => interpretOutput output kind
    | none => .allow

def exit2Reason (command stderr : String) : String :=
  if trim stderr = "" then "Command '" ++ command ++ "' exited with code 2" else trim stderr

def interpretExitCode (command : String) (code : Option Int) (stdout stderr : String)
    (kind : HookEventKind) : HookDecision :=
  if code.getD (-1) = 0 then interpretExit0Stdout parse stdout kind
  else if code.getD (-1) = 2 then decideByEventKind kind (exit2Reason command stderr)
  else .allow

def HookAnswer.decide (kind : HookEventKind) : HookAnswer → HookDecision
  | .command cmd code stdout stderr => interpretExitCode parse cmd code stdout stderr kind
  | .commandSpawnFailed | .evaluatorFailed | .evaluated none => .allow
  | .commandTimedOut cmd => .block ("Command '" ++ cmd ++ "' timed out")
  | .evaluated (some response) => interpretPromptResponse response kind
  | .evaluatorTimedOut isAgent => .block ((if isAgent then "Agent" else "Prompt") ++ " hook timed out")

end

section

inductive PreToolUseOutcome
  | deny (reason : String)
  | stopTurn (reason : String)
  | proceed (updatedInput : Option Json) (context : Option String)

variable (decisions : List HookDecision)

def findBlock : Option String :=
  decisions.findSome? fun d => match d with
    | .block reason => some reason
    | _ => none

def findCancel : Option String :=
  decisions.findSome? fun d => match d with
    | .cancel reason => some reason
    | _ => none

def contexts : List String :=
  decisions.filterMap fun d => match d with
    | .allowWithContext context => some context
    | _ => none

def collectContext : Option String :=
  if contexts decisions = [] then none
  else some (String.ofList (List.intercalate ['\n'] ((contexts decisions).map String.toList)))

def checkBlockable : Except String Unit :=
  match findBlock decisions, findCancel decisions with
  | some reason, _ => .error ("Blocked by hook: " ++ reason)
  | none, some reason => .error ("Cancelled by hook: " ++ reason)
  | none, none => .ok ()

def injectContext {β : Type} (text : String → β) (prompt : List β) : List β :=
  (collectContext decisions).elim prompt fun context => text context :: prompt

variable (parse : String → Option HookOutput) (answers : List HookAnswer)

def runHooks (kind : HookEventKind) : List HookDecision :=
  answers.map (HookAnswer.decide parse kind)

def runUserPromptSubmit {β : Type} (text : String → β) (prompt : List β) :
    Except String (List β) :=
  (checkBlockable (runHooks parse answers .userPromptSubmit)).map fun _ =>
    injectContext (runHooks parse answers .userPromptSubmit) text prompt

def runPreToolUse : PreToolUseOutcome :=
  let decisions := runHooks parse answers .preToolUse
  match findBlock decisions, findCancel decisions with
  | some reason, _ => .deny reason
  | none, some reason => .stopTurn reason
  | none, none =>
    .proceed (decisions.findSome? fun d => match d with
      | .allowWithUpdatedInput updatedInput => some updatedInput
      | _ => none) (collectContext decisions)

def runPostToolUse : Option String := collectContext (runHooks parse answers .postToolUse)

def runPostToolUseFailure : Option String :=
  collectContext (runHooks parse answers .postToolUseFailure)

end

end SwissArmyHammer.Hooks

/-! What becomes of a refusal, by the form in which it arrives. -/

namespace SwissArmyHammer.Hooks

namespace HookSpecificOutput

def permissionDecision : HookSpecificOutput → Option String
  | .preToolUse permissionDecision _ _ _ => permissionDecision
  | _ => none

def permissionDecisionReason : HookSpecificOutput → Option String
  | .preToolUse _ permissionDecisionReason _ _ => permissionDecisionReason
  | _ => none

def updatedInput : HookSpecificOutput → Option Json
  | .preToolUse _ _ updatedInput _ => updatedInput
  | _ => none

def stopReason : HookSpecificOutput → Option String
  | .stop reason => reason
  | _ => none

def denies (specific : HookSpecificOutput) : Prop :=
  specific.permissionDecision = some "deny" ∨ specific.permissionDecision = some "block"

def allows (specific : HookSpecificOutput) : Prop := specific.permissionDecision = some "allow"

variable {specific : HookSpecificOutput}

theorem interpret_denies (h : specific.denies) : interpretSpecificOutput specific =
    some (.block (specific.permissionDecisionReason.getD "Denied by hook")) := by
  cases specific with
  | preToolUse decision reason input context => exact if_pos h
  | _ => simp [denies, permissionDecision] at h

theorem interpret_allows (h : specific.allows) : interpretSpecificOutput specific =
    some (specific.context.elim .allow .allowWithContext) := by
  cases specific with
  | preToolUse decision reason input context =>
    obtain rfl : decision = some "allow" := h
    rfl
  | _ => simp [allows, permissionDecision] at h

theorem interpret_of_not (hdenies : ¬ specific.denies) (hallows : ¬ specific.allows) :
    interpretSpecificOutput specific =
      (specific.updatedInput.map .allowWithUpdatedInput).or
        ((specific.context.map .allowWithContext).or (specific.stopReason.map .shouldContinue)) := by
  cases specific with
  | preToolUse decision reason input context =>
    refine ((if_neg hdenies).trans (if_neg hallows)).trans ?_
    cases input with
    | some input => rfl
    | none => simp [updatedInput, HookSpecificOutput.context, stopReason]
  | stop reason => rfl
  | postToolUse context | postToolUseFailure context | userPromptSubmit context
  | sessionStart context | notification context =>
    simp [interpretSpecificOutput, updatedInput, HookSpecificOutput.context, stopReason]

end HookSpecificOutput

section

variable (output : HookOutput) (kind : HookEventKind)

/-- When a document that refuses is decided like any other refusal: no field of its specific part
speaks first, unless it says the same, and the kind of the event can act on a refusal. -/
def HookOutput.RefusesAlike : Prop :=
  let specific := output.hookSpecificOutput
  (specific.bind HookSpecificOutput.updatedInput = none ∧ extractSpecificContext specific = none ∧
      specific.bind HookSpecificOutput.stopReason = none ∧
      (isBlockable kind = true ∨ kind = .stop)) ∨
    (kind = .stop ∧ specific.bind HookSpecificOutput.stopReason = some output.blockReason) ∨
    (feedsStderrToAgent kind = true ∧ specific.bind HookSpecificOutput.updatedInput = none ∧
      extractSpecificContext specific = some output.blockReason)

def HookOutput.PassesOn (text : String) : Prop :=
  output.shouldContinue = true ∧
    (∀ specific, output.hookSpecificOutput = some specific → ¬ specific.denies ∧
      (specific.allows → specific.context = some text) ∧
      (¬ specific.allows → specific.updatedInput = none ∧ specific.stopReason = none)) ∧
    (extractSpecificContext output.hookSpecificOutput = some text ∨
      extractSpecificContext output.hookSpecificOutput = none ∧ output.decision ≠ some .block ∧
        output.additionalContext = some text)

def HookOutput.refusals : List String :=
  (if output.decision = some .block then [output.blockReason] else []) ++
    (match output.hookSpecificOutput with
      | some (.preToolUse (some "deny") reason _ _) | some (.preToolUse (some "block") reason _ _) =>
        [reason.getD "Denied by hook"]
      | _ => [])

def HookOutput.texts : List String :=
  output.refusals ++ output.additionalContext.toList ++
    (extractSpecificContext output.hookSpecificOutput).toList

variable {output kind}

theorem interpretOutput_denied {specific : HookSpecificOutput}
    (hcontinue : output.shouldContinue = true) (hspecific : output.hookSpecificOutput = some specific)
    (hdenies : specific.denies) : interpretOutput output kind =
      .block (specific.permissionDecisionReason.getD "Denied by hook") := by
  rw [interpretOutput, hcontinue, hspecific, Option.bind_some,
    HookSpecificOutput.interpret_denies hdenies]
  rfl

theorem not_blockable_of_feeds (h : feedsStderrToAgent kind = true) : isBlockable kind = false := by
  cases kind with
  | postToolUse => rfl
  | postToolUseFailure => rfl
  | _ => cases h

theorem interpretOutput_refusing (hcontinue : output.shouldContinue = true)
    (hblock : output.decision = some .block)
    (hsilent : output.hookSpecificOutput.bind HookSpecificOutput.permissionDecision = none) :
    interpretOutput output kind =
      ((output.hookSpecificOutput.bind HookSpecificOutput.updatedInput).map
        HookDecision.allowWithUpdatedInput).elim
        (((extractSpecificContext output.hookSpecificOutput).map
          HookDecision.allowWithContext).elim
          (((output.hookSpecificOutput.bind HookSpecificOutput.stopReason).map
            HookDecision.shouldContinue).elim
            (if kind = .stop then .shouldContinue output.blockReason
              else .block output.blockReason) id) id) id := by
  have htop : interpretTopLevel output kind =
      if kind = .stop then .shouldContinue output.blockReason else .block output.blockReason :=
    if_pos hblock
  rw [interpretOutput, hcontinue, htop]
  cases hspecific : output.hookSpecificOutput with
  | none => rfl
  | some specific =>
    rw [hspecific, Option.bind_some] at hsilent
    have hdenies : ¬ specific.denies := by simp [HookSpecificOutput.denies, hsilent]
    have hallows : ¬ specific.allows := by simp [HookSpecificOutput.allows, hsilent]
    have hinterpret := HookSpecificOutput.interpret_of_not hdenies hallows
    rw [Option.bind_some, hinterpret, extractSpecificContext, Option.bind_some,
      Option.bind_some]
    cases specific.updatedInput with
    | some input => rfl
    | none =>
      cases specific.context with
      | some context => rfl
      | none =>
        grind

theorem refusesAlike_iff (hcontinue : output.shouldContinue = true)
    (hblock : output.decision = some .block)
    (hsilent : output.hookSpecificOutput.bind HookSpecificOutput.permissionDecision = none) :
    interpretOutput output kind = decideByEventKind kind output.blockReason ↔
      output.RefusesAlike kind := by
  rw [interpretOutput_refusing hcontinue hblock hsilent, HookOutput.RefusesAlike]
  have hone : output.hookSpecificOutput.bind HookSpecificOutput.stopReason = none ∨
      output.hookSpecificOutput.bind HookSpecificOutput.updatedInput = none ∧
        extractSpecificContext output.hookSpecificOutput = none := by
    cases hspecific : output.hookSpecificOutput with
    | none => exact .inl rfl
    | some specific =>
      cases specific with
      | stop reason => exact .inr ⟨rfl, rfl⟩
      | _ => exact .inl rfl
  rcases hone with hstop | ⟨hinput, hcontext⟩
  · rw [hstop]
    cases output.hookSpecificOutput.bind HookSpecificOutput.updatedInput with
    | some input => cases kind <;> simp [decideByEventKind, isBlockable, feedsStderrToAgent]
    | none =>
      cases extractSpecificContext output.hookSpecificOutput with
      | some context => cases kind <;> simp [decideByEventKind, isBlockable, feedsStderrToAgent]
      | none => cases kind <;> simp [decideByEventKind, isBlockable, feedsStderrToAgent]
  · rw [hinput, hcontext]
    cases output.hookSpecificOutput.bind HookSpecificOutput.stopReason with
    | some reason => cases kind <;> simp [decideByEventKind, isBlockable, feedsStderrToAgent]
    | none => cases kind <;> simp [decideByEventKind, isBlockable, feedsStderrToAgent]

theorem interpretOutput_context_iff {text : String} :
    interpretOutput output kind = .allowWithContext text ↔ output.PassesOn text := by
  rw [interpretOutput, HookOutput.PassesOn]
  cases output.shouldContinue with
  | false => simp
  | true =>
    have htop : extractSpecificContext output.hookSpecificOutput = none →
        (interpretTopLevel output kind = .allowWithContext text ↔
          output.decision ≠ some .block ∧ output.additionalContext = some text) := by
      intro hnone
      rw [interpretTopLevel, hnone, Option.or_none]
      by_cases hblock : output.decision = some .block
      · rw [if_pos hblock]
        split <;> simp [hblock]
      · grind
    cases hspecific : output.hookSpecificOutput with
    | none =>
      rw [hspecific] at htop
      simpa [extractSpecificContext] using htop rfl
    | some specific =>
      rw [hspecific] at htop
      simp only [extractSpecificContext, Option.bind_some, Bool.not_true, Bool.false_eq_true,
        if_false, true_and, Option.some.injEq, forall_eq'] at htop ⊢
      by_cases hdenies : specific.denies
      · simp [HookSpecificOutput.interpret_denies hdenies, hdenies]
      · by_cases hallows : specific.allows
        · rw [HookSpecificOutput.interpret_allows hallows]
          cases specific.context with
          | none => simp [hdenies, hallows]
          | some context => simp [hdenies, hallows]
        · rw [HookSpecificOutput.interpret_of_not hdenies hallows]
          cases specific.updatedInput with
          | some input => simp [hallows]
          | none =>
            cases hcontext : specific.context with
            | some context =>
              have hstop : specific.stopReason = none := by
                cases specific with
                | stop reason => cases hcontext
                | _ => rfl
              simp [hdenies, hallows, hstop]
            | none =>
              cases specific.stopReason with
              | some reason => simp [hallows]
              | none => simpa [hdenies, hallows] using htop hcontext

end

section

variable (parse : String → Option HookOutput)

def HookAnswer.texts : HookAnswer → List String
  | .command cmd code stdout stderr =>
    if code.getD (-1) = 0 then
      if trim stdout = "" then [] else (parse (trim stdout)).elim [] HookOutput.texts
    else if code.getD (-1) = 2 then [exit2Reason cmd stderr]
    else []
  | .evaluated (some response) =>
    if response.ok then [] else [response.reason.getD "Blocked by prompt hook"]
  | _ => []

/-- A document gives one text at most, and nothing in it keeps that text from the agent. -/
def HookAnswer.Whole : HookAnswer → Prop
  | .command _ code stdout _ => code.getD (-1) = 0 → trim stdout ≠ "" →
    ∀ output, parse (trim stdout) = some output → ∀ text ∈ output.texts, output.PassesOn text
  | _ => True

variable {parse} {kind : HookEventKind} {answer : HookAnswer} {answers : List HookAnswer}

theorem whole_iff (hfeeds : feedsStderrToAgent kind = true) :
    (∀ text ∈ answer.texts parse, answer.decide parse kind = .allowWithContext text) ↔
      answer.Whole parse := by
  have hdecide : ∀ reason, decideByEventKind kind reason = .allowWithContext reason := by
    intro reason
    have hstop : kind ≠ .stop := by
      rintro rfl
      cases hfeeds
    rw [decideByEventKind, not_blockable_of_feeds hfeeds, hfeeds]
    simp [hstop]
  cases answer with
  | command cmd code stdout stderr =>
    rw [HookAnswer.texts, HookAnswer.decide, interpretExitCode, HookAnswer.Whole]
    by_cases hzero : code.getD (-1) = 0
    · rw [if_pos hzero, interpretExit0Stdout]
      by_cases hempty : trim stdout = ""
      · simp [hempty]
      · cases parse (trim stdout) with
        | none => simp
        | some output => simp [hzero, hempty, interpretOutput_context_iff]
    · by_cases htwo : code.getD (-1) = 2
      · simp [htwo, hdecide]
      · simp [htwo, hzero]
  | evaluated response =>
    cases response with
    | none => simp [HookAnswer.texts, HookAnswer.Whole]
    | some response =>
      cases hok : response.ok with
      | true => simp [HookAnswer.texts, HookAnswer.Whole, hok]
      | false => simp [HookAnswer.texts, HookAnswer.decide, interpretPromptResponse,
          HookAnswer.Whole, hok, hdecide]
  | _ => simp [HookAnswer.texts, HookAnswer.Whole]

theorem mem_contexts {decisions : List HookDecision} {text : String} :
    text ∈ contexts decisions ↔ .allowWithContext text ∈ decisions := by
  rw [contexts, List.mem_filterMap]
  constructor
  · grind
  · intro h
    exact ⟨_, h, rfl⟩

theorem infix_intercalate {sep : List Char} {part : List Char} {parts : List (List Char)}
    (h : part ∈ parts) : part <:+: List.intercalate sep parts := by
  induction parts with
  | nil => exact absurd h List.not_mem_nil
  | cons first rest ih =>
    cases rest with
    | nil =>
      obtain rfl := List.mem_singleton.mp h
      simp
    | cons second more =>
      rcases List.mem_cons.mp h with rfl | hrest
      · exact ⟨[], sep ++ List.intercalate sep (second :: more), by simp⟩
      · exact (ih hrest).trans ⟨first ++ sep, [], by simp⟩

theorem infix_collectContext {decisions : List HookDecision} {text : String}
    (h : .allowWithContext text ∈ decisions) :
    ∃ context, collectContext decisions = some context ∧ text.toList <:+: context.toList := by
  have hmem := mem_contexts.mpr h
  refine ⟨_, if_neg (List.ne_nil_of_mem hmem), ?_⟩
  rw [String.toList_ofList]
  exact infix_intercalate (List.mem_map_of_mem hmem)

theorem findBlock_isSome (decisions : List HookDecision) :
    (findBlock decisions).isSome ↔ ∃ reason, .block reason ∈ decisions := by
  rw [findBlock, List.findSome?_isSome_iff]
  constructor
  · grind
  · intro h
    obtain ⟨reason, h⟩ := h
    exact ⟨_, h, rfl⟩

theorem findCancel_isSome (decisions : List HookDecision) :
    (findCancel decisions).isSome ↔ ∃ reason, .cancel reason ∈ decisions := by
  rw [findCancel, List.findSome?_isSome_iff]
  constructor
  · grind
  · intro h
    obtain ⟨reason, h⟩ := h
    exact ⟨_, h, rfl⟩

theorem block_iff_runUserPromptSubmit {β : Type} (text : String → β) (prompt : List β) :
    (∃ e, runUserPromptSubmit parse answers text prompt = .error e) ↔
      ∃ d ∈ runHooks parse answers .userPromptSubmit, ∃ reason, d = .block reason ∨
        d = .cancel reason := by
  have hblock := findBlock_isSome (runHooks parse answers .userPromptSubmit)
  have hcancel := findCancel_isSome (runHooks parse answers .userPromptSubmit)
  rw [runUserPromptSubmit, checkBlockable]
  cases hb : findBlock (runHooks parse answers .userPromptSubmit) with
  | some reason =>
    obtain ⟨reason, hmem⟩ := hblock.mp (by rw [hb]; rfl)
    exact iff_of_true ⟨_, rfl⟩ ⟨_, hmem, reason, .inl rfl⟩
  | none =>
    rw [hb] at hblock
    cases hc : findCancel (runHooks parse answers .userPromptSubmit) with
    | some reason =>
      obtain ⟨reason, hmem⟩ := hcancel.mp (by rw [hc]; rfl)
      exact iff_of_true ⟨_, rfl⟩ ⟨_, hmem, reason, .inr rfl⟩
    | none =>
      rw [hc] at hcancel
      refine iff_of_false (by simp [Except.map]) fun h => ?_
      obtain ⟨d, hd, reason, rfl | rfl⟩ := h
      · cases hblock.mpr ⟨reason, hd⟩
      · cases hcancel.mpr ⟨reason, hd⟩

theorem block_iff_runPreToolUse :
    (∀ updatedInput context, runPreToolUse parse answers ≠ .proceed updatedInput context) ↔
      ∃ d ∈ runHooks parse answers .preToolUse, ∃ reason, d = .block reason ∨
        d = .cancel reason := by
  have hblock := findBlock_isSome (runHooks parse answers .preToolUse)
  have hcancel := findCancel_isSome (runHooks parse answers .preToolUse)
  unfold runPreToolUse
  cases hb : findBlock (runHooks parse answers .preToolUse) with
  | some reason =>
    obtain ⟨reason, hmem⟩ := hblock.mp (by rw [hb]; rfl)
    exact iff_of_true (by simp [hb]) ⟨_, hmem, reason, .inl rfl⟩
  | none =>
    rw [hb] at hblock
    cases hc : findCancel (runHooks parse answers .preToolUse) with
    | some reason =>
      obtain ⟨reason, hmem⟩ := hcancel.mp (by rw [hc]; rfl)
      exact iff_of_true (by simp [hb, hc]) ⟨_, hmem, reason, .inr rfl⟩
    | none =>
      rw [hc] at hcancel
      refine iff_of_false (by simp [hb, hc]) fun h => ?_
      obtain ⟨d, hd, reason, rfl | rfl⟩ := h
      · cases hblock.mpr ⟨reason, hd⟩
      · cases hcancel.mpr ⟨reason, hd⟩

theorem texts_collected (hfeeds : feedsStderrToAgent kind = true)
    (hwhole : ∀ answer ∈ answers, answer.Whole parse) {text : String}
    (hanswer : answer ∈ answers) (htext : text ∈ answer.texts parse) :
    ∃ context, collectContext (runHooks parse answers kind) = some context ∧
      text.toList <:+: context.toList := by
  have hpassed := (whole_iff hfeeds).mpr (hwhole answer hanswer) text htext
  exact infix_collectContext (List.mem_map.mpr ⟨answer, hanswer, hpassed⟩)

theorem texts_of_one_iff (hfeeds : feedsStderrToAgent kind = true) :
    (∀ text ∈ answer.texts parse, text ∈ contexts (runHooks parse [answer] kind)) ↔
      answer.Whole parse := by
  rw [← whole_iff hfeeds]
  simp only [runHooks, List.map_singleton, mem_contexts, List.mem_singleton]
  constructor
  · intro h text htext
    exact (h text htext).symm
  · intro h text htext
    exact (h text htext).symm

end

def blocking (specific : Option HookSpecificOutput) : HookOutput :=
  ⟨true, none, some .block, some "tests fail", specific, none⟩

end SwissArmyHammer.Hooks
