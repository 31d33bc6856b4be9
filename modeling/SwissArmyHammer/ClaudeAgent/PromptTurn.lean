import SwissArmyHammer.ClaudeAgent.StreamLoop
import SwissArmyHammer.Text.Lines

/-! One prompt turn: what it sends to the client, what it stores in the session and what it
persists. At its awaits a turn may be interrupted. -/

namespace SwissArmyHammer.ClaudeAgent.PromptTurn

open Text

inductive ToolKind
  | read | edit | execute | other
  deriving DecidableEq

/-- The configuration, and what the turn calls: `str::to_lowercase`, and the plan that the
parameters of a TodoWrite call stand for. -/
structure Agent (Plan : Type) where
  maxTurnRequests : Nat
  maxTokensPerTurn : Nat
  maxPromptLength : Nat
  toLowercase : List Char → List Char
  agentPlan : Json → Option Plan

inductive Update (Plan : Type)
  | userMessageChunk (text : String)
  | agentMessageChunk (text : String)
  | toolCall (call : ToolCallInfo) (kind : ToolKind)
  | toolCallUpdate (result : ToolResultInfo)
  | plan (plan : Plan)
  | currentModeUpdate (modeId : String)

inductive Notification (Plan : Type)
  | update (u : Update Plan)
  | sessionCancelled
  | sessionInfo
  | turnComplete

inductive Interrupt
  | cancel
  | setMode (modeId : String)
  | titleReads
  | titleWrites
  deriving DecidableEq

/-- A chunk, what comes before it and while it is handled, and whether the permission policy of a
tool call can be evaluated. -/
structure ChunkStep where
  before : List Interrupt
  chunk : MessageChunk
  during : List Interrupt
  policyFails : Bool

structure Turn where
  prompt : List String
  requestedMaxTokens : Option Nat
  streaming : Bool
  contentRefused : Bool
  queryFails : Bool
  early : List Interrupt
  beforeQuery : List Interrupt
  steps : List ChunkStep
  late : List Interrupt
  closing : List Interrupt

/-- `answered` holds when the last turn returned and nothing was stored since. -/
structure State (Plan : Type) where
  context : List (Update Plan)
  turnRequestCount : Nat
  turnTokenCount : Nat
  cancelled : Bool
  sent : List (Notification Plan)
  record : Option (List (Update Plan))
  titleRecord : Option (List (Update Plan))
  answered : Bool

inductive StopReason
  | endTurn | maxTokens | maxTurnRequests | refusal | cancelled
  deriving DecidableEq

variable {Plan : Type}

namespace State

def opened (updates : List (Update Plan)) : State Plan :=
  ⟨updates, 0, 0, false, updates.map .update, none, none, false⟩

def storeAndSend (s : State Plan) (u : Update Plan) : State Plan :=
  { s with context := s.context ++ [u], sent := s.sent ++ [.update u] }

def persist (s : State Plan) : State Plan := { s with record := some s.context }

def interrupt (s : State Plan) : Interrupt → State Plan
  | .cancel => { s with cancelled := true, sent := s.sent ++ [.sessionCancelled] }
  | .setMode modeId => { s.storeAndSend (.currentModeUpdate modeId) with answered := false }
  | .titleReads => { s with titleRecord := some s.context }
  | .titleWrites =>
    match s.titleRecord with
    | some record =>
      { s with record := some record, titleRecord := none, sent := s.sent ++ [.sessionInfo] }
    | none => s

def interrupts (s : State Plan) (is : List Interrupt) : State Plan := is.foldl interrupt s

end State

def validPrompt (A : Agent Plan) (prompt : List String) : Bool :=
  (prompt.any fun text => trim text.toList ≠ []) &&
    decide ((String.join prompt).utf8ByteSize ≤ A.maxPromptLength)

def sendUserMessageChunks (s : State Plan) (prompt : List String) : State Plan :=
  { s with sent := s.sent ++ prompt.map fun text => .update (.userMessageChunk text) }

def prepareSessionForTurn (s : State Plan) (text : String) : State Plan :=
  { s with
    turnRequestCount := 0
    turnTokenCount := 0
    context := s.context ++ [.userMessageChunk text] }

def checkTurnLimits (A : Agent Plan) (s : State Plan) (text : String) :
    State Plan × Option StopReason :=
  let requests := s.turnRequestCount + 1
  let tokens := s.turnTokenCount + text.utf8ByteSize / 4
  if A.maxTurnRequests < requests then (s, some .maxTurnRequests)
  else if A.maxTokensPerTurn < tokens then (s, some .maxTokens)
  else ({ s with turnRequestCount := requests, turnTokenCount := tokens }, none)

def containsText (pattern : String) (text : List Char) : Bool :=
  text.tails.any fun tail => pattern.toList.isPrefixOf tail

def toolKind (A : Agent Plan) (name : String) : ToolKind :=
  let name := A.toLowercase name.toList
  if containsText "read" name then .read
  else if containsText "write" name || containsText "edit" name then .edit
  else if containsText "bash" name || containsText "execute" name then .execute
  else .other

def handleStreamingToolCall (A : Agent Plan) (s : State Plan) (step : ChunkStep)
    (call : ToolCallInfo) : State Plan × Bool :=
  let s := (s.storeAndSend (.toolCall call (toolKind A call.name))).interrupts step.during
  if step.policyFails then (s, false)
  else if call.name = "TodoWrite" then
    match A.agentPlan call.parameters with
    | some plan => (s.storeAndSend (.plan plan), true)
    | none => (s, true)
  else (s, true)

def processSingleChunk (A : Agent Plan) (s : State Plan) (step : ChunkStep) : State Plan × Bool :=
  match step.chunk.toolCall with
  | some call => handleStreamingToolCall A s step call
  | none =>
    match step.chunk.toolResult with
    | some result => ((s.storeAndSend (.toolCallUpdate result)).interrupts step.during, true)
    | none =>
      if step.chunk.content = "" then (s, true)
      else ((s.storeAndSend (.agentMessageChunk step.chunk.content)).interrupts step.during, true)

def isBare (chunk : MessageChunk) : Bool :=
  decide (chunk.content = "") && chunk.toolCall.isNone && chunk.toolResult.isNone

def estimateChunkTokens (text : String) : Nat :=
  if text.utf8ByteSize = 0 then 0 else max 1 (text.utf8ByteSize / 4)

def saturatingAdd (a b : Nat) : Nat := min (a + b) (2 ^ 64 - 1)

def effectiveGenerationCap (configMax : Nat) : Option Nat → Nat
  | some requested => min configMax requested
  | none => configMax

inductive LoopEnd
  | finished (response : String)
  | cancelled
  | capped
  | failed

def processChunks (A : Agent Plan) (cap : Nat) :
    State Plan → String → Nat → List ChunkStep → State Plan × LoopEnd
  | s, response, _, [] => (s, .finished response)
  | s, response, tokens, step :: rest =>
    let s := s.interrupts step.before
    if s.cancelled then (s, .cancelled)
    else if isBare step.chunk then processChunks A cap s response tokens rest
    else
      let handled := processSingleChunk A s step
      if handled.2 = false then (handled.1, .failed)
      else
        let tokens := saturatingAdd tokens (estimateChunkTokens step.chunk.content)
        if tokens ≤ cap then
          processChunks A cap handled.1 (response ++ step.chunk.content) tokens rest
        else ({ handled.1 with cancelled := true }, .capped)

def mapClaudeStopReason (reason : Option String) : StopReason :=
  if reason = some "max_tokens" then .maxTokens else .endTurn

def processStreamChunks (A : Agent Plan) (cap : Nat) (s : State Plan) (t : Turn) :
    State Plan × Option StopReason :=
  let loop := processChunks A cap s "" 0 t.steps
  match loop.2 with
  | .finished _ =>
    let s := loop.1.interrupts t.late
    (s, some (if s.cancelled then .cancelled else
      mapClaudeStopReason (t.steps.filterMap fun step => step.chunk.stopReason).getLast?))
  | .cancelled => ({ loop.1 with cancelled := false }, some .cancelled)
  | .capped => (loop.1, some .maxTokens)
  | .failed => (loop.1, none)

def handleStreamingPrompt (A : Agent Plan) (s : State Plan) (t : Turn) :
    State Plan × Option StopReason :=
  if t.contentRefused then (s, none)
  else if A.maxTurnRequests < s.turnRequestCount + 1 then (s, some .maxTurnRequests)
  else
    let s := { s with turnRequestCount := s.turnRequestCount + 1 }
    let s := s.interrupts t.beforeQuery
    if t.queryFails then (s, none)
    else processStreamChunks A
      (effectiveGenerationCap A.maxTokensPerTurn t.requestedMaxTokens) s t

def refusalPatterns : List String :=
  ["i can't", "i cannot", "i'm unable to", "i am unable to", "i don't feel comfortable", "i won't",
    "i will not", "that's not something i can", "i'm not able to", "i cannot assist",
    "i can't help with", "i'm not comfortable", "this request goes against", "i need to decline",
    "i must decline", "i shouldn't", "i should not", "that would be inappropriate",
    "that's not appropriate", "i'm designed not to", "i'm programmed not to", "i have to refuse",
    "i must refuse", "i cannot comply", "i'm not allowed to", "that's against my guidelines",
    "my guidelines prevent me", "i'm not permitted to", "that violates", "i cannot provide",
    "i can't provide"]

def isResponseRefusal (A : Agent Plan) (response : String) : Bool :=
  let lower := A.toLowercase response.toList
  refusalPatterns.any (fun pattern => pattern.toList.isPrefixOf (trimStart lower)) ||
    (decide (response.utf8ByteSize < 200) &&
      refusalPatterns.any fun pattern => containsText pattern lower)

def handleNonStreamingPrompt (A : Agent Plan) (s : State Plan) (t : Turn) :
    State Plan × Option StopReason :=
  if t.contentRefused then (s, none)
  else
    let s := s.interrupts t.beforeQuery
    if s.cancelled then (s, some .cancelled)
    else if t.queryFails then (s, none)
    else
      let loop := processChunks A
        (effectiveGenerationCap A.maxTokensPerTurn t.requestedMaxTokens) s "" 0 t.steps
      match loop.2 with
      | .finished response =>
        if isResponseRefusal A response then (loop.1, some .refusal)
        else
          let s := loop.1.interrupts t.late
          if s.cancelled then (s, some .cancelled)
          else ({ s with context := s.context ++ [.agentMessageChunk response] }, some .endTurn)
      | .cancelled => (loop.1, some .cancelled)
      | .capped => (loop.1, some .maxTokens)
      | .failed => (loop.1, none)

def handlePrompt (A : Agent Plan) (s : State Plan) (t : Turn) : State Plan × Option StopReason :=
  if t.streaming then handleStreamingPrompt A s t else handleNonStreamingPrompt A s t

def runPromptTurn (A : Agent Plan) (s : State Plan) (t : Turn) : State Plan × Option StopReason :=
  if validPrompt A t.prompt then
    let s := (sendUserMessageChunks s t.prompt).interrupts t.early
    if s.cancelled then
      ({ s with cancelled := false }.persist, some .cancelled)
    else
      let text := String.join t.prompt
      let limits := checkTurnLimits A (prepareSessionForTurn s text) text
      match limits.2 with
      | some reason => (limits.1.persist, some reason)
      | none =>
        let handled := handlePrompt A limits.1 t
        match handled.2 with
        | some reason =>
          ({ handled.1.interrupts t.closing with cancelled := false }.persist, some reason)
        | none => (handled.1, none)
  else (s, none)

def prompt (A : Agent Plan) (s : State Plan) (t : Turn) : State Plan :=
  let turn := runPromptTurn A s t
  { turn.1 with
    sent := turn.1.sent ++ [.turnComplete]
    answered := turn.2.isSome }

inductive Event
  | turn (t : Turn)
  | interrupt (i : Interrupt)

def step (A : Agent Plan) (s : State Plan) : Event → State Plan
  | .turn t => prompt A s t
  | .interrupt i => s.interrupt i

def run (A : Agent Plan) (s : State Plan) (events : List Event) : State Plan :=
  events.foldl (step A) s

def maxRecordUpdates : Nat := 10000

def replayRecordUpdates (record : List (Update Plan)) : List (Notification Plan) :=
  record.map .update

def loadRecord (record : List (Update Plan)) : Option (List (Notification Plan)) :=
  if maxRecordUpdates < record.length then none else some (replayRecordUpdates record)

end SwissArmyHammer.ClaudeAgent.PromptTurn
