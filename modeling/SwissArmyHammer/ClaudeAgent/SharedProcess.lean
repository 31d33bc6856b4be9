import SwissArmyHammer.ClaudeAgent.PromptTurn

/-! A session's CLI process, the tasks that read its output and the prompts that it answers. Each
step is one that runs to the next await. -/

namespace SwissArmyHammer.ClaudeAgent.SharedProcess

open Permissions PromptTurn

structure CliTurn where
  body : List Json
  result : Json
  body_goes_on : ∀ line ∈ body, isEndOfStream line = false
  result_ends : isEndOfStream result = true

def CliTurn.lines (turn : CliTurn) : List Json := turn.body ++ [turn.result]

structure Request where
  prompt : List String
  requestedMaxTokens : Option Nat
  streaming : Bool
  contentRefused : Bool
  policyFails : ToolCallInfo → Bool
  turn : CliTurn

structure Server (Plan : Type) where
  agent : Agent Plan
  evaluate : String → Json → PolicyEvaluation

/-- A running `run_stream_loop`. Lines and chunks carry the number of the prompt they are from. -/
structure Reader where
  owner : Nat
  state : StreamState
  unsent : List (Nat × MessageChunk)
  ended : Bool

structure Call where
  index : Nat
  request : Request
  channel : List (Nat × MessageChunk)
  received : List (Nat × MessageChunk)
  tokens : Nat
  interrupted : Bool
  capped : Bool

inductive Phase
  | opened | prepared | querying | receiving
  | checking (chunk : Nat × MessageChunk)
  | aborting | terminating | drained
  | returning (reason : StopReason)

def Phase.listening : Phase → Bool
  | .receiving | .checking _ | .aborting | .terminating | .drained => true
  | .opened | .prepared | .querying | .returning _ => false

structure Outcome where
  call : Call
  result : Option StopReason

structure State (Plan : Type) where
  session : PromptTurn.State Plan
  managed : Bool
  stdout : List (Nat × Json)
  readers : List Reader
  current : Option (Call × Phase)
  outcomes : List Outcome

variable {Plan : Type}

namespace State

def opened (updates : List (Update Plan)) : State Plan :=
  ⟨.opened updates, true, [], [], none, []⟩

def goTo (s : State Plan) (call : Call) (phase : Phase) : State Plan :=
  { s with current := some (call, phase) }

def finish (s : State Plan) (call : Call) (result : Option StopReason) : State Plan :=
  { s with
    session := { s.session with
      sent := s.session.sent ++ [.turnComplete]
      answered := result.isSome }
    current := none
    outcomes := s.outcomes ++ [⟨call, result⟩] }

def receiverOpen (s : State Plan) (owner : Nat) : Bool :=
  match s.current with
  | some (call, phase) => phase.listening && decide (call.index = owner)
  | none => false

def deliver (s : State Plan) (chunk : Nat × MessageChunk) : State Plan :=
  { s with current := s.current.map fun (call, phase) =>
      ({ call with channel := call.channel ++ [chunk] }, phase) }

end State

section

variable (S : Server Plan)

def Reader.readLine (r : Reader) (line : Nat × Json) : Reader :=
  if isElicitation line.2 then r
  else if isEndOfStream line.2 then
    { r with unsent := (sendFinalChunk line.2).map fun chunk => (line.1, chunk), ended := true }
  else
    let handled := processLine S.evaluate r.state line.2
    { r with state := handled.1, unsent := handled.2.map fun chunk => (line.1, chunk) }

/-- One line read or one chunk sent. The task stops after the result line, or when its receiver is
gone; while it runs it holds the process, so it does not meet the end of the output. -/
def runStreamLoopStep (s : State Plan) (i : Nat) (r : Reader) : Option (State Plan) :=
  match r.unsent with
  | chunk :: rest =>
    if s.receiverOpen r.owner then
      some { s.deliver chunk with readers := s.readers.set i { r with unsent := rest } }
    else some { s with readers := s.readers.eraseIdx i }
  | [] =>
    if r.ended then some { s with readers := s.readers.eraseIdx i }
    else
      match s.stdout with
      | line :: rest =>
        some { s with stdout := rest, readers := s.readers.set i (r.readLine S line) }
      | [] => none

def beginTurn (s : State Plan) (call : Call) : State Plan :=
  if s.session.cancelled then
    { s with session := { s.session with cancelled := false }.persist }.finish call
      (some .cancelled)
  else
    let text := String.join call.request.prompt
    let limits := checkTurnLimits S.agent (prepareSessionForTurn s.session text) text
    match limits.2 with
    | some reason => { s with session := limits.1.persist }.finish call (some reason)
    | none =>
      let s := { s with session := limits.1 }
      if call.request.contentRefused then s.finish call none
      else if call.request.streaming then
        if S.agent.maxTurnRequests < limits.1.turnRequestCount + 1 then
          s.goTo call (.returning .maxTurnRequests)
        else
          { s with session := { limits.1 with
            turnRequestCount := limits.1.turnRequestCount + 1 } }.goTo call .querying
      else s.goTo call .prepared

def checkBeforeRequest (s : State Plan) (call : Call) : State Plan :=
  if s.session.cancelled then s.goTo call (.returning .cancelled) else s.goTo call .querying

def queryStream (s : State Plan) (call : Call) : State Plan :=
  if String.join call.request.prompt = "" then s.finish call none
  else if s.managed then
    let s : State Plan := { s with
      stdout := s.stdout ++ call.request.turn.lines.map fun line => (call.index, line)
      readers := s.readers ++ [⟨call.index, .default, [], false⟩] }
    s.goTo { call with channel := [] } .receiving
  else s.finish call none

def receiveChunk (s : State Plan) (call : Call) : Option (State Plan) :=
  match call.channel with
  | chunk :: rest => some (s.goTo { call with channel := rest } (.checking chunk))
  | [] =>
    if s.readers.any fun r => decide (r.owner = call.index) then none
    else some (s.goTo call .drained)

def handleChunk (s : State Plan) (call : Call) (chunk : Nat × MessageChunk) : State Plan :=
  if s.session.cancelled then
    if call.request.streaming then
      { s with session := { s.session with cancelled := false } }.goTo call (.returning .cancelled)
    else s.goTo call (.returning .cancelled)
  else
    let call := { call with received := call.received ++ [chunk] }
    if isBare chunk.2 then s.goTo call .receiving
    else
      let handled := processSingleChunk S.agent s.session
        ⟨[], chunk.2, [], chunk.2.toolCall.any call.request.policyFails⟩
      let s := { s with session := handled.1 }
      if handled.2 = false then s.finish call none
      else
        let call := { call with
          tokens := saturatingAdd call.tokens (estimateChunkTokens chunk.2.content) }
        if call.tokens ≤ effectiveGenerationCap S.agent.maxTokensPerTurn
            call.request.requestedMaxTokens then
          s.goTo call .receiving
        else s.goTo { call with capped := true } .aborting

def abort (s : State Plan) (call : Call) : State Plan :=
  { s with session := { s.session with cancelled := true } }.goTo call .terminating

def terminateSession (s : State Plan) (call : Call) : State Plan :=
  { s with managed := false }.goTo call (.returning .maxTokens)

def lastStopReason (chunks : List MessageChunk) : Option String :=
  (chunks.filterMap MessageChunk.stopReason).getLast?

def responseContent (chunks : List MessageChunk) : String :=
  String.join (chunks.map MessageChunk.content)

def respond (s : State Plan) (call : Call) : State Plan :=
  let chunks := call.received.map Prod.snd
  if call.request.streaming then
    if s.session.cancelled then s.goTo call (.returning .cancelled)
    else s.goTo call (.returning (mapClaudeStopReason (lastStopReason chunks)))
  else if isResponseRefusal S.agent (responseContent chunks) then
    s.goTo call (.returning .refusal)
  else if s.session.cancelled then s.goTo call (.returning .cancelled)
  else
    let stored : Update Plan := .agentMessageChunk (responseContent chunks)
    { s with session := { s.session with context := s.session.context ++ [stored] } }.goTo call
      (.returning .endTurn)

def endTurn (s : State Plan) (call : Call) (reason : StopReason) : State Plan :=
  { s with session := { s.session with cancelled := false }.persist }.finish call (some reason)

def handlerStep (s : State Plan) (call : Call) : Phase → Option (State Plan)
  | .opened => some (beginTurn S s call)
  | .prepared => some (checkBeforeRequest s call)
  | .querying => some (queryStream s call)
  | .receiving => receiveChunk s call
  | .checking chunk => some (handleChunk S s call chunk)
  | .aborting => some (abort s call)
  | .terminating => some (terminateSession s call)
  | .drained => some (respond S s call)
  | .returning reason => some (endTurn s call reason)

end

inductive Event
  | prompt (request : Request)
  | cancel
  | handler
  | reader (i : Nat)

def prompt (S : Server Plan) (s : State Plan) (request : Request) : State Plan :=
  let call : Call := ⟨s.outcomes.length, request, [], [], 0, false, false⟩
  if validPrompt S.agent request.prompt then
    { s with session := sendUserMessageChunks s.session request.prompt }.goTo call .opened
  else s.finish call none

def cancel (s : State Plan) : State Plan :=
  { s with
    session := s.session.interrupt .cancel
    current := s.current.map fun (call, phase) => ({ call with interrupted := true }, phase) }

def step (S : Server Plan) (s : State Plan) : Event → Option (State Plan)
  | .prompt request => if s.current.isNone then some (prompt S s request) else none
  | .cancel => some (cancel s)
  | .handler => s.current.bind fun (call, phase) => handlerStep S s call phase
  | .reader i => s.readers[i]?.bind fun r => runStreamLoopStep S s i r

def run (S : Server Plan) (s : State Plan) (events : List Event) : Option (State Plan) :=
  events.foldlM (step S) s

end SwissArmyHammer.ClaudeAgent.SharedProcess

/-! Every step of a prompt's handler or of a task leaves less to be done. -/

namespace SwissArmyHammer.ClaudeAgent.SharedProcess

open Permissions PromptTurn

variable {Plan : Type}

def Phase.work (request : Request) : Phase → Nat
  | .opened => 10 + 5 * request.turn.lines.length
  | .prepared => 9 + 5 * request.turn.lines.length
  | .querying => 8 + 5 * request.turn.lines.length
  | .receiving => 6
  | .checking _ => 7
  | .aborting => 5
  | .terminating => 4
  | .drained => 3
  | .returning _ => 1

def Reader.work (r : Reader) : Nat := 1 + 3 * r.unsent.length

def readersWork : List Reader → Nat
  | [] => 0
  | r :: readers => r.work + readersWork readers

def currentWork : Option (Call × Phase) → Nat
  | some (call, phase) => phase.work call.request + 2 * call.channel.length
  | none => 0

def State.work (s : State Plan) : Nat :=
  currentWork s.current + 5 * s.stdout.length + readersWork s.readers

def Event.isTask : Event → Bool
  | .handler | .reader _ => true
  | .prompt _ | .cancel => false

variable {S : Server Plan} {s s' : State Plan} {call : Call} {phase : Phase} {r r' : Reader}
  {readers : List Reader} {i : Nat}

theorem goTo_work (s : State Plan) (call : Call) (phase : Phase) :
    (s.goTo call phase).work = phase.work call.request + 2 * call.channel.length +
      5 * s.stdout.length + readersWork s.readers := rfl

theorem finish_work (s : State Plan) (call : Call) (result : Option StopReason) :
    (s.finish call result).work = 5 * s.stdout.length + readersWork s.readers := by
  rw [State.finish, State.work, currentWork, Nat.zero_add]

theorem work_of_current (h : s.current = some (call, phase)) :
    s.work = phase.work call.request + 2 * call.channel.length + 5 * s.stdout.length +
      readersWork s.readers := by
  rw [State.work, h, currentWork]

theorem readersWork_cons (r : Reader) (readers : List Reader) :
    readersWork (r :: readers) = r.work + readersWork readers := rfl

theorem readersWork_append (readers readers' : List Reader) :
    readersWork (readers ++ readers') = readersWork readers + readersWork readers' := by
  induction readers with
  | nil => exact (Nat.zero_add _).symm
  | cons r readers ih =>
    rw [List.cons_append, readersWork_cons, readersWork_cons]
    omega

theorem readersWork_set (h : readers[i]? = some r) (r' : Reader) :
    readersWork (readers.set i r') + r.work = readersWork readers + r'.work := by
  induction readers generalizing i with
  | nil => cases h
  | cons head rest ih =>
    cases i with
    | zero =>
      cases h
      rw [List.set_cons_zero, readersWork_cons, readersWork_cons]
      omega
    | succ i =>
      have hrest := ih h
      rw [List.set_cons_succ, readersWork_cons, readersWork_cons]
      omega

theorem readersWork_eraseIdx (h : readers[i]? = some r) :
    readersWork (readers.eraseIdx i) + r.work = readersWork readers := by
  induction readers generalizing i with
  | nil => cases h
  | cons head rest ih =>
    cases i with
    | zero =>
      cases h
      rw [List.eraseIdx_cons_zero, readersWork_cons]
      omega
    | succ i =>
      have hrest := ih h
      rw [List.eraseIdx_cons_succ, readersWork_cons, readersWork_cons]
      omega

theorem handleMessageChunk_length (state : StreamState) (text : String) :
    (handleMessageChunk state text).2.length ≤ 1 := by
  rw [handleMessageChunk]
  split
  · exact Nat.zero_le _
  · exact le_rfl

theorem handleToolCall_length (state : StreamState) (call : ToolCall) :
    (handleToolCall state call).2.length ≤ 1 := by
  rw [handleToolCall]
  split
  · exact Nat.zero_le _
  · exact le_rfl

theorem handleToolCallUpdate_length (state : StreamState) (update : ToolCallUpdate) :
    (handleToolCallUpdate state update).2.length ≤ 1 := by
  rw [handleToolCallUpdate]
  cases update.status with
  | none => exact Nat.zero_le _
  | some status => exact le_rfl

theorem processLine_length (evaluate : String → Json → PolicyEvaluation) (state : StreamState)
    (line : Json) : (processLine evaluate state line).2.length ≤ 1 := by
  rw [processLine]
  cases streamJsonToAcp evaluate line with
  | error _ => exact Nat.zero_le _
  | ok update =>
    cases update with
    | none => exact Nat.zero_le _
    | some update =>
      cases update with
      | agentMessageChunk text => exact handleMessageChunk_length _ text
      | toolCall call => exact handleToolCall_length _ call
      | toolCallUpdate update => exact handleToolCallUpdate_length _ update
      | availableCommandsUpdate _ => exact Nat.zero_le _

theorem sendFinalChunk_length (line : Json) : (sendFinalChunk line).length ≤ 1 := by
  rw [sendFinalChunk]
  split
  · exact le_rfl
  · exact Nat.zero_le _

theorem readLine_work (S : Server Plan) (hunsent : r.unsent = []) (line : Nat × Json) :
    (r.readLine S line).work ≤ 4 := by
  rw [Reader.readLine]
  split
  · rw [Reader.work, hunsent]
    exact Nat.le_add_right 1 3
  · split
    · have hone := sendFinalChunk_length line.2
      rw [Reader.work, List.length_map]
      omega
    · have hone := processLine_length S.evaluate r.state line.2
      rw [Reader.work, List.length_map]
      omega

theorem currentWork_deliver (s : State Plan) (chunk : Nat × MessageChunk) :
    currentWork (s.deliver chunk).current ≤ currentWork s.current + 2 := by
  rw [State.deliver]
  cases s.current with
  | none => exact Nat.zero_le _
  | some current =>
    rw [Option.map_some, currentWork, currentWork, List.length_append, List.length_singleton]
    dsimp only
    omega

theorem runStreamLoopStep_work (hr : s.readers[i]? = some r)
    (h : runStreamLoopStep S s i r = some s') : s'.work < s.work := by
  have herased := readersWork_eraseIdx hr
  have hpositive : 1 ≤ r.work := Nat.le_add_right 1 _
  rw [runStreamLoopStep] at h
  cases hunsent : r.unsent with
  | cons chunk rest =>
    rw [hunsent] at h
    dsimp only at h
    split at h
    · have hset := readersWork_set hr { r with unsent := rest }
      have hdeliver := currentWork_deliver s chunk
      cases h
      have hless : ({ r with unsent := rest } : Reader).work + 3 = r.work := by
        rw [Reader.work, Reader.work, hunsent, List.length_cons]
        dsimp only
        omega
      have hstdout : (s.deliver chunk).stdout = s.stdout := rfl
      rw [State.work, State.work]
      dsimp only
      rw [hstdout]
      omega
    · cases h
      rw [State.work, State.work]
      dsimp only
      omega
  | nil =>
    rw [hunsent] at h
    dsimp only at h
    split at h
    · cases h
      rw [State.work, State.work]
      dsimp only
      omega
    · cases hstdout : s.stdout with
      | nil =>
        rw [hstdout] at h
        cases h
      | cons line rest =>
        rw [hstdout] at h
        have hset := readersWork_set hr (r.readLine S line)
        have hread := readLine_work S hunsent line
        cases h
        rw [State.work, State.work, hstdout, List.length_cons]
        dsimp only
        omega

theorem beginTurn_work (S : Server Plan) (s : State Plan) (call : Call) :
    (beginTurn S s call).work < Phase.opened.work call.request + 2 * call.channel.length +
      5 * s.stdout.length + readersWork s.readers := by
  rw [beginTurn, Phase.work]
  split
  · rw [finish_work]
    dsimp only
    omega
  · dsimp only
    split
    · rw [finish_work]
      dsimp only
      omega
    · split
      · rw [finish_work]
        dsimp only
        omega
      · split
        · split
          · rw [goTo_work, Phase.work]
            dsimp only
            omega
          · rw [goTo_work, Phase.work]
            dsimp only
            omega
        · rw [goTo_work, Phase.work]
          dsimp only
          omega

theorem queryStream_work (s : State Plan) (call : Call) :
    (queryStream s call).work < Phase.querying.work call.request + 2 * call.channel.length +
      5 * s.stdout.length + readersWork s.readers := by
  rw [queryStream, Phase.work]
  split
  · rw [finish_work]
    omega
  · split
    · have hnew : readersWork [⟨call.index, .default, [], false⟩] = 1 := rfl
      rw [goTo_work, Phase.work]
      rw [readersWork_append, List.length_append, List.length_map, List.length_nil]
      omega
    · rw [finish_work]
      omega

theorem handleChunk_work (S : Server Plan) (s : State Plan) (call : Call)
    (chunk : Nat × MessageChunk) :
    (handleChunk S s call chunk).work < (Phase.checking chunk).work call.request +
      2 * call.channel.length + 5 * s.stdout.length + readersWork s.readers := by
  rw [handleChunk, Phase.work]
  split
  · split
    · rw [goTo_work, Phase.work]
      dsimp only
      omega
    · rw [goTo_work, Phase.work]
      omega
  · dsimp only
    split
    · rw [goTo_work, Phase.work]
      dsimp only
      omega
    · split
      · rw [finish_work]
        dsimp only
        omega
      · split
        · rw [goTo_work, Phase.work]
          dsimp only
          omega
        · rw [goTo_work, Phase.work]
          dsimp only
          omega

theorem respond_work (S : Server Plan) (s : State Plan) (call : Call) :
    (respond S s call).work < Phase.drained.work call.request + 2 * call.channel.length +
      5 * s.stdout.length + readersWork s.readers := by
  have hreturns : ∀ (s' : State Plan) reason, s'.stdout = s.stdout → s'.readers = s.readers →
      (s'.goTo call (.returning reason)).work < Phase.drained.work call.request +
        2 * call.channel.length + 5 * s.stdout.length + readersWork s.readers := by
    intro s' reason hstdout hreaders
    rw [goTo_work, hstdout, hreaders, Phase.work, Phase.work]
    omega
  rw [respond]
  split
  · grind
  · grind

theorem handlerStep_work (hcurrent : s.current = some (call, phase))
    (h : handlerStep S s call phase = some s') : s'.work < s.work := by
  rw [work_of_current hcurrent]
  cases phase with
  | opened =>
    cases h
    exact beginTurn_work S s call
  | prepared =>
    cases h
    rw [checkBeforeRequest]
    split
    · rw [goTo_work, Phase.work, Phase.work]
      omega
    · rw [goTo_work, Phase.work, Phase.work]
      omega
  | querying =>
    cases h
    exact queryStream_work s call
  | receiving =>
    rw [handlerStep, receiveChunk] at h
    cases hchannel : call.channel with
    | cons chunk rest =>
      rw [hchannel] at h
      cases h
      rw [goTo_work, Phase.work, Phase.work, List.length_cons]
      dsimp only
      omega
    | nil =>
      rw [hchannel] at h
      dsimp only at h
      split at h
      · cases h
      · cases h
        rw [goTo_work, Phase.work, Phase.work, hchannel]
        omega
  | checking chunk =>
    cases h
    exact handleChunk_work S s call chunk
  | aborting =>
    cases h
    rw [abort, goTo_work, Phase.work, Phase.work]
    dsimp only
    omega
  | terminating =>
    cases h
    rw [terminateSession, goTo_work, Phase.work, Phase.work]
    dsimp only
    omega
  | drained =>
    cases h
    exact respond_work S s call
  | returning reason =>
    cases h
    rw [endTurn, finish_work, Phase.work]
    dsimp only
    omega

theorem step_work {event : Event} (htask : event.isTask = true) (h : step S s event = some s') :
    s'.work < s.work := by
  cases event with
  | prompt request => cases htask
  | cancel => cases htask
  | handler =>
    obtain ⟨⟨call, phase⟩, hcurrent, hstep⟩ := Option.bind_eq_some_iff.mp h
    exact handlerStep_work hcurrent hstep
  | reader i =>
    obtain ⟨r, hr, hstep⟩ := Option.bind_eq_some_iff.mp h
    exact runStreamLoopStep_work hr hstep

end SwissArmyHammer.ClaudeAgent.SharedProcess
