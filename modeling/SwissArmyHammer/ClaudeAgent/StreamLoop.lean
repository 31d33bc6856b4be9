import SwissArmyHammer.Common.Json
import SwissArmyHammer.Permissions.Decisions

/-! From the lines that the CLI prints to session updates. A line is taken as parsed JSON. -/

namespace SwissArmyHammer.ClaudeAgent

open Permissions

inductive ToolCallStatus
  | pending | completed | failed

structure ToolCall where
  toolCallId : String
  title : String
  status : ToolCallStatus
  rawInput : Option Json

structure ToolCallUpdate where
  toolCallId : String
  status : Option ToolCallStatus
  content : Option (List String)

inductive SessionUpdate
  | agentMessageChunk (text : String)
  | toolCall (call : ToolCall)
  | toolCallUpdate (update : ToolCallUpdate)
  | availableCommandsUpdate (commands : List String)

def strAt (value : Json) (key : String) : Option String := (value.getKey key).bind Json.asStr

def evaluateToolPolicy : PolicyEvaluation → ToolCallStatus
  | .denied _ => .failed
  | .allowed | .requireUserConsent _ => .pending

section

variable (evaluate : String → Json → PolicyEvaluation)

def handleToolUse (item : Json) : Except String (Option SessionUpdate) :=
  match strAt item "id", strAt item "name", item.getKey "input" with
  | some id, some name, some input =>
    .ok (some (.toolCall ⟨id, name, evaluateToolPolicy (evaluate name input), some input⟩))
  | none, _, _ => .error "Missing id in tool_use"
  | _, none, _ => .error "Missing name in tool_use"
  | _, _, none => .error "Missing input in tool_use"

def handleAssistantText (item : Json) : Except String (Option SessionUpdate) :=
  match strAt item "text" with
  | some text => .ok (some (.agentMessageChunk text))
  | none => .error "Missing text in text content"

def messageContent (parsed : Json) : Option (List Json) :=
  ((parsed.getKey "message").bind fun message => message.getKey "content").bind Json.asArray

def handleAssistantMessage (parsed : Json) : Except String (Option SessionUpdate) :=
  match messageContent parsed with
  | none => .error "Missing content array in assistant message"
  | some [] => .ok none
  | some (first :: _) =>
    if strAt first "type" = some "tool_use" then handleToolUse evaluate first
    else if strAt first "type" = some "text" then handleAssistantText first
    else .ok none

end

def parseToolContentItem (item : Json) : Option String :=
  if strAt item "type" = some "text" then strAt item "text" else none

def extractToolResultContent (contentItem : Json) : Option (List String) :=
  match contentItem.getKey "content" with
  | some (.string text) => some [text]
  | some (.array items) =>
    if items.filterMap parseToolContentItem = [] then none
    else some (items.filterMap parseToolContentItem)
  | _ => none

def tryHandleToolResult (contentItem : Json) : Option SessionUpdate :=
  if strAt contentItem "type" = some "tool_result" then
    (strAt contentItem "tool_use_id").map fun id =>
      let failed := ((contentItem.getKey "is_error").bind Json.asBool).getD false
      .toolCallUpdate ⟨id, some (if failed then .failed else .completed),
        extractToolResultContent contentItem⟩
  else none

def handleUserMessage (parsed : Json) : Except String (Option SessionUpdate) :=
  .ok (((messageContent parsed).getD []).findSome? tryHandleToolResult)

def handleSystemMessage (parsed : Json) : Except String (Option SessionUpdate) :=
  if strAt parsed "subtype" = some "init" then
    .ok (((parsed.getKey "slash_commands").bind Json.asArray).map fun commands =>
      .availableCommandsUpdate (commands.filterMap Json.asStr))
  else .ok none

def handleContentBlockDelta (event : Json) : Except String (Option SessionUpdate) :=
  .ok (((event.getKey "delta").bind fun delta => strAt delta "text").map .agentMessageChunk)

def handleStreamEvent (parsed : Json) : Except String (Option SessionUpdate) :=
  match parsed.getKey "event" with
  | none => .ok none
  | some event =>
    if (strAt event "type").getD "" = "content_block_delta" then handleContentBlockDelta event
    else .ok none

def streamJsonToAcp (evaluate : String → Json → PolicyEvaluation) (line : Json) :
    Except String (Option SessionUpdate) :=
  match strAt line "type" with
  | none => .error "Missing 'type' field in stream-json"
  | some msgType =>
    if msgType = "assistant" then handleAssistantMessage evaluate line
    else if msgType = "user" then handleUserMessage line
    else if msgType = "system" then handleSystemMessage line
    else if msgType = "stream_event" then handleStreamEvent line
    else .ok none

end SwissArmyHammer.ClaudeAgent

/-! The two readers of a turn: one sends its chunks, the other collects its text. -/

namespace SwissArmyHammer.ClaudeAgent

open Permissions

inductive ChunkType
  | text | toolCall | toolResult

structure ToolCallInfo where
  id : String
  name : String
  parameters : Json

structure ToolResultInfo where
  id : String
  status : ToolCallStatus
  content : Option (List String)

structure MessageChunk where
  content : String
  chunkType : ChunkType
  toolCall : Option ToolCallInfo
  toolResult : Option ToolResultInfo
  stopReason : Option String

namespace MessageChunk

def ofText (text : String) : MessageChunk := ⟨text, .text, none, none, none⟩

def ofCall (call : ToolCallInfo) : MessageChunk := ⟨"", .toolCall, some call, none, none⟩

def ofResult (result : ToolResultInfo) : MessageChunk := ⟨"", .toolResult, none, some result, none⟩

end MessageChunk

structure StreamState where
  sawStreamEvents : Bool
  accumulatedText : String
  seenToolCallIds : List String

def StreamState.default : StreamState := ⟨false, "", []⟩

def isEndOfStream (line : Json) : Bool := strAt line "type" = some "result"

def updateStreamEventFlag (line : Json) (sawStreamEvents : Bool) : Bool :=
  if strAt line "type" = some "stream_event" then true else sawStreamEvents

def handleMessageChunk (state : StreamState) (text : String) : StreamState × List MessageChunk :=
  if state.sawStreamEvents ∧ text = state.accumulatedText then (state, [])
  else ({ state with accumulatedText := state.accumulatedText ++ text }, [.ofText text])

def handleToolCall (state : StreamState) (call : ToolCall) : StreamState × List MessageChunk :=
  if call.toolCallId ∈ state.seenToolCallIds then (state, [])
  else
    ({ state with seenToolCallIds := call.toolCallId :: state.seenToolCallIds },
      [.ofCall ⟨call.toolCallId, call.title, call.rawInput.getD (.object [])⟩])

def handleToolCallUpdate (state : StreamState) (update : ToolCallUpdate) :
    StreamState × List MessageChunk :=
  match update.status with
  | none => (state, [])
  | some status => (state, [.ofResult ⟨update.toolCallId, status, update.content⟩])

def processNotification (state : StreamState) : SessionUpdate → StreamState × List MessageChunk
  | .agentMessageChunk text => handleMessageChunk state text
  | .toolCall call => handleToolCall state call
  | .toolCallUpdate update => handleToolCallUpdate state update
  | .availableCommandsUpdate _ => (state, [])

def isElicitation (line : Json) : Bool :=
  strAt line "type" = some "control_request" ∧
    ((line.getKey "request").bind fun request => strAt request "subtype") = some "elicitation" ∧
    (strAt line "request_id").isSome

def sendFinalChunk (line : Json) : List MessageChunk :=
  if strAt line "type" = some "result" then
    [⟨"", .text, none, none, strAt line "stop_reason"⟩]
  else []

section

variable (evaluate : String → Json → PolicyEvaluation)

def processLine (state : StreamState) (line : Json) : StreamState × List MessageChunk :=
  let state := { state with
    sawStreamEvents := updateStreamEventFlag line state.sawStreamEvents }
  match streamJsonToAcp evaluate line with
  | .ok (some update) => processNotification state update
  | .ok none => (state, [])
  | .error _ => (state, [])

def runStreamLoop : StreamState → List Json → List MessageChunk
  | _, [] => []
  | state, line :: rest =>
    if isElicitation line then runStreamLoop state rest
    else if isEndOfStream line then sendFinalChunk line
    else (processLine evaluate state line).2 ++
      runStreamLoop (processLine evaluate state line).1 rest

def extractTextFromLine (line : Json) : Option String :=
  match streamJsonToAcp evaluate line with
  | .ok (some (.agentMessageChunk text)) => some text
  | _ => none

def shouldFilterDuplicate (text : String) (sawStreamEvents : Bool) (accumulatedText : String) :
    Bool :=
  sawStreamEvents ∧ text = accumulatedText

def collectQueryResponse : Bool → String → List Json → String
  | _, _, [] => ""
  | saw, accumulated, line :: rest =>
    let saw := updateStreamEventFlag line saw
    match extractTextFromLine evaluate line with
    | some text =>
      if shouldFilterDuplicate text saw accumulated then collectQueryResponse saw accumulated rest
      else
        text ++ if isEndOfStream line then "" else
          collectQueryResponse saw (if saw then accumulated ++ text else accumulated) rest
    | none => if isEndOfStream line then "" else collectQueryResponse saw accumulated rest

end

end SwissArmyHammer.ClaudeAgent
