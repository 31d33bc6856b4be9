import Mathlib.Algebra.Group.Int.Defs
import Mathlib.Logic.Function.Basic
import SwissArmyHammer.Common.Json

/-! The messages between a client and an agent, and the recorder that sits between the two. -/

namespace SwissArmyHammer.Recording

inductive Id
  | string (s : String)
  | number (n : Nat)
  | null
  deriving DecidableEq

inductive Params
  | object (fields : List (String × Json))
  | array (elems : List Json)

structure Request where
  method : String
  params : Option Params
  id : Option Id

structure RpcError where
  code : Int32
  message : String
  data : Option Json

structure Response where
  result : Option Json
  error : Option RpcError
  id : Option Id

inductive Message
  | request (req : Request)
  | response (resp : Response)

inductive Direction
  | fromClient
  | fromAgent

structure RecordedCall where
  method : String
  request : Json
  response : Json
  notifications : List Json

structure PendingRequest where
  legacyMethod : String
  wireMethod : String
  requestValue : Json

structure RecordingState where
  calls : List RecordedCall
  pending : Id → Option PendingRequest
  notifications : List Json
  clean : Bool
  file : Option (List RecordedCall)

def RecordingState.new : RecordingState where
  calls := []
  pending := fun _ => none
  notifications := []
  clean := false
  file := none

def legacyMethodFor (wireMethod : String) : String :=
  match wireMethod with
  | "initialize" => "initialize"
  | "session/new" => "new_session"
  | "session/load" => "load_session"
  | "session/prompt" => "prompt"
  | "session/set_mode" => "set_session_mode"
  | "session/cancel" => "cancel"
  | other => other

def paramsToValue : Option Params → Json
  | some (.object fields) => .object fields
  | some (.array elems) => .array elems
  | none => .null

def errorValue (e : RpcError) : Json :=
  .object [("error", .object [("code", .number (toString e.code.toInt)),
    ("message", .string e.message), ("data", e.data.getD .null)])]

def responseValue (resp : Response) : Json :=
  match resp.result with
  | some result => result
  | none =>
    match resp.error with
    | some e => errorValue e
    | none => .null

def extractSessionId (value : Json) : Option String :=
  (value.getKey "sessionId").bind Json.asStr

structure LastPrompts where
  forSession : String → Option Nat
  last : Option Nat

def LastPrompts.see (seen : LastPrompts) (entry : RecordedCall × Nat) : LastPrompts :=
  if entry.1.method = "prompt" then
    match extractSessionId entry.1.request with
    | some sid => ⟨Function.update seen.forSession sid (some entry.2), some entry.2⟩
    | none => ⟨seen.forSession, some entry.2⟩
  else seen

def lastPrompts (calls : List RecordedCall) : LastPrompts :=
  calls.zipIdx.foldl LastPrompts.see ⟨fun _ => none, none⟩

def RecordedCall.attach (notification : Json) (call : RecordedCall) : RecordedCall :=
  { call with notifications := call.notifications ++ [notification] }

def distributeNotificationsBySession (calls : List RecordedCall) (notifications : List Json) :
    List RecordedCall :=
  let seen := lastPrompts calls
  match seen.last with
  | none => calls
  | some fallback =>
    notifications.foldl (fun calls notification =>
      let target := ((extractSessionId notification).bind seen.forSession).getD fallback
      calls.modify target (RecordedCall.attach notification)) calls

namespace RecordingState

variable (s : RecordingState)

def flushNow : RecordingState :=
  let calls := distributeNotificationsBySession s.calls s.notifications
  { s with calls := calls, notifications := [], clean := true, file := some calls }

def observeRequestFromClient (id : Id) (req : Request) : RecordingState :=
  let pending := {
    legacyMethod := legacyMethodFor req.method
    wireMethod := req.method
    requestValue := paramsToValue req.params }
  { s with pending := Function.update s.pending id (some pending) }

def observeCancelNotificationFromClient (req : Request) : RecordingState :=
  let call := {
    method := legacyMethodFor req.method
    request := paramsToValue req.params
    response := .null
    notifications := [] }
  { s with calls := s.calls ++ [call], clean := false }

def observeResponseFromAgent (resp : Response) : RecordingState :=
  match resp.id with
  | none => s
  | some id =>
    match s.pending id with
    | none => s
    | some pending =>
      let call := {
        method := pending.legacyMethod
        request := pending.requestValue
        response := responseValue resp
        notifications := [] }
      let s' := { s with
        calls := s.calls ++ [call]
        pending := Function.update s.pending id none
        clean := false }
      if pending.wireMethod = "session/prompt" then s'.flushNow else s'

def observeNotificationFromAgent (req : Request) : RecordingState :=
  if req.method = "session/update" then
    { s with notifications := s.notifications ++ [paramsToValue req.params], clean := false }
  else s

def observe : Direction × Message → RecordingState
  | (.fromClient, .request req) =>
    match req.id with
    | some id => s.observeRequestFromClient id req
    | none =>
      if req.method = "session/cancel" then s.observeCancelNotificationFromClient req else s
  | (.fromAgent, .response resp) => s.observeResponseFromAgent resp
  | (.fromAgent, .request req) =>
    match req.id with
    | some _ => s
    | none => s.observeNotificationFromAgent req
  | (.fromClient, .response _) => s

def drop : RecordingState :=
  if s.clean ∧ s.notifications = [] then s else s.flushNow

end RecordingState

def record (run : List (Direction × Message)) : Option (List RecordedCall) :=
  (run.foldl RecordingState.observe .new).flushNow.drop.file

end SwissArmyHammer.Recording

/-! The agent that plays a recording back. -/

namespace SwissArmyHammer.Recording

/-- `Value::as_i64`. -/
def asI64 : Json → Option Int
  | .number text => text.toInt?.filter fun n => -2 ^ 63 ≤ n ∧ n < 2 ^ 63
  | _ => none

def envelopeError (envelope : Json) : RpcError where
  code := (((envelope.getKey "code").bind asI64).map Int32.ofInt).getD (-32603)
  message := ((envelope.getKey "message").bind Json.asStr).getD "Internal error"
  data := envelope.getKey "data"

def recordedError (response : Json) : Option RpcError :=
  (response.getKey "error").map envelopeError

def valueToParams : Json → Option Params
  | .object fields => some (.object fields)
  | .array elems => some (.array elems)
  | _ => none

def sessionUpdateNotification (params : Params) : Message :=
  .request { method := "session/update", params := some params, id := none }

def successV2 (result : Json) (id : Option Id) : Message :=
  .response { result := some result, error := none, id := id }

def errorV2 (error : RpcError) (id : Option Id) : Message :=
  .response { result := none, error := some error, id := id }

def recordedResponse (response : Json) (id : Id) : Message :=
  match recordedError response with
  | some error => errorV2 error (some id)
  | none => successV2 response (some id)

variable (infoUpdate : Json)

/-- `turn_complete_notification`, where `infoUpdate` is how the empty update of a session's info is
written. -/
def turnCompleteNotification (sessionId : String) : List (String × Json) :=
  [("sessionId", .string sessionId), ("update", infoUpdate),
    ("_meta", .object [("turn_complete", .bool true)])]

def sendTurnComplete (req : Request) : List Message :=
  match req.params.bind fun params => extractSessionId (paramsToValue (some params)) with
  | none => []
  | some sessionId =>
    [sessionUpdateNotification (.object (turnCompleteNotification infoUpdate sessionId))]

def handleIncomingRequest (calls : List RecordedCall) (cursor : Nat) (req : Request) :
    Nat × List Message :=
  match req.id with
  | none => (cursor, [])
  | some id =>
    match calls[cursor]? with
    | none =>
      let message := "PlaybackAgent: no recorded call for method " ++ req.method ++ " (legacy: " ++
        legacyMethodFor req.method ++ ")"
      (cursor, [errorV2 { code := -32603, message := message, data := none } (some id)])
    | some call =>
      (cursor + 1,
        (call.notifications.filterMap valueToParams).map sessionUpdateNotification ++
          (if req.method = "session/prompt" then sendTurnComplete infoUpdate req else []) ++
          [recordedResponse call.response id])

def serveRecorded (calls : List RecordedCall) : Nat → List Message → List (List Message)
  | _, [] => []
  | cursor, .request req :: rest =>
    let (next, sent) := handleIncomingRequest infoUpdate calls cursor req
    sent :: serveRecorded calls next rest
  | cursor, .response _ :: rest => [] :: serveRecorded calls cursor rest

def playBack (file : Option (List RecordedCall)) (messages : List Message) : List (List Message) :=
  serveRecorded infoUpdate (file.getD []) 0 messages

end SwissArmyHammer.Recording
