import Mathlib.Data.List.Basic
import Std.Data.String.ToInt
import SwissArmyHammer.Recording.Recorder

/-! What a client hears when the run that a recorder saw is played back to it. -/

namespace SwissArmyHammer.Recording

variable {infoUpdate : Json}

def unrecorded : Direction × Message → Bool
  | (.fromClient, .request req) => req.id.isNone && req.method ≠ "session/cancel"
  | (.fromClient, .response _) => true
  | (.fromAgent, .request req) => req.id.isSome || req.method ≠ "session/update"
  | (.fromAgent, .response _) => false

inductive Aside
  | cancel (params : Option Params)
  | noise (message : Direction × Message) (h : unrecorded message = true)

inductive Step
  | aside (a : Aside)
  | update (fields : List (String × Json))

inductive Answer
  | result (value : Json)
  | error (e : RpcError)

def Step.updates : Step → List (List (String × Json))
  | .aside _ => []
  | .update fields => [fields]

def promptSession (method : String) (params : Option Params) : Option String :=
  if method = "session/prompt" then extractSessionId (paramsToValue params) else none

/-- A request up to its response. Only a prompt of a session comes with updates, all of them of that
session and the end-of-turn marker last. -/
structure Exchange (infoUpdate : Json) where
  id : Id
  method : String
  params : Option Params
  during : List Step
  answer : Answer
  quiet : promptSession method params = none → during.flatMap Step.updates = []
  streams : ∀ sid, promptSession method params = some sid → ∃ updates,
    during.flatMap Step.updates = updates ++ [turnCompleteNotification infoUpdate sid] ∧
      ∀ update ∈ updates, extractSessionId (.object update) = some sid

inductive Turn (infoUpdate : Json)
  | aside (a : Aside)
  | exchange (x : Exchange infoUpdate)

def Aside.message : Aside → Direction × Message
  | .cancel params =>
    (.fromClient, .request { method := "session/cancel", params := params, id := none })
  | .noise message _ => message

def Step.message : Step → Direction × Message
  | .aside a => a.message
  | .update fields => (.fromAgent, sessionUpdateNotification (.object fields))

def Answer.response (id : Id) : Answer → Message
  | .result value => successV2 value (some id)
  | .error e => errorV2 e (some id)

namespace Exchange

variable (x : Exchange infoUpdate)

def request : Request where
  method := x.method
  params := x.params
  id := some x.id

def session : Option String := promptSession x.method x.params

def updates : List (List (String × Json)) := x.during.flatMap Step.updates

def streamed : List (List (String × Json)) :=
  if x.session.isSome then x.updates.dropLast else x.updates

def messages : List (Direction × Message) :=
  (.fromClient, .request x.request) :: x.during.map Step.message ++
    [(.fromAgent, x.answer.response x.id)]

end Exchange

def Turn.messages : Turn infoUpdate → List (Direction × Message)
  | .aside a => [a.message]
  | .exchange x => x.messages

def messages (turns : List (Turn infoUpdate)) : List (Direction × Message) :=
  turns.flatMap Turn.messages

def clientMessage : Direction × Message → Option Message
  | (.fromClient, message) => some message
  | (.fromAgent, _) => none

def clientMessages (turns : List (Turn infoUpdate)) : List Message :=
  (messages turns).filterMap clientMessage

def Step.answers (st : Step) : List (List Message) :=
  (clientMessage st.message).toList.map fun _ => []

def Exchange.reply (x : Exchange infoUpdate) : List Message :=
  x.updates.map (fun fields => sessionUpdateNotification (.object fields)) ++
    [x.answer.response x.id]

def Turn.answers : Turn infoUpdate → List (List Message)
  | .aside a => (Step.aside a).answers
  | .exchange x => x.reply :: x.during.flatMap Step.answers

def answers (turns : List (Turn infoUpdate)) : List (List Message) := turns.flatMap Turn.answers

def Turn.exchanges : Turn infoUpdate → List (Exchange infoUpdate)
  | .aside _ => []
  | .exchange x => [x]

def exchanges (turns : List (Turn infoUpdate)) : List (Exchange infoUpdate) :=
  turns.flatMap Turn.exchanges

structure Entry where
  method : String
  params : Option Params
  updates : List (List (String × Json))
  answer : Answer

def Aside.entries : Aside → List Entry
  | .cancel params =>
    [{ method := "session/cancel", params := params, updates := [], answer := .result .null }]
  | .noise _ _ => []

def Step.entries : Step → List Entry
  | .aside a => a.entries
  | .update _ => []

def Exchange.entry (x : Exchange infoUpdate) : Entry where
  method := x.method
  params := x.params
  updates := x.updates
  answer := x.answer

def Turn.entries : Turn infoUpdate → List Entry
  | .aside a => a.entries
  | .exchange x => x.during.flatMap Step.entries ++ [x.entry]

def entries (turns : List (Turn infoUpdate)) : List Entry := turns.flatMap Turn.entries

def Answer.value : Answer → Json
  | .result value => value
  | .error e => errorValue e

def Entry.call (e : Entry) : RecordedCall where
  method := legacyMethodFor e.method
  request := paramsToValue e.params
  response := e.answer.value
  notifications := e.updates.map .object

def Answer.replayed : Answer → Answer
  | .result value =>
    match value.getKey "error" with
    | some envelope => .error (envelopeError envelope)
    | none => .result value
  | .error e => .error { e with data := some (e.data.getD .null) }

section

variable {s : RecordingState} {pending : Id → Option PendingRequest} {es : List Entry}
  {waiting : List (List (String × Json))}

theorem distribute_nil (calls : List RecordedCall) :
    distributeNotificationsBySession calls [] = calls := by
  rw [distributeNotificationsBySession]
  cases (lastPrompts calls).last with
  | none => rfl
  | some fallback => rfl

theorem lastPrompts_append (calls : List RecordedCall) {call : RecordedCall} {sid : String}
    (hprompt : call.method = "prompt") (hsid : extractSessionId call.request = some sid) :
    (lastPrompts (calls ++ [call])).forSession sid = some calls.length ∧
      (lastPrompts (calls ++ [call])).last = some calls.length := by
  rw [lastPrompts, List.zipIdx_append]
  simp [LastPrompts.see, hprompt, hsid]

theorem distribute_append (calls : List RecordedCall) {call : RecordedCall} {sid : String}
    (hprompt : call.method = "prompt") (hsid : extractSessionId call.request = some sid)
    {notifications : List Json} (hall : ∀ n ∈ notifications, extractSessionId n = some sid) :
    distributeNotificationsBySession (calls ++ [call]) notifications =
      calls ++ [{ call with notifications := call.notifications ++ notifications }] := by
  obtain ⟨hsession, hlast⟩ := lastPrompts_append calls hprompt hsid
  rw [distributeNotificationsBySession]
  simp only [hlast]
  generalize lastPrompts (calls ++ [call]) = seen at hsession
  clear hprompt hsid hlast
  induction notifications generalizing call with
  | nil => simp
  | cons n notifications ih =>
    obtain ⟨hn, hrest⟩ := List.forall_mem_cons.mp hall
    have hmodify : (calls ++ [call]).modify calls.length (RecordedCall.attach n) =
        calls ++ [call.attach n] := by
      simp [List.modify_eq_take_drop]
    rw [List.foldl_cons, hn, Option.bind_some, hsession, Option.getD_some, hmodify,
      @ih (call.attach n) hrest]
    simp [RecordedCall.attach]

structure Holds (s : RecordingState) (pending : Id → Option PendingRequest) (es : List Entry)
    (waiting : List (List (String × Json))) : Prop where
  calls : s.calls = es.map Entry.call
  pending : s.pending = pending
  notifications : s.notifications = waiting.map .object

theorem observe_of_unrecorded {message : Direction × Message} (h : unrecorded message = true) :
    s.observe message = s := by
  obtain ⟨direction, message⟩ := message
  cases direction with
  | fromClient =>
    cases message with
    | response _ => rfl
    | request req =>
      rw [unrecorded, Bool.and_eq_true, Option.isNone_iff_eq_none, decide_eq_true_eq] at h
      simp [RecordingState.observe, h.1, h.2]
  | fromAgent =>
    cases message with
    | response _ => simp [unrecorded] at h
    | request req =>
      cases hid : req.id with
      | some _ => simp [RecordingState.observe, hid]
      | none =>
        have hmethod : req.method ≠ "session/update" := by simpa [unrecorded, hid] using h
        simp [RecordingState.observe, hid, RecordingState.observeNotificationFromAgent, hmethod]

theorem Holds.step (h : Holds s pending es waiting) (st : Step) :
    Holds (s.observe st.message) pending (es ++ st.entries) (waiting ++ st.updates) := by
  cases st with
  | aside a =>
    rw [Step.updates, List.append_nil]
    cases a with
    | noise message hnoise =>
      have hsame : s.observe (Step.aside (.noise message hnoise)).message = s :=
        observe_of_unrecorded hnoise
      rw [hsame, Step.entries, Aside.entries, List.append_nil]
      exact h
    | cancel params =>
      refine ⟨?_, h.pending, h.notifications⟩
      rw [Step.entries, List.map_append, ← h.calls]
      rfl
  | update fields =>
    rw [Step.entries, List.append_nil]
    refine ⟨h.calls, h.pending, ?_⟩
    rw [List.map_append, ← h.notifications]
    rfl

theorem Holds.steps (h : Holds s pending es waiting) (during : List Step) :
    Holds ((during.map Step.message).foldl RecordingState.observe s) pending
      (es ++ during.flatMap Step.entries) (waiting ++ during.flatMap Step.updates) := by
  induction during generalizing s es waiting with
  | nil => simpa using h
  | cons st during ih =>
    have hrest := ih (h.step st)
    rw [List.append_assoc, List.append_assoc] at hrest
    exact hrest

theorem responseValue_answer (a : Answer) (id : Id) : ∃ resp,
    a.response id = .response resp ∧ resp.id = some id ∧ responseValue resp = a.value := by
  cases a with
  | result value => exact ⟨_, rfl, rfl, rfl⟩
  | error e => exact ⟨_, rfl, rfl, rfl⟩

theorem Holds.exchange (h : Holds s (fun _ => none) es []) (x : Exchange infoUpdate) :
    Holds (x.messages.foldl RecordingState.observe s) (fun _ => none)
      (es ++ (Turn.exchange x).entries) [] := by
  let waitsFor : PendingRequest := {
    legacyMethod := legacyMethodFor x.method
    wireMethod := x.method
    requestValue := paramsToValue x.params }
  have hrequest : Holds (s.observe (.fromClient, .request x.request))
      (Function.update (fun _ => none) x.id (some waitsFor)) es [] :=
    ⟨h.calls, by rw [← h.pending]; rfl, h.notifications⟩
  have hduring := hrequest.steps x.during
  rw [List.nil_append] at hduring
  rw [Exchange.messages, List.cons_append, List.foldl_cons, List.foldl_append, List.foldl_cons,
    List.foldl_nil]
  generalize (x.during.map Step.message).foldl RecordingState.observe _ = t at hduring
  obtain ⟨resp, hresp, hid, hvalue⟩ := responseValue_answer x.answer x.id
  have hwaits : t.pending x.id = some waitsFor := by
    rw [hduring.pending, Function.update_self]
  have hpending : Function.update t.pending x.id none = fun _ => none := by
    rw [hduring.pending, Function.update_idem, Function.update_eq_self_iff]
  let call : RecordedCall := {
    method := legacyMethodFor x.method
    request := paramsToValue x.params
    response := x.answer.value
    notifications := [] }
  have hcall : ∀ notes, x.updates.map Json.object = notes →
      { call with notifications := notes } = x.entry.call := by
    rintro notes rfl
    rfl
  have hobserve : t.observe (.fromAgent, x.answer.response x.id) =
      t.observeResponseFromAgent resp := by rw [hresp]; rfl
  rw [hobserve, RecordingState.observeResponseFromAgent, hid]
  simp only [hwaits, hvalue, hpending]
  rw [Turn.entries, ← List.append_assoc]
  have hmap : (es ++ x.during.flatMap Step.entries ++ [x.entry]).map Entry.call =
      t.calls ++ [x.entry.call] := by
    rw [List.map_append, ← hduring.calls]
    rfl
  by_cases hmethod : x.method = "session/prompt"
  · rw [if_pos hmethod]
    refine ⟨?_, rfl, rfl⟩
    rw [hmap]
    show distributeNotificationsBySession (t.calls ++ [call]) t.notifications = _
    rw [hduring.notifications]
    cases hsession : promptSession x.method x.params with
    | none =>
      have hquiet := x.quiet hsession
      rw [hquiet, List.map_nil, distribute_nil, ← hcall [] (by rw [Exchange.updates, hquiet]; rfl)]
    | some sid =>
      obtain ⟨updates, hupdates, hsame⟩ := x.streams sid hsession
      have hsid : extractSessionId call.request = some sid := by
        rwa [promptSession, if_pos hmethod] at hsession
      have hprompt : call.method = "prompt" := by
        show legacyMethodFor x.method = "prompt"
        rw [hmethod]
        rfl
      rw [distribute_append t.calls hprompt hsid]
      · rfl
      · intro n hn
        obtain ⟨fields, hfields, rfl⟩ := List.mem_map.mp hn
        rw [hupdates, List.mem_append, List.mem_singleton] at hfields
        rcases hfields with hfields | rfl
        · exact hsame fields hfields
        · rfl
  · rw [if_neg hmethod]
    have hquiet := x.quiet (by rw [promptSession, if_neg hmethod])
    refine ⟨?_, rfl, ?_⟩
    · rw [hmap, ← hcall [] (by rw [Exchange.updates, hquiet]; rfl)]
    · rw [hduring.notifications, hquiet]

theorem Holds.turns (h : Holds s (fun _ => none) es []) (turns : List (Turn infoUpdate)) :
    Holds ((messages turns).foldl RecordingState.observe s) (fun _ => none)
      (es ++ entries turns) [] := by
  induction turns generalizing s es with
  | nil => simpa [messages, entries] using h
  | cons turn turns ih =>
    have hturn : Holds (turn.messages.foldl RecordingState.observe s) (fun _ => none)
        (es ++ turn.entries) [] := by
      cases turn with
      | aside a => exact h.step (.aside a)
      | exchange x => exact h.exchange x
    have hrest := ih hturn
    rw [List.append_assoc] at hrest
    rw [messages, List.flatMap_cons, List.foldl_append]
    exact hrest

theorem record_messages (turns : List (Turn infoUpdate)) :
    record (messages turns) = some ((entries turns).map Entry.call) := by
  have hnew : Holds .new (fun _ => none) [] [] := ⟨rfl, rfl, rfl⟩
  have hend := hnew.turns turns
  rw [List.nil_append] at hend
  rw [record, RecordingState.drop, if_pos ⟨rfl, rfl⟩, RecordingState.flushNow]
  rw [hend.notifications, hend.calls, List.map_nil, distribute_nil]

end

section

variable {calls : List RecordedCall} {cursor : Nat} {rest : List Message} {x : Exchange infoUpdate}
  {e : Entry}

theorem handle_of_unrecorded {req : Request} (h : req.id = none) :
    handleIncomingRequest infoUpdate calls cursor req = (cursor, []) := by
  rw [handleIncomingRequest, h]

theorem serve_step (st : Step) :
    serveRecorded infoUpdate calls cursor ((clientMessage st.message).toList ++ rest) =
      st.answers ++ serveRecorded infoUpdate calls cursor rest := by
  have hnotification : ∀ req : Request, req.id = none →
      serveRecorded infoUpdate calls cursor (.request req :: rest) =
        [] :: serveRecorded infoUpdate calls cursor rest := by
    intro req hid
    rw [serveRecorded, handle_of_unrecorded hid]
  cases st with
  | update fields => rfl
  | aside a =>
    cases a with
    | cancel params => exact hnotification _ rfl
    | noise message h =>
      obtain ⟨direction, message⟩ := message
      cases direction with
      | fromAgent => rfl
      | fromClient =>
        cases message with
        | response resp => rfl
        | request req =>
          refine hnotification req ?_
          rw [unrecorded, Bool.and_eq_true, Option.isNone_iff_eq_none] at h
          exact h.1

theorem serve_steps (during : List Step) :
    serveRecorded infoUpdate calls cursor
        ((during.map Step.message).filterMap clientMessage ++ rest) =
      during.flatMap Step.answers ++ serveRecorded infoUpdate calls cursor rest := by
  induction during with
  | nil => rfl
  | cons st during ih =>
    have hcons : (((st :: during).map Step.message).filterMap clientMessage) ++ rest =
        (clientMessage st.message).toList ++
          ((during.map Step.message).filterMap clientMessage ++ rest) := by
      rw [List.map_cons, List.filterMap_cons]
      cases clientMessage st.message with
      | none => rfl
      | some message => rfl
    rw [hcons, serve_step, ih, List.flatMap_cons, List.append_assoc]

def Exchange.replay (x : Exchange infoUpdate) (call : RecordedCall) : List Message :=
  (call.notifications.filterMap valueToParams).map sessionUpdateNotification ++
    (if x.method = "session/prompt" then sendTurnComplete infoUpdate x.request else []) ++
    [recordedResponse call.response x.id]

theorem clientMessages_exchange (x : Exchange infoUpdate) (turns : List (Turn infoUpdate)) :
    clientMessages (.exchange x :: turns) =
      .request x.request ::
        ((x.during.map Step.message).filterMap clientMessage ++ clientMessages turns) := by
  have hrequest : clientMessage (.fromClient, .request x.request) = some (.request x.request) :=
    rfl
  have hanswer : clientMessage (.fromAgent, x.answer.response x.id) = none := rfl
  rw [clientMessages, messages, List.flatMap_cons, Turn.messages, Exchange.messages,
    List.filterMap_append, List.cons_append, List.filterMap_cons_some hrequest, List.filterMap_append,
    List.filterMap_cons_none hanswer, List.filterMap_nil, List.append_nil]
  rfl

theorem serve_eq_answers_iff (turns : List (Turn infoUpdate))
    (henough : cursor + (exchanges turns).length ≤ calls.length) :
    serveRecorded infoUpdate calls cursor (clientMessages turns) = answers turns ↔
      ∀ k x, (exchanges turns)[k]? = some x →
        ∃ call, calls[cursor + k]? = some call ∧ x.replay call = x.reply := by
  induction turns generalizing cursor with
  | nil => simp [clientMessages, messages, answers, exchanges, serveRecorded]
  | cons turn turns ih =>
    cases turn with
    | aside a =>
      have hsteps : clientMessages (.aside a :: turns) =
          (clientMessage (Step.aside a).message).toList ++ clientMessages turns := by
        rw [clientMessages, messages, List.flatMap_cons, List.filterMap_append]
        simp only [Turn.messages, Step.message]
        cases hmessage : clientMessage a.message with
        | none => rw [List.filterMap_cons_none hmessage]; rfl
        | some message => rw [List.filterMap_cons_some hmessage]; rfl
      have hanswers : answers (.aside a :: turns) = (Step.aside a).answers ++ answers turns := by
        rw [answers, List.flatMap_cons, Turn.answers]
        rfl
      have hexchanges : exchanges (.aside a :: turns) = exchanges turns := rfl
      rw [hsteps, hanswers, hexchanges, serve_step, List.append_cancel_left_eq, ih henough]
    | exchange x =>
      have hexchanges : exchanges (.exchange x :: turns) = x :: exchanges turns := rfl
      have hanswers : answers (.exchange x :: turns) =
          x.reply :: (x.during.flatMap Step.answers ++ answers turns) := by
        rw [answers, List.flatMap_cons, Turn.answers]
        rfl
      rw [hexchanges, List.length_cons] at henough
      obtain ⟨call, hcall⟩ : ∃ call, calls[cursor]? = some call :=
        ⟨_, List.getElem?_eq_getElem (by omega)⟩
      have hhandle : handleIncomingRequest infoUpdate calls cursor x.request =
          (cursor + 1, x.replay call) := by
        have hid : x.request.id = some x.id := rfl
        rw [handleIncomingRequest, hid]
        simp only [hcall]
        rfl
      rw [clientMessages_exchange, hanswers, serveRecorded, hhandle]
      simp only [serve_steps]
      rw [List.cons_eq_cons, List.append_cancel_left_eq, ih (by omega)]
      constructor
      · grind
      · intro h
        constructor
        · obtain ⟨call', hcall', hreplay⟩ := h 0 x rfl
          obtain rfl := Option.some.inj (hcall.symm.trans hcall')
          exact hreplay
        · intro k y hy
          obtain ⟨call', hcall', hreplay⟩ := h (k + 1) y hy
          exact ⟨call', by rwa [Nat.add_right_comm], hreplay⟩

theorem toInt?_toString (n : Int) : (toString n).toInt? = some n := by simp

theorem asI64_code (code : Int32) : asI64 (.number code.toInt.repr) = some code.toInt := by
  have hlow := Int32.le_toInt code
  have hhigh := Int32.toInt_lt code
  have htext : code.toInt.repr.toInt? = some code.toInt := toInt?_toString code.toInt
  rw [asI64, htext, Option.filter_some, if_pos]
  simp only [decide_eq_true_eq]
  omega

theorem recordedResponse_value (a : Answer) (id : Id) :
    recordedResponse a.value id = a.replayed.response id := by
  cases a with
  | result value =>
    rw [recordedResponse, recordedError, Answer.value, Answer.replayed]
    cases value.getKey "error" with
    | none => rfl
    | some envelope => rfl
  | error e =>
    have henvelope :
        recordedError (errorValue e) = some { e with data := some (e.data.getD .null) } := by
      simp [recordedError, errorValue, envelopeError, Json.getKey, Json.asStr, asI64_code]
    rw [recordedResponse, Answer.value, henvelope]
    rfl

theorem response_inj {a b : Answer} {id : Id} : a.response id = b.response id ↔ a = b := by
  constructor
  · intro h
    cases a with
    | result value =>
      cases b with
      | result value' => simpa [Answer.response, successV2] using h
      | error e => simp [Answer.response, successV2, errorV2] at h
    | error e =>
      cases b with
      | result value' => simp [Answer.response, successV2, errorV2] at h
      | error e' => simpa [Answer.response, errorV2] using h
  · rintro rfl
    rfl

theorem notification_injective :
    Function.Injective fun fields : List (String × Json) =>
      sessionUpdateNotification (.object fields) := by
  intro a b h
  simpa [sessionUpdateNotification] using h

def Exchange.markers (x : Exchange infoUpdate) : List (List (String × Json)) :=
  x.session.toList.map (turnCompleteNotification infoUpdate)

theorem replay_call (x : Exchange infoUpdate) (e : Entry) :
    x.replay e.call =
      (e.updates ++ x.markers).map (fun fields => sessionUpdateNotification (.object fields)) ++
        [e.answer.replayed.response x.id] := by
  have hupdates : (e.call.notifications.filterMap valueToParams).map sessionUpdateNotification =
      e.updates.map fun fields => sessionUpdateNotification (.object fields) := by
    have hobject : valueToParams ∘ Json.object = some ∘ Params.object := rfl
    rw [Entry.call, List.filterMap_map, hobject, List.filterMap_eq_map, List.map_map]
    rfl
  have hmarkers : (if x.method = "session/prompt" then sendTurnComplete infoUpdate x.request
      else []) = x.markers.map fun fields => sessionUpdateNotification (.object fields) := by
    have hparams : (x.params.bind fun params => extractSessionId (paramsToValue (some params))) =
        extractSessionId (paramsToValue x.params) := by
      cases x.params with
      | none => rfl
      | some params => rfl
    rw [Exchange.markers, Exchange.session, promptSession]
    by_cases hmethod : x.method = "session/prompt"
    · rw [if_pos hmethod, if_pos hmethod, sendTurnComplete, Exchange.request, hparams]
      cases extractSessionId (paramsToValue x.params) with
      | none => rfl
      | some sid => rfl
    · rw [if_neg hmethod, if_neg hmethod]
      rfl
  have hresponse : recordedResponse e.call.response x.id = e.answer.replayed.response x.id :=
    recordedResponse_value e.answer x.id
  rw [Exchange.replay, hupdates, hmarkers, hresponse, List.map_append]

theorem updates_eq (x : Exchange infoUpdate) : x.updates = x.streamed ++ x.markers := by
  rw [Exchange.streamed, Exchange.markers]
  cases hsession : x.session with
  | none => simp
  | some sid =>
    obtain ⟨updates, hupdates, -⟩ := x.streams sid hsession
    rw [← Exchange.updates] at hupdates
    simp [hupdates]

theorem replay_eq_reply_iff (x : Exchange infoUpdate) (e : Entry) :
    x.replay e.call = x.reply ↔ e.updates = x.streamed ∧ e.answer.replayed = x.answer := by
  rw [replay_call, Exchange.reply, updates_eq]
  constructor
  · intro h
    obtain ⟨hupdates, hanswer⟩ := List.append_inj' h rfl
    have hsame := notification_injective.list_map hupdates
    rw [List.append_cancel_right_eq] at hsame
    exact ⟨hsame, response_inj.mp (List.singleton_inj.mp hanswer)⟩
  · rintro ⟨hupdates, hanswer⟩
    rw [hupdates, hanswer]

theorem length_exchanges_le (turns : List (Turn infoUpdate)) :
    (exchanges turns).length ≤ (entries turns).length := by
  induction turns with
  | nil => exact Nat.le_refl _
  | cons turn turns ih =>
    rw [exchanges, entries, List.flatMap_cons, List.flatMap_cons, List.length_append,
      List.length_append]
    have hturn : turn.exchanges.length ≤ turn.entries.length := by
      cases turn with
      | aside a => exact Nat.zero_le _
      | exchange x => simp [Turn.exchanges, Turn.entries]
    exact Nat.add_le_add hturn ih

end

/-- Playing the recording of a run back to the messages of its client repeats it. -/
def Repeats (turns : List (Turn infoUpdate)) : Prop :=
  playBack infoUpdate (record (messages turns)) (clientMessages turns) = answers turns

/-- The entry in the place of each request has its updates without the marker, and an answer that is
read back as its answer. -/
def InStep (turns : List (Turn infoUpdate)) : Prop :=
  ∀ (k : Nat) (x : Exchange infoUpdate), (exchanges turns)[k]? = some x →
    ∃ e : Entry, (entries turns)[k]? = some e ∧ e.updates = x.streamed ∧ e.answer.replayed = x.answer

theorem repeats_iff (infoUpdate : Json) (turns : List (Turn infoUpdate)) :
    Repeats turns ↔ InStep turns := by
  have henough : 0 + (exchanges turns).length ≤ ((entries turns).map Entry.call).length := by
    rw [Nat.zero_add, List.length_map]
    exact length_exchanges_le turns
  rw [Repeats, playBack, record_messages, Option.getD_some, serve_eq_answers_iff turns henough]
  simp only [Nat.zero_add, List.getElem?_map, Option.map_eq_some_iff, InStep]
  constructor
  · intro h k x hx
    obtain ⟨call, ⟨e, he, rfl⟩, hreplay⟩ := h k x hx
    exact ⟨e, he, (replay_eq_reply_iff x e).mp hreplay⟩
  · intro h k x hx
    obtain ⟨e, he, hstep⟩ := h k x hx
    exact ⟨e.call, ⟨e, he, rfl⟩, (replay_eq_reply_iff x e).mpr hstep⟩

def firstPrompt (infoUpdate : Json) : Exchange infoUpdate where
  id := .number 1
  method := "session/prompt"
  params := some (.object [("sessionId", .string "sess-1")])
  during := [.update (turnCompleteNotification infoUpdate "sess-1")]
  answer := .result (.object [("stopReason", .string "end_turn")])
  quiet := by
    intro h
    cases h
  streams := by
    intro sid h
    obtain rfl : "sess-1" = sid := Option.some.inj h
    exact ⟨[], rfl, by simp⟩

theorem marker_is_doubled :
    ¬ ∀ (infoUpdate : Json) (turns : List (Turn infoUpdate)), Repeats turns := by
  intro h
  let info : Json := .object [("sessionUpdate", .string "session_info_update")]
  have hlengths := congrArg (List.map List.length) (h info [.exchange (firstPrompt info)])
  exact absurd hlengths (by decide)

theorem session_eq_none_iff (x : Exchange infoUpdate) :
    x.session = none ↔ x.updates = x.streamed := by
  rw [updates_eq x, Exchange.markers]
  cases x.session with
  | none => simp
  | some sid => simp

theorem inStep_iff_of_no_cancel {turns : List (Turn infoUpdate)}
    (h : entries turns = (exchanges turns).map Exchange.entry) :
    InStep turns ↔ ∀ x ∈ exchanges turns, x.session = none ∧ x.answer.replayed = x.answer := by
  rw [InStep, h]
  simp only [List.getElem?_map, Option.map_eq_some_iff]
  constructor
  · intro hstep x hx
    obtain ⟨k, hk⟩ := List.mem_iff_getElem?.mp hx
    obtain ⟨_, ⟨y, hy, rfl⟩, hupdates, hanswer⟩ := hstep k x hk
    obtain rfl := Option.some.inj (hk.symm.trans hy)
    exact ⟨(session_eq_none_iff x).mpr hupdates, hanswer⟩
  · intro hall k x hk
    obtain ⟨hsession, hanswer⟩ := hall x (List.mem_of_getElem? hk)
    exact ⟨x.entry, ⟨x, hk, rfl⟩, (session_eq_none_iff x).mp hsession, hanswer⟩

end SwissArmyHammer.Recording
