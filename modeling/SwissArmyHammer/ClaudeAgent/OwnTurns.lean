import SwissArmyHammer.ClaudeAgent.SessionReplay
import SwissArmyHammer.ClaudeAgent.SharedProcess

/-! A prompt is answered by the lines of its own turn, while no earlier turn has left anything to
read. -/

namespace SwissArmyHammer.ClaudeAgent.SharedProcess

open Permissions PromptTurn

variable {Plan : Type}

def Call.OwnTurn (call : Call) : Prop := ∀ chunk ∈ call.received, chunk.1 = call.index

def wholeAnswer (S : Server Plan) (request : Request) : List MessageChunk :=
  runStreamLoop S.evaluate .default request.turn.lines

def answerReason (S : Server Plan) (request : Request) : StopReason :=
  if request.streaming then mapClaudeStopReason (lastStopReason (wholeAnswer S request))
  else if isResponseRefusal S.agent (responseContent (wholeAnswer S request)) then .refusal
  else .endTurn

def Outcome.Answered (S : Server Plan) (outcome : Outcome) : Prop :=
  validPrompt S.agent outcome.call.request.prompt = true →
    outcome.call.interrupted = false → outcome.call.capped = false →
      outcome.call.received.map Prod.snd = wholeAnswer S outcome.call.request ∧
        outcome.result = some (answerReason S outcome.call.request)

/-- All that is reported for a prompt is from its own turn, and a valid prompt that is neither
cancelled nor capped returns its whole answer. -/
structure OwnAnswers (S : Server Plan) (s : State Plan) : Prop where
  returned : ∀ outcome ∈ s.outcomes, outcome.call.OwnTurn ∧ outcome.Answered S
  current : ∀ call phase, s.current = some (call, phase) → call.OwnTurn

structure Answerable (S : Server Plan) (request : Request) : Prop where
  accepted : request.contentRefused = false
  requests : (if request.streaming then 2 else 1) ≤ S.agent.maxTurnRequests
  tokens : (String.join request.prompt).utf8ByteSize / 4 ≤ S.agent.maxTokensPerTurn
  policies : ∀ chunk ∈ wholeAnswer S request, chunk.toolCall.any request.policyFails = false

structure Untouched (s : State Plan) : Prop where
  managed : s.managed = true
  stdout : s.stdout = []
  readers : s.readers = []

def Undisturbed (outcomes : List Outcome) : Prop :=
  ∀ outcome ∈ outcomes, outcome.call.interrupted = false ∧ outcome.call.capped = false

/-- A valid prompt starts uncancelled. Where an earlier one was cancelled or capped, it is written
to a process that is still managed and whose output was read to the end. -/
def Meets (S : Server Plan) (s : State Plan) : Event → Prop
  | .prompt request => validPrompt S.agent request.prompt = true →
    s.session.cancelled = false ∧ Answerable S request
  | .handler => ∀ call, s.current = some (call, .querying) → Undisturbed s.outcomes ∨ Untouched s
  | .cancel | .reader _ => True

def RunMeets (S : Server Plan) (s : State Plan) : List Event → Prop
  | [] => True
  | event :: events => Meets S s event ∧
    (step S s event).elim True fun s' => RunMeets S s' events

section

variable {S : Server Plan} {s s' : State Plan} {call : Call} {r : Reader} {readers : List Reader}
  {stdout : List (Nat × Json)} {taken : List (Nat × MessageChunk)} {line : Nat × Json}

def remaining (S : Server Plan) (r : Reader) (stdout : List (Nat × Json)) : List MessageChunk :=
  r.unsent.map Prod.snd ++
    if r.ended then [] else runStreamLoop S.evaluate r.state (stdout.map Prod.snd)

def left (S : Server Plan) (readers : List Reader) (stdout : List (Nat × Json)) :
    List MessageChunk :=
  match readers with
  | [] => []
  | r :: _ => remaining S r stdout

def Ends (lines : List Json) : Prop :=
  ∃ body result, lines = body ++ [result] ∧ (∀ line ∈ body, isEndOfStream line = false) ∧
    isEndOfStream result = true

structure Reading (call : Call) (r : Reader) (stdout : List (Nat × Json)) : Prop where
  owner : r.owner = call.index
  unsent : ∀ chunk ∈ r.unsent, chunk.1 = call.index
  ended : r.ended = true → stdout = []
  running : r.ended = false → Ends (stdout.map Prod.snd)

structure Streaming (S : Server Plan) (call : Call) (readers : List Reader)
    (stdout : List (Nat × Json)) (taken : List (Nat × MessageChunk)) : Prop where
  own : ∀ chunk ∈ taken ++ call.channel, chunk.1 = call.index
  lines : ∀ line ∈ stdout, line.1 = call.index
  tasks : (readers = [] ∧ stdout = []) ∨ ∃ r, readers = [r] ∧ Reading call r stdout
  whole : (taken ++ call.channel).map Prod.snd ++ left S readers stdout =
    wholeAnswer S call.request

theorem Ends.ne_nil {lines : List Json} (h : Ends lines) : lines ≠ [] := by
  obtain ⟨body, result, hlines, -, -⟩ := h
  intro hnil
  rw [hnil] at hlines
  exact List.cons_ne_nil _ _ (List.append_eq_nil_iff.mp hlines.symm).2

theorem Ends.tail {first : Json} {lines : List Json} (h : Ends (first :: lines))
    (hfirst : isEndOfStream first = false) : Ends lines := by
  obtain ⟨body, result, hlines, hbody, hresult⟩ := h
  cases body with
  | nil =>
    cases hlines
    rw [hfirst] at hresult
    cases hresult
  | cons head body =>
    cases hlines
    exact ⟨body, result, rfl, fun line hline => hbody line (List.mem_cons_of_mem _ hline), hresult⟩

theorem Ends.eq_nil {first : Json} {lines : List Json} (h : Ends (first :: lines))
    (hfirst : isEndOfStream first = true) : lines = [] := by
  obtain ⟨body, result, hlines, hbody, -⟩ := h
  cases body with
  | nil =>
    cases hlines
    rfl
  | cons head body =>
    grind

theorem ends_lines (turn : CliTurn) : Ends turn.lines :=
  ⟨turn.body, turn.result, rfl, turn.body_goes_on, turn.result_ends⟩

theorem isEndOfStream_of_isElicitation {line : Json} (h : isElicitation line = true) :
    isEndOfStream line = false := by
  rw [isElicitation, decide_eq_true_iff] at h
  rw [isEndOfStream, h.1]
  decide

theorem remaining_readLine (S : Server Plan) (hunsent : r.unsent = []) (hrunning : r.ended = false)
    (line : Nat × Json) (stdout : List (Nat × Json)) :
    remaining S (r.readLine S line) stdout = remaining S r (line :: stdout) := by
  rw [remaining, remaining, hunsent, hrunning, Reader.readLine, List.map_cons (f := Prod.snd),
    runStreamLoop]
  cases helicits : isElicitation line.2 with
  | true =>
    rw [if_pos rfl, if_pos rfl, hunsent, hrunning]
  | false =>
    cases hends : isEndOfStream line.2 with
    | true =>
      simp
    | false =>
      simp [hrunning, Function.comp_def]

theorem Reading.readLine (h : Reading call r (line :: stdout)) (hrunning : r.ended = false)
    (hline : line.1 = call.index) (S : Server Plan) :
    Reading call (r.readLine S line) stdout := by
  have hends := h.running hrunning
  rw [Reader.readLine]
  cases helicits : isElicitation line.2 with
  | true =>
    rw [if_pos rfl]
    refine ⟨h.owner, h.unsent, fun hended => ?_, fun _ =>
      hends.tail (isEndOfStream_of_isElicitation helicits)⟩
    rw [hrunning] at hended
    cases hended
  | false =>
    cases hlast : isEndOfStream line.2 with
    | true =>
      refine ⟨h.owner, ?_, fun _ => List.map_eq_nil_iff.mp (hends.eq_nil hlast), fun hrun => ?_⟩
      · grind
      · cases hrun
    | false =>
      refine ⟨h.owner, ?_, fun hended => ?_, fun _ => hends.tail hlast⟩
      · grind
      · rw [hrunning] at hended
        cases hended

theorem Reading.congr (h : Reading call r stdout) {call' : Call}
    (hindex : call'.index = call.index) : Reading call' r stdout :=
  ⟨h.owner.trans hindex.symm, fun chunk hchunk => (h.unsent chunk hchunk).trans hindex.symm,
    h.ended, h.running⟩

theorem Streaming.congr (h : Streaming S call readers stdout taken) {call' : Call}
    (hindex : call'.index = call.index) (hrequest : call'.request = call.request)
    (hchannel : call'.channel = call.channel) : Streaming S call' readers stdout taken := by
  refine ⟨?_, fun line hline => (h.lines line hline).trans hindex.symm, ?_, ?_⟩
  · intro chunk hchunk
    rw [hchannel] at hchunk
    exact (h.own chunk hchunk).trans hindex.symm
  · exact h.tasks.imp_right fun ⟨r, hreaders, hreading⟩ => ⟨r, hreaders, hreading.congr hindex⟩
  · rw [hchannel, hrequest]
    exact h.whole

theorem Streaming.sole (h : Streaming S call readers stdout taken) {i : Nat}
    (hr : readers[i]? = some r) : readers = [r] ∧ Reading call r stdout := by
  rcases h.tasks with ⟨hnone, -⟩ | ⟨r', hone, hreading⟩
  · rw [hnone] at hr
    cases hr
  · grind

theorem Streaming.send (h : Streaming S call [r] stdout taken) (hreading : Reading call r stdout)
    {chunk : Nat × MessageChunk} {rest : List (Nat × MessageChunk)}
    (hunsent : r.unsent = chunk :: rest) :
    Streaming S { call with channel := call.channel ++ [chunk] } [{ r with unsent := rest }] stdout
      taken := by
  have hwhole := h.whole
  rw [left, remaining, hunsent] at hwhole
  have hchunk := hreading.unsent chunk (hunsent ▸ List.mem_cons_self)
  refine ⟨?_, h.lines, .inr ⟨_, rfl, hreading.owner, ?_, hreading.ended, hreading.running⟩, ?_⟩
  · intro other hother
    rw [← List.append_assoc] at hother
    rcases List.mem_append.mp hother with hearlier | hlast
    · exact h.own other hearlier
    · rw [List.mem_singleton.mp hlast]
      exact hchunk
  · intro other hother
    exact hreading.unsent other (hunsent ▸ List.mem_cons_of_mem _ hother)
  · rw [← hwhole, left, remaining]
    simp

theorem Streaming.stop (h : Streaming S call [r] stdout taken) (hreading : Reading call r stdout)
    (hunsent : r.unsent = []) (hended : r.ended = true) : Streaming S call [] stdout taken := by
  refine ⟨h.own, h.lines, .inl ⟨rfl, hreading.ended hended⟩, ?_⟩
  rw [← h.whole, left, left, remaining, hunsent, hended]
  rfl

theorem Streaming.read (h : Streaming S call [r] (line :: stdout) taken)
    (hreading : Reading call r (line :: stdout)) (hunsent : r.unsent = [])
    (hrunning : r.ended = false) : Streaming S call [r.readLine S line] stdout taken := by
  have hline := h.lines line List.mem_cons_self
  refine ⟨h.own, fun other hother => h.lines other (List.mem_cons_of_mem _ hother),
    .inr ⟨_, rfl, hreading.readLine hrunning hline S⟩, ?_⟩
  rw [← h.whole, left, left, remaining_readLine S hunsent hrunning]

end

section

variable {S : Server Plan} {s s' : State Plan} {call : Call} {phase : Phase} {r : Reader}
  {taken : List (Nat × MessageChunk)} {chunk : Nat × MessageChunk} {result : Option StopReason}

def AllAnswered (S : Server Plan) (outcomes : List Outcome) : Prop :=
  ∀ outcome ∈ outcomes, outcome.call.OwnTurn ∧ outcome.Answered S

def Calm (s : State Plan) (call : Call) : Prop :=
  call.interrupted = false → s.session.cancelled = false

def InPhase (S : Server Plan) (s : State Plan) (call : Call) : Phase → Prop
  | .opened | .prepared | .querying => call.received = [] ∧ call.capped = false ∧ Calm s call ∧
    String.join call.request.prompt ≠ ""
  | .receiving => Streaming S call s.readers s.stdout call.received ∧ call.capped = false ∧
    Calm s call
  | .checking chunk => Streaming S call s.readers s.stdout (call.received ++ [chunk]) ∧
    call.capped = false ∧ Calm s call
  | .aborting | .terminating => call.OwnTurn ∧ call.capped = true
  | .drained => call.OwnTurn ∧ call.received.map Prod.snd = wholeAnswer S call.request ∧
    Calm s call
  | .returning reason => call.OwnTurn ∧ (call.interrupted = false → call.capped = false →
    call.received.map Prod.snd = wholeAnswer S call.request ∧
      reason = answerReason S call.request)

structure Inv (S : Server Plan) (s : State Plan) : Prop where
  returned : AllAnswered S s.outcomes
  current : ∀ call phase, s.current = some (call, phase) →
    Answerable S call.request ∧ InPhase S s call phase

theorem Calm.inPhase_returning (hcalm : Calm s call) (hcancel : s.session.cancelled = true)
    (hown : call.OwnTurn) (s' : State Plan) (reason : StopReason) :
    InPhase S s' call (.returning reason) := by
  refine ⟨hown, fun hinterrupted => ?_⟩
  rw [hcalm hinterrupted] at hcancel
  cases hcancel

theorem ownTurn_of_nil (h : call.received = []) : call.OwnTurn := by
  intro chunk hchunk
  rw [h] at hchunk
  cases hchunk

theorem Streaming.ownTurn (h : Streaming S call s.readers s.stdout (call.received ++ taken)) :
    call.OwnTurn := fun chunk hchunk =>
  h.own chunk (List.mem_append_left _ (List.mem_append_left _ hchunk))

theorem Inv.ownTurn (h : Inv S s) (hcurrent : s.current = some (call, phase)) : call.OwnTurn := by
  obtain ⟨-, hphase⟩ := h.current call phase hcurrent
  cases phase with
  | opened => exact ownTurn_of_nil hphase.1
  | prepared => exact ownTurn_of_nil hphase.1
  | querying => exact ownTurn_of_nil hphase.1
  | receiving => exact fun chunk hchunk => hphase.1.own chunk (List.mem_append_left _ hchunk)
  | checking chunk => exact hphase.1.ownTurn
  | aborting => exact hphase.1
  | terminating => exact hphase.1
  | drained => exact hphase.1
  | returning reason => exact hphase.1

theorem Inv.finish (h : AllAnswered S s.outcomes) (hown : call.OwnTurn)
    (hanswered : Outcome.Answered S ⟨call, result⟩) : Inv S (s.finish call result) := by
  refine ⟨?_, fun call phase hcurrent => by cases hcurrent⟩
  intro outcome houtcome
  rcases List.mem_append.mp houtcome with hearlier | hlast
  · exact h outcome hearlier
  · cases List.mem_singleton.mp hlast
    exact ⟨hown, hanswered⟩

theorem Inv.goTo (h : AllAnswered S s.outcomes) (hanswerable : Answerable S call.request)
    (hphase : InPhase S (s.goTo call phase) call phase) : Inv S (s.goTo call phase) := by
  refine ⟨h, ?_⟩
  intro call' phase' hcurrent
  cases hcurrent
  exact ⟨hanswerable, hphase⟩

theorem checkTurnLimits_of_answerable (h : Answerable S call.request)
    (session : PromptTurn.State Plan) :
    checkTurnLimits S.agent (prepareSessionForTurn session (String.join call.request.prompt))
        (String.join call.request.prompt) =
      ({ session with
          context := session.context ++ [.userMessageChunk (String.join call.request.prompt)]
          turnRequestCount := 1
          turnTokenCount := (String.join call.request.prompt).utf8ByteSize / 4 }, none) := by
  have hrequests : 1 ≤ S.agent.maxTurnRequests := by
    have hmax := h.requests
    split at hmax
    · omega
    · exact hmax
  have htokens := h.tokens
  rw [checkTurnLimits, prepareSessionForTurn]
  dsimp only
  rw [if_neg (by omega), if_neg (by omega), Nat.zero_add, Nat.zero_add]

theorem Inv.beginTurn (h : AllAnswered S s.outcomes) (hanswerable : Answerable S call.request)
    (hphase : InPhase S s call .opened) : Inv S (beginTurn S s call) := by
  obtain ⟨hreceived, hcapped, hcalm, hprompt⟩ := hphase
  rw [SharedProcess.beginTurn]
  cases hcancel : s.session.cancelled with
  | true =>
    refine Inv.finish h (ownTurn_of_nil hreceived) fun _ hinterrupted => ?_
    rw [hcalm hinterrupted] at hcancel
    cases hcancel
  | false =>
    rw [if_neg Bool.false_ne_true]
    dsimp only
    rw [checkTurnLimits_of_answerable hanswerable, hanswerable.accepted]
    dsimp only
    rw [if_neg Bool.false_ne_true]
    have hopened : ∀ (s' : State Plan), s'.session.cancelled = s.session.cancelled →
        call.received = [] ∧ call.capped = false ∧ Calm s' call ∧
          String.join call.request.prompt ≠ "" := fun s' hs' =>
      ⟨hreceived, hcapped, fun _ => hs'.trans hcancel, hprompt⟩
    have hmax := hanswerable.requests
    cases hstreaming : call.request.streaming with
    | true =>
      rw [hstreaming, if_pos rfl] at hmax
      rw [if_pos rfl, if_neg (by omega)]
      exact Inv.goTo h hanswerable (hopened _ rfl)
    | false => exact Inv.goTo h hanswerable (hopened _ rfl)

theorem Inv.checkBeforeRequest (h : AllAnswered S s.outcomes)
    (hanswerable : Answerable S call.request) (hphase : InPhase S s call .prepared) :
    Inv S (checkBeforeRequest s call) := by
  rw [SharedProcess.checkBeforeRequest]
  split
  · rename_i hcancel
    exact Inv.goTo h hanswerable
      (hphase.2.2.1.inPhase_returning hcancel (ownTurn_of_nil hphase.1) _ _)
  · exact Inv.goTo h hanswerable hphase

theorem text_empty_of_join {prompt : List String} (h : String.join prompt = "") :
    ∀ text ∈ prompt, text = "" := by
  induction prompt with
  | nil =>
    intro text htext
    cases htext
  | cons first prompt ih =>
    rw [String.join_cons, String.append_eq_empty_iff] at h
    intro text htext
    rcases List.mem_cons.mp htext with rfl | hrest
    · exact h.1
    · exact ih h.2 text hrest

theorem join_ne_empty {A : Agent Plan} {prompt : List String} (h : validPrompt A prompt = true) :
    String.join prompt ≠ "" := by
  rw [validPrompt, Bool.and_eq_true, List.any_eq_true] at h
  obtain ⟨⟨text, htext, htrim⟩, -⟩ := h
  intro hempty
  rw [text_empty_of_join hempty text htext] at htrim
  exact absurd rfl (of_decide_eq_true htrim)

theorem Inv.queryStream (h : AllAnswered S s.outcomes) (hanswerable : Answerable S call.request)
    (hphase : InPhase S s call .querying) (huntouched : Untouched s) :
    Inv S (queryStream s call) := by
  obtain ⟨hreceived, hcapped, hcalm, hprompt⟩ := hphase
  obtain ⟨hmanaged, hstdout, hreaders⟩ := huntouched
  have htagged : (call.request.turn.lines.map fun line => (call.index, line)).map Prod.snd =
      call.request.turn.lines := by
    rw [List.map_map]
    exact List.map_id _
  rw [SharedProcess.queryStream, if_neg hprompt, if_pos hmanaged, hstdout, hreaders]
  refine Inv.goTo h hanswerable ⟨⟨?_, ?_, .inr ⟨_, rfl, rfl, ?_, ?_, ?_⟩, ?_⟩, hcapped, hcalm⟩
  · intro chunk hchunk
    rw [hreceived] at hchunk
    cases hchunk
  · intro line hline
    obtain ⟨_, _, rfl⟩ := List.mem_map.mp hline
    rfl
  · intro chunk hchunk
    cases hchunk
  · intro hended
    cases hended
  · intro _
    have hlines := ends_lines call.request.turn
    rw [← htagged] at hlines
    exact hlines
  · rw [hreceived]
    exact congrArg (runStreamLoop S.evaluate .default) htagged

theorem Inv.receiveChunk (h : AllAnswered S s.outcomes) (hanswerable : Answerable S call.request)
    (hphase : InPhase S s call .receiving) (hstep : receiveChunk s call = some s') :
    Inv S s' := by
  obtain ⟨⟨hown, hlines, htasks, hwhole⟩, hcapped, hcalm⟩ := hphase
  rw [SharedProcess.receiveChunk] at hstep
  cases hchannel : call.channel with
  | cons chunk rest =>
    rw [hchannel] at hstep hown hwhole
    cases hstep
    refine Inv.goTo h hanswerable ⟨⟨?_, hlines, ?_, ?_⟩, hcapped, hcalm⟩
    · rwa [List.append_assoc]
    · rcases htasks with hnone | ⟨r, hreaders, howner, hunsent, hended, hrunning⟩
      · exact .inl hnone
      · exact .inr ⟨r, hreaders, howner, hunsent, hended, hrunning⟩
    · rwa [List.append_assoc]
  | nil =>
    rw [hchannel] at hstep hwhole
    dsimp only at hstep
    split at hstep
    · cases hstep
    · rename_i hclosed
      cases hstep
      rcases htasks with ⟨hreaders, -⟩ | ⟨r, hreaders, hreading⟩
      · rw [hreaders, List.append_nil] at hwhole
        refine Inv.goTo h hanswerable ⟨fun chunk hchunk =>
          hown chunk (List.mem_append_left _ hchunk), ?_, hcalm⟩
        rw [← hwhole]
        exact (List.append_nil _).symm
      · rw [hreaders, List.any_cons, decide_eq_true hreading.owner] at hclosed
        exact absurd rfl hclosed

theorem Streaming.mem_wholeAnswer
    (h : Streaming S call s.readers s.stdout (call.received ++ [chunk])) :
    chunk.2 ∈ wholeAnswer S call.request := by
  rw [← h.whole]
  simp

theorem processSingleChunk_of_answerable (hanswerable : Answerable S call.request)
    (hmem : chunk.2 ∈ wholeAnswer S call.request) (session : PromptTurn.State Plan) :
    (processSingleChunk S.agent session
      ⟨[], chunk.2, [], chunk.2.toolCall.any call.request.policyFails⟩).2 = true := by
  rw [processSingleChunk_snd]
  rw [hanswerable.policies chunk.2 hmem, Bool.and_false]
  rfl

theorem Inv.handleChunk (h : AllAnswered S s.outcomes) (hanswerable : Answerable S call.request)
    (hphase : InPhase S s call (.checking chunk)) : Inv S (handleChunk S s call chunk) := by
  obtain ⟨hstreaming, hcapped, hcalm⟩ := hphase
  have hown := hstreaming.ownTurn
  rw [SharedProcess.handleChunk]
  cases hcancel : s.session.cancelled with
  | true =>
    have hreturns := fun s' : State Plan =>
      hcalm.inPhase_returning (S := S) hcancel hown s' .cancelled
    rw [if_pos rfl]
    split
    · exact Inv.goTo h hanswerable (hreturns _)
    · exact Inv.goTo h hanswerable (hreturns _)
  | false =>
    rw [if_neg Bool.false_ne_true]
    dsimp only
    cases hbare : isBare chunk.2 with
    | true =>
      exact Inv.goTo h hanswerable ⟨hstreaming.congr rfl rfl rfl, hcapped, hcalm⟩
    | false =>
      rw [if_neg Bool.false_ne_true, processSingleChunk_of_answerable hanswerable
        hstreaming.mem_wholeAnswer, if_neg (Ne.symm Bool.false_ne_true)]
      have hclear : (processSingleChunk S.agent s.session ⟨[], chunk.2, [],
          chunk.2.toolCall.any call.request.policyFails⟩).1.cancelled = false := by
        rw [processSingleChunk_cancelled S.agent s.session hbare, hcancel]
        rfl
      split
      · exact Inv.goTo h hanswerable ⟨hstreaming.congr rfl rfl rfl, hcapped, fun _ => hclear⟩
      · exact Inv.goTo h hanswerable
          ⟨fun chunk hchunk => hstreaming.own chunk (List.mem_append_left _ hchunk), rfl⟩

theorem Inv.respond (h : AllAnswered S s.outcomes) (hanswerable : Answerable S call.request)
    (hphase : InPhase S s call .drained) : Inv S (respond S s call) := by
  obtain ⟨hown, hwhole, hcalm⟩ := hphase
  rw [SharedProcess.respond]
  rw [hwhole]
  cases hstreaming : call.request.streaming with
  | true =>
    rw [if_pos rfl]
    split
    · rename_i hcancel
      exact Inv.goTo h hanswerable (hcalm.inPhase_returning hcancel hown _ _)
    · refine Inv.goTo h hanswerable ⟨hown, fun _ _ => ⟨hwhole, ?_⟩⟩
      rw [answerReason, hstreaming, if_pos rfl]
  | false =>
    rw [if_neg Bool.false_ne_true]
    split
    · rename_i hrefusal
      refine Inv.goTo h hanswerable ⟨hown, fun _ _ => ⟨hwhole, ?_⟩⟩
      rw [answerReason, hstreaming, if_neg Bool.false_ne_true, if_pos hrefusal]
    · rename_i hrefusal
      split
      · rename_i hcancel
        exact Inv.goTo h hanswerable (hcalm.inPhase_returning hcancel hown _ _)
      · refine Inv.goTo h hanswerable ⟨hown, fun _ _ => ⟨hwhole, ?_⟩⟩
        rw [answerReason, hstreaming, if_neg Bool.false_ne_true, if_neg hrefusal]

theorem Inv.handler (h : Inv S s) (hcurrent : s.current = some (call, phase))
    (huntouched : phase = .querying → Untouched s)
    (hstep : handlerStep S s call phase = some s') : Inv S s' := by
  obtain ⟨hanswerable, hphase⟩ := h.current call phase hcurrent
  cases phase with
  | opened =>
    cases hstep
    exact Inv.beginTurn h.returned hanswerable hphase
  | prepared =>
    cases hstep
    exact Inv.checkBeforeRequest h.returned hanswerable hphase
  | querying =>
    cases hstep
    exact Inv.queryStream h.returned hanswerable hphase (huntouched rfl)
  | receiving => exact Inv.receiveChunk h.returned hanswerable hphase hstep
  | checking chunk =>
    cases hstep
    exact Inv.handleChunk h.returned hanswerable hphase
  | aborting =>
    cases hstep
    exact Inv.goTo h.returned hanswerable hphase
  | terminating =>
    cases hstep
    refine Inv.goTo h.returned hanswerable ⟨hphase.1, fun _ hcapped => ?_⟩
    rw [hphase.2] at hcapped
    cases hcapped
  | drained =>
    cases hstep
    exact Inv.respond h.returned hanswerable hphase
  | returning reason =>
    cases hstep
    refine Inv.finish h.returned hphase.1 fun _ hinterrupted hcapped => ?_
    obtain ⟨hwhole, hreason⟩ := hphase.2 hinterrupted hcapped
    exact ⟨hwhole, congrArg some hreason⟩

theorem Inv.prompt (h : Inv S s) {request : Request} (hmeets : Meets S s (.prompt request)) :
    Inv S (prompt S s request) := by
  rw [SharedProcess.prompt]
  cases hvalid : validPrompt S.agent request.prompt with
  | false =>
    refine Inv.finish h.returned (ownTurn_of_nil rfl) fun hprompt => ?_
    rw [hvalid] at hprompt
    cases hprompt
  | true =>
    obtain ⟨hclear, hanswerable⟩ := hmeets hvalid
    exact Inv.goTo h.returned hanswerable ⟨rfl, rfl, fun _ => hclear, join_ne_empty hvalid⟩

theorem Inv.cancel (h : Inv S s) : Inv S (cancel s) := by
  refine ⟨h.returned, ?_⟩
  intro call' phase hcurrent'
  obtain ⟨⟨call, phase'⟩, hcurrent, heq⟩ := Option.map_eq_some_iff.mp hcurrent'
  cases heq
  obtain ⟨hanswerable, hphase⟩ := h.current call phase hcurrent
  refine ⟨hanswerable, ?_⟩
  have hcalm : ∀ s : State Plan, Calm s { call with interrupted := true } := fun s hfalse => by
    cases hfalse
  cases phase with
  | opened => exact ⟨hphase.1, hphase.2.1, hcalm _, hphase.2.2.2⟩
  | prepared => exact ⟨hphase.1, hphase.2.1, hcalm _, hphase.2.2.2⟩
  | querying => exact ⟨hphase.1, hphase.2.1, hcalm _, hphase.2.2.2⟩
  | receiving => exact ⟨hphase.1.congr rfl rfl rfl, hphase.2.1, hcalm _⟩
  | checking chunk => exact ⟨hphase.1.congr rfl rfl rfl, hphase.2.1, hcalm _⟩
  | aborting => exact hphase
  | terminating => exact hphase
  | drained => exact ⟨hphase.1, hphase.2.1, hcalm _⟩
  | returning reason =>
    refine ⟨hphase.1, fun hfalse => ?_⟩
    cases hfalse

theorem runStreamLoopStep_frame {i : Nat} (h : runStreamLoopStep S s i r = some s') :
    s'.session = s.session ∧ s'.outcomes = s.outcomes ∧ s'.managed = s.managed ∧
      (s'.current = none → s.current = none) ∧
      ∀ call phase, s'.current = some (call, phase) → ∃ call', s.current = some (call', phase) ∧
        ∃ channel, call = { call' with channel } := by
  have hsame : ∀ call phase, s.current = some (call, phase) →
      ∃ call', s.current = some (call', phase) ∧ ∃ channel, call = { call' with channel } :=
    fun call phase hcurrent => ⟨call, hcurrent, call.channel, rfl⟩
  rw [runStreamLoopStep] at h
  cases hunsent : r.unsent with
  | cons chunk rest =>
    rw [hunsent] at h
    dsimp only at h
    split at h
    · cases h
      refine ⟨rfl, rfl, rfl, fun hnone => Option.map_eq_none_iff.mp hnone, ?_⟩
      intro call phase hcurrent
      obtain ⟨⟨call', phase'⟩, hcurrent', heq⟩ := Option.map_eq_some_iff.mp hcurrent
      cases heq
      exact ⟨call', hcurrent', _, rfl⟩
    · cases h
      exact ⟨rfl, rfl, rfl, id, hsame⟩
  | nil =>
    grind

theorem Streaming.runStreamLoopStep (h : Streaming S call s.readers s.stdout taken)
    (hcurrent : s.current = some (call, phase)) (hlistening : phase.listening = true) {i : Nat}
    (hr : s.readers[i]? = some r) (hstep : runStreamLoopStep S s i r = some s') :
    ∀ call' phase', s'.current = some (call', phase') →
      Streaming S call' s'.readers s'.stdout taken := by
  obtain ⟨hone, hreading⟩ := h.sole hr
  have hzero : i = 0 := by
    rw [hone] at hr
    have hlength := (List.getElem?_eq_some_iff.mp hr).1
    rw [List.length_singleton] at hlength
    omega
  rw [hone] at h
  rw [SharedProcess.runStreamLoopStep, hone, hzero] at hstep
  cases hunsent : r.unsent with
  | cons chunk rest =>
    have hopen : s.receiverOpen r.owner = true := by
      rw [State.receiverOpen, hcurrent]
      dsimp only
      rw [hlistening, decide_eq_true hreading.owner.symm]
      rfl
    rw [hunsent] at hstep
    dsimp only at hstep
    rw [hopen] at hstep
    cases hstep
    intro call' phase' hcurrent'
    rw [State.deliver] at hcurrent'
    rw [hcurrent] at hcurrent'
    cases hcurrent'
    exact h.send hreading hunsent
  | nil =>
    rw [hunsent] at hstep
    cases hended : r.ended with
    | true =>
      rw [hended] at hstep
      cases hstep
      intro call' phase' hcurrent'
      rw [hcurrent] at hcurrent'
      cases hcurrent'
      exact h.stop hreading hunsent hended
    | false =>
      rw [hended] at hstep
      cases hstdout : s.stdout with
      | nil =>
        rw [hstdout] at hstep
        cases hstep
      | cons line rest =>
        rw [hstdout] at hstep hreading h
        cases hstep
        intro call' phase' hcurrent'
        rw [hcurrent] at hcurrent'
        cases hcurrent'
        exact h.read hreading hunsent hended

theorem Inv.reader (h : Inv S s) {i : Nat} (hr : s.readers[i]? = some r)
    (hstep : SharedProcess.runStreamLoopStep S s i r = some s') : Inv S s' := by
  obtain ⟨hsession, houtcomes, -, -, hframe⟩ := runStreamLoopStep_frame hstep
  refine ⟨?_, ?_⟩
  · rw [houtcomes]
    exact h.returned
  · intro call' phase hcurrent'
    obtain ⟨call, hcurrent, channel, hcall⟩ := hframe call' phase hcurrent'
    obtain ⟨hanswerable, hphase⟩ := h.current call phase hcurrent
    have hcalm : Calm s call → Calm s' call' := by
      intro hcalm hinterrupted
      rw [hsession]
      rw [hcall] at hinterrupted
      exact hcalm hinterrupted
    have hanswerable' : Answerable S call'.request := by
      rw [hcall]
      exact hanswerable
    refine ⟨hanswerable', ?_⟩
    cases phase with
    | opened =>
      subst hcall
      exact ⟨hphase.1, hphase.2.1, hcalm hphase.2.2.1, hphase.2.2.2⟩
    | prepared =>
      subst hcall
      exact ⟨hphase.1, hphase.2.1, hcalm hphase.2.2.1, hphase.2.2.2⟩
    | querying =>
      subst hcall
      exact ⟨hphase.1, hphase.2.1, hcalm hphase.2.2.1, hphase.2.2.2⟩
    | receiving =>
      have hstreaming := hphase.1.runStreamLoopStep hcurrent rfl hr hstep call' _ hcurrent'
      subst hcall
      exact ⟨hstreaming, hphase.2.1, hcalm hphase.2.2⟩
    | checking chunk =>
      have hstreaming := hphase.1.runStreamLoopStep hcurrent rfl hr hstep call' _ hcurrent'
      subst hcall
      exact ⟨hstreaming, hphase.2.1, hcalm hphase.2.2⟩
    | aborting =>
      subst hcall
      exact hphase
    | terminating =>
      subst hcall
      exact hphase
    | drained =>
      subst hcall
      exact ⟨hphase.1, hphase.2.1, hcalm hphase.2.2⟩
    | returning reason =>
      subst hcall
      exact hphase

end

end SwissArmyHammer.ClaudeAgent.SharedProcess
