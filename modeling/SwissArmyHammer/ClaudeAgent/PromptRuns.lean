import SwissArmyHammer.ClaudeAgent.OwnTurns

/-! Runs of prompts, cancellations and tasks on one session. -/

namespace SwissArmyHammer.ClaudeAgent.SharedProcess

open PromptTurn

variable {Plan : Type}

section

variable {S : Server Plan} {s s' : State Plan} {call : Call} {phase : Phase} {r : Reader}
  {chunk : Nat × MessageChunk} {result : Option StopReason}

def TidyPhase (s : State Plan) (call : Call) : Phase → Prop
  | .opened | .prepared | .querying | .drained => Untouched s
  | .receiving | .checking _ => s.managed = true
  | .aborting | .terminating => True
  | .returning _ => call.interrupted = false → call.capped = false → Untouched s

structure Tidy (s : State Plan) : Prop where
  idle : s.current = none → Undisturbed s.outcomes → Untouched s
  busy : ∀ call phase, s.current = some (call, phase) → Undisturbed s.outcomes →
    TidyPhase s call phase

theorem Tidy.finish (h : Undisturbed s.outcomes → call.interrupted = false →
    call.capped = false → Untouched s) : Tidy (s.finish call result) := by
  refine ⟨fun _ hundisturbed => ?_, fun call phase hcurrent => by cases hcurrent⟩
  obtain ⟨hinterrupted, hcapped⟩ := hundisturbed ⟨call, result⟩
    (List.mem_append_right _ (List.mem_singleton_self _))
  obtain ⟨hmanaged, hstdout, hreaders⟩ := h (fun outcome houtcome =>
    hundisturbed outcome (List.mem_append_left _ houtcome)) hinterrupted hcapped
  exact ⟨hmanaged, hstdout, hreaders⟩

theorem Tidy.goTo (h : Undisturbed s.outcomes → TidyPhase (s.goTo call phase) call phase) :
    Tidy (s.goTo call phase) := by
  constructor
  · intro hnone
    cases hnone
  · intro call' phase' hcurrent
    cases hcurrent
    exact h

theorem Untouched.congr (h : Untouched s) (hmanaged : s'.managed = s.managed)
    (hstdout : s'.stdout = s.stdout) (hreaders : s'.readers = s.readers) : Untouched s' :=
  ⟨hmanaged.trans h.managed, hstdout.trans h.stdout, hreaders.trans h.readers⟩

theorem Tidy.beginTurn (h : Undisturbed s.outcomes → Untouched s) : Tidy (beginTurn S s call) := by
  rw [SharedProcess.beginTurn]
  split
  · exact Tidy.finish fun hundisturbed _ _ => (h hundisturbed).congr rfl rfl rfl
  · dsimp only
    split
    · exact Tidy.finish fun hundisturbed _ _ => (h hundisturbed).congr rfl rfl rfl
    · split
      · exact Tidy.finish fun hundisturbed _ _ => (h hundisturbed).congr rfl rfl rfl
      · split
        · split
          · exact Tidy.goTo fun hundisturbed _ _ => (h hundisturbed).congr rfl rfl rfl
          · exact Tidy.goTo fun hundisturbed => (h hundisturbed).congr rfl rfl rfl
        · exact Tidy.goTo fun hundisturbed => (h hundisturbed).congr rfl rfl rfl

theorem Tidy.queryStream (h : Undisturbed s.outcomes → Untouched s) :
    Tidy (queryStream s call) := by
  rw [SharedProcess.queryStream]
  split
  · exact Tidy.finish fun hundisturbed _ _ => h hundisturbed
  · split
    · exact Tidy.goTo fun hundisturbed => (h hundisturbed).managed
    · exact Tidy.finish fun hundisturbed _ _ => h hundisturbed

theorem Tidy.receiveChunk (h : Undisturbed s.outcomes → s.managed = true)
    (hphase : InPhase S s call .receiving) (hstep : receiveChunk s call = some s') : Tidy s' := by
  rw [SharedProcess.receiveChunk] at hstep
  cases hchannel : call.channel with
  | cons chunk rest =>
    rw [hchannel] at hstep
    cases hstep
    exact Tidy.goTo h
  | nil =>
    rw [hchannel] at hstep
    dsimp only at hstep
    split at hstep
    · cases hstep
    · rename_i hclosed
      cases hstep
      rcases hphase.1.tasks with ⟨hreaders, hstdout⟩ | ⟨r, hreaders, hreading⟩
      · exact Tidy.goTo fun hundisturbed => ⟨h hundisturbed, hstdout, hreaders⟩
      · rw [hreaders, List.any_cons, decide_eq_true hreading.owner] at hclosed
        exact absurd rfl hclosed

theorem Tidy.handleChunk (h : Undisturbed s.outcomes → s.managed = true)
    (hanswerable : Answerable S call.request) (hphase : InPhase S s call (.checking chunk)) :
    Tidy (handleChunk S s call chunk) := by
  obtain ⟨hstreaming, -, hcalm⟩ := hphase
  rw [SharedProcess.handleChunk]
  cases hcancel : s.session.cancelled with
  | true =>
    have hreturns : ∀ s' : State Plan, TidyPhase s' call (.returning .cancelled) := by
      intro s' hinterrupted
      rw [hcalm hinterrupted] at hcancel
      cases hcancel
    rw [if_pos rfl]
    split
    · exact Tidy.goTo fun _ => hreturns _
    · exact Tidy.goTo fun _ => hreturns _
  | false =>
    rw [if_neg Bool.false_ne_true]
    dsimp only
    split
    · exact Tidy.goTo h
    · rw [processSingleChunk_of_answerable hanswerable hstreaming.mem_wholeAnswer,
        if_neg (Ne.symm Bool.false_ne_true)]
      split
      · exact Tidy.goTo h
      · exact Tidy.goTo fun _ => trivial

theorem Tidy.respond (h : Undisturbed s.outcomes → Untouched s) : Tidy (respond S s call) := by
  have hreturns : ∀ (s' : State Plan) reason, s'.managed = s.managed → s'.stdout = s.stdout →
      s'.readers = s.readers → s'.outcomes = s.outcomes →
        Tidy (s'.goTo call (.returning reason)) := by
    intro s' reason hmanaged hstdout hreaders houtcomes
    refine Tidy.goTo fun hundisturbed _ _ => ?_
    rw [houtcomes] at hundisturbed
    exact (h hundisturbed).congr hmanaged hstdout hreaders
  rw [SharedProcess.respond]
  split
  · grind
  · grind

theorem Tidy.handler (h : Tidy s) (hinv : Inv S s) (hcurrent : s.current = some (call, phase))
    (hstep : handlerStep S s call phase = some s') : Tidy s' := by
  obtain ⟨hanswerable, hphase⟩ := hinv.current call phase hcurrent
  have htidy := h.busy call phase hcurrent
  cases phase with
  | opened =>
    cases hstep
    exact Tidy.beginTurn htidy
  | prepared =>
    cases hstep
    rw [checkBeforeRequest]
    split
    · exact Tidy.goTo fun hundisturbed _ _ => (htidy hundisturbed).congr rfl rfl rfl
    · exact Tidy.goTo fun hundisturbed => (htidy hundisturbed).congr rfl rfl rfl
  | querying =>
    cases hstep
    exact Tidy.queryStream htidy
  | receiving => exact Tidy.receiveChunk htidy hphase hstep
  | checking chunk =>
    cases hstep
    exact Tidy.handleChunk htidy hanswerable hphase
  | aborting =>
    cases hstep
    exact Tidy.goTo fun _ => trivial
  | terminating =>
    cases hstep
    refine Tidy.goTo fun _ _ hcapped => ?_
    rw [hphase.2] at hcapped
    cases hcapped
  | drained =>
    cases hstep
    exact Tidy.respond htidy
  | returning reason =>
    cases hstep
    exact Tidy.finish fun hundisturbed hinterrupted hcapped =>
      (htidy hundisturbed hinterrupted hcapped).congr rfl rfl rfl

theorem Tidy.prompt (h : Tidy s) (hnone : s.current = none) (request : Request) :
    Tidy (prompt S s request) := by
  have hidle := h.idle hnone
  rw [SharedProcess.prompt]
  split
  · exact Tidy.goTo fun hundisturbed => (hidle hundisturbed).congr rfl rfl rfl
  · exact Tidy.finish fun hundisturbed _ _ => hidle hundisturbed

theorem Tidy.cancel (h : Tidy s) : Tidy (cancel s) := by
  refine ⟨fun hnone hundisturbed => ?_, ?_⟩
  · exact (h.idle (Option.map_eq_none_iff.mp hnone) hundisturbed).congr rfl rfl rfl
  · intro call' phase hcurrent' hundisturbed
    obtain ⟨⟨call, phase'⟩, hcurrent, heq⟩ := Option.map_eq_some_iff.mp hcurrent'
    cases heq
    have htidy := h.busy call phase hcurrent hundisturbed
    cases phase with
    | opened => exact htidy.congr rfl rfl rfl
    | prepared => exact htidy.congr rfl rfl rfl
    | querying => exact htidy.congr rfl rfl rfl
    | receiving => exact htidy
    | checking chunk => exact htidy
    | aborting => trivial
    | terminating => trivial
    | drained => exact htidy.congr rfl rfl rfl
    | returning reason =>
      intro hfalse
      cases hfalse

theorem not_untouched {i : Nat} (hr : s.readers[i]? = some r) : ¬ Untouched s := by
  intro huntouched
  rw [huntouched.readers] at hr
  cases hr

theorem Tidy.reader (h : Tidy s) {i : Nat} (hr : s.readers[i]? = some r)
    (hstep : runStreamLoopStep S s i r = some s') : Tidy s' := by
  obtain ⟨-, houtcomes, hmanaged, hnone, hframe⟩ := runStreamLoopStep_frame hstep
  have hused := not_untouched hr
  constructor
  · intro hnone' hundisturbed
    rw [houtcomes] at hundisturbed
    exact absurd (h.idle (hnone hnone') hundisturbed) hused
  · intro call' phase hcurrent' hundisturbed
    rw [houtcomes] at hundisturbed
    obtain ⟨call, hcurrent, channel, rfl⟩ := hframe call' phase hcurrent'
    have htidy := h.busy call phase hcurrent hundisturbed
    cases phase with
    | opened => exact absurd htidy hused
    | prepared => exact absurd htidy hused
    | querying => exact absurd htidy hused
    | receiving => exact hmanaged.trans htidy
    | checking chunk => exact hmanaged.trans htidy
    | aborting => trivial
    | terminating => trivial
    | drained => exact absurd htidy hused
    | returning reason =>
      intro hinterrupted hcapped
      exact absurd (htidy hinterrupted hcapped) hused

end

section

variable {S : Server Plan} {s s' : State Plan} {call : Call} {phase : Phase}

structure Kept (S : Server Plan) (s : State Plan) : Prop where
  inv : Inv S s
  tidy : Tidy s

theorem Kept.step (h : Kept S s) {event : Event} (hmeets : Meets S s event)
    (hstep : step S s event = some s') : Kept S s' := by
  cases event with
  | prompt request =>
    rw [SharedProcess.step] at hstep
    split at hstep
    · rename_i hnone
      cases hstep
      exact ⟨h.inv.prompt hmeets, h.tidy.prompt (Option.isNone_iff_eq_none.mp hnone) request⟩
    · cases hstep
  | cancel =>
    cases hstep
    exact ⟨h.inv.cancel, h.tidy.cancel⟩
  | handler =>
    obtain ⟨⟨call, phase⟩, hcurrent, hstep⟩ := Option.bind_eq_some_iff.mp hstep
    refine ⟨h.inv.handler hcurrent ?_ hstep, h.tidy.handler h.inv hcurrent hstep⟩
    intro hquerying
    rw [hquerying] at hcurrent
    rcases hmeets call hcurrent with hundisturbed | huntouched
    · exact h.tidy.busy call .querying hcurrent hundisturbed
    · exact huntouched
  | reader i =>
    obtain ⟨r, hr, hstep⟩ := Option.bind_eq_some_iff.mp hstep
    exact ⟨h.inv.reader hr hstep, h.tidy.reader hr hstep⟩

theorem run_cons {event : Event} {events : List Event} (h : run S s (event :: events) = some s') :
    ∃ s₁, step S s event = some s₁ ∧ run S s₁ events = some s' := by
  exact Option.bind_eq_some_iff.mp h

theorem Kept.run (h : Kept S s) {events : List Event} (hmeets : RunMeets S s events)
    (hrun : run S s events = some s') : Kept S s' := by
  induction events generalizing s with
  | nil =>
    cases hrun
    exact h
  | cons event events ih =>
    obtain ⟨s₁, hstep, hrest⟩ := run_cons hrun
    obtain ⟨hfirst, hmeets⟩ := hmeets
    rw [hstep] at hmeets
    exact ih (h.step hfirst hstep) hmeets hrest

theorem kept_opened (S : Server Plan) (updates : List (Update Plan)) :
    Kept S (State.opened updates) := by
  refine ⟨⟨fun outcome houtcome => ?_, fun call phase hcurrent => ?_⟩,
    ⟨fun _ _ => ⟨rfl, rfl, rfl⟩, fun call phase hcurrent => ?_⟩⟩
  · cases houtcome
  · cases hcurrent
  · cases hcurrent

theorem Inv.progress (h : Inv S s) (hcurrent : s.current = some (call, phase)) :
    ∃ event : Event, event.isTask = true ∧ (SharedProcess.step S s event).isSome = true := by
  obtain ⟨-, hphase⟩ := h.current call phase hcurrent
  have hhandler : ∀ s', handlerStep S s call phase = some s' →
      ∃ event : Event, event.isTask = true ∧ (SharedProcess.step S s event).isSome = true := by
    intro s' hstep
    refine ⟨.handler, rfl, ?_⟩
    rw [SharedProcess.step, hcurrent, Option.bind_some]
    dsimp only
    rw [hstep]
    rfl
  cases phase with
  | receiving =>
    rcases hphase.1.tasks with ⟨hnone, -⟩ | ⟨r, hone, hreading⟩
    · cases hchannel : call.channel with
      | cons chunk rest =>
        refine hhandler (s.goTo { call with channel := rest } (.checking chunk)) ?_
        rw [handlerStep, SharedProcess.receiveChunk, hchannel]
      | nil =>
        refine hhandler (s.goTo call .drained) ?_
        rw [handlerStep, SharedProcess.receiveChunk, hchannel, hnone]
        rfl
    · refine ⟨.reader 0, rfl, ?_⟩
      rw [SharedProcess.step, hone]
      change (SharedProcess.runStreamLoopStep S s 0 r).isSome = true
      rw [SharedProcess.runStreamLoopStep]
      cases r.unsent with
      | cons chunk rest =>
        dsimp only
        split
        · rfl
        · rfl
      | nil =>
        cases hended : r.ended with
        | true => rfl
        | false =>
          have hlines := (hreading.running hended).ne_nil
          cases hstdout : s.stdout with
          | nil =>
            rw [hstdout] at hlines
            exact absurd rfl hlines
          | cons line rest => rfl
  | opened => exact hhandler _ rfl
  | prepared => exact hhandler _ rfl
  | querying => exact hhandler _ rfl
  | checking chunk => exact hhandler _ rfl
  | aborting => exact hhandler _ rfl
  | terminating => exact hhandler _ rfl
  | drained => exact hhandler _ rfl
  | returning reason => exact hhandler _ rfl

theorem length_le_work {tasks : List Event} (htasks : ∀ event ∈ tasks, event.isTask = true)
    (hrun : run S s tasks = some s') : tasks.length ≤ s.work := by
  induction tasks generalizing s with
  | nil => exact Nat.zero_le _
  | cons event tasks ih =>
    obtain ⟨s₁, hstep, hrest⟩ := run_cons hrun
    have hfirst := step_work (htasks event List.mem_cons_self) hstep
    have hlength := ih (fun e he => htasks e (List.mem_cons_of_mem _ he)) hrest
    rw [List.length_cons]
    omega

theorem Inv.ownAnswers (h : Inv S s) : OwnAnswers S s :=
  ⟨h.returned, fun _ _ hcurrent => h.ownTurn hcurrent⟩

/-- In a run whose steps all meet the condition every prompt is answered by its own turn. A prompt
in progress can always go on, and it returns after a bounded number of steps. -/
theorem prompts_answered (S : Server Plan) (updates : List (Update Plan)) (events : List Event)
    (hmeets : RunMeets S (State.opened updates) events)
    (hrun : run S (State.opened updates) events = some s) :
    OwnAnswers S s ∧
      (∀ call phase, s.current = some (call, phase) →
        ∃ event : Event, event.isTask = true ∧ (step S s event).isSome = true) ∧
      ∀ tasks s', (∀ event ∈ tasks, event.isTask = true) → run S s tasks = some s' →
        tasks.length ≤ s.work := by
  have hinv := ((kept_opened S updates).run hmeets hrun).inv
  exact ⟨hinv.ownAnswers, fun _ _ hcurrent => hinv.progress hcurrent,
    fun _ _ htasks htail => length_le_work htasks htail⟩

def deltaOf (text : String) : Json :=
  .object [("event", .object [("delta", .object [("text", .string text)]),
    ("type", .string "content_block_delta")]), ("type", .string "stream_event")]

def turnOf (texts : List String) : CliTurn where
  body := texts.map deltaOf
  result := .object [("type", .string "result")]
  body_goes_on := by
    intro line hline
    obtain ⟨text, -, rfl⟩ := List.mem_map.mp hline
    simp [isEndOfStream, deltaOf, strAt, Json.getKey, Json.asStr]
  result_ends := by decide

def helloServer : Server Unit := ⟨helloAgent, fun _ _ => .allowed⟩

def helloRequest (texts : List String) : Request :=
  ⟨["hi"], none, true, false, fun _ => false, turnOf texts⟩

def answeredEvents : List Event :=
  [.prompt (helloRequest ["yes"]), .handler, .handler, .reader 0, .reader 0, .handler, .reader 0,
    .handler, .reader 0, .reader 0, .handler, .handler, .handler, .handler, .handler]

theorem helloRequest_answerable (texts : List String) :
    Answerable helloServer (helloRequest texts) := by
  have htokens : (String.join ["hi"]).utf8ByteSize / 4 ≤ helloAgent.maxTokensPerTurn := by decide
  refine ⟨rfl, Nat.le_of_ble_eq_true rfl, htokens, fun chunk _ => ?_⟩
  cases chunk.toolCall with
  | none => rfl
  | some call => rfl

theorem prompts_answered_hello : ∃ s, run helloServer (State.opened []) answeredEvents = some s ∧
    OwnAnswers helloServer s ∧ s.outcomes.length = 1 := by
  have hlength : (run helloServer (State.opened []) answeredEvents).map
      (fun s => s.outcomes.length) = some 1 := by decide
  obtain ⟨s, hrun, hone⟩ := Option.map_eq_some_iff.mp hlength
  have hmeets : RunMeets helloServer (State.opened []) answeredEvents := by
    have hidle : ∀ (call : Call) (phase : Phase) (s : State Unit), phase ≠ .querying →
        s.current = some (call, phase) → Meets helloServer s .handler := by
      intro call phase s hne hcurrent call' hquery
      rw [hcurrent] at hquery
      cases hquery
      exact absurd rfl hne
    refine ⟨fun _ => ⟨rfl, helloRequest_answerable _⟩, hidle _ _ _ (fun h => by cases h) rfl, ?_⟩
    refine ⟨fun _ _ => .inr ⟨rfl, rfl, rfl⟩, trivial, trivial,
      hidle _ _ _ (fun h => by cases h) rfl, trivial, ?_⟩
    refine ⟨hidle _ _ _ (fun h => by cases h) rfl, trivial, trivial,
      hidle _ _ _ (fun h => by cases h) rfl, hidle _ _ _ (fun h => by cases h) rfl, ?_⟩
    exact ⟨hidle _ _ _ (fun h => by cases h) rfl, hidle _ _ _ (fun h => by cases h) rfl,
      hidle _ _ _ (fun h => by cases h) rfl, trivial⟩
  exact ⟨s, hrun, (prompts_answered helloServer [] answeredEvents hmeets hrun).1, hone⟩

def leftoverEvents : List Event :=
  [.prompt (helloRequest ["yes", "no"]), .handler, .handler, .reader 0, .reader 0, .cancel,
    .handler, .handler, .reader 0, .reader 0, .handler,
    .prompt (helloRequest ["maybe"]), .handler, .handler, .reader 0, .reader 0, .reader 0,
    .handler, .handler, .handler, .handler, .handler]

theorem leftover_line_ends_next_turn :
    ∃ s, run helloServer (State.opened []) leftoverEvents = some s ∧
      ¬ OwnAnswers helloServer s := by
  have houtcomes : (run helloServer (State.opened []) leftoverEvents).map
      (fun s => s.outcomes.map fun o => (o.call.index, o.call.received.map Prod.fst)) =
        some [(0, []), (1, [0])] := by decide
  obtain ⟨s, hrun, hlast⟩ := Option.map_eq_some_iff.mp houtcomes
  refine ⟨s, hrun, fun hown => ?_⟩
  have hmem : (1, [0]) ∈ s.outcomes.map fun o => (o.call.index, o.call.received.map Prod.fst) := by
    rw [hlast]
    decide
  obtain ⟨outcome, houtcome, heq⟩ := List.mem_map.mp hmem
  obtain ⟨hindex, hreceived⟩ := Prod.mk.inj heq
  have hzero : 0 ∈ outcome.call.received.map Prod.fst := by
    rw [hreceived]
    exact List.mem_singleton_self 0
  obtain ⟨chunk, hchunk, htag⟩ := List.mem_map.mp hzero
  have hsame := (hown.returned outcome houtcome).1 chunk hchunk
  omega

end

end SwissArmyHammer.ClaudeAgent.SharedProcess
