import SwissArmyHammer.ClaudeAgent.PromptTurn

/-! What a persisted session replays against what its client has seen. -/

namespace SwissArmyHammer.ClaudeAgent.PromptTurn

variable {Plan : Type}

def shown (sent : List (Notification Plan)) : List (Update Plan) :=
  sent.filterMap fun n =>
    match n with
    | .update u => some u
    | .sessionCancelled | .sessionInfo | .turnComplete => none

def pushUpdate : Update Plan → List (Update Plan) → List (Update Plan)
  | .userMessageChunk a, .userMessageChunk b :: rest => .userMessageChunk (a ++ b) :: rest
  | u, rest => u :: rest

def mergeUser (updates : List (Update Plan)) : List (Update Plan) := updates.foldr pushUpdate []

def Replays (s : State Plan) : Prop :=
  s.answered = true → ∃ record, s.record = some record ∧
    (record.length ≤ maxRecordUpdates → ∃ replayed, loadRecord record = some replayed ∧
      mergeUser (shown replayed) = mergeUser (shown s.sent))

def ChunkStep.met (step : ChunkStep) : List Interrupt :=
  if isBare step.chunk then step.before else step.before ++ step.during

def answer (steps : List ChunkStep) : String :=
  String.join (steps.map fun step => step.chunk.content)

def tokensFrom (tokens : Nat) (steps : List ChunkStep) : Nat :=
  steps.foldl (fun n step => saturatingAdd n (estimateChunkTokens step.chunk.content)) tokens

/-- The stream is read to its end: nothing is refused, fails, is cancelled or hits the cap. -/
structure Drains (A : Agent Plan) (t : Turn) : Prop where
  accepted : t.contentRefused = false
  started : t.queryFails = false
  beforeQuery : .cancel ∉ t.beforeQuery
  met : ∀ step ∈ t.steps, .cancel ∉ step.met
  late : .cancel ∉ t.late
  allowed : ∀ step ∈ t.steps, step.chunk.toolCall.isSome → step.policyFails = false
  uncapped : tokensFrom 0 t.steps ≤ effectiveGenerationCap A.maxTokensPerTurn t.requestedMaxTokens
  notRefusal : isResponseRefusal A (answer t.steps) = false

def Limited (A : Agent Plan) (t : Turn) : Prop :=
  A.maxTurnRequests = 0 ∨ A.maxTokensPerTurn < (String.join t.prompt).utf8ByteSize / 4

/-- The prompt is stored as soon as it is sent, and a stream that is drained is a streaming one. A
title task writes what it read only while nothing was stored since. -/
def Meets (A : Agent Plan) (s : State Plan) : Event → Prop
  | .turn t => validPrompt A t.prompt = true →
    s.cancelled = false ∧ (∀ i ∈ t.early, i = .titleReads ∨ i = .titleWrites) ∧
      (t.streaming = true ∨ Limited A t ∨ ¬ Drains A t)
  | .interrupt .titleWrites => ∀ record, s.titleRecord = some record → record = s.context
  | .interrupt _ => True

def RunMeets (A : Agent Plan) (s : State Plan) : List Event → Prop
  | [] => True
  | event :: events => Meets A s event ∧ RunMeets A (step A s event) events

structure Turn.Quiet (t : Turn) : Prop where
  beforeQuery : ∀ i ∈ t.beforeQuery, i = .cancel
  before : ∀ step ∈ t.steps, ∀ i ∈ step.before, i = .cancel
  during : ∀ step ∈ t.steps, ∀ i ∈ step.during, i = .cancel
  late : ∀ i ∈ t.late, i = .cancel

section

variable {a b l l' : List (Update Plan)}

theorem foldr_pushUpdate (u : Update Plan) (l acc : List (Update Plan)) :
    (pushUpdate u l).foldr pushUpdate acc = pushUpdate u (l.foldr pushUpdate acc) := by
  cases u with
  | userMessageChunk text =>
    cases l with
    | nil => rfl
    | cons v rest =>
      cases v with
      | userMessageChunk text' =>
        rw [pushUpdate, List.foldr_cons, List.foldr_cons]
        cases rest.foldr pushUpdate acc with
        | nil => rfl
        | cons w rest' =>
          cases w with
          | userMessageChunk text'' =>
            rw [pushUpdate, pushUpdate, pushUpdate, String.append_assoc]
          | _ => rfl
      | _ => rfl
  | _ => rfl

theorem foldr_mergeUser (l acc : List (Update Plan)) :
    (mergeUser l).foldr pushUpdate acc = l.foldr pushUpdate acc := by
  induction l with
  | nil => rfl
  | cons u l ih =>
    rw [mergeUser, List.foldr_cons, foldr_pushUpdate, List.foldr_cons]
    rw [mergeUser] at ih
    rw [ih]

theorem mergeUser_append (h : mergeUser a = mergeUser b) (hl : mergeUser l = mergeUser l') :
    mergeUser (a ++ l) = mergeUser (b ++ l') := by
  have hright : l.foldr pushUpdate [] = l'.foldr pushUpdate [] := hl
  rw [mergeUser, mergeUser, List.foldr_append, List.foldr_append, ← foldr_mergeUser a,
    ← foldr_mergeUser b, h, hright]

theorem mergeUser_prompt {prompt : List String} (hne : prompt ≠ []) :
    mergeUser (prompt.map fun text => (.userMessageChunk text : Update Plan)) =
      [.userMessageChunk (String.join prompt)] := by
  induction prompt with
  | nil => exact absurd rfl hne
  | cons text prompt ih =>
    rw [List.map_cons, mergeUser, List.foldr_cons, String.join_cons]
    by_cases hnil : prompt = []
    · rw [hnil]
      simp [pushUpdate]
    · have hrest := ih hnil
      rw [mergeUser] at hrest
      rw [hrest, pushUpdate]

@[simp] theorem shown_append (x y : List (Notification Plan)) :
    shown (x ++ y) = shown x ++ shown y :=
  List.filterMap_append

@[simp] theorem shown_updates (l : List (Update Plan)) : shown (l.map .update) = l := by
  induction l with
  | nil => rfl
  | cons u l ih =>
    rw [List.map_cons, shown, List.filterMap_cons]
    rw [shown] at ih
    rw [ih]

end

section

variable {A : Agent Plan} {s s' s'' : State Plan} {u : Update Plan}

def Grows (s s' : State Plan) : Prop :=
  ∃ l, s'.context = s.context ++ l ∧ shown s'.sent = shown s.sent ++ l

theorem Grows.refl (s : State Plan) : Grows s s :=
  ⟨[], (List.append_nil _).symm, (List.append_nil _).symm⟩

theorem Grows.trans (h : Grows s s') (h' : Grows s' s'') : Grows s s'' := by
  obtain ⟨l, hcontext, hsent⟩ := h
  obtain ⟨l', hcontext', hsent'⟩ := h'
  refine ⟨l ++ l', ?_, ?_⟩
  · rw [hcontext', hcontext, List.append_assoc]
  · rw [hsent', hsent, List.append_assoc]

theorem Grows.congr (h : Grows s s') (hcontext : s''.context = s'.context)
    (hsent : s''.sent = s'.sent) : Grows s s'' := by
  obtain ⟨l, hcontext', hsent'⟩ := h
  exact ⟨l, hcontext.trans hcontext', by rw [hsent, hsent']⟩

theorem grows_storeAndSend (s : State Plan) (u : Update Plan) : Grows s (s.storeAndSend u) := by
  refine ⟨[u], rfl, ?_⟩
  rw [State.storeAndSend, shown_append]
  rfl

theorem grows_interrupt (s : State Plan) (i : Interrupt) : Grows s (s.interrupt i) := by
  cases i with
  | cancel =>
    refine ⟨[], (List.append_nil _).symm, ?_⟩
    rw [State.interrupt, shown_append]
    rfl
  | setMode modeId => exact (grows_storeAndSend s (.currentModeUpdate modeId)).congr rfl rfl
  | titleReads => exact (Grows.refl s).congr rfl rfl
  | titleWrites =>
    rw [State.interrupt]
    cases s.titleRecord with
    | none => exact Grows.refl s
    | some record =>
      refine ⟨[], (List.append_nil _).symm, ?_⟩
      rw [shown_append]
      rfl

theorem grows_interrupts (s : State Plan) (is : List Interrupt) : Grows s (s.interrupts is) := by
  induction is generalizing s with
  | nil => exact Grows.refl s
  | cons i is ih => exact (grows_interrupt s i).trans (ih (s.interrupt i))

theorem grows_processSingleChunk (A : Agent Plan) (s : State Plan) (step : ChunkStep) :
    Grows s (processSingleChunk A s step).1 := by
  rw [processSingleChunk]
  cases step.chunk.toolCall with
  | some call =>
    have hcall := (grows_storeAndSend s (.toolCall call (toolKind A call.name))).trans
      (grows_interrupts _ step.during)
    dsimp only
    rw [handleStreamingToolCall]
    split
    · exact hcall
    · split
      · cases A.agentPlan call.parameters with
        | none => exact hcall
        | some plan => exact hcall.trans (grows_storeAndSend _ _)
      · exact hcall
  | none =>
    cases step.chunk.toolResult with
    | some result => exact (grows_storeAndSend s _).trans (grows_interrupts _ step.during)
    | none =>
      dsimp only
      split
      · exact Grows.refl s
      · exact (grows_storeAndSend s _).trans (grows_interrupts _ step.during)

theorem grows_processChunks (A : Agent Plan) (cap : Nat) (s : State Plan) (response : String)
    (tokens : Nat) (steps : List ChunkStep) :
    Grows s (processChunks A cap s response tokens steps).1 := by
  induction steps generalizing s response tokens with
  | nil => exact Grows.refl s
  | cons step rest ih =>
    have hbefore := grows_interrupts s step.before
    have hchunk := hbefore.trans (grows_processSingleChunk A (s.interrupts step.before) step)
    rw [processChunks]
    dsimp only
    split
    · exact hbefore
    · split
      · exact hbefore.trans (ih _ _ _)
      · split
        · exact hchunk
        · split
          · exact hchunk.trans (ih _ _ _)
          · exact hchunk.congr rfl rfl

theorem grows_handleStreamingPrompt (A : Agent Plan) (s : State Plan) (t : Turn) :
    Grows s (handleStreamingPrompt A s t).1 := by
  have hquery : Grows s (({ s with turnRequestCount := s.turnRequestCount + 1 } :
      State Plan).interrupts t.beforeQuery) :=
    ((Grows.refl s).congr rfl rfl).trans (grows_interrupts _ t.beforeQuery)
  rw [handleStreamingPrompt]
  split
  · exact Grows.refl s
  · split
    · exact Grows.refl s
    · split
      · exact hquery
      · have hloop := hquery.trans (grows_processChunks A
          (effectiveGenerationCap A.maxTokensPerTurn t.requestedMaxTokens) _ "" 0 t.steps)
        rw [processStreamChunks]
        split
        · exact hloop.trans (grows_interrupts _ t.late)
        · exact hloop.congr rfl rfl
        · exact hloop
        · exact hloop

end

section

variable {A : Agent Plan} {s s' : State Plan} {step : ChunkStep} {steps : List ChunkStep} {t : Turn}
  {response response' : String} {cap n : Nat}

theorem interrupts_cancelled (s : State Plan) (is : List Interrupt) :
    (s.interrupts is).cancelled = (s.cancelled || decide (.cancel ∈ is)) := by
  induction is generalizing s with
  | nil => simp [State.interrupts]
  | cons i is ih =>
    have hone : (s.interrupt i).cancelled = (s.cancelled || decide (i = .cancel)) := by
      cases i with
      | cancel => simp [State.interrupt]
      | setMode modeId => simp [State.interrupt, State.storeAndSend]
      | titleReads => simp [State.interrupt]
      | titleWrites =>
        rw [State.interrupt]
        cases s.titleRecord with
        | none => simp
        | some record => simp
    have hrest := ih (s.interrupt i)
    rw [hone] at hrest
    change ((s.interrupt i).interrupts is).cancelled = _
    rw [hrest, Bool.or_assoc, ← Bool.decide_or]
    simp only [List.mem_cons, eq_comm]

theorem processSingleChunk_snd (A : Agent Plan) (s : State Plan) (step : ChunkStep) :
    (processSingleChunk A s step).2 = !(step.chunk.toolCall.isSome && step.policyFails) := by
  rw [processSingleChunk]
  cases step.chunk.toolCall with
  | some call =>
    dsimp only
    rw [handleStreamingToolCall]
    cases step.policyFails with
    | true => rfl
    | false =>
      grind
  | none =>
    grind

theorem processSingleChunk_cancelled (A : Agent Plan) (s : State Plan)
    (hbare : isBare step.chunk = false) :
    (processSingleChunk A s step).1.cancelled =
      (s.cancelled || decide (.cancel ∈ step.during)) := by
  have hmet : ∀ u, ((s.storeAndSend u).interrupts step.during).cancelled =
      (s.cancelled || decide (.cancel ∈ step.during)) := fun u => interrupts_cancelled _ _
  rw [processSingleChunk]
  cases hcall : step.chunk.toolCall with
  | some call =>
    dsimp only
    rw [handleStreamingToolCall]
    split
    · exact hmet _
    · split
      · cases A.agentPlan call.parameters with
        | none => exact hmet _
        | some plan => exact hmet _
      · exact hmet _
  | none =>
    cases hresult : step.chunk.toolResult with
    | some result => exact hmet _
    | none =>
      dsimp only
      split
      · rename_i hempty
        rw [isBare, hcall, hresult, hempty] at hbare
        cases hbare
      · exact hmet _

theorem content_of_isBare (h : isBare step.chunk = true) : step.chunk.content = "" := by
  rw [isBare, Bool.and_eq_true, Bool.and_eq_true] at h
  exact of_decide_eq_true h.1.1

theorem toolCall_of_isBare (h : isBare step.chunk = true) : step.chunk.toolCall.isSome = false := by
  rw [isBare, Bool.and_eq_true, Bool.and_eq_true] at h
  rw [Option.isNone_iff_eq_none.mp h.1.2]
  rfl

theorem saturatingAdd_le (a b : Nat) : saturatingAdd a b ≤ 2 ^ 64 - 1 := Nat.min_le_right _ _

theorem tokensFrom_cons (n : Nat) (step : ChunkStep) (rest : List ChunkStep) :
    tokensFrom n (step :: rest) =
      tokensFrom (saturatingAdd n (estimateChunkTokens step.chunk.content)) rest := rfl

theorem tokensFrom_bare (h : isBare step.chunk = true) (hn : n ≤ 2 ^ 64 - 1)
    (rest : List ChunkStep) : tokensFrom n (step :: rest) = tokensFrom n rest := by
  have hzero : estimateChunkTokens step.chunk.content = 0 := by
    rw [content_of_isBare h]
    rfl
  rw [tokensFrom_cons, hzero, saturatingAdd, Nat.add_zero, Nat.min_eq_left hn]

theorem le_tokensFrom (hn : n ≤ 2 ^ 64 - 1) (steps : List ChunkStep) : n ≤ tokensFrom n steps := by
  induction steps generalizing n with
  | nil => exact le_rfl
  | cons step rest ih =>
    have hrest := ih (saturatingAdd_le n (estimateChunkTokens step.chunk.content))
    have hmore : n ≤ saturatingAdd n (estimateChunkTokens step.chunk.content) := by
      rw [saturatingAdd]
      omega
    exact hmore.trans hrest

theorem answer_cons (step : ChunkStep) (rest : List ChunkStep) :
    answer (step :: rest) = step.chunk.content ++ answer rest := by
  rw [answer, List.map_cons, String.join_cons]
  rfl

theorem not_mem_met (hbefore : .cancel ∉ step.before)
    (hduring : isBare step.chunk = false → .cancel ∉ step.during) : .cancel ∉ step.met := by
  rw [ChunkStep.met]
  cases hbare : isBare step.chunk with
  | true => exact hbefore
  | false =>
    rw [if_neg Bool.false_ne_true, List.mem_append, not_or]
    exact ⟨hbefore, hduring hbare⟩

theorem before_of_met (h : .cancel ∉ step.met) : .cancel ∉ step.before := by
  rw [ChunkStep.met] at h
  split at h
  · exact h
  · exact fun hmem => h (List.mem_append_left _ hmem)

theorem during_of_met (h : .cancel ∉ step.met) (hbare : isBare step.chunk = false) :
    .cancel ∉ step.during := by
  rw [ChunkStep.met, hbare] at h
  exact fun hmem => h (List.mem_append_right _ hmem)

theorem processChunks_finished
    (h : (processChunks A cap s response n steps).2 = .finished response')
    (hclear : (processChunks A cap s response n steps).1.cancelled = false)
    (hn : n ≤ 2 ^ 64 - 1) (hcap : n ≤ cap) :
    s.cancelled = false ∧ response' = response ++ answer steps ∧
      (∀ step ∈ steps, .cancel ∉ step.met) ∧
      (∀ step ∈ steps, step.chunk.toolCall.isSome → step.policyFails = false) ∧
      tokensFrom n steps ≤ cap := by
  induction steps generalizing s response n with
  | nil =>
    have hend : response' = response ++ answer [] := by
      rw [answer, List.map_nil, String.join_nil, String.append_empty]
      exact (LoopEnd.finished.inj h).symm
    refine ⟨hclear, hend, ?_, ?_, hcap⟩
    · intro step hmem
      cases hmem
    · intro step hmem
      cases hmem
  | cons step rest ih =>
    rw [processChunks] at h hclear
    dsimp only at h hclear
    have hflag := interrupts_cancelled s step.before
    cases hcancel : (s.interrupts step.before).cancelled with
    | true =>
      rw [hcancel] at h
      cases h
    | false =>
      rw [hcancel] at h hclear
      rw [hcancel, eq_comm, Bool.or_eq_false_iff, decide_eq_false_iff_not] at hflag
      obtain ⟨hs, hbefore⟩ := hflag
      cases hbare : isBare step.chunk with
      | true =>
        rw [hbare] at h hclear
        obtain ⟨-, hanswer, hmet, hallowed, htokens⟩ := ih h hclear hn hcap
        refine ⟨hs, ?_, ?_, ?_, ?_⟩
        · rw [answer_cons, content_of_isBare hbare, String.empty_append, hanswer]
        · intro step' hmem
          rcases List.mem_cons.mp hmem with rfl | hmem
          · refine not_mem_met hbefore fun hnot => ?_
            rw [hbare] at hnot
            cases hnot
          · exact hmet step' hmem
        · intro step' hmem hcall
          rcases List.mem_cons.mp hmem with rfl | hmem
          · rw [toolCall_of_isBare hbare] at hcall
            cases hcall
          · exact hallowed step' hmem hcall
        · rwa [tokensFrom_bare hbare hn]
      | false =>
        rw [hbare] at h hclear
        cases hok : (processSingleChunk A (s.interrupts step.before) step).2 with
        | false =>
          rw [hok] at h
          cases h
        | true =>
          rw [hok] at h hclear
          by_cases htokens : saturatingAdd n (estimateChunkTokens step.chunk.content) ≤ cap
          · rw [if_pos htokens] at h hclear
            obtain ⟨hchunk, hanswer, hmet, hallowed, hrest⟩ :=
              ih h hclear (saturatingAdd_le _ _) htokens
            rw [processSingleChunk_cancelled A _ hbare, Bool.or_eq_false_iff,
              decide_eq_false_iff_not] at hchunk
            rw [processSingleChunk_snd, Bool.not_eq_true'] at hok
            refine ⟨hs, ?_, ?_, ?_, hrest⟩
            · rw [answer_cons, hanswer, String.append_assoc]
            · intro step' hmem
              rcases List.mem_cons.mp hmem with rfl | hmem
              · exact not_mem_met hbefore fun _ => hchunk.2
              · exact hmet step' hmem
            · grind
          · rw [if_neg htokens] at h
            cases h

theorem processChunks_drained (hclear : s.cancelled = false)
    (hmet : ∀ step ∈ steps, .cancel ∉ step.met)
    (hallowed : ∀ step ∈ steps, step.chunk.toolCall.isSome → step.policyFails = false)
    (hn : n ≤ 2 ^ 64 - 1) (hcap : tokensFrom n steps ≤ cap) (response : String) :
    (processChunks A cap s response n steps).2 = .finished (response ++ answer steps) ∧
      (processChunks A cap s response n steps).1.cancelled = false := by
  induction steps generalizing s response n with
  | nil =>
    rw [answer, List.map_nil, String.join_nil, String.append_empty]
    exact ⟨rfl, hclear⟩
  | cons step rest ih =>
    have hhead := hmet step List.mem_cons_self
    have hrest : ∀ step ∈ rest, .cancel ∉ step.met := fun step' hmem =>
      hmet step' (List.mem_cons_of_mem _ hmem)
    have hallowed' : ∀ step ∈ rest, step.chunk.toolCall.isSome → step.policyFails = false :=
      fun step' hmem => hallowed step' (List.mem_cons_of_mem _ hmem)
    have hcancel : (s.interrupts step.before).cancelled = false := by
      rw [interrupts_cancelled, hclear, decide_eq_false (before_of_met hhead)]
      rfl
    rw [processChunks]
    dsimp only
    rw [hcancel]
    cases hbare : isBare step.chunk with
    | true =>
      rw [tokensFrom_bare hbare hn] at hcap
      rw [answer_cons, content_of_isBare hbare, String.empty_append]
      exact ih hcancel hrest hallowed' hn hcap response
    | false =>
      have hok : (processSingleChunk A (s.interrupts step.before) step).2 = true := by
        rw [processSingleChunk_snd]
        cases hcall : step.chunk.toolCall.isSome with
        | false => rfl
        | true =>
          rw [hallowed step List.mem_cons_self hcall]
          rfl
      have hchunk : (processSingleChunk A (s.interrupts step.before) step).1.cancelled = false := by
        rw [processSingleChunk_cancelled A _ hbare, hcancel,
          decide_eq_false (during_of_met hhead hbare)]
        rfl
      have hle := (le_tokensFrom (saturatingAdd_le n (estimateChunkTokens step.chunk.content))
        rest).trans hcap
      rw [hok, if_neg (Ne.symm Bool.false_ne_true), if_pos hle,
        answer_cons, ← String.append_assoc]
      exact ih hchunk hrest hallowed' (saturatingAdd_le _ _) hcap _

theorem drains_of_stored (haccepted : t.contentRefused = false) (hstarted : t.queryFails = false)
    (hcancel : (s.interrupts t.beforeQuery).cancelled = false)
    (hend : (processChunks A (effectiveGenerationCap A.maxTokensPerTurn t.requestedMaxTokens)
      (s.interrupts t.beforeQuery) "" 0 t.steps).2 = .finished response)
    (hrefusal : isResponseRefusal A response = false)
    (hclear : ((processChunks A (effectiveGenerationCap A.maxTokensPerTurn t.requestedMaxTokens)
      (s.interrupts t.beforeQuery) "" 0 t.steps).1.interrupts t.late).cancelled = false) :
    Drains A t := by
  rw [interrupts_cancelled, Bool.or_eq_false_iff, decide_eq_false_iff_not] at hclear hcancel
  obtain ⟨-, hanswer, hmet, hallowed, htokens⟩ :=
    processChunks_finished hend hclear.1 (Nat.zero_le _) (Nat.zero_le _)
  rw [String.empty_append] at hanswer
  exact ⟨haccepted, hstarted, hcancel.2, hmet, hclear.2, hallowed, htokens, hanswer ▸ hrefusal⟩

theorem grows_handleNonStreamingPrompt (A : Agent Plan) (s : State Plan) (h : ¬ Drains A t) :
    Grows s (handleNonStreamingPrompt A s t).1 := by
  have hquery := grows_interrupts s t.beforeQuery
  have hloop := hquery.trans (grows_processChunks A
    (effectiveGenerationCap A.maxTokensPerTurn t.requestedMaxTokens) _ "" 0 t.steps)
  rw [handleNonStreamingPrompt]
  cases haccepted : t.contentRefused with
  | true => exact Grows.refl s
  | false =>
    dsimp only
    rw [if_neg Bool.false_ne_true]
    cases hcancel : (s.interrupts t.beforeQuery).cancelled with
    | true => exact hquery
    | false =>
      cases hstarted : t.queryFails with
      | true => exact hquery
      | false =>
        rw [if_neg Bool.false_ne_true, if_neg Bool.false_ne_true]
        cases hend : (processChunks A
            (effectiveGenerationCap A.maxTokensPerTurn t.requestedMaxTokens)
            (s.interrupts t.beforeQuery) "" 0 t.steps).2 with
        | cancelled => exact hloop
        | capped => exact hloop
        | failed => exact hloop
        | finished response =>
          dsimp only
          cases hrefusal : isResponseRefusal A response with
          | true => exact hloop
          | false =>
            rw [if_neg Bool.false_ne_true]
            have hlate := hloop.trans (grows_interrupts _ t.late)
            split
            · exact hlate
            · rename_i hclear
              rw [Bool.not_eq_true] at hclear
              exact absurd (drains_of_stored haccepted hstarted hcancel hend hrefusal hclear) h

end

section

variable {A : Agent Plan} {s s' : State Plan} {t : Turn} {is : List Interrupt}

theorem interrupts_quiet (h : ∀ i ∈ is, i = .cancel) (s : State Plan) :
    (s.interrupts is).context = s.context := by
  induction is generalizing s with
  | nil => rfl
  | cons i is ih =>
    have hrest := ih (fun j hj => h j (List.mem_cons_of_mem _ hj)) (s.interrupt i)
    rw [h i List.mem_cons_self] at hrest
    rw [h i List.mem_cons_self]
    exact hrest

def SameSession (s s' : State Plan) : Prop := s.context = s'.context ∧ s.cancelled = s'.cancelled

theorem SameSession.interrupts (h : SameSession s s') (hquiet : ∀ i ∈ is, i = .cancel) :
    SameSession (s.interrupts is) (s'.interrupts is) := by
  constructor
  · rw [interrupts_quiet hquiet, interrupts_quiet hquiet, h.1]
  · rw [interrupts_cancelled, interrupts_cancelled, h.2]

theorem SameSession.storeAndSend (h : SameSession s s') (u : Update Plan) :
    SameSession (s.storeAndSend u) (s'.storeAndSend u) :=
  ⟨congrArg (· ++ [u]) h.1, h.2⟩

theorem SameSession.processSingleChunk (h : SameSession s s') {step : ChunkStep}
    (hquiet : ∀ i ∈ step.during, i = .cancel) :
    SameSession (processSingleChunk A s step).1 (processSingleChunk A s' step).1 := by
  have hmet : ∀ u, SameSession ((s.storeAndSend u).interrupts step.during)
      ((s'.storeAndSend u).interrupts step.during) := fun u => (h.storeAndSend u).interrupts hquiet
  rw [PromptTurn.processSingleChunk, PromptTurn.processSingleChunk]
  cases step.chunk.toolCall with
  | some call =>
    dsimp only
    rw [handleStreamingToolCall, handleStreamingToolCall]
    split
    · exact hmet _
    · split
      · cases A.agentPlan call.parameters with
        | none => exact hmet _
        | some plan => exact (hmet _).storeAndSend _
      · exact hmet _
  | none =>
    cases step.chunk.toolResult with
    | some result => exact hmet _
    | none =>
      dsimp only
      split
      · exact h
      · exact hmet _

theorem SameSession.processChunks (h : SameSession s s') {cap n : Nat} {response : String}
    {steps : List ChunkStep} (hbefore : ∀ step ∈ steps, ∀ i ∈ step.before, i = .cancel)
    (hduring : ∀ step ∈ steps, ∀ i ∈ step.during, i = .cancel) :
    SameSession (processChunks A cap s response n steps).1
        (processChunks A cap s' response n steps).1 ∧
      (processChunks A cap s response n steps).2 = (processChunks A cap s' response n steps).2 := by
  induction steps generalizing s s' response n with
  | nil => exact ⟨h, rfl⟩
  | cons step rest ih =>
    have hhead := h.interrupts (hbefore step List.mem_cons_self)
    have hchunk := hhead.processSingleChunk (A := A) (hduring step List.mem_cons_self)
    have hbefore' : ∀ step ∈ rest, ∀ i ∈ step.before, i = .cancel := fun step' hmem =>
      hbefore step' (List.mem_cons_of_mem _ hmem)
    have hduring' : ∀ step ∈ rest, ∀ i ∈ step.during, i = .cancel := fun step' hmem =>
      hduring step' (List.mem_cons_of_mem _ hmem)
    rw [PromptTurn.processChunks, PromptTurn.processChunks]
    dsimp only
    rw [hhead.2, processSingleChunk_snd, processSingleChunk_snd]
    split
    · exact ⟨hhead, rfl⟩
    · split
      · exact ih hhead hbefore' hduring'
      · split
        · exact ⟨hchunk, rfl⟩
        · split
          · exact ih hchunk hbefore' hduring'
          · exact ⟨⟨hchunk.1, rfl⟩, rfl⟩

theorem processChunks_cancelled (hcancel : s.cancelled = true) {cap n : Nat} {response : String}
    {steps : List ChunkStep} (hbefore : ∀ step ∈ steps, ∀ i ∈ step.before, i = .cancel) :
    (processChunks A cap s response n steps).1.context = s.context := by
  cases steps with
  | nil => rfl
  | cons step rest =>
    rw [processChunks]
    rw [interrupts_cancelled, hcancel, Bool.true_or]
    exact interrupts_quiet (hbefore step List.mem_cons_self) s

theorem context_processStreamChunks {cap : Nat} (hlate : ∀ i ∈ t.late, i = .cancel) :
    (processStreamChunks A cap s t).1.context = (processChunks A cap s "" 0 t.steps).1.context := by
  rw [processStreamChunks]
  split
  · exact interrupts_quiet hlate _
  · rfl
  · rfl
  · rfl

theorem context_of_drains (hquiet : t.Quiet) (hclear : s.cancelled = false)
    (hlimit : s.turnRequestCount < A.maxTurnRequests) (h : Drains A t) :
    (handleStreamingPrompt A s t).1.context ++ [.agentMessageChunk (answer t.steps)] =
      (handleNonStreamingPrompt A s t).1.context := by
  have hstart : SameSession
      ({ s with turnRequestCount := s.turnRequestCount + 1 } : State Plan) s := ⟨rfl, rfl⟩
  have hquery := hstart.interrupts hquiet.beforeQuery
  have hcancel : (s.interrupts t.beforeQuery).cancelled = false := by
    rw [interrupts_cancelled, hclear, decide_eq_false h.beforeQuery]
    rfl
  obtain ⟨hend, hdrained⟩ := processChunks_drained (A := A) hcancel h.met h.allowed
    (Nat.zero_le _) h.uncapped ""
  have hlate : ((processChunks A
      (effectiveGenerationCap A.maxTokensPerTurn t.requestedMaxTokens)
      (s.interrupts t.beforeQuery) "" 0 t.steps).1.interrupts t.late).cancelled = false := by
    rw [interrupts_cancelled, hdrained, decide_eq_false h.late]
    rfl
  rw [String.empty_append] at hend
  rw [handleStreamingPrompt, handleNonStreamingPrompt, h.accepted, if_neg Bool.false_ne_true,
    if_neg Bool.false_ne_true, if_neg (by omega)]
  dsimp only
  rw [hcancel, h.started, if_neg Bool.false_ne_true, if_neg Bool.false_ne_true,
    if_neg Bool.false_ne_true, context_processStreamChunks hquiet.late,
    (hquery.processChunks (A := A) hquiet.before hquiet.during).1.1, hend]
  dsimp only
  rw [h.notRefusal, if_neg Bool.false_ne_true, hlate, if_neg Bool.false_ne_true]
  rw [interrupts_quiet hquiet.late]

theorem context_of_not_drains (hquiet : t.Quiet) (hlimit : s.turnRequestCount < A.maxTurnRequests)
    (h : ¬ Drains A t) :
    (handleStreamingPrompt A s t).1.context = (handleNonStreamingPrompt A s t).1.context := by
  have hstart : SameSession
      ({ s with turnRequestCount := s.turnRequestCount + 1 } : State Plan) s := ⟨rfl, rfl⟩
  have hquery := hstart.interrupts hquiet.beforeQuery
  rw [handleStreamingPrompt, handleNonStreamingPrompt]
  cases haccepted : t.contentRefused with
  | true => rfl
  | false =>
    rw [if_neg Bool.false_ne_true, if_neg Bool.false_ne_true, if_neg (by omega)]
    dsimp only
    cases hcancel : (s.interrupts t.beforeQuery).cancelled with
    | true =>
      have hflag := hquery.2.trans hcancel
      split
      · exact hquery.1
      · rw [context_processStreamChunks hquiet.late, processChunks_cancelled hflag hquiet.before]
        exact hquery.1
    | false =>
      rw [if_neg Bool.false_ne_true]
      cases hstarted : t.queryFails with
      | true => exact hquery.1
      | false =>
        rw [if_neg Bool.false_ne_true, if_neg Bool.false_ne_true,
          context_processStreamChunks hquiet.late,
          (hquery.processChunks (A := A) hquiet.before hquiet.during).1.1]
        cases hend : (processChunks A
            (effectiveGenerationCap A.maxTokensPerTurn t.requestedMaxTokens)
            (s.interrupts t.beforeQuery) "" 0 t.steps).2 with
        | cancelled => rfl
        | capped => rfl
        | failed => rfl
        | finished response =>
          dsimp only
          cases hrefusal : isResponseRefusal A response with
          | true => rfl
          | false =>
            rw [if_neg Bool.false_ne_true]
            split
            · exact (interrupts_quiet hquiet.late _).symm
            · rename_i hlate
              rw [Bool.not_eq_true] at hlate
              exact absurd (drains_of_stored haccepted hstarted hcancel hend hrefusal hlate) h

theorem handlers_same_iff (hquiet : t.Quiet) (hclear : s.cancelled = false)
    (hlimit : s.turnRequestCount < A.maxTurnRequests) :
    (handleStreamingPrompt A s t).1.context = (handleNonStreamingPrompt A s t).1.context ↔
      ¬ Drains A t := by
  constructor
  · intro hsame hdrains
    have hlength := congrArg List.length (context_of_drains hquiet hclear hlimit hdrains)
    rw [hsame, List.length_append, List.length_singleton] at hlength
    omega
  · exact context_of_not_drains hquiet hlimit

end

section

variable {A : Agent Plan} {s s' : State Plan} {t : Turn} {is : List Interrupt}

structure Agrees (s : State Plan) : Prop where
  sent : mergeUser s.context = mergeUser (shown s.sent)
  record : s.answered = true → s.record = some s.context

theorem mergeUser_of_grows (h : Grows s s')
    (hs : mergeUser s.context = mergeUser (shown s.sent)) :
    mergeUser s'.context = mergeUser (shown s'.sent) := by
  obtain ⟨l, hcontext, hsent⟩ := h
  rw [hcontext, hsent]
  exact mergeUser_append hs rfl

theorem interrupts_title (h : ∀ i ∈ is, i = .titleReads ∨ i = .titleWrites) (s : State Plan) :
    (s.interrupts is).context = s.context ∧ shown (s.interrupts is).sent = shown s.sent ∧
      (s.interrupts is).cancelled = s.cancelled := by
  induction is generalizing s with
  | nil => exact ⟨rfl, rfl, rfl⟩
  | cons i is ih =>
    obtain ⟨hcontext, hsent, hcancel⟩ :=
      ih (fun j hj => h j (List.mem_cons_of_mem _ hj)) (s.interrupt i)
    have hone : (s.interrupt i).context = s.context ∧
        shown (s.interrupt i).sent = shown s.sent ∧ (s.interrupt i).cancelled = s.cancelled := by
      rcases h i List.mem_cons_self with rfl | rfl
      · exact ⟨rfl, rfl, rfl⟩
      · rw [State.interrupt]
        cases s.titleRecord with
        | none => exact ⟨rfl, rfl, rfl⟩
        | some record =>
          refine ⟨rfl, ?_, rfl⟩
          rw [shown_append]
          exact List.append_nil _
    exact ⟨hcontext.trans hone.1, hsent.trans hone.2.1, hcancel.trans hone.2.2⟩

theorem checkTurnLimits_kept (A : Agent Plan) (s : State Plan) (text : String) :
    (checkTurnLimits A s text).1.context = s.context ∧
      (checkTurnLimits A s text).1.sent = s.sent := by
  rw [checkTurnLimits]
  split
  · exact ⟨rfl, rfl⟩
  · split
    · exact ⟨rfl, rfl⟩
    · exact ⟨rfl, rfl⟩

theorem checkTurnLimits_of_limited (h : Limited A t) (s : State Plan) :
    (checkTurnLimits A (prepareSessionForTurn s (String.join t.prompt))
      (String.join t.prompt)).2 ≠ none := by
  rw [checkTurnLimits]
  rcases h with hzero | htokens
  · rw [if_pos (by omega)]
    exact Option.some_ne_none _
  · grind

theorem prompt_ne_nil (h : validPrompt A t.prompt = true) : t.prompt ≠ [] := by
  intro hnil
  rw [hnil] at h
  cases h

theorem grows_handlePrompt (A : Agent Plan) (s : State Plan)
    (h : t.streaming = true ∨ ¬ Drains A t) : Grows s (handlePrompt A s t).1 := by
  rw [handlePrompt]
  split
  · exact grows_handleStreamingPrompt A s t
  · rename_i hstreaming
    exact grows_handleNonStreamingPrompt A s (h.resolve_left hstreaming)

theorem shown_prompt (prompt : List String) :
    shown (prompt.map fun text => (.update (.userMessageChunk text) : Notification Plan)) =
      prompt.map .userMessageChunk := by
  have hmap := shown_updates (prompt.map fun text => (.userMessageChunk text : Update Plan))
  rw [List.map_map] at hmap
  exact hmap

theorem runPromptTurn_agrees (hs : mergeUser s.context = mergeUser (shown s.sent))
    (hmeets : Meets A s (.turn t)) :
    mergeUser (runPromptTurn A s t).1.context = mergeUser (shown (runPromptTurn A s t).1.sent) ∧
      ((runPromptTurn A s t).2.isSome = true →
        (runPromptTurn A s t).1.record = some (runPromptTurn A s t).1.context) := by
  rw [runPromptTurn]
  cases hvalid : validPrompt A t.prompt with
  | false => exact ⟨hs, fun h => by cases h⟩
  | true =>
    obtain ⟨hclear, hearly, hhandler⟩ := hmeets hvalid
    obtain ⟨hcontext, hsent, hcancel⟩ :=
      interrupts_title hearly (sendUserMessageChunks s t.prompt)
    have hopened : (sendUserMessageChunks s t.prompt).cancelled = false := hclear
    rw [hopened] at hcancel
    dsimp only
    generalize (sendUserMessageChunks s t.prompt).interrupts t.early = opened
      at hcontext hsent hcancel ⊢
    rw [hcancel]
    obtain ⟨hkept, hkeptSent⟩ := checkTurnLimits_kept A
      (prepareSessionForTurn opened (String.join t.prompt)) (String.join t.prompt)
    have hlimited := fun h : Limited A t => checkTurnLimits_of_limited h opened
    generalize checkTurnLimits A (prepareSessionForTurn opened (String.join t.prompt))
      (String.join t.prompt) = limits at hkept hkeptSent hlimited ⊢
    have hstored : mergeUser limits.1.context = mergeUser (shown limits.1.sent) := by
      rw [hkept, hkeptSent, prepareSessionForTurn, hcontext, hsent, sendUserMessageChunks,
        shown_append, shown_prompt]
      exact mergeUser_append hs (mergeUser_prompt (prompt_ne_nil hvalid)).symm
    cases hlimits : limits.2 with
    | some reason => exact ⟨hstored, fun _ => rfl⟩
    | none =>
      have hgrows := grows_handlePrompt A limits.1 (hhandler.imp_right fun h =>
        h.resolve_left fun hlim => hlimited hlim hlimits)
      cases (handlePrompt A limits.1 t).2 with
      | none => exact ⟨mergeUser_of_grows hgrows hstored, fun h => by cases h⟩
      | some reason =>
        have hclosing := hgrows.trans (grows_interrupts (handlePrompt A limits.1 t).1 t.closing)
        exact ⟨mergeUser_of_grows hclosing hstored, fun _ => rfl⟩

theorem Agrees.step (h : Agrees s) {event : Event} (hmeets : Meets A s event) :
    Agrees (step A s event) := by
  cases event with
  | turn t =>
    obtain ⟨hsent, hrecord⟩ := runPromptTurn_agrees h.sent hmeets
    refine ⟨?_, hrecord⟩
    change mergeUser (runPromptTurn A s t).1.context =
      mergeUser (shown ((runPromptTurn A s t).1.sent ++ [.turnComplete]))
    rw [shown_append, hsent]
    exact congrArg mergeUser (List.append_nil _).symm
  | interrupt i =>
    have hsent := mergeUser_of_grows (grows_interrupt s i) h.sent
    refine ⟨hsent, ?_⟩
    cases i with
    | cancel => exact h.record
    | setMode modeId =>
      intro hanswered
      cases hanswered
    | titleReads => exact h.record
    | titleWrites =>
      change (s.interrupt .titleWrites).answered = true →
        (s.interrupt .titleWrites).record = some (s.interrupt .titleWrites).context
      rw [State.interrupt]
      cases htitle : s.titleRecord with
      | none => exact h.record
      | some record => exact fun _ => congrArg some (hmeets record htitle)

theorem Agrees.run {events : List Event} (h : Agrees s) (hmeets : RunMeets A s events) :
    Agrees (run A s events) := by
  induction events generalizing s with
  | nil => exact h
  | cons event events ih => exact ih (h.step hmeets.1) hmeets.2

theorem Agrees.replays (h : Agrees s) : Replays s := by
  intro hanswered
  refine ⟨s.context, h.record hanswered, fun hlength => ⟨s.context.map .update, ?_, ?_⟩⟩
  · rw [loadRecord, if_neg (by omega)]
    rfl
  · rw [shown_updates, h.sent]

theorem agrees_opened (updates : List (Update Plan)) : Agrees (State.opened updates) := by
  refine ⟨?_, fun h => by cases h⟩
  rw [State.opened, shown_updates]

/-- A run whose steps all meet the condition replays what the client has seen after every turn that
returns. The two handlers store the same for the same chunks unless the stream is drained. -/
theorem record_replays (A : Agent Plan) :
    (∀ updates events, RunMeets A (State.opened updates) events →
      Replays (run A (State.opened updates) events)) ∧
    ∀ (s : State Plan) (t : Turn), t.Quiet → s.cancelled = false →
      s.turnRequestCount < A.maxTurnRequests →
        ((handleStreamingPrompt A s t).1.context = (handleNonStreamingPrompt A s t).1.context ↔
          ¬ Drains A t) :=
  ⟨fun updates _ hmeets => ((agrees_opened updates).run hmeets).replays,
    fun _ _ hquiet hclear hlimit => handlers_same_iff hquiet hclear hlimit⟩

def helloAgent : Agent Unit := ⟨50, 100000, 100000, List.map Char.toLower, fun _ => none⟩

def helloTurn (streaming : Bool) : Turn :=
  ⟨["hi"], none, streaming, false, false, [], [], [⟨[], MessageChunk.ofText "yes", [], false⟩], [],
    []⟩

theorem helloTurn_quiet (streaming : Bool) : (helloTurn streaming).Quiet :=
  ⟨by simp [helloTurn], by simp [helloTurn], by simp [helloTurn], by simp [helloTurn]⟩

theorem record_replays_hello :
    Replays (run helloAgent (State.opened []) [.turn (helloTurn true)]) ∧
      ((handleStreamingPrompt helloAgent (State.opened []) (helloTurn true)).1.context =
          (handleNonStreamingPrompt helloAgent (State.opened []) (helloTurn true)).1.context ↔
        ¬ Drains helloAgent (helloTurn true)) := by
  have hmeets : RunMeets helloAgent (State.opened []) [.turn (helloTurn true)] := by
    refine ⟨fun _ => ⟨rfl, ?_, Or.inl rfl⟩, trivial⟩
    intro i hi
    cases hi
  exact ⟨(record_replays helloAgent).1 [] _ hmeets,
    (record_replays helloAgent).2 _ _ (helloTurn_quiet true) rfl (by decide)⟩

theorem answer_replayed_twice :
    ¬ Replays (run helloAgent (State.opened []) [.turn (helloTurn false)]) ∧
      (handleStreamingPrompt helloAgent (State.opened []) (helloTurn true)).1.context ≠
        (handleNonStreamingPrompt helloAgent (State.opened []) (helloTurn false)).1.context := by
  have hrecord : (run helloAgent (State.opened []) [.turn (helloTurn false)]).record =
      some [.userMessageChunk "hi", .agentMessageChunk "yes", .agentMessageChunk "yes"] := rfl
  have hsent : shown (run helloAgent (State.opened []) [.turn (helloTurn false)]).sent =
      [.userMessageChunk "hi", .agentMessageChunk "yes"] := rfl
  constructor
  · intro hreplays
    obtain ⟨record, hpersisted, hloads⟩ := hreplays rfl
    rw [hrecord] at hpersisted
    cases hpersisted
    obtain ⟨replayed, hload, hsame⟩ := hloads (by decide)
    cases hload
    rw [hsent] at hsame
    exact absurd (congrArg List.length hsame) (by decide)
  · intro hsame
    exact absurd (congrArg List.length hsame) (by decide)

end

end SwissArmyHammer.ClaudeAgent.PromptTurn
