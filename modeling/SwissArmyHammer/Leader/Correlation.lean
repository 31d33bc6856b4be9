import Mathlib.Data.List.Perm.Subperm
import SwissArmyHammer.Leader.RequestIpc

/-! What holds of a client and its server in every run in which no id comes up again too early. -/

namespace SwissArmyHammer.Leader.Ipc

section

variable {V : Type}

namespace Connection

def asked (s : Connection V) (k : Nat) : Option (RequestEnvelope V) :=
  (s.calls[k]?).map Call.request

def Answers (s : Connection V) (k : Nat) (r : ResponseEnvelope V) : Prop :=
  ∃ request outcome, s.asked k = some request ∧ r = .ofOutcome request.id outcome ∧
    ⟨k, request.method, request.params, outcome⟩ ∈ s.handled

def sent (s : Connection V) : List Nat :=
  wholes s.requests ++ (s.handlers.map Handling.origin ++ s.handled.map Handled.origin)

def answered (s : Connection V) : List Nat :=
  s.answers.map Answer.origin ++ (wholes s.responses ++ s.delivered.map Prod.fst)

end Connection

def Phase.isWritten : Phase V → Bool
  | .started | .registered => false
  | _ => true

def Waits (s : Connection V) (id k : Nat) : Prop :=
  ∃ call, s.calls[k]? = some call ∧ call.request.id = id ∧ call.slot = .empty ∧
    call.phase.isReturned = false

def Sincere (s : Connection V) (k : Nat) (request : RequestEnvelope V) (result : CallResult V) :
    Prop :=
  result = .connectionClosed ∨ result = .failed ∨ ∃ outcome, result = .ofOutcome outcome ∧
    ⟨k, request.method, request.params, outcome⟩ ∈ s.handled

section

variable {s : Connection V} {k : Nat} {call : Call V} {calls : List (Call V)}

theorem closeAll_getElem? (entries : List (Nat × Nat)) (calls : List (Call V)) (i : Nat) :
    (Connection.closeAll entries calls)[i]? =
      (calls[i]?).map fun call => if i ∈ entries.map Prod.snd then call.close else call := by
  rw [Connection.closeAll, List.getElem?_mapIdx]

theorem Waits.of_get {id j : Nat} (h : Waits s id j) (hget : calls[j]? = s.calls[j]?) :
    Waits { s with calls := calls } id j := by
  obtain ⟨call, hcall, hwaits⟩ := h
  exact ⟨call, hget.trans hcall, hwaits⟩

theorem Waits.id_eq {id : Nat} (h : Waits s id k) (hcall : s.calls[k]? = some call) :
    call.request.id = id := by
  obtain ⟨call', hcall', hid, -⟩ := h
  rw [hcall, Option.some.injEq] at hcall'
  rw [hcall', hid]

theorem waits_setPhase {id j : Nat} {phase : Phase V} (h : Waits s id j)
    (hcall : s.calls[k]? = some call) (hphase : phase.isReturned = false) :
    Waits { s with calls := s.calls.set k { call with phase := phase } } id j := by
  by_cases hj : k = j
  · subst hj
    obtain ⟨call', hcall', hid, hslot, -⟩ := h
    rw [hcall, Option.some.injEq] at hcall'
    subst hcall'
    have hlt := (List.getElem?_eq_some_iff.mp hcall).1
    exact ⟨_, List.getElem?_set_self hlt, hid, hslot, hphase⟩
  · exact h.of_get (List.getElem?_set_ne hj)

theorem modify_eq_set {f : Call V → Call V} (hcall : calls[k]? = some call) :
    calls.modify k f = calls.set k (f call) := by
  have hlt := (List.getElem?_eq_some_iff.mp hcall).1
  apply List.ext_getElem?
  intro i
  rw [List.getElem?_modify]
  by_cases hi : k = i
  · subst hi
    rw [List.getElem?_set_self hlt, hcall]
    simp
  · simp [hi]

end

section

variable {s : Connection V} {k : Nat} {call : Call V} {method : String} {params : V}

theorem sublist_without {α : Type} {l pre post : List α} {a : α} (h : l = pre ++ a :: post) :
    (pre ++ post).Sublist l := by
  rw [h]
  exact (List.Sublist.refl pre).append (List.sublist_cons_self _ _)

theorem live_abort {pre post : List (Handling V)} {handling : Handling V}
    (hhandlers : s.handlers = pre ++ handling :: post)
    (h : Live { s with handlers := pre ++ post } k) : Live s k := by
  rcases h with hopen | hrequest | hhandler | hrest
  · exact .inl hopen
  · exact .inr (.inl hrequest)
  · exact .inr (.inr (.inl (((sublist_without hhandlers).map _).subset hhandler)))
  · exact .inr (.inr (.inr hrest))

theorem answers_handled {r : ResponseEnvelope V} (h : s.Answers k r) (handled : Handled V) :
    Connection.Answers { s with handled := handled :: s.handled } k r := by
  obtain ⟨request, outcome, hasked, hr, hhandled⟩ := h
  exact ⟨request, outcome, hasked, hr, List.mem_cons_of_mem _ hhandled⟩

theorem get_start (hcall : s.calls[k]? = some call) :
    (s.start method params).calls[k]? = some call := by
  rw [Connection.start, List.getElem?_append_left (List.getElem?_eq_some_iff.mp hcall).1, hcall]

theorem of_get_start (hcall : (s.start method params).calls[k]? = some call) :
    s.calls[k]? = some call ∨
      k = s.calls.length ∧ call = ⟨⟨s.nextId, method, params⟩, .started, .empty⟩ := by
  rw [Connection.start] at hcall
  rcases Nat.lt_or_ge k s.calls.length with hlt | hge
  · rw [List.getElem?_append_left hlt] at hcall
    exact .inl hcall
  · grind

theorem asked_start {request : RequestEnvelope V} (hasked : s.asked k = some request) :
    (s.start method params).asked k = some request := by
  obtain ⟨call, hcall, rfl⟩ := Option.map_eq_some_iff.mp hasked
  rw [Connection.asked, get_start hcall, Option.map_some]

theorem answers_start {r : ResponseEnvelope V} (h : s.Answers k r) :
    (s.start method params).Answers k r := by
  obtain ⟨request, outcome, hasked, hr, hhandled⟩ := h
  exact ⟨request, outcome, asked_start hasked, hr, hhandled⟩

theorem live_start (hfree : IdFree s) {request : RequestEnvelope V}
    (hlive : Live (s.start method params) k)
    (hasked : (s.start method params).asked k = some request) :
    Live s k ∧ s.asked k = some request ∧ request.id ≠ s.nextId ∨
      k = s.calls.length ∧ request.id = s.nextId := by
  obtain ⟨call, hcall, rfl⟩ := Option.map_eq_some_iff.mp hasked
  rcases of_get_start hcall with hold | ⟨hk, rfl⟩
  · have hlive' : Live s k := by
      rcases hlive with ⟨call', hcall', hreturned⟩ | hrest
      · rw [hcall, Option.some.injEq] at hcall'
        exact .inl ⟨call, hold, hcall' ▸ hreturned⟩
      · exact .inr hrest
    exact .inl ⟨hlive', by rw [Connection.asked, hold, Option.map_some], hfree k call hlive' hold⟩
  · exact .inr ⟨hk, rfl⟩

end

variable [DecidableEq V] (J : Codecs V) (null : V)

structure Becomes (s : Connection V) (k : Nat) (call call' : Call V) : Prop where
  request : call'.request = call.request
  alive : call'.phase.isReturned = false → call.phase.isReturned = false
  slot : ∀ response, call'.slot = .filled response → call.slot = .filled response ∨
    ∃ r, s.Answers k r ∧ response = r.fields.envelope null
  result : ∀ result, call'.phase = .returned result → call.phase = .returned result ∨
    Sincere s k call.request result
  written : call.phase.isWritten = true → call'.phase.isWritten = true

def Becoming (s : Connection V) (calls : List (Call V)) : Prop :=
  calls.length = s.calls.length ∧ ∀ (k : Nat) (call call' : Call V), s.calls[k]? = some call →
    calls[k]? = some call' → Becomes null s k call call'

variable {null} {s : Connection V} {k : Nat} {call call' : Call V} {calls : List (Call V)}

theorem Becomes.refl (s : Connection V) (k : Nat) (call : Call V) : Becomes null s k call call :=
  ⟨rfl, id, fun _ h => .inl h, fun _ h => .inl h, id⟩

theorem Becomes.close (s : Connection V) (k : Nat) (call : Call V) :
    Becomes null s k call call.close := by
  refine ⟨rfl, id, fun response h => ?_, fun _ h => .inl h, id⟩
  cases hslot : call.slot with
  | empty =>
    rw [Call.close, hslot] at h
    cases h
  | filled r =>
    rw [Call.close, hslot] at h
    exact .inl h
  | closed =>
    rw [Call.close, hslot] at h
    cases h

theorem becoming_closeAll (s : Connection V) (entries : List (Nat × Nat)) :
    Becoming null s (Connection.closeAll entries s.calls) := by
  refine ⟨List.length_mapIdx, fun i call call' hcall hcall' => ?_⟩
  rw [closeAll_getElem?, hcall, Option.map_some, Option.some.injEq] at hcall'
  split_ifs at hcall'
  · rw [← hcall']
    exact Becomes.close s i call
  · rw [← hcall']
    exact Becomes.refl s i call

theorem Becoming.set (h : Becoming null s calls) (hcall : s.calls[k]? = some call)
    (hbecomes : Becomes null s k call call') : Becoming null s (calls.set k call') := by
  refine ⟨by rw [List.length_set, h.1], fun i before after hbefore hafter => ?_⟩
  by_cases hi : k = i
  · grind
  · rw [List.getElem?_set_ne hi] at hafter
    exact h.2 i before after hbefore hafter

theorem becoming_refl (s : Connection V) : Becoming null s s.calls := by
  refine ⟨rfl, fun i call call' hcall hcall' => ?_⟩
  rw [hcall, Option.some.injEq] at hcall'
  rw [← hcall']
  exact Becomes.refl s i call

theorem Becoming.asked (h : Becoming null s calls) (k : Nat) :
    (calls[k]?).map Call.request = s.asked k := by
  rw [Connection.asked]
  obtain ⟨hlength, hcalls⟩ := h
  rcases Nat.lt_or_ge k s.calls.length with hlt | hge
  · have hget := List.getElem?_eq_getElem hlt
    have hget' := List.getElem?_eq_getElem (hlength ▸ hlt : k < calls.length)
    rw [hget, hget', Option.map_some, Option.map_some, (hcalls k _ _ hget hget').request]
  · rw [List.getElem?_eq_none hge, List.getElem?_eq_none (hlength ▸ hge)]

theorem Becoming.before (h : Becoming null s calls) (hcall' : calls[k]? = some call') :
    ∃ call, s.calls[k]? = some call ∧ Becomes null s k call call' := by
  have hlt : k < s.calls.length := h.1 ▸ (List.getElem?_eq_some_iff.mp hcall').1
  exact ⟨_, List.getElem?_eq_getElem hlt, h.2 k _ _ (List.getElem?_eq_getElem hlt) hcall'⟩

theorem Becoming.after (h : Becoming null s calls) (hcall : s.calls[k]? = some call) :
    ∃ call', calls[k]? = some call' ∧ Becomes null s k call call' := by
  have hlt : k < calls.length := h.1 ▸ (List.getElem?_eq_some_iff.mp hcall).1
  exact ⟨_, List.getElem?_eq_getElem hlt, h.2 k _ _ hcall (List.getElem?_eq_getElem hlt)⟩

variable (null) in
structure Inv (s : Connection V) : Prop where
  pending : ∀ e ∈ s.pending, Waits s e.1 e.2
  distinct : ∀ j k a b, Live s j → Live s k → s.asked j = some a → s.asked k = some b →
    a.id = b.id → j = k
  requests : Carries J.requests (fun k request => s.asked k = some request) s.requests
  handlers : ∀ h ∈ s.handlers, s.asked h.origin = some h.request
  answers : ∀ a ∈ s.answers, s.Answers a.origin a.response
  responses : Carries J.responses (fun k f => ∃ r, s.Answers k r ∧ f = r.fields) s.responses
  slots : ∀ (k : Nat) (call : Call V) (response : ResponseEnvelope V), s.calls[k]? = some call →
    call.slot = .filled response → ∃ r, s.Answers k r ∧ response = r.fields.envelope null
  results : ∀ (k : Nat) (call : Call V) (result : CallResult V), s.calls[k]? = some call →
    call.phase = .returned result → Sincere s k call.request result
  written : ∀ k ∈ s.sent, ∃ call, s.calls[k]? = some call ∧ call.phase.isWritten = true
  sentOnce : s.sent.Nodup
  answeredOnce : s.answered.Nodup
  answeredSent : ∀ k ∈ s.answered, k ∈ s.handled.map Handled.origin
  deliveredOwn : ∀ d ∈ s.delivered, d.1 = d.2

variable {J}

theorem Inv.becoming (h : Inv J null s) {pending : List (Nat × Nat)} {reader : Reader}
    (hcalls : Becoming null s calls)
    (hpending : ∀ e ∈ pending, Waits { s with calls := calls } e.1 e.2) :
    Inv J null { s with calls := calls, pending := pending, reader := reader } := by
  have hasked : ∀ k, Connection.asked
      { s with calls := calls, pending := pending, reader := reader } k = s.asked k :=
    fun k => hcalls.asked k
  have hanswers : ∀ k r, Connection.Answers
      { s with calls := calls, pending := pending, reader := reader } k r ↔ s.Answers k r := by
    intro k r
    simp only [Connection.Answers, hasked]
  refine ⟨hpending, ?_, ?_, ?_, ?_, ?_, ?_, ?_, ?_, h.sentOnce, h.answeredOnce, h.answeredSent,
    h.deliveredOwn⟩
  · have hlive : ∀ k, Live { s with calls := calls, pending := pending, reader := reader } k →
        Live s k := by
      rintro k (⟨call', hcall', hreturned⟩ | hlive)
      · obtain ⟨call, hcall, hbecomes⟩ := hcalls.before hcall'
        exact .inl ⟨call, hcall, hbecomes.alive hreturned⟩
      · exact .inr hlive
    intro j k a b hj hk ha hb hid
    rw [hasked] at ha hb
    exact h.distinct j k a b (hlive j hj) (hlive k hk) ha hb hid
  · exact h.requests.mono fun k request hrequest => (hasked k).trans hrequest
  · exact fun handling hmem => (hasked _).trans (h.handlers handling hmem)
  · exact fun answer hmem => (hanswers _ _).mpr (h.answers answer hmem)
  · refine h.responses.mono fun k f hf => ?_
    obtain ⟨r, hr, heq⟩ := hf
    exact ⟨r, (hanswers k r).mpr hr, heq⟩
  · intro k call' response hcall' hslot
    obtain ⟨call, hcall, hbecomes⟩ := hcalls.before hcall'
    obtain ⟨r, hr, heq⟩ : ∃ r, s.Answers k r ∧ response = r.fields.envelope null := by
      rcases hbecomes.slot response hslot with hsame | hanswer
      · exact h.slots k call response hcall hsame
      · exact hanswer
    exact ⟨r, (hanswers k r).mpr hr, heq⟩
  · intro k call' result hcall' hphase
    obtain ⟨call, hcall, hbecomes⟩ := hcalls.before hcall'
    rw [hbecomes.request]
    rcases hbecomes.result result hphase with hsame | hsincere
    · exact h.results k call result hcall hsame
    · exact hsincere
  · intro k hk
    obtain ⟨call, hcall, hwritten⟩ := h.written k hk
    obtain ⟨call', hcall', hbecomes⟩ := hcalls.after hcall
    exact ⟨call', hcall', hbecomes.written hwritten⟩

theorem becomes_phase {phase : Phase V} (hreturned : call.phase.isReturned = false)
    (hwritten : phase.isWritten = true)
    (hresult : ∀ result, phase = .returned result → Sincere s k call.request result) :
    Becomes null s k call { call with phase := phase } where
  request := rfl
  alive _ := hreturned
  slot _ h := .inl h
  result result h := .inr (hresult result h)
  written _ := hwritten

theorem Inv.setPhase (h : Inv J null s) {phase : Phase V} (hcall : s.calls[k]? = some call)
    (hreturned : call.phase.isReturned = false) (hwritten : phase.isWritten = true)
    (hphase : phase.isReturned = false) : Inv J null (s.setPhase k call phase) := by
  have hbecomes : Becomes null s k call { call with phase := phase } := by
    refine becomes_phase hreturned hwritten fun result heq => ?_
    rw [heq] at hphase
    cases hphase
  exact h.becoming ((becoming_refl s).set hcall hbecomes)
    fun e he => waits_setPhase (h.pending e he) hcall hphase

theorem Inv.return (h : Inv J null s) {result : CallResult V} (hcall : s.calls[k]? = some call)
    (hreturned : call.phase.isReturned = false) (hslot : call.slot ≠ .empty)
    (hsincere : Sincere s k call.request result) :
    Inv J null (s.setPhase k call (.returned result)) := by
  have hbecomes : Becomes null s k call { call with phase := .returned result } := by
    refine becomes_phase hreturned rfl fun result' heq => ?_
    cases heq
    exact hsincere
  refine h.becoming ((becoming_refl s).set hcall hbecomes) fun e he => ?_
  have hne : k ≠ e.2 := by
    rintro rfl
    obtain ⟨call', hcall', -, hempty, -⟩ := h.pending e he
    rw [hcall, Option.some.injEq] at hcall'
    exact hslot (hcall' ▸ hempty)
  exact (h.pending e he).of_get (List.getElem?_set_ne hne)

theorem Inv.waits_others (h : Inv J null s) (hcall : s.calls[k]? = some call) {e : Nat × Nat}
    (he : e ∈ s.othersOf call.request.id) :
    Waits { s with calls :=
      (Connection.closeAll (s.entriesOf call.request.id) s.calls).set k call' } e.1 e.2 := by
  obtain ⟨hmem, hother⟩ := List.mem_filter.mp he
  have hid : e.1 ≠ call.request.id := by simpa using hother
  have hwaits := h.pending e hmem
  have hne : k ≠ e.2 := by
    rintro rfl
    exact hid (hwaits.id_eq hcall).symm
  refine hwaits.of_get ?_
  rw [List.getElem?_set_ne hne, closeAll_getElem?]
  have hkept : e.2 ∉ (s.entriesOf call.request.id).map Prod.snd := by
    intro hclosed
    obtain ⟨f, hf, hsame⟩ := List.mem_map.mp hclosed
    obtain ⟨hf, hfid⟩ := List.mem_filter.mp hf
    obtain ⟨call', hcall', hid', -⟩ := hwaits
    have hwaits' := h.pending f hf
    rw [hsame] at hwaits'
    have hfid' : f.1 = call.request.id := by simpa using hfid
    rw [← hwaits'.id_eq hcall', hid'] at hfid'
    exact hid hfid'
  simp [hkept]

theorem Inv.register (h : Inv J null s) (hcall : s.calls[k]? = some call)
    (hphase : call.phase = .started) : Inv J null (s.register k call) := by
  have hbecomes : Becomes null s k call { call with phase := .registered, slot := .empty } := by
    refine ⟨rfl, fun _ => by rw [hphase]; rfl, fun response heq => ?_, fun result heq => ?_, ?_⟩
    · cases heq
    · cases heq
    · intro hwritten
      rw [hphase] at hwritten
      cases hwritten
  have hcalls := (becoming_closeAll s (s.entriesOf call.request.id)).set hcall hbecomes
  refine h.becoming hcalls fun e he => ?_
  rcases List.mem_cons.mp he with rfl | he
  · have hlt : k < (Connection.closeAll (s.entriesOf call.request.id) s.calls).length := by
      rw [Connection.closeAll, List.length_mapIdx]
      exact (List.getElem?_eq_some_iff.mp hcall).1
    exact ⟨_, List.getElem?_set_self hlt, rfl, rfl, rfl⟩
  · exact h.waits_others hcall he

theorem Inv.unregister (h : Inv J null s) (hcall : s.calls[k]? = some call)
    (hphase : call.phase = .unsent) : Inv J null (s.unregister k call) := by
  have hbecomes : Becomes null s k call { call with phase := .returned .failed } := by
    refine becomes_phase (by rw [hphase]; rfl) rfl fun result heq => ?_
    cases heq
    exact .inr (.inl rfl)
  exact h.becoming ((becoming_closeAll s (s.entriesOf call.request.id)).set hcall hbecomes)
    fun e he => h.waits_others hcall he

theorem Inv.endOfStream (h : Inv J null s) : Inv J null s.endOfStream :=
  h.becoming (becoming_closeAll s s.pending) fun _ he => absurd he List.not_mem_nil

theorem Inv.push (h : Inv J null s) {ws : List Write} (hcall : s.calls[k]? = some call)
    (hreturned : call.phase.isReturned = false) (hwritten : call.phase.isWritten = true)
    (hfresh : k ∉ s.sent)
    (hcarries : Carries J.requests (fun k request => s.asked k = some request) ws)
    (hsub : (wholes ws).Sublist [k]) :
    Inv J null { s with requests := s.requests ++ ws } := by
  have hmem : ∀ j ∈ wholes ws, j = k := fun j hj => List.mem_singleton.mp (hsub.subset hj)
  have hsent : (Connection.sent { s with requests := s.requests ++ ws }).Perm
      (wholes ws ++ s.sent) := by
    simp only [Connection.sent, wholes_append, List.append_assoc]
    exact List.perm_append_comm_assoc _ _ _
  refine ⟨h.pending, ?_, h.requests.append hcarries, h.handlers, h.answers, h.responses, h.slots,
    h.results, ?_, ?_, h.answeredOnce, h.answeredSent, h.deliveredOwn⟩
  · have hlive : ∀ j, Live { s with requests := s.requests ++ ws } j → Live s j := by
      rintro j (hopen | hrequest | hrest)
      · exact .inl hopen
      · rw [wholes_append] at hrequest
        rcases List.mem_append.mp hrequest with hrequest | hrequest
        · exact .inr (.inl hrequest)
        · exact .inl ⟨call, hmem j hrequest ▸ hcall, hreturned⟩
      · exact .inr (.inr hrest)
    exact fun j k a b hj hk => h.distinct j k a b (hlive j hj) (hlive k hk)
  · intro j hj
    rcases List.mem_append.mp (hsent.mem_iff.mp hj) with hj | hj
    · exact ⟨call, hmem j hj ▸ hcall, hwritten⟩
    · exact h.written j hj
  · refine hsent.nodup_iff.mpr (List.nodup_append.mpr ⟨hsub.nodup (List.nodup_singleton k),
      h.sentOnce, fun a ha b hb heq => ?_⟩)
    rw [hmem a ha] at heq
    exact hfresh (heq ▸ hb)

theorem Inv.send (h : Inv J null s) {ws : List Write} (hcall : s.calls[k]? = some call)
    (hphase : call.phase = .registered) (phase : Phase V) (hwritten : phase.isWritten = true)
    (hopen : phase.isReturned = false)
    (hcarries : Carries J.requests (fun k request => s.asked k = some request) ws)
    (hsub : (wholes ws).Sublist [k]) :
    Inv J null { s.setPhase k call phase with requests := s.requests ++ ws } := by
  have hreturned : call.phase.isReturned = false := by rw [hphase]; rfl
  have hfresh : k ∉ s.sent := by
    intro hk
    obtain ⟨call', hcall', hwritten⟩ := h.written k hk
    rw [hcall, Option.some.injEq] at hcall'
    rw [← hcall', hphase] at hwritten
    cases hwritten
  have hlt := (List.getElem?_eq_some_iff.mp hcall).1
  have hget : (s.setPhase k call phase).calls[k]? = some { call with phase := phase } :=
    List.getElem?_set_self hlt
  refine (h.setPhase hcall hreturned hwritten hopen).push hget hopen hwritten hfresh
    (hcarries.mono fun j request hasked => ?_) hsub
  by_cases hj : k = j
  · subst hj
    rw [Connection.asked, hget, Option.map_some, ← hasked, Connection.asked, hcall, Option.map_some]
  · rw [← hasked, Connection.asked, Connection.asked, Connection.setPhase,
      List.getElem?_set_ne hj]

theorem Inv.ends (h : Inv J null s) (serving : Bool) (reader : Reader) :
    Inv J null { s with serving := serving, reader := reader } :=
  ⟨h.pending, h.distinct, h.requests, h.handlers, h.answers, h.responses, h.slots, h.results,
    h.written, h.sentOnce, h.answeredOnce, h.answeredSent, h.deliveredOwn⟩

theorem Inv.accept (h : Inv J null s) {line : List Char} {origin : Nat} {rest : List Write}
    (hline : Reads s.requests line origin rest) : Inv J null (s.accept J line origin rest) := by
  have hrest := hline.wholes
  have hsent : (s.accept J line origin rest).sent.Subperm s.sent ∧
      ∀ j, Live (s.accept J line origin rest) j → Live s j := by
    simp only [Connection.accept]
    cases hdecoded : decodeLine J.requests line with
    | none =>
      refine ⟨(hrest.append (List.Sublist.refl _)).subperm, ?_⟩
      rintro j (hopen | hrequest | hothers)
      · exact .inl hopen
      · exact .inr (.inl (hrest.subset hrequest))
      · exact .inr (.inr hothers)
    | some request =>
      have hwholes := (h.requests.decoded hline hdecoded).2
      refine ⟨?_, ?_⟩
      · exact List.perm_middle.subperm.trans (hwholes.append (List.Sublist.refl _)).subperm
      · rintro j (hopen | hrequest | hhandler | hothers)
        · exact .inl hopen
        · exact .inr (.inl (hrest.subset hrequest))
        · rcases List.mem_cons.mp hhandler with rfl | hhandler
          · exact .inr (.inl (hwholes.subset List.mem_cons_self))
          · exact .inr (.inr (.inl hhandler))
        · exact .inr (.inr (.inr hothers))
  obtain ⟨hsub, hlive⟩ := hsent
  refine ⟨h.pending, fun j k a b hj hk => h.distinct j k a b (hlive j hj) (hlive k hk),
    h.requests.of_reads hline, ?_, h.answers, h.responses, h.slots, h.results,
    fun j hj => h.written j (hsub.subset hj), ?_, h.answeredOnce, h.answeredSent, h.deliveredOwn⟩
  · intro handling hmem
    simp only [Connection.accept] at hmem
    cases hdecoded : decodeLine J.requests line with
    | none =>
      rw [hdecoded] at hmem
      exact h.handlers handling hmem
    | some request =>
      rw [hdecoded] at hmem
      rcases List.mem_cons.mp hmem with rfl | hmem
      · exact (h.requests.decoded hline hdecoded).1
      · exact h.handlers handling hmem
  · obtain ⟨l, hl, hlsub⟩ := hsub
    exact hl.nodup_iff.mp (hlsub.nodup h.sentOnce)

theorem Inv.abort (h : Inv J null s) {pre post : List (Handling V)} {handling : Handling V}
    (hhandlers : s.handlers = pre ++ handling :: post) :
    Inv J null { s with handlers := pre ++ post } := by
  have hsub := sublist_without hhandlers
  have hsent : (Connection.sent { s with handlers := pre ++ post }).Sublist s.sent :=
    (List.Sublist.refl _).append ((hsub.map _).append (List.Sublist.refl _))
  exact ⟨h.pending, fun j k a b hj hk =>
      h.distinct j k a b (live_abort hhandlers hj) (live_abort hhandlers hk), h.requests,
    fun handling hmem => h.handlers handling (hsub.subset hmem), h.answers, h.responses, h.slots,
    h.results, fun j hj => h.written j (hsent.subset hj), hsent.nodup h.sentOnce, h.answeredOnce,
    h.answeredSent, h.deliveredOwn⟩

theorem Inv.handled (h : Inv J null s) (handled : Handled V)
    (hsent : handled.origin ∉ s.sent)
    (hwritten : ∃ call, s.calls[handled.origin]? = some call ∧ call.phase.isWritten = true) :
    Inv J null { s with handled := handled :: s.handled } := by
  have hperm : (Connection.sent { s with handled := handled :: s.handled }).Perm
      (handled.origin :: s.sent) := by
    simp only [Connection.sent, List.map_cons, ← List.append_assoc]
    exact List.perm_middle
  refine ⟨h.pending, h.distinct, h.requests, h.handlers,
    fun answer hmem => answers_handled (h.answers answer hmem) _, ?_, ?_, ?_, fun j hj => ?_,
    hperm.nodup_iff.mpr (List.nodup_cons.mpr ⟨hsent, h.sentOnce⟩), h.answeredOnce,
    fun j hj => List.mem_cons_of_mem _ (h.answeredSent j hj), h.deliveredOwn⟩
  · refine h.responses.mono fun k f hf => ?_
    obtain ⟨r, hr, heq⟩ := hf
    exact ⟨r, answers_handled hr _, heq⟩
  · intro k call response hcall hslot
    obtain ⟨r, hr, heq⟩ := h.slots k call response hcall hslot
    exact ⟨r, answers_handled hr _, heq⟩
  · intro k call result hcall hphase
    rcases h.results k call result hcall hphase with hclosed | hfailed | ⟨outcome, heq, hhandled⟩
    · exact .inl hclosed
    · exact .inr (.inl hfailed)
    · exact .inr (.inr ⟨outcome, heq, List.mem_cons_of_mem _ hhandled⟩)
  · rcases List.mem_cons.mp (hperm.mem_iff.mp hj) with rfl | hj
    · exact hwritten
    · exact h.written j hj

theorem Inv.answer (h : Inv J null s) {a : Answer V} (hanswer : s.Answers a.origin a.response)
    (hfresh : a.origin ∉ s.answered)
    (hdistinct : ∀ k b c, Live s k → s.asked k = some b → s.asked a.origin = some c →
      b.id = c.id → k = a.origin) :
    Inv J null { s with answers := a :: s.answers } := by
  have hlive : ∀ k, Live { s with answers := a :: s.answers } k → k = a.origin ∨ Live s k := by
    rintro k (hopen | hrequest | hhandler | hready | hresponse)
    · exact .inr (.inl hopen)
    · exact .inr (.inr (.inl hrequest))
    · exact .inr (.inr (.inr (.inl hhandler)))
    · rcases List.mem_cons.mp hready with rfl | hready
      · exact .inl rfl
      · exact .inr (.inr (.inr (.inr (.inl hready))))
    · exact .inr (.inr (.inr (.inr (.inr hresponse))))
  refine ⟨h.pending, fun j k b c hj hk hb hc hid => ?_, h.requests, h.handlers, fun b hb => ?_,
    h.responses, h.slots, h.results, h.written, h.sentOnce,
    List.nodup_cons.mpr ⟨hfresh, h.answeredOnce⟩, fun k hk => ?_, h.deliveredOwn⟩
  · rcases hlive j hj with rfl | hj
    · rcases hlive k hk with rfl | hk
      · rfl
      · exact (hdistinct k c b hk hc hb hid.symm).symm
    · rcases hlive k hk with rfl | hk
      · exact hdistinct j b c hj hb hc hid
      · exact h.distinct j k b c hj hk hb hc hid
  · rcases List.mem_cons.mp hb with rfl | hb
    · exact hanswer
    · exact h.answers b hb
  · rcases List.mem_cons.mp hk with rfl | hk
    · obtain ⟨request, outcome, -, -, hhandled⟩ := hanswer
      exact List.mem_map_of_mem hhandled
    · exact h.answeredSent k hk

theorem Inv.complete (h : Inv J null s) {pre post : List (Handling V)} {handling : Handling V}
    (outcome : Except String V) (hhandlers : s.handlers = pre ++ handling :: post) :
    Inv J null { s with
      handlers := pre ++ post
      answers := ⟨handling.origin, .ofOutcome handling.request.id outcome⟩ :: s.answers
      handled := ⟨handling.origin, handling.request.method, handling.request.params, outcome⟩ ::
        s.handled } := by
  let done : Handled V :=
    ⟨handling.origin, handling.request.method, handling.request.params, outcome⟩
  have hmem : handling ∈ s.handlers := by simp [hhandlers]
  have hasked := h.handlers handling hmem
  have hsent : s.sent.Perm
      (handling.origin :: Connection.sent { s with handlers := pre ++ post }) := by
    simp only [Connection.sent, hhandlers, List.map_append, List.map_cons, List.append_assoc,
      List.cons_append]
    refine (List.Perm.append_left _ List.perm_middle).trans List.perm_middle
  have hunsent := (List.nodup_cons.mp (hsent.nodup_iff.mp h.sentOnce)).1
  have hwritten := h.written _ (hsent.mem_iff.mpr List.mem_cons_self)
  have hdone := (h.abort hhandlers).handled done hunsent hwritten
  refine hdone.answer ⟨handling.request, outcome, hasked, rfl, List.mem_cons_self⟩ ?_ ?_
  · intro hanswered
    have hhandled := h.answeredSent _ hanswered
    exact hunsent (List.mem_append_right _ (List.mem_append_right _ hhandled))
  · intro k b c hk hb hc hid
    have hlive : Live s handling.origin := .inr (.inr (.inl (List.mem_map_of_mem hmem)))
    have hbefore : Live s k := live_abort hhandlers hk
    exact h.distinct k _ b c hbefore hlive hb hc hid

theorem Inv.respond (h : Inv J null s) {pre post : List (Answer V)} {a : Answer V}
    {ws : List Write} (hanswers : s.answers = pre ++ a :: post)
    (hcarries : Carries J.responses (fun k f => ∃ r, s.Answers k r ∧ f = r.fields) ws)
    (hwsub : (wholes ws).Sublist [a.origin]) :
    Inv J null { s with answers := pre ++ post, responses := s.responses ++ ws } := by
  have hmem : a ∈ s.answers := by simp [hanswers]
  have hsub := sublist_without hanswers
  have hanswered : (Connection.answered
      { s with answers := pre ++ post, responses := s.responses ++ ws }).Subperm s.answered := by
    have hperm : (Connection.answered
        { s with answers := pre ++ post, responses := s.responses ++ ws }).Perm
          (wholes ws ++ ((pre ++ post).map Answer.origin ++
            (wholes s.responses ++ s.delivered.map Prod.fst))) := by
      simp only [Connection.answered, wholes_append, List.append_assoc]
      refine List.Perm.trans (List.Perm.append_left _ ?_) (List.perm_append_comm_assoc _ _ _)
      exact List.perm_append_comm_assoc _ _ _
    have hsplit : ([a.origin] ++ ((pre ++ post).map Answer.origin ++
        (wholes s.responses ++ s.delivered.map Prod.fst))).Perm s.answered := by
      simp only [Connection.answered, hanswers, List.map_append, List.map_cons, List.append_assoc,
        List.cons_append, List.nil_append]
      exact List.perm_middle.symm
    exact hperm.subperm.trans ((hwsub.append (List.Sublist.refl _)).subperm.trans hsplit.subperm)
  have hlive : ∀ j, Live { s with answers := pre ++ post, responses := s.responses ++ ws } j →
      Live s j := by
    rintro j (hopen | hrequest | hhandler | hanswer | hresponse)
    · exact .inl hopen
    · exact .inr (.inl hrequest)
    · exact .inr (.inr (.inl hhandler))
    · exact .inr (.inr (.inr (.inl ((hsub.map _).subset hanswer))))
    · rw [wholes_append] at hresponse
      rcases List.mem_append.mp hresponse with hresponse | hresponse
      · exact .inr (.inr (.inr (.inr hresponse)))
      · have heq := List.mem_singleton.mp (hwsub.subset hresponse)
        exact .inr (.inr (.inr (.inl (heq ▸ List.mem_map_of_mem hmem))))
  refine ⟨h.pending, fun j k a b hj hk => h.distinct j k a b (hlive j hj) (hlive k hk), h.requests,
    h.handlers, fun answer hmem => h.answers answer (hsub.subset hmem),
    h.responses.append hcarries, h.slots, h.results, h.written, h.sentOnce, ?_,
    fun j hj => h.answeredSent j (hanswered.subset hj), h.deliveredOwn⟩
  obtain ⟨l, hl, hlsub⟩ := hanswered
  exact hl.nodup_iff.mp (hlsub.nodup h.answeredOnce)

theorem Inv.skip (h : Inv J null s) {line : List Char} {origin : Nat} {rest : List Write}
    (hline : Reads s.responses line origin rest) : Inv J null { s with responses := rest } := by
  have hanswered : (Connection.answered { s with responses := rest }).Sublist s.answered :=
    (List.Sublist.refl _).append (hline.wholes.append (List.Sublist.refl _))
  have hlive : ∀ j, Live { s with responses := rest } j → Live s j := by
    rintro j (hopen | hrequest | hhandler | hanswer | hresponse)
    · exact .inl hopen
    · exact .inr (.inl hrequest)
    · exact .inr (.inr (.inl hhandler))
    · exact .inr (.inr (.inr (.inl hanswer)))
    · exact .inr (.inr (.inr (.inr (hline.wholes.subset hresponse))))
  exact ⟨h.pending, fun j k a b hj hk => h.distinct j k a b (hlive j hj) (hlive k hk), h.requests,
    h.handlers, h.answers, h.responses.of_reads hline, h.slots, h.results, h.written, h.sentOnce,
    hanswered.nodup h.answeredOnce, fun j hj => h.answeredSent j (hanswered.subset hj),
    h.deliveredOwn⟩

theorem Inv.routed (h : Inv J null s) {line : List Char} {origin id : Nat} {rest : List Write}
    {f : ResponseFields V} (hline : Reads s.responses line origin rest)
    (hdecoded : decodeLine J.responses line = some f) (hmem : (id, k) ∈ s.pending)
    (hid : id = f.id) : k = origin ∧ ∃ r, s.Answers origin r ∧ f = r.fields := by
  obtain ⟨⟨r, hr, hf⟩, hwholes⟩ := h.responses.decoded hline hdecoded
  refine ⟨?_, r, hr, hf⟩
  obtain ⟨request, outcome, hasked, houtcome, -⟩ := hr
  obtain ⟨call, hcall, hcallid, -, hreturned⟩ := h.pending _ hmem
  have hlive : Live s origin := .inr (.inr (.inr (.inr (hwholes.subset List.mem_cons_self))))
  have hcallasked : s.asked k = some call.request := by
    rw [Connection.asked, hcall, Option.map_some]
  refine h.distinct k origin _ _ (.inl ⟨call, hcall, hreturned⟩) hlive hcallasked hasked ?_
  rw [hcallid, hid, hf, houtcome]
  cases outcome <;> rfl

theorem Inv.delivered (h : Inv J null s) (hfresh : k ∉ s.answered)
    (hhandled : k ∈ s.handled.map Handled.origin) :
    Inv J null { s with delivered := (k, k) :: s.delivered } := by
  have hperm : (Connection.answered { s with delivered := (k, k) :: s.delivered }).Perm
      (k :: s.answered) := by
    simp only [Connection.answered, List.map_cons, ← List.append_assoc]
    exact List.perm_middle
  refine ⟨h.pending, h.distinct, h.requests, h.handlers, h.answers, h.responses, h.slots,
    h.results, h.written, h.sentOnce,
    hperm.nodup_iff.mpr (List.nodup_cons.mpr ⟨hfresh, h.answeredOnce⟩), fun j hj => ?_,
    fun d hd => ?_⟩
  · rcases List.mem_cons.mp (hperm.mem_iff.mp hj) with rfl | hj
    · exact hhandled
    · exact h.answeredSent j hj
  · rcases List.mem_cons.mp hd with rfl | hd
    · rfl
    · exact h.deliveredOwn d hd

theorem Inv.deliver (h : Inv J null s) {line : List Char} {origin : Nat} {rest : List Write}
    (hline : Reads s.responses line origin rest) :
    Inv J null (s.deliver J null line origin rest) := by
  have hskip := h.skip hline
  rw [Connection.deliver]
  cases hdecoded : decodeLine J.responses line with
  | none => exact hskip
  | some f =>
    simp only [Connection.route]
    cases hfind : s.pending.find? fun e => e.1 = (f.envelope null).id with
    | none => exact hskip
    | some e =>
      obtain ⟨id, k⟩ := e
      have hmem : (id, k) ∈ s.pending := List.mem_of_find?_eq_some hfind
      have hid : id = (f.envelope null).id := by simpa using List.find?_some hfind
      obtain ⟨rfl, r, hr, hf⟩ := h.routed hline hdecoded hmem hid
      obtain ⟨call, hcall, hcallid, -, hreturned⟩ := h.pending _ hmem
      have hwholes := (h.responses.decoded hline hdecoded).2
      have hsub : (k :: Connection.answered { s with responses := rest }).Subperm s.answered := by
        have hperm : (s.answers.map Answer.origin ++
            (k :: (wholes rest ++ s.delivered.map Prod.fst))).Perm
              (k :: Connection.answered { s with responses := rest }) := List.perm_middle
        exact hperm.symm.subperm.trans
          ((List.Sublist.refl _).append (hwholes.append (List.Sublist.refl _))).subperm
      have hfresh : k ∉ Connection.answered { s with responses := rest } := by
        obtain ⟨l, hl, hlsub⟩ := hsub
        exact (List.nodup_cons.mp (hl.nodup_iff.mp (hlsub.nodup h.answeredOnce))).1
      have hhandled := h.answeredSent k (hsub.subset List.mem_cons_self)
      have hbecomes : Becomes null { s with responses := rest } k call
          { call with slot := .filled (f.envelope null) } := by
        refine ⟨rfl, fun _ => hreturned, fun response heq => ?_, fun result heq => .inl heq,
          fun hwritten => hwritten⟩
        cases heq
        exact .inr ⟨r, hr, congrArg _ hf⟩
      have hrouted : Inv J null { s with
          responses := rest
          calls := s.calls.set k { call with slot := .filled (f.envelope null) }
          pending := s.othersOf (f.envelope null).id } := by
        refine hskip.becoming ((becoming_refl { s with responses := rest }).set hcall hbecomes)
          fun e he => ?_
        obtain ⟨hother, hne⟩ := List.mem_filter.mp he
        have hwaits := hskip.pending e hother
        refine hwaits.of_get (List.getElem?_set_ne ?_)
        rintro rfl
        have hsame := hwaits.id_eq hcall
        have hdifferent : e.1 ≠ f.id := of_decide_eq_true hne
        exact hdifferent (hsame.symm.trans (hcallid.trans hid))
      have hset : s.calls.modify k (fun call => { call with slot := .filled (f.envelope null) }) =
          s.calls.set k { call with slot := .filled (f.envelope null) } := modify_eq_set hcall
      simp only
      rw [hset]
      exact hrouted.delivered hfresh hhandled

theorem Inv.start (h : Inv J null s) (hfree : IdFree s) (method : String) (params : V) :
    Inv J null (s.start method params) := by
  refine ⟨fun e he => ?_, fun j k a b hj hk ha hb hid => ?_,
    h.requests.mono fun _ _ ha => asked_start ha,
    fun handling hmem => asked_start (h.handlers handling hmem),
    fun answer hmem => answers_start (h.answers answer hmem), ?_, ?_, ?_, ?_, h.sentOnce,
    h.answeredOnce, h.answeredSent, h.deliveredOwn⟩
  · obtain ⟨call, hcall, hwaits⟩ := h.pending e he
    exact ⟨call, get_start hcall, hwaits⟩
  · rcases live_start hfree hj ha with ⟨hj, ha, hne⟩ | ⟨rfl, hnew⟩
    · rcases live_start hfree hk hb with ⟨hk, hb, -⟩ | ⟨-, hnew⟩
      · exact h.distinct j k a b hj hk ha hb hid
      · exact absurd (hid.trans hnew) hne
    · rcases live_start hfree hk hb with ⟨-, -, hne⟩ | ⟨rfl, -⟩
      · exact absurd (hid.symm.trans hnew) hne
      · rfl
  · refine h.responses.mono fun k f hf => ?_
    obtain ⟨r, hr, heq⟩ := hf
    exact ⟨r, answers_start hr, heq⟩
  · intro k call response hcall hslot
    rcases of_get_start hcall with hcall | ⟨-, rfl⟩
    · obtain ⟨r, hr, heq⟩ := h.slots k call response hcall hslot
      exact ⟨r, answers_start hr, heq⟩
    · cases hslot
  · intro k call result hcall hphase
    rcases of_get_start hcall with hcall | ⟨-, rfl⟩
    · exact h.results k call result hcall hphase
    · cases hphase
  · intro k hk
    obtain ⟨call, hcall, hwritten⟩ := h.written k hk
    exact ⟨call, get_start hcall, hwritten⟩

theorem inv_initial : Inv J null (Connection.initial V) where
  pending _ he := absurd he List.not_mem_nil
  distinct j k a b _ _ ha _ _ := by cases ha
  requests := Carries.nil
  handlers _ hmem := absurd hmem List.not_mem_nil
  answers _ hmem := absurd hmem List.not_mem_nil
  responses := Carries.nil
  slots k call response hcall _ := by cases hcall
  results k call result hcall _ := by cases hcall
  written _ hk := absurd hk List.not_mem_nil
  sentOnce := List.nodup_nil
  answeredOnce := List.nodup_nil
  answeredSent _ hk := absurd hk List.not_mem_nil
  deliveredOwn _ hd := absurd hd List.not_mem_nil

theorem inv_step {s' : Connection V} (h : Inv J null s) (hstep : Step J null IdFree s s') :
    Inv J null s' := by
  cases hstep with
  | start method params hfree => exact h.start hfree method params
  | register hcall hphase => exact h.register hcall hphase
  | write hcall hphase =>
    refine h.send hcall hphase .awaiting rfl rfl (carries_line ?_) (List.Sublist.refl _)
    rw [Connection.asked, hcall, Option.map_some]
  | failWrite sent hcall hphase =>
    refine h.send hcall hphase .unsent rfl rfl (carries_cut ?_) (wholes_cut _ _ _)
    rw [Connection.asked, hcall, Option.map_some]
  | unregister hcall hphase => exact h.unregister hcall hphase
  | @receive k call response hcall hphase hslot =>
    obtain ⟨r, ⟨request, outcome, hasked, hr, hhandled⟩, hresponse⟩ :=
      h.slots k call response hcall hslot
    have hrequest : request = call.request := by
      rw [Connection.asked, hcall, Option.map_some, Option.some.injEq] at hasked
      exact hasked.symm
    refine h.return hcall (by rw [hphase]; rfl) (by rw [hslot]; simp)
      (.inr (.inr ⟨outcome, ?_, hrequest ▸ hhandled⟩))
    rw [hresponse, hr, callResult_ofOutcome]
  | disconnect hcall hphase hslot =>
    exact h.return hcall (by rw [hphase]; rfl) (by rw [hslot]; simp) (.inl rfl)
  | accept hserving hline => exact h.accept (reads_nextLine hline)
  | acceptLast hserving hline => exact (h.accept (reads_lastLine hline)).ends false _
  | complete outcome hhandlers => exact h.complete outcome hhandlers
  | abort hhandlers => exact h.abort hhandlers
  | @respond pre post a hanswers =>
    have hmem : a ∈ s.answers := by simp [hanswers]
    exact h.respond hanswers (carries_line ⟨_, h.answers a hmem, rfl⟩) (List.Sublist.refl _)
  | @failRespond pre post a sent hanswers =>
    have hmem : a ∈ s.answers := by simp [hanswers]
    exact h.respond hanswers (carries_cut ⟨_, h.answers a hmem, rfl⟩) (wholes_cut _ _ _)
  | deliver hreader hline => exact h.deliver (reads_nextLine hline)
  | deliverLast hreader hline => exact (h.deliver (reads_lastLine hline)).ends _ .ended
  | endOfStream hreader => exact h.endOfStream

theorem Inv.correlated (h : Inv J null s) : Correlated s where
  ok k call v hcall hphase := by
    rcases h.results k call _ hcall hphase with hclosed | hfailed | ⟨outcome, heq, hhandled⟩
    · cases hclosed
    · cases hfailed
    · cases outcome with
      | ok v' =>
        cases heq
        exact hhandled
      | error message => cases heq
  remote k call message hcall hphase := by
    rcases h.results k call _ hcall hphase with hclosed | hfailed | ⟨outcome, heq, hhandled⟩
    · cases hclosed
    · cases hfailed
    · cases outcome with
      | ok v => cases heq
      | error message' =>
        cases heq
        exact hhandled
  handledOnce := (List.nodup_append.mp (List.nodup_append.mp h.sentOnce).2.1).2.1
  deliveredOnce := (List.nodup_append.mp (List.nodup_append.mp h.answeredOnce).2.1).2.1
  deliveredOwn := h.deliveredOwn
  pending hreturned := by
    rw [List.eq_nil_iff_forall_not_mem]
    intro e he
    obtain ⟨call, hcall, -, -, hopen⟩ := h.pending e he
    rw [hreturned call (List.mem_of_getElem? hcall)] at hopen
    cases hopen

end

end SwissArmyHammer.Leader.Ipc
