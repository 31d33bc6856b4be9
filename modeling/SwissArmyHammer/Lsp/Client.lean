import SwissArmyHammer.Common.Traces
import SwissArmyHammer.Lsp.Framing

/-! The handshake and the client that is built on the same pipe. -/

namespace SwissArmyHammer.Lsp

open Text

inductive Origin
  | handshake
  | client (n : Nat)
  | notification
  | server
  deriving DecidableEq

structure Message where
  frame : Frame
  json : Json
  origin : Origin

namespace Message

def id (m : Message) : Option Json := m.json.getKey "id"

/-- The frame holds the message; a server numbers its requests as it likes. -/
structure WellFormed (decode : List UInt8 → Option Json) (m : Message) : Prop where
  frame : m.frame.WellFormed
  decodes : decode m.frame.body = some m.json
  handshake : m.origin = .handshake → m.id.bind Json.asU64 = some 1
  client : ∀ n, m.origin = .client n → m.id.bind Json.asU64 = some ((n + 1) % 2 ^ 32)
  notification : m.origin = .notification → m.id = none
  server : m.origin = .server → m.id.isSome

end Message

def framesOf (messages : List Message) : List UInt8 := messages.flatMap fun m => m.frame.bytes

def initializeHandshake (decode : List UInt8 → Option Json) (chunks : List (List UInt8)) :
    Except String Json × Pipe :=
  readMessage decode ⟨[], chunks⟩

inductive ResponseMatch
  | isMatch | notification | mismatch
  deriving DecidableEq

def classifyResponse (response : Json) (expectedId : Nat) : ResponseMatch :=
  match response.getKey "id" with
  | none => .notification
  | some id => if id.asU64 = some expectedId then .isMatch else .mismatch

inductive ReadMatching (decode : List UInt8 → Option Json) (expectedId : Nat) :
    Pipe → List Message → Except String Json → Pipe → List Message → Prop
  | timedOut {r : Pipe} {pending : List Message} (hbuffer : r.buffer = []) :
      ReadMatching decode expectedId r pending (.error "timed out") r pending
  | failed {r r' : Pipe} {pending : List Message} {e : String}
      (hread : readMessage decode r = (.error e, r')) :
      ReadMatching decode expectedId r pending (.error e) r' pending.tail
  | matched {r r' : Pipe} {pending : List Message} {response : Json}
      (hread : readMessage decode r = (.ok response, r'))
      (hmatch : classifyResponse response expectedId = .isMatch) :
      ReadMatching decode expectedId r pending (.ok response) r' pending.tail
  | skipped {r r' r'' : Pipe} {pending pending' : List Message} {response : Json}
      {outcome : Except String Json} (hread : readMessage decode r = (.ok response, r'))
      (hmatch : classifyResponse response expectedId ≠ .isMatch)
      (hrest : ReadMatching decode expectedId r' pending.tail outcome r'' pending') :
      ReadMatching decode expectedId r pending outcome r'' pending'

/-- The client, the messages that it has not read and the number of its requests. -/
structure System where
  reader : Pipe
  requestId : Nat
  pending : List Message
  sent : Nat

inductive Op
  | sendRequest (outcome : Except String Json)
  | readMessage (outcome : Except String Json)

namespace System

variable (decode : List UInt8 → Option Json) (sys : System)

def new (chunks : List (List UInt8)) (pending : List Message) : System :=
  ⟨⟨[], chunks⟩, 1, pending, 0⟩

def Step : Op → System → Prop
  | .sendRequest outcome, sys' => ∃ r pending,
    sys' = ⟨r, (sys.requestId + 1) % 2 ^ 32, pending, sys.sent + 1⟩ ∧
      ((r = sys.reader ∧ pending = sys.pending ∧ outcome = .error "write failed") ∨
        ReadMatching decode sys.requestId sys.reader sys.pending outcome r pending)
  | .readMessage outcome, sys' =>
    (sys' = sys ∧ sys.reader.buffer = [] ∧ outcome = .error "timed out") ∨
      ∃ r, Lsp.readMessage decode sys.reader = (outcome, r) ∧
        sys' = { sys with reader := r, pending := sys.pending.tail }

/-- The next request, if it comes back at all, comes back with its own answer. -/
def AnswersItself : Prop :=
  ∀ outcome r pending, ReadMatching decode sys.requestId sys.reader sys.pending outcome r pending →
    ∀ json, outcome = .ok json → ∃ skipped answer, sys.pending = skipped ++ answer :: pending ∧
      answer.json = json ∧ answer.origin = .client sys.sent

/-- No other message with the id of the next request comes before its answer. -/
def Clear : Prop :=
  ∀ m ∈ sys.pending.takeWhile fun m => m.origin ≠ .client sys.sent,
    m.id.bind Json.asU64 ≠ some sys.requestId

def ReadsOn (op : Op) (sys' : System) : Prop :=
  sys'.reader.bytes = framesOf sys'.pending ∧ sys'.pending <:+ sys.pending ∧
    ∀ outcome, op = .readMessage outcome →
      match outcome with
      | .ok json => ∃ m, sys.pending = m :: sys'.pending ∧ m.json = json
      | .error _ => sys'.pending = sys.pending

structure Inv : Prop where
  synced : sys.reader.bytes = framesOf sys.pending
  wellFormed : ∀ m ∈ sys.pending, m.WellFormed decode
  requestId : sys.requestId = (sys.sent + 1) % 2 ^ 32

end System

section

variable {decode : List UInt8 → Option Json} {r r' : Pipe} {pending pending' : List Message}
  {expectedId : Nat} {outcome : Except String Json}

theorem read_pending {m : Message} (hm : m.WellFormed decode) (h : r.bytes = framesOf (m :: pending)) :
    ∃ r', r'.bytes = framesOf pending ∧ readMessage decode r = (.ok m.json, r') := by
  obtain ⟨r', htook, hread⟩ := readMessage_spec hm.frame hm.decodes h
  exact ⟨r', List.append_cancel_left (htook.bytes.symm.trans h), hread⟩

theorem classify_isMatch_iff {m : Message} :
    classifyResponse m.json expectedId = .isMatch ↔ m.id.bind Json.asU64 = some expectedId := by
  rw [classifyResponse, Message.id]
  cases m.json.getKey "id" with
  | none => simp
  | some id => simp

theorem readMatching_synced (hread : ReadMatching decode expectedId r pending outcome r' pending')
    (hwell : ∀ m ∈ pending, m.WellFormed decode) (h : r.bytes = framesOf pending) :
    r'.bytes = framesOf pending' ∧ pending' <:+ pending := by
  induction hread with
  | timedOut hbuffer => exact ⟨h, List.suffix_refl _⟩
  | @failed r r' pending e hread =>
    cases pending with
    | nil =>
      rw [readMessage_end h] at hread
      obtain ⟨-, rfl⟩ := Prod.mk.inj hread
      exact ⟨rfl, List.suffix_refl _⟩
    | cons m rest =>
      obtain ⟨r₁, -, hread₁⟩ := read_pending (hwell m List.mem_cons_self) h
      rw [hread₁] at hread
      cases (Prod.mk.inj hread).1
  | @matched r r' pending response hread hmatch =>
    cases pending with
    | nil =>
      rw [readMessage_end h] at hread
      cases (Prod.mk.inj hread).1
    | cons m rest =>
      obtain ⟨r₁, hsynced, hread₁⟩ := read_pending (hwell m List.mem_cons_self) h
      rw [hread₁] at hread
      obtain ⟨-, rfl⟩ := Prod.mk.inj hread
      exact ⟨hsynced, List.suffix_cons m rest⟩
  | @skipped r r' r'' pending pending' response outcome hread hmatch hrest ih =>
    cases pending with
    | nil =>
      rw [readMessage_end h] at hread
      cases (Prod.mk.inj hread).1
    | cons m rest =>
      obtain ⟨r₁, hsynced, hread₁⟩ := read_pending (hwell m List.mem_cons_self) h
      rw [hread₁] at hread
      obtain ⟨-, rfl⟩ := Prod.mk.inj hread
      obtain ⟨hlater, hsuffix⟩ := ih (fun x hx => hwell x (List.mem_cons_of_mem _ hx)) hsynced
      exact ⟨hlater, hsuffix.trans (List.suffix_cons m rest)⟩

theorem readMatching_ok {m : Message} {r₁ : Pipe} {json : Json}
    (hnext : readMessage decode r = (.ok m.json, r₁))
    (h : ReadMatching decode expectedId r (m :: pending) (.ok json) r' pending') :
    (classifyResponse m.json expectedId = .isMatch ∧ m.json = json ∧ pending = pending') ∨
      (classifyResponse m.json expectedId ≠ .isMatch ∧
        ReadMatching decode expectedId r₁ pending (.ok json) r' pending') := by
  cases h with
  | matched hread hmatch =>
    grind
  | skipped hread hnot hlater =>
    grind

theorem readMatching_nil {json : Json} (h : r.bytes = framesOf []) :
    ¬ ReadMatching decode expectedId r [] (.ok json) r' pending' := by
  intro hread
  cases hread with
  | matched hread hmatch =>
    rw [readMessage_end h] at hread
    cases (Prod.mk.inj hread).1
  | skipped hread hmatch hrest =>
    rw [readMessage_end h] at hread
    cases (Prod.mk.inj hread).1

theorem answers_iff {n : Nat} (hid : expectedId = (n + 1) % 2 ^ 32)
    (hwell : ∀ m ∈ pending, m.WellFormed decode) (h : r.bytes = framesOf pending) :
    (∀ outcome r' pending', ReadMatching decode expectedId r pending outcome r' pending' →
      ∀ json, outcome = .ok json → ∃ skipped answer, pending = skipped ++ answer :: pending' ∧
        answer.json = json ∧ answer.origin = .client n) ↔
      ∀ m ∈ pending.takeWhile fun m => m.origin ≠ .client n,
        m.id.bind Json.asU64 ≠ some expectedId := by
  induction pending generalizing r with
  | nil =>
    refine iff_of_true ?_ (by simp)
    rintro outcome r' pending' hread json rfl
    exact absurd hread (readMatching_nil h)
  | cons m rest ih =>
    have hm := hwell m List.mem_cons_self
    obtain ⟨r₁, hsynced, hread₁⟩ := read_pending hm h
    have hrest := ih (fun x hx => hwell x (List.mem_cons_of_mem _ hx)) hsynced
    by_cases hanswer : m.origin = .client n
    · have hmatch : classifyResponse m.json expectedId = .isMatch :=
        classify_isMatch_iff.mpr (by rw [hm.client n hanswer, hid])
      refine iff_of_true ?_ ?_
      · rintro outcome r' pending' hread json rfl
        rcases readMatching_ok hread₁ hread with ⟨-, hjson, rfl⟩ | ⟨hnot, -⟩
        · exact ⟨[], m, rfl, hjson, hanswer⟩
        · exact absurd hmatch hnot
      · rw [List.takeWhile_cons_of_neg (by simpa using hanswer)]
        simp
    · rw [List.takeWhile_cons_of_pos (by simpa using hanswer), List.forall_mem_cons]
      by_cases hmatch : classifyResponse m.json expectedId = .isMatch
      · refine iff_of_false (fun hall => ?_) fun hnot => hnot.1 (classify_isMatch_iff.mp hmatch)
        obtain ⟨skipped, answer, hsplit, -, horigin⟩ :=
          hall _ _ _ (.matched hread₁ hmatch) m.json rfl
        cases skipped with
        | nil =>
          obtain ⟨rfl, -⟩ := List.cons.inj hsplit
          exact hanswer horigin
        | cons first skipped =>
          have hlength := congrArg List.length hsplit
          simp only [List.tail_cons, List.length_cons, List.length_append] at hlength
          omega
      · rw [and_iff_right fun heq => hmatch (classify_isMatch_iff.mpr heq), ← hrest]
        constructor
        · intro hall outcome r' pending' hread json hok
          obtain ⟨skipped, answer, hsplit, hjson, horigin⟩ :=
            hall _ _ _ (.skipped hread₁ hmatch hread) json hok
          cases skipped with
          | nil =>
            obtain ⟨rfl, -⟩ := List.cons.inj hsplit
            exact absurd horigin hanswer
          | cons first skipped =>
            obtain ⟨-, hsplit⟩ := List.cons.inj hsplit
            exact ⟨skipped, answer, hsplit, hjson, horigin⟩
        · rintro hall outcome r' pending' hread json rfl
          rcases readMatching_ok hread₁ hread with ⟨hmatch', -⟩ | ⟨-, hlater⟩
          · exact absurd hmatch' hmatch
          · obtain ⟨skipped, answer, hsplit, hjson, horigin⟩ := hall _ _ _ hlater json rfl
            exact ⟨m :: skipped, answer, congrArg (m :: ·) hsplit, hjson, horigin⟩

end

section

variable {decode : List UInt8 → Option Json} {chunks : List (List UInt8)} {messages : List Message}
  {sys sys' : System} {op : Op}

/-- The handshake ends with the answer to it, and leaves the messages that follow. -/
def HandsOver (decode : List UInt8 → Option Json) (chunks : List (List UInt8))
    (messages : List Message) : Prop :=
  ∃ first rest, messages = first :: rest ∧ first.origin = .handshake ∧
    (initializeHandshake decode chunks).1 = .ok first.json ∧
    (initializeHandshake decode chunks).2.chunks.flatten = framesOf rest

theorem handsOver_iff (hwell : ∀ m ∈ messages, m.WellFormed decode)
    (h : chunks.flatten = framesOf messages) : HandsOver decode chunks messages ↔
      ∃ first rest, messages = first :: rest ∧ first.origin = .handshake ∧
        ∃ k, (chunks.take k).flatten = first.frame.bytes := by
  refine exists_congr fun first => exists_congr fun rest => and_congr_right fun hsplit =>
    and_congr_right fun _ => ?_
  subst hsplit
  have hfirst := hwell first List.mem_cons_self
  have hstart : (BufferedReader.mk [] chunks).bytes = first.frame.bytes ++ framesOf rest := h
  obtain ⟨r, htook, hread⟩ := readMessage_spec hfirst.frame hfirst.decodes hstart
  have hrest : r.bytes = framesOf rest := List.append_cancel_left (htook.bytes.symm.trans hstart)
  rw [initializeHandshake, hread, ← htook.buffer_eq_nil_iff, and_iff_right rfl, ← hrest]
  constructor
  · intro hleft
    have hsame : r.chunks.flatten = r.bytes := hleft
    have hlength := congrArg List.length hsame
    rw [BufferedReader.bytes, List.length_append] at hlength
    exact List.eq_nil_of_length_eq_zero (by omega)
  · intro hnil
    rw [BufferedReader.bytes, hnil, List.nil_append]

namespace System

theorem Inv.step (h : Inv decode sys) (hstep : sys.Step decode op sys') : Inv decode sys' := by
  cases op with
  | sendRequest outcome =>
    obtain ⟨r, pending, rfl, hread⟩ := hstep
    have hnext : (sys.requestId + 1) % 2 ^ 32 = (sys.sent + 1 + 1) % 2 ^ 32 := by
      rw [h.requestId]
      omega
    rcases hread with ⟨rfl, rfl, -⟩ | hread
    · exact ⟨h.synced, h.wellFormed, hnext⟩
    · obtain ⟨hsynced, hsuffix⟩ := readMatching_synced hread h.wellFormed h.synced
      exact ⟨hsynced, fun m hm => h.wellFormed m (hsuffix.subset hm), hnext⟩
  | readMessage outcome =>
    rcases hstep with ⟨rfl, -⟩ | ⟨r, hread, rfl⟩
    · exact h
    · refine ⟨?_, fun m hm => h.wellFormed m (List.mem_of_mem_tail hm), h.requestId⟩
      cases hpending : sys.pending with
      | nil =>
        have hsynced := h.synced
        rw [hpending] at hsynced
        rw [readMessage_end hsynced] at hread
        obtain ⟨-, rfl⟩ := Prod.mk.inj hread
        rfl
      | cons m rest =>
        have hsynced := h.synced
        rw [hpending] at hsynced
        obtain ⟨r', hr', hread'⟩ := read_pending (h.wellFormed m (by simp [hpending])) hsynced
        rw [hread'] at hread
        obtain ⟨-, rfl⟩ := Prod.mk.inj hread
        exact hr'

theorem Inv.readsOn (h : Inv decode sys) (hstep : sys.Step decode op sys') :
    sys.ReadsOn op sys' := by
  refine ⟨(h.step hstep).synced, ?_⟩
  cases op with
  | sendRequest outcome =>
    refine ⟨?_, nofun⟩
    obtain ⟨r, pending, rfl, ⟨rfl, rfl, -⟩ | hread⟩ := hstep
    · exact List.suffix_refl _
    · exact (readMatching_synced hread h.wellFormed h.synced).2
  | readMessage outcome =>
    rcases hstep with ⟨rfl, -, rfl⟩ | ⟨r, hread, rfl⟩
    · simp
    · refine ⟨List.tail_suffix _, fun outcome' heq => ?_⟩
      cases heq
      have hsynced := h.synced
      cases hpending : sys.pending with
      | nil =>
        rw [hpending] at hsynced
        rw [readMessage_end hsynced] at hread
        obtain ⟨rfl, -⟩ := Prod.mk.inj hread
        rfl
      | cons m rest =>
        rw [hpending] at hsynced
        obtain ⟨r', -, hread'⟩ := read_pending (h.wellFormed m (by simp [hpending])) hsynced
        rw [hread'] at hread
        obtain ⟨rfl, -⟩ := Prod.mk.inj hread
        exact ⟨m, rfl, rfl⟩

end System

/-- After a handshake that hands the pipe over, every run of the client reads on from there, and a
request is sure to come back with its own answer exactly when no other message has its id. -/
theorem requests_answered_iff (hwell : ∀ m ∈ messages, m.WellFormed decode)
    (h : chunks.flatten = framesOf messages) :
    (HandsOver decode chunks messages ↔ ∃ first rest, messages = first :: rest ∧
        first.origin = .handshake ∧ ∃ k, (chunks.take k).flatten = first.frame.bytes) ∧
      (HandsOver decode chunks messages → ∀ steps : List (Op × System),
        let client := System.new (initializeHandshake decode chunks).2.chunks messages.tail
        Trace (System.Step decode) client steps →
          Trace.Every (fun sys op sys' => sys.ReadsOn op sys' ∧
            (sys.AnswersItself decode ↔ sys.Clear)) client steps) := by
  refine ⟨handsOver_iff hwell h, fun hover steps => ?_⟩
  intro client htrace
  obtain ⟨first, rest, rfl, -, -, hleft⟩ := hover
  have hstart : System.Inv decode client :=
    ⟨hleft, fun m hm => hwell m (List.mem_cons_of_mem _ hm), rfl⟩
  exact htrace.every_of_invariant (I := System.Inv decode) (G := fun _ _ => True)
    (fun sys op sys' hinv _ hstep => ⟨hinv.step hstep, hinv.readsOn hstep,
      answers_iff hinv.requestId hinv.wellFormed hinv.synced⟩) hstart (Trace.every_true _ _)

end

def responseBody : List UInt8 := utf8 "\x7b\"id\":1,\"result\":\x7b\x7d\x7d".toList

def responseJson : Json := .object [("id", .number "1"), ("result", .object [])]

def logBody : List UInt8 := utf8 "\x7b\"method\":\"window/logMessage\"\x7d".toList

def logJson : Json := .object [("method", .string "window/logMessage")]

def decodeSample (body : List UInt8) : Option Json :=
  if body = responseBody then some responseJson
  else if body = logBody then some logJson
  else none

def response : Message := ⟨⟨[], [], responseBody⟩, responseJson, .handshake⟩

def logMessage : Message := ⟨⟨[], [], logBody⟩, logJson, .notification⟩

theorem wellFormed_samples : ∀ m ∈ [response, logMessage], m.WellFormed decodeSample := by
  have hbare : ∀ body : List UInt8, body.length < 2 ^ 64 → (Frame.mk [] [] body).WellFormed :=
    fun body hfits => ⟨fun _ h => absurd h List.not_mem_nil, fun _ h => absurd h List.not_mem_nil, hfits⟩
  have hresponse : response.WellFormed decodeSample :=
    ⟨hbare _ (by decide), by decide, fun _ => by decide, nofun, nofun, nofun⟩
  have hlog : logMessage.WellFormed decodeSample :=
    ⟨hbare _ (by decide), by decide, nofun, nofun, fun _ => by decide, nofun⟩
  intro m hm
  rcases List.mem_cons.mp hm with rfl | hm
  · exact hresponse
  · obtain rfl := List.mem_singleton.mp hm
    exact hlog

theorem requests_answered_iff_apart :
    (HandsOver decodeSample [response.frame.bytes, logMessage.frame.bytes] [response, logMessage] ↔
      ∃ first rest, [response, logMessage] = first :: rest ∧ first.origin = .handshake ∧
        ∃ k, ([response.frame.bytes, logMessage.frame.bytes].take k).flatten = first.frame.bytes) ∧
      HandsOver decodeSample [response.frame.bytes, logMessage.frame.bytes]
        [response, logMessage] := by
  have hstream : [response.frame.bytes, logMessage.frame.bytes].flatten =
    framesOf [response, logMessage] := rfl
  have hiff := (requests_answered_iff wellFormed_samples hstream).1
  exact ⟨hiff, hiff.mpr ⟨response, _, rfl, rfl, 1, by simp⟩⟩

theorem message_lost_at_handshake :
    (∀ m ∈ [response, logMessage], m.WellFormed decodeSample) ∧
      [response.frame.bytes ++ logMessage.frame.bytes].flatten = framesOf [response, logMessage] ∧
      ¬ HandsOver decodeSample [response.frame.bytes ++ logMessage.frame.bytes]
        [response, logMessage] := by
  have hstream : [response.frame.bytes ++ logMessage.frame.bytes].flatten =
      framesOf [response, logMessage] := by
    simp [framesOf]
  refine ⟨wellFormed_samples, hstream, fun hover => ?_⟩
  obtain ⟨first, rest, hsplit, -, k, hends⟩ := (handsOver_iff wellFormed_samples hstream).mp hover
  obtain ⟨rfl, -⟩ := List.cons.inj hsplit
  have hlog : 0 < logMessage.frame.bytes.length := by decide
  have hresponse : 0 < response.frame.bytes.length := by decide
  have hlength := congrArg List.length hends
  cases k with
  | zero =>
    simp only [List.take_zero, List.flatten_nil, List.length_nil] at hlength
    omega
  | succ k =>
    simp only [List.take_succ_cons, List.take_nil, List.flatten_singleton,
      List.length_append] at hlength
    omega

end SwissArmyHammer.Lsp
