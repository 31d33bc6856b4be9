import Mathlib.Data.List.Nodup
import Mathlib.Logic.Relation
import SwissArmyHammer.Edit.Hashline
import SwissArmyHammer.Text.Lines

/-! The envelopes of requests and responses, and the lines of a stream that carry them. -/

namespace SwissArmyHammer.Leader.Ipc

open Text

structure RequestEnvelope (V : Type) where
  id : Nat
  method : String
  params : V
  deriving DecidableEq

structure ResponseEnvelope (V : Type) where
  id : Nat
  result : Option V
  error : Option String
  deriving DecidableEq

structure ResponseFields (V : Type) where
  id : Nat
  result : Option V
  error : Option String
  deriving DecidableEq

inductive CallResult (V : Type)
  | ok (v : V)
  | remote (message : String)
  | connectionClosed
  | failed
  deriving DecidableEq

section

variable {V : Type}

namespace ResponseEnvelope

def ok (id : Nat) (result : V) : ResponseEnvelope V := ⟨id, some result, none⟩

def err (id : Nat) (message : String) : ResponseEnvelope V := ⟨id, none, some message⟩

def ofOutcome (id : Nat) : Except String V → ResponseEnvelope V
  | .ok result => ok id result
  | .error message => err id message

def fields (r : ResponseEnvelope V) : ResponseFields V := ⟨r.id, r.result, r.error⟩

end ResponseEnvelope

variable [DecidableEq V] (null : V)

def ResponseFields.envelope (f : ResponseFields V) : ResponseEnvelope V :=
  ⟨f.id, f.result.bind fun v => if v = null then none else some v, f.error⟩

def ResponseEnvelope.callResult (r : ResponseEnvelope V) : CallResult V :=
  match r.result, r.error with
  | some result, _ => .ok result
  | none, some message => .remote message
  | none, none => .ok null

def CallResult.ofOutcome : Except String V → CallResult V
  | .ok v => .ok v
  | .error message => .remote message

theorem callResult_ofOutcome (id : Nat) (outcome : Except String V) :
    (((ResponseEnvelope.ofOutcome id outcome).fields.envelope null).callResult null) =
      .ofOutcome outcome := by
  cases outcome with
  | error message => rfl
  | ok v =>
    simp only [ResponseEnvelope.ofOutcome, ResponseEnvelope.ok, ResponseEnvelope.fields,
      ResponseFields.envelope, Option.bind_some]
    split_ifs with h
    · rw [h]
      rfl
    · rfl

end

/-- `serde_json` on the values of one type, which are written as objects. An object that is cut off
is none, and is not made whole by an object that follows. -/
structure ObjectCodec (α : Type) where
  toStr : α → List Char
  fromStr : List Char → Option α
  fromStr_toStr : ∀ a, fromStr (toStr a) = some a
  no_newline : ∀ a, '\n' ∉ toStr a
  braces : ∀ a, ∃ body, toStr a = '\x7b' :: (body ++ ['\x7d'])
  fromStr_cut : ∀ a n, n < (toStr a).length → fromStr ((toStr a).take n) = none
  fromStr_joined : ∀ junk a n, junk.head? = some '\x7b' → 0 < n →
    fromStr (junk ++ (toStr a).take n) = none

structure Write where
  origin : Nat
  text : List Char
  whole : Bool
  ended : Bool
  deriving DecidableEq

def Write.line (origin : Nat) (text : List Char) : Write := ⟨origin, text, true, true⟩

def Write.cut (origin : Nat) (text : List Char) (sent : Nat) : List Write :=
  if sent = 0 then [] else [⟨origin, text.take sent, text.length ≤ sent, text.length < sent⟩]

def nextLine : List Write → Option (List Char × Nat × List Write)
  | [] => none
  | w :: ws =>
    if w.ended then some (w.text, w.origin, ws)
    else (nextLine ws).map fun (line, origin, rest) => (w.text ++ line, origin, rest)

def lastLine (ws : List Write) : Option (List Char × Nat × List Write) :=
  if nextLine ws = none then ws.getLast?.map fun w => (ws.flatMap Write.text, w.origin, [])
  else none

section

variable {α : Type} (C : ObjectCodec α)

def decodeLine (line : List Char) : Option α :=
  if trim line = [] then none else C.fromStr (trimEnd line)

variable {C} {ws rest : List Write} {line text : List Char} {origin sent : Nat} {a : α}

def Reads (ws : List Write) (line : List Char) (origin : Nat) (rest : List Write) : Prop :=
  ∃ junk w, ws = junk ++ w :: rest ∧ w.origin = origin ∧ line = junk.flatMap Write.text ++ w.text

theorem reads_nextLine (h : nextLine ws = some (line, origin, rest)) :
    Reads ws line origin rest := by
  induction ws generalizing line with
  | nil => cases h
  | cons w ws ih =>
    rw [nextLine] at h
    split_ifs at h with hended
    · cases h
      exact ⟨[], w, rfl, rfl, rfl⟩
    · obtain ⟨⟨line', origin', rest'⟩, hnext, heq⟩ := Option.map_eq_some_iff.mp h
      cases heq
      obtain ⟨junk, v, rfl, horigin, rfl⟩ := ih hnext
      exact ⟨w :: junk, v, rfl, horigin, by simp⟩

theorem reads_lastLine (h : lastLine ws = some (line, origin, rest)) :
    Reads ws line origin rest := by
  rw [lastLine] at h
  split_ifs at h with hnext
  obtain ⟨w, hw, heq⟩ := Option.map_eq_some_iff.mp h
  cases heq
  obtain ⟨junk, rfl⟩ := List.getLast?_eq_some_iff.mp hw
  exact ⟨junk, w, rfl, rfl, by simp⟩

theorem trimEnd_brace (s : List Char) : trimEnd (s ++ ['\x7d']) = s ++ ['\x7d'] := by
  rw [trimEnd, List.rdropWhile_concat_neg _ _ _ (by decide)]

theorem trim_brace (s : List Char) : trim ('\x7b' :: s) ≠ [] := by
  have hstart : ('\x7b' :: s).dropWhile isWhitespace = '\x7b' :: s :=
    List.dropWhile_cons_of_neg (by decide)
  rw [trim, hstart, List.reverse_cons]
  intro h
  have hmem : '\x7b' ∈ (s.reverse ++ ['\x7b']).dropWhile isWhitespace := by
    rw [List.dropWhile_append]
    split_ifs
    · exact List.mem_cons_self
    · simp
  rw [List.reverse_eq_nil_iff.mp h] at hmem
  exact absurd hmem List.not_mem_nil

theorem trimEnd_append_brace (junk s : List Char) : ∃ n, n ≤ s.length ∧
    trimEnd (junk ++ '\x7b' :: s) = junk ++ '\x7b' :: s.take n := by
  induction s using List.reverseRecOn with
  | nil =>
    refine ⟨0, Nat.zero_le _, ?_⟩
    rw [trimEnd, List.rdropWhile_concat_neg _ _ _ (by decide)]
    rfl
  | append_singleton s c ih =>
    rw [trimEnd, ← List.cons_append, ← List.append_assoc]
    by_cases hblank : isWhitespace c = true
    · obtain ⟨n, hn, htrim⟩ := ih
      rw [List.rdropWhile_concat_pos _ _ _ hblank]
      refine ⟨n, by rw [List.length_append]; omega, ?_⟩
      rw [List.take_append_of_le_length hn]
      exact htrim
    · rw [List.rdropWhile_concat_neg _ _ _ hblank]
      exact ⟨(s ++ [c]).length, Nat.le_refl _, by rw [List.take_length]; simp⟩

theorem decodeLine_toStr (a : α) : decodeLine C (C.toStr a) = some a := by
  obtain ⟨body, hbody⟩ := C.braces a
  have htrim : trimEnd (C.toStr a) = C.toStr a := by
    rw [hbody, ← List.cons_append]
    exact trimEnd_brace _
  have hne : trim (C.toStr a) ≠ [] := by
    rw [hbody]
    exact trim_brace _
  rw [decodeLine, if_neg hne, htrim, C.fromStr_toStr]

theorem take_toStr {n : Nat} (a : α) (hn : 0 < n) :
    ∃ s, (C.toStr a).take n = '\x7b' :: s ∧ ∀ m ≤ s.length,
      '\x7b' :: s.take m = (C.toStr a).take (m + 1) := by
  obtain ⟨body, hbody⟩ := C.braces a
  obtain ⟨n, rfl⟩ := Nat.exists_eq_succ_of_ne_zero (Nat.pos_iff_ne_zero.mp hn)
  refine ⟨(body ++ ['\x7d']).take n, by rw [hbody, List.take_succ_cons], fun m hm => ?_⟩
  rw [List.length_take] at hm
  rw [hbody, List.take_succ_cons, List.take_take, Nat.min_eq_left (by omega)]

theorem decodeLine_cut {n : Nat} (a : α) (hn : n < (C.toStr a).length) :
    decodeLine C ((C.toStr a).take n) = none := by
  rw [decodeLine]
  split_ifs with hblank
  · rfl
  · rcases Nat.eq_zero_or_pos n with rfl | hpos
    · exact absurd rfl hblank
    · obtain ⟨s, hs, htake⟩ := take_toStr a hpos
      obtain ⟨m, hm, htrim⟩ := trimEnd_append_brace [] s
      have hlength := congrArg List.length hs
      rw [List.length_take, List.length_cons] at hlength
      rw [hs, ← List.nil_append ('\x7b' :: s), htrim, htake m hm]
      exact C.fromStr_cut a _ (by omega)

theorem decodeLine_joined {junk : List Char} {n : Nat} (h : junk.head? = some '\x7b') (a : α)
    (hn : 0 < n) : decodeLine C (junk ++ (C.toStr a).take n) = none := by
  obtain ⟨s, hs, htake⟩ := take_toStr a hn
  obtain ⟨m, hm, htrim⟩ := trimEnd_append_brace junk s
  rw [decodeLine, hs, htrim, htake m hm]
  split_ifs
  · rfl
  · exact C.fromStr_joined junk a _ h (Nat.succ_pos m)

variable (C) in
def Carries (R : Nat → α → Prop) (ws : List Write) : Prop :=
  ∀ w ∈ ws, ∃ a n, R w.origin a ∧ 0 < n ∧ w.text = (C.toStr a).take n ∧
    (w.whole = true ↔ (C.toStr a).length ≤ n)

variable {R : Nat → α → Prop}

theorem Carries.nil : Carries C R [] := fun _ hw => absurd hw List.not_mem_nil

theorem Carries.append {ws' : List Write} (h : Carries C R ws) (h' : Carries C R ws') :
    Carries C R (ws ++ ws') := by
  intro w hw
  rcases List.mem_append.mp hw with hw | hw
  · exact h w hw
  · exact h' w hw

theorem Carries.mono {S : Nat → α → Prop} (h : Carries C R ws) (hRS : ∀ k a, R k a → S k a) :
    Carries C S ws := by
  intro w hw
  obtain ⟨a, n, ha, hcarries⟩ := h w hw
  exact ⟨a, n, hRS _ _ ha, hcarries⟩

theorem carries_cut (h : R origin a) : Carries C R (Write.cut origin (C.toStr a) sent) := by
  intro w hw
  rw [Write.cut] at hw
  split_ifs at hw with hzero
  · exact absurd hw List.not_mem_nil
  · obtain rfl := List.mem_singleton.mp hw
    exact ⟨a, sent, h, Nat.pos_of_ne_zero hzero, rfl, decide_eq_true_iff⟩

theorem carries_line (h : R origin a) : Carries C R [Write.line origin (C.toStr a)] := by
  intro w hw
  obtain rfl := List.mem_singleton.mp hw
  obtain ⟨body, hbody⟩ := C.braces a
  refine ⟨a, (C.toStr a).length, h, ?_, (List.take_length).symm, fun _ => Nat.le_refl _,
    fun _ => rfl⟩
  rw [hbody]
  exact Nat.succ_pos _

theorem Carries.of_reads (h : Carries C R ws) (hline : Reads ws line origin rest) :
    Carries C R rest := by
  obtain ⟨junk, w, rfl, -⟩ := hline
  exact fun v hv => h v (List.mem_append_right _ (List.mem_cons_of_mem _ hv))

def wholes (ws : List Write) : List Nat := (ws.filter Write.whole).map Write.origin

theorem wholes_append (ws ws' : List Write) : wholes (ws ++ ws') = wholes ws ++ wholes ws' := by
  rw [wholes, List.filter_append, List.map_append]
  rfl

theorem Reads.wholes (h : Reads ws line origin rest) : (wholes rest).Sublist (wholes ws) := by
  obtain ⟨junk, w, rfl, -⟩ := h
  exact (((List.sublist_cons_self w rest).trans (List.sublist_append_right junk _)).filter _).map _

theorem Carries.decoded (h : Carries C R ws) (hline : Reads ws line origin rest)
    (hdecoded : decodeLine C line = some a) :
    R origin a ∧ (origin :: Ipc.wholes rest).Sublist (Ipc.wholes ws) := by
  obtain ⟨junk, w, rfl, rfl, rfl⟩ := hline
  obtain ⟨b, n, hb, hpos, htext, hwhole⟩ := h w (by simp)
  rw [htext] at hdecoded
  cases junk with
  | nil =>
    rw [List.flatMap_nil, List.nil_append] at hdecoded
    rcases Nat.lt_or_ge n (C.toStr b).length with hlt | hge
    · rw [decodeLine_cut b hlt] at hdecoded
      cases hdecoded
    · rw [List.take_of_length_le hge, decodeLine_toStr] at hdecoded
      cases hdecoded
      refine ⟨hb, ?_⟩
      rw [List.nil_append, Ipc.wholes, Ipc.wholes, List.filter_cons_of_pos (hwhole.mpr hge)]
      exact List.Sublist.refl _
  | cons c junk =>
    have hhead : (List.flatMap Write.text (c :: junk)).head? = some '\x7b' := by
      obtain ⟨b', n', -, hpos', htext', -⟩ := h c (by simp)
      obtain ⟨s, hs, -⟩ := take_toStr (C := C) b' hpos'
      rw [List.flatMap_cons, htext', hs]
      rfl
    rw [decodeLine_joined hhead b hpos] at hdecoded
    cases hdecoded

theorem wholes_cut (origin : Nat) (text : List Char) (sent : Nat) :
    (wholes (Write.cut origin text sent)).Sublist [origin] := by
  rw [Write.cut]
  split_ifs
  · exact List.nil_sublist _
  · exact List.filter_sublist.map _

end

end SwissArmyHammer.Leader.Ipc

/-! Calls of one client that run at the same time, the handlers of the server, and the reader that
routes the responses back. -/

namespace SwissArmyHammer.Leader.Ipc

inductive Slot (V : Type)
  | empty
  | filled (response : ResponseEnvelope V)
  | closed
  deriving DecidableEq

inductive Phase (V : Type)
  | started
  | registered
  | unsent
  | awaiting
  | returned (result : CallResult V)
  deriving DecidableEq

structure Call (V : Type) where
  request : RequestEnvelope V
  phase : Phase V
  slot : Slot V
  deriving DecidableEq

structure Handling (V : Type) where
  origin : Nat
  request : RequestEnvelope V
  deriving DecidableEq

structure Answer (V : Type) where
  origin : Nat
  response : ResponseEnvelope V
  deriving DecidableEq

inductive Reader
  | reading
  | ended
  | stopped
  deriving DecidableEq

structure Handled (V : Type) where
  origin : Nat
  method : String
  params : V
  outcome : Except String V

/-- The calls in the order in which they have begun, the client's map of pending ids, the two
directions of the stream, and the tasks of the server. `handled` and `delivered` record what the
handlers have returned and which response went to which call. -/
structure Connection (V : Type) where
  nextId : Nat
  calls : List (Call V)
  pending : List (Nat × Nat)
  reader : Reader
  requests : List Write
  serving : Bool
  handlers : List (Handling V)
  answers : List (Answer V)
  responses : List Write
  handled : List (Handled V)
  delivered : List (Nat × Nat)

section

variable {V : Type}

def Phase.isReturned : Phase V → Bool
  | .returned _ => true
  | _ => false

def Slot.close : Slot V → Slot V
  | .empty => .closed
  | slot => slot

def Call.close (call : Call V) : Call V := { call with slot := call.slot.close }

namespace Connection

def initial (V : Type) : Connection V := ⟨1, [], [], .reading, [], true, [], [], [], [], []⟩

def closeAll (entries : List (Nat × Nat)) (calls : List (Call V)) : List (Call V) :=
  calls.mapIdx fun k call => if k ∈ entries.map Prod.snd then call.close else call

def entriesOf (s : Connection V) (id : Nat) : List (Nat × Nat) := s.pending.filter fun e => e.1 = id

def othersOf (s : Connection V) (id : Nat) : List (Nat × Nat) := s.pending.filter fun e => e.1 ≠ id

/-- `next_id.fetch_add`. -/
def start (s : Connection V) (method : String) (params : V) : Connection V :=
  { s with
    nextId := (s.nextId + 1) % 2 ^ 64
    calls := s.calls ++ [⟨⟨s.nextId, method, params⟩, .started, .empty⟩] }

def register (s : Connection V) (k : Nat) (call : Call V) : Connection V :=
  { s with
    pending := (call.request.id, k) :: s.othersOf call.request.id
    calls := (closeAll (s.entriesOf call.request.id) s.calls).set k
      { call with phase := .registered, slot := .empty } }

def setPhase (s : Connection V) (k : Nat) (call : Call V) (phase : Phase V) : Connection V :=
  { s with calls := s.calls.set k { call with phase := phase } }

def unregister (s : Connection V) (k : Nat) (call : Call V) : Connection V :=
  { s with
    pending := s.othersOf call.request.id
    calls := (closeAll (s.entriesOf call.request.id) s.calls).set k
      { call with phase := .returned .failed } }

def route (s : Connection V) (origin : Nat) (response : ResponseEnvelope V) : Connection V :=
  match s.pending.find? fun e => e.1 = response.id with
  | none => s
  | some (_, k) =>
    { s with
      pending := s.othersOf response.id
      calls := s.calls.modify k fun call => { call with slot := .filled response }
      delivered := (origin, k) :: s.delivered }

def endOfStream (s : Connection V) : Connection V :=
  { s with reader := .stopped, pending := [], calls := closeAll s.pending s.calls }

end Connection

structure Codecs (V : Type) where
  requests : ObjectCodec (RequestEnvelope V)
  responses : ObjectCodec (ResponseFields V)

variable [DecidableEq V] (J : Codecs V) (null : V)

namespace Connection

def accept (s : Connection V) (line : List Char) (origin : Nat) (rest : List Write) :
    Connection V :=
  { s with
    requests := rest
    handlers := match decodeLine J.requests line with
      | some request => ⟨origin, request⟩ :: s.handlers
      | none => s.handlers }

def deliver (s : Connection V) (line : List Char) (origin : Nat) (rest : List Write) :
    Connection V :=
  match decodeLine J.responses line with
  | some fields => { s with responses := rest }.route origin (fields.envelope null)
  | none => { s with responses := rest }

end Connection

/-- The steps of the calls, of the server and of the reader, in any order. A call starts in a
state that `starts` allows; a write may fail at any place, and a handler may return anything or
nothing. -/
inductive Step (starts : Connection V → Prop) : Connection V → Connection V → Prop
  | start {s : Connection V} (method : String) (params : V) (h : starts s) :
      Step starts s (s.start method params)
  | register {s : Connection V} {k : Nat} {call : Call V} (hcall : s.calls[k]? = some call)
      (hphase : call.phase = .started) : Step starts s (s.register k call)
  | write {s : Connection V} {k : Nat} {call : Call V} (hcall : s.calls[k]? = some call)
      (hphase : call.phase = .registered) :
      Step starts s { s.setPhase k call .awaiting with
        requests := s.requests ++ [Write.line k (J.requests.toStr call.request)] }
  | failWrite {s : Connection V} {k : Nat} {call : Call V} (sent : Nat)
      (hcall : s.calls[k]? = some call) (hphase : call.phase = .registered) :
      Step starts s { s.setPhase k call .unsent with
        requests := s.requests ++ Write.cut k (J.requests.toStr call.request) sent }
  | unregister {s : Connection V} {k : Nat} {call : Call V} (hcall : s.calls[k]? = some call)
      (hphase : call.phase = .unsent) : Step starts s (s.unregister k call)
  | receive {s : Connection V} {k : Nat} {call : Call V} {response : ResponseEnvelope V}
      (hcall : s.calls[k]? = some call) (hphase : call.phase = .awaiting)
      (hslot : call.slot = .filled response) :
      Step starts s (s.setPhase k call (.returned (response.callResult null)))
  | disconnect {s : Connection V} {k : Nat} {call : Call V} (hcall : s.calls[k]? = some call)
      (hphase : call.phase = .awaiting) (hslot : call.slot = .closed) :
      Step starts s (s.setPhase k call (.returned .connectionClosed))
  | accept {s : Connection V} {line : List Char} {origin : Nat} {rest : List Write}
      (hserving : s.serving = true) (hline : nextLine s.requests = some (line, origin, rest)) :
      Step starts s (s.accept J line origin rest)
  | acceptLast {s : Connection V} {line : List Char} {origin : Nat} {rest : List Write}
      (hserving : s.serving = true) (hline : lastLine s.requests = some (line, origin, rest)) :
      Step starts s { s.accept J line origin rest with serving := false }
  | complete {s : Connection V} {pre post : List (Handling V)} {h : Handling V}
      (outcome : Except String V) (hhandlers : s.handlers = pre ++ h :: post) :
      Step starts s { s with
        handlers := pre ++ post
        answers := ⟨h.origin, .ofOutcome h.request.id outcome⟩ :: s.answers
        handled := ⟨h.origin, h.request.method, h.request.params, outcome⟩ :: s.handled }
  | abort {s : Connection V} {pre post : List (Handling V)} {h : Handling V}
      (hhandlers : s.handlers = pre ++ h :: post) :
      Step starts s { s with handlers := pre ++ post }
  | respond {s : Connection V} {pre post : List (Answer V)} {a : Answer V}
      (hanswers : s.answers = pre ++ a :: post) :
      Step starts s { s with
        answers := pre ++ post
        responses := s.responses ++ [Write.line a.origin (J.responses.toStr a.response.fields)] }
  | failRespond {s : Connection V} {pre post : List (Answer V)} {a : Answer V} (sent : Nat)
      (hanswers : s.answers = pre ++ a :: post) :
      Step starts s { s with
        answers := pre ++ post
        responses := s.responses ++
          Write.cut a.origin (J.responses.toStr a.response.fields) sent }
  | deliver {s : Connection V} {line : List Char} {origin : Nat} {rest : List Write}
      (hreader : s.reader = .reading)
      (hline : nextLine s.responses = some (line, origin, rest)) :
      Step starts s (s.deliver J null line origin rest)
  | deliverLast {s : Connection V} {line : List Char} {origin : Nat} {rest : List Write}
      (hreader : s.reader = .reading)
      (hline : lastLine s.responses = some (line, origin, rest)) :
      Step starts s { s.deliver J null line origin rest with reader := .ended }
  | endOfStream {s : Connection V} (hreader : s.reader ≠ .stopped) : Step starts s s.endOfStream

abbrev Run (starts : Connection V → Prop) := Relation.ReflTransGen (Step J null starts)

end

section

variable {V : Type}

def Live (s : Connection V) (k : Nat) : Prop :=
  (∃ call, s.calls[k]? = some call ∧ call.phase.isReturned = false) ∨ k ∈ wholes s.requests ∨
    k ∈ s.handlers.map Handling.origin ∨ k ∈ s.answers.map Answer.origin ∨ k ∈ wholes s.responses

def IdFree (s : Connection V) : Prop :=
  ∀ k call, Live s k → s.calls[k]? = some call → call.request.id ≠ s.nextId

/-- A call that returns a result or a remote error returns what the handler has made of its own
method and parameters, the handler is run once at most for a call, no response goes to two calls,
and nothing is pending when no call is in flight. -/
structure Correlated (s : Connection V) : Prop where
  ok : ∀ (k : Nat) (call : Call V) (v : V), s.calls[k]? = some call →
    call.phase = .returned (.ok v) →
      ⟨k, call.request.method, call.request.params, .ok v⟩ ∈ s.handled
  remote : ∀ (k : Nat) (call : Call V) (message : String), s.calls[k]? = some call →
    call.phase = .returned (.remote message) →
      ⟨k, call.request.method, call.request.params, .error message⟩ ∈ s.handled
  handledOnce : (s.handled.map Handled.origin).Nodup
  deliveredOnce : (s.delivered.map Prod.fst).Nodup
  deliveredOwn : ∀ d ∈ s.delivered, d.1 = d.2
  pending : (∀ call ∈ s.calls, call.phase.isReturned = true) → s.pending = []

end

end SwissArmyHammer.Leader.Ipc
