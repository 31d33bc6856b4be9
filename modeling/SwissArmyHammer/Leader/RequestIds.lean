import SwissArmyHammer.Leader.Correlation
import SwissArmyHammer.Leader.LeaseFile

/-! The ids of the calls, which come up again after `2 ^ 64` of them. -/

namespace SwissArmyHammer.Leader.Ipc

section

variable {V : Type}

variable {s s' : Connection V}

variable [DecidableEq V] {J : Codecs V} {null : V} {starts : Connection V → Prop}

end

abbrev Flag := Option Bool

def Clean (s : List Char) : Prop := ∀ c ∈ s, c ≠ '\x7b' ∧ c ≠ '\x7d' ∧ c ≠ '\n'

def mark (c : Char) : Char :=
  if c = '\n' then 'n' else if c = '\x7b' then '(' else if c = '\x7d' then ')' else c

def unmark (c : Char) : Char :=
  if c = 'n' then '\n' else if c = '(' then '\x7b' else if c = ')' then '\x7d' else c

def escape (c : Char) : List Char :=
  if c = '"' ∨ c = '\\' ∨ c = '\n' ∨ c = '\x7b' ∨ c = '\x7d' then ['\\', mark c] else [c]

def unescape : Bool → List Char → Option (List Char × List Char)
  | _, [] => none
  | true, c :: rest => (unescape false rest).map fun r => (unmark c :: r.1, r.2)
  | false, c :: rest =>
    if c = '"' then some ([], rest)
    else if c = '\\' then unescape true rest
    else (unescape false rest).map fun r => (c :: r.1, r.2)

def quoted (s : String) : List Char := s.toList.flatMap escape ++ ['"']

def flagText : Flag → List Char
  | none => "null".toList
  | some true => "true".toList
  | some false => "false".toList

def strip (key text : List Char) : Option (List Char) :=
  if key.isPrefixOf text then some (text.drop key.length) else none

def parseFlag (text : List Char) : Option (Flag × List Char) :=
  ((strip "null".toList text).map fun rest => (none, rest)).or
    (((strip "true".toList text).map fun rest => (some true, rest)).or
      ((strip "false".toList text).map fun rest => (some false, rest)))

def parseString (text : List Char) : Option (String × List Char) :=
  (unescape false text).map fun r => (String.ofList r.1, r.2)

theorem strip_append (key rest : List Char) : strip key (key ++ rest) = some rest := by
  rw [strip, if_pos (List.isPrefixOf_iff_prefix.mpr (List.prefix_append _ _)), List.drop_left]

theorem unescape_escape (s rest : List Char) :
    unescape false (s.flatMap escape ++ '"' :: rest) = some (s, rest) := by
  induction s with
  | nil => simp [unescape]
  | cons c s ih =>
    rw [List.flatMap_cons, List.append_assoc, escape]
    split_ifs with hspecial
    · have hmark : unmark (mark c) = c := by
        rcases hspecial with rfl | rfl | rfl | rfl | rfl <;> decide
      rw [List.cons_append, List.cons_append, List.nil_append, unescape, if_pos rfl, unescape, ih, hmark]
      rfl
    · obtain ⟨hquote, hslash, -⟩ : c ≠ '"' ∧ c ≠ '\\' ∧ True := by
        simp only [not_or] at hspecial
        exact ⟨hspecial.1, hspecial.2.1, trivial⟩
      rw [List.cons_append, List.nil_append, unescape, if_neg hquote, if_neg hslash, ih]
      rfl

theorem parseString_quoted (s : String) (rest : List Char) :
    parseString (quoted s ++ rest) = some (s, rest) := by
  rw [parseString, quoted, List.append_assoc, List.singleton_append, unescape_escape,
    Option.map_some, String.ofList_toList]

theorem parseFlag_flagText (v : Flag) (rest : List Char) :
    parseFlag (flagText v ++ rest) = some (v, rest) := by
  rcases v with _ | _ | _ <;> rfl

theorem Clean.append {s t : List Char} (h : Clean s) (h' : Clean t) : Clean (s ++ t) := by
  intro c hc
  rcases List.mem_append.mp hc with hc | hc
  · exact h c hc
  · exact h' c hc

theorem clean_digits (n : Nat) : Clean (Nat.toDigits 10 n) := by
  intro c hc
  have hdigit := Nat.isDigit_of_mem_toDigits (by decide) (by decide) hc
  have hother : ∀ d : Char, d.isDigit = false → c ≠ d := by
    rintro d hd rfl
    rw [hd] at hdigit
    cases hdigit
  exact ⟨hother _ (by decide), hother _ (by decide), hother _ (by decide)⟩

theorem clean_quoted (s : String) : Clean (quoted s) := by
  refine Clean.append ?_ (by intro c hc; rw [List.mem_singleton.mp hc]; decide)
  intro c hc
  obtain ⟨d, -, hd⟩ := List.mem_flatMap.mp hc
  rw [escape] at hd
  split_ifs at hd with hspecial
  · rcases List.mem_pair.mp hd with rfl | rfl
    · decide
    · rcases hspecial with rfl | rfl | rfl | rfl | rfl <;> decide
  · grind

theorem clean_of_all {s : List Char}
    (h : (s.all fun c => c != '\x7b' && (c != '\x7d' && c != '\n')) = true) : Clean s := by
  intro c hc
  simpa using List.all_eq_true.mp h c hc

theorem clean_flagText (v : Flag) : Clean (flagText v) := by
  rcases v with _ | _ | _
  · exact clean_of_all rfl
  · exact clean_of_all rfl
  · exact clean_of_all rfl

def objectCodec {α : Type} (body : α → List Char) (parse : List Char → Option α)
    (hbody : ∀ a, Clean (body a)) (hparse : ∀ a, parse ('\x7b' :: (body a ++ ['\x7d'])) = some a) :
    ObjectCodec α where
  toStr a := '\x7b' :: (body a ++ ['\x7d'])
  fromStr text := if text.count '\x7b' = 1 ∧ '\x7d' ∈ text then parse text else none
  fromStr_toStr a := by
    have hcount : ('\x7b' :: (body a ++ ['\x7d'])).count '\x7b' = 1 := by
      have hzero : (body a).count '\x7b' = 0 :=
        List.count_eq_zero.mpr fun hmem => (hbody a _ hmem).1 rfl
      rw [List.count_cons_self, List.count_append, hzero]
      rfl
    rw [if_pos ⟨hcount, by simp⟩, hparse]
  no_newline a hmem := by
    rcases List.mem_cons.mp hmem with heq | hmem
    · exact absurd heq (by decide)
    · rcases List.mem_append.mp hmem with hmem | hmem
      · exact (hbody a _ hmem).2.2 rfl
      · exact absurd (List.mem_singleton.mp hmem) (by decide)
  braces a := ⟨body a, rfl⟩
  fromStr_cut a n hn := by
    refine if_neg fun hbraces => ?_
    rw [List.length_cons, List.length_append, List.length_singleton] at hn
    have hmem : '\x7d' ∈ '\x7b' :: body a := by
      rw [← List.cons_append, List.take_append_of_le_length (by rw [List.length_cons]; omega)]
        at hbraces
      exact List.take_subset _ _ hbraces.2
    rcases List.mem_cons.mp hmem with heq | hmem
    · exact absurd heq (by decide)
    · exact (hbody a _ hmem).2.1 rfl
  fromStr_joined junk a n hjunk hn := by
    obtain ⟨rest, rfl⟩ : ∃ rest, junk = '\x7b' :: rest := by
      cases junk with
      | nil => cases hjunk
      | cons c rest =>
        cases hjunk
        exact ⟨rest, rfl⟩
    refine if_neg fun hbraces => ?_
    obtain ⟨n, rfl⟩ := Nat.exists_eq_succ_of_ne_zero (Nat.pos_iff_ne_zero.mp hn)
    have hcount := hbraces.1
    rw [List.take_succ_cons, List.count_append, List.count_cons_self,
      List.count_cons_self] at hcount
    omega

def idKey : List Char := "\"id\":".toList
def methodKey : List Char := ",\"method\":\"".toList
def paramsKey : List Char := ",\"params\":".toList
def resultKey : List Char := ",\"result\":".toList
def errorKey : List Char := ",\"error\":\"".toList

def requestBody (r : RequestEnvelope Flag) : List Char :=
  idKey ++ (Nat.toDigits 10 r.id ++ (methodKey ++ (quoted r.method ++ (paramsKey ++
    flagText r.params))))

def parseRequest (text : List Char) : Option (RequestEnvelope Flag) :=
  (field ('\x7b' :: idKey) text).bind fun id =>
    (strip methodKey id.2).bind fun rest => (parseString rest).bind fun method =>
      (strip paramsKey method.2).bind fun rest => (parseFlag rest).bind fun params =>
        if params.2 = ['\x7d'] then some ⟨id.1, method.1, params.1⟩ else none

def responseBody (f : ResponseFields Flag) : List Char :=
  idKey ++ (Nat.toDigits 10 f.id ++
    ((f.result.map fun v => resultKey ++ flagText v).getD [] ++
      (f.error.map fun message => errorKey ++ quoted message).getD []))

def optional {α : Type} (key : List Char) (parse : List Char → Option (α × List Char))
    (text : List Char) : Option (Option α × List Char) :=
  match strip key text with
  | some rest => (parse rest).map fun r => (some r.1, r.2)
  | none => some (none, text)

def parseResponse (text : List Char) : Option (ResponseFields Flag) :=
  (field ('\x7b' :: idKey) text).bind fun id =>
    (optional resultKey parseFlag id.2).bind fun result =>
      (optional errorKey parseString result.2).bind fun error =>
        if error.2 = ['\x7d'] then some ⟨id.1, result.1, error.1⟩ else none

theorem parseRequest_body (r : RequestEnvelope Flag) :
    parseRequest ('\x7b' :: (requestBody r ++ ['\x7d'])) = some r := by
  have hid := field_append ('\x7b' :: idKey) r.id (methodKey ++ (quoted r.method ++ (paramsKey ++
    (flagText r.params ++ ['\x7d'])))) rfl
  rw [parseRequest, requestBody]
  simp only [List.append_assoc, List.cons_append] at hid ⊢
  rw [hid, Option.bind_some, strip_append, Option.bind_some, parseString_quoted, Option.bind_some,
    strip_append, Option.bind_some, parseFlag_flagText, Option.bind_some, if_pos rfl]

theorem optional_some {α : Type} {key body rest : List Char}
    {parse : List Char → Option (α × List Char)} {a : α}
    (hparse : parse (body ++ rest) = some (a, rest)) :
    optional key parse (key ++ (body ++ rest)) = some (some a, rest) := by
  rw [optional, strip_append]
  simp only [hparse, Option.map_some]

theorem parseResponse_body (f : ResponseFields Flag) :
    parseResponse ('\x7b' :: (responseBody f ++ ['\x7d'])) = some f := by
  obtain ⟨id, result, error⟩ := f
  have herror : ∀ error : Option String, optional errorKey parseString
      ((error.map fun message => errorKey ++ quoted message).getD [] ++ ['\x7d']) =
        some (error, ['\x7d']) := by
    rintro (_ | message)
    · rfl
    · exact optional_some (parseString_quoted message _)
  have hresult : ∀ rest : List Char, strip resultKey rest = none →
      optional resultKey parseFlag
        ((result.map fun v => resultKey ++ flagText v).getD [] ++ rest) = some (result, rest) := by
    intro rest hrest
    cases result with
    | none =>
      simp only [Option.map_none, Option.getD_none, List.nil_append]
      rw [optional, hrest]
    | some v =>
      exact optional_some (parseFlag_flagText v _)
  have hnone : strip resultKey
      ((error.map fun message => errorKey ++ quoted message).getD [] ++ ['\x7d']) = none := by
    cases error with
    | none => rfl
    | some message => rfl
  have hdigit : (((result.map fun v => resultKey ++ flagText v).getD [] ++
      ((error.map fun message => errorKey ++ quoted message).getD [] ++ ['\x7d'])).head?).all
        (fun c => !c.isDigit) = true := by
    cases result with
    | none => cases error <;> rfl
    | some v => rfl
  have hid := field_append ('\x7b' :: idKey) id _ hdigit
  rw [parseResponse, responseBody]
  simp only [List.append_assoc, List.cons_append] at hid ⊢
  rw [hid, Option.bind_some, hresult _ hnone, Option.bind_some, herror, Option.bind_some,
    if_pos rfl]

theorem clean_key : Clean idKey ∧ Clean methodKey ∧ Clean paramsKey ∧ Clean resultKey ∧
    Clean errorKey :=
  ⟨clean_of_all rfl, clean_of_all rfl, clean_of_all rfl, clean_of_all rfl, clean_of_all rfl⟩

def flagCodecs : Codecs Flag where
  requests := objectCodec requestBody parseRequest
    (fun r => clean_key.1.append ((clean_digits _).append (clean_key.2.1.append
      ((clean_quoted _).append (clean_key.2.2.1.append (clean_flagText _))))))
    parseRequest_body
  responses := objectCodec responseBody parseResponse
    (fun f => by
      refine clean_key.1.append ((clean_digits _).append (Clean.append ?_ ?_))
      · cases f.result with
        | none => exact fun c hc => absurd hc List.not_mem_nil
        | some v => exact clean_key.2.2.2.1.append (clean_flagText v)
      · cases f.error with
        | none => exact fun c hc => absurd hc List.not_mem_nil
        | some message => exact clean_key.2.2.2.2.append (clean_quoted message))
    parseResponse_body

example : (flagCodecs.requests.toStr ⟨1, "status", none⟩ : List Char) =
    "\x7b\"id\":1,\"method\":\"status\",\"params\":null\x7d".toList := by
  decide

section

variable {V : Type} {s : Connection V}

theorem set_last (calls : List (Call V)) (c c' : Call V) :
    (calls ++ [c]).set calls.length c' = calls ++ [c'] := by
  rw [List.set_append_right _ _ (Nat.le_refl _), Nat.sub_self]
  rfl

theorem closeAll_set_last {calls : List (Call V)} {entries : List (Nat × Nat)}
    (hown : ∀ e ∈ entries, e.2 = calls.length) (c c' : Call V) :
    (Connection.closeAll entries (calls ++ [c])).set calls.length c' = calls ++ [c'] := by
  have hlength : (Connection.closeAll entries (calls ++ [c])).length = calls.length + 1 := by
    rw [Connection.closeAll, List.length_mapIdx, List.length_append, List.length_singleton]
  apply List.ext_getElem?
  intro i
  rcases Nat.lt_trichotomy i calls.length with hlt | rfl | hgt
  · have hkept : i ∉ entries.map Prod.snd := by
      intro hmem
      obtain ⟨e, he, rfl⟩ := List.mem_map.mp hmem
      have hsame := hown e he
      omega
    rw [List.getElem?_set_ne (by omega), closeAll_getElem?, List.getElem?_append_left hlt,
      List.getElem?_append_left hlt]
    simp [hkept]
  · rw [List.getElem?_set_self (by omega), List.getElem?_concat_length]
  · rw [List.getElem?_set_ne (by omega), List.getElem?_eq_none (by omega),
      List.getElem?_eq_none (by rw [List.length_append, List.length_singleton]; omega)]

theorem entriesOf_next (hother : ∀ e ∈ s.pending, e.1 ≠ s.nextId) : s.entriesOf s.nextId = [] :=
  List.filter_eq_nil_iff.mpr fun e he => by simpa using hother e he

theorem othersOf_next (hother : ∀ e ∈ s.pending, e.1 ≠ s.nextId) :
    s.othersOf s.nextId = s.pending :=
  List.filter_eq_self.mpr fun e he => by simpa using hother e he

def registeredLast (s : Connection V) (call : Call V) : Connection V :=
  { s with
    nextId := (s.nextId + 1) % 2 ^ 64
    calls := s.calls ++ [call]
    pending := (s.nextId, s.calls.length) :: s.pending }

theorem unregister_last (hother : ∀ e ∈ s.pending, e.1 ≠ s.nextId) {call : Call V}
    (hid : call.request.id = s.nextId) :
    (registeredLast s call).unregister s.calls.length call = { s with
      nextId := (s.nextId + 1) % 2 ^ 64
      calls := s.calls ++ [{ call with phase := .returned .failed }] } := by
  have hown : (registeredLast s call).entriesOf s.nextId = [(s.nextId, s.calls.length)] := by
    rw [Connection.entriesOf, registeredLast, List.filter_cons_of_pos (by simp)]
    exact congrArg (List.cons _) (entriesOf_next hother)
  have hrest : (registeredLast s call).othersOf s.nextId = s.pending := by
    rw [Connection.othersOf, registeredLast, List.filter_cons_of_neg (by simp)]
    exact othersOf_next hother
  simp only [Connection.unregister]
  rw [hid, hown, hrest]
  exact congrArg (fun calls => ({ s with
    nextId := (s.nextId + 1) % 2 ^ 64, calls := calls } : Connection V))
    (closeAll_set_last (by simp) _ _)

end

section

variable {V : Type} [DecidableEq V] {J : Codecs V} {null : V} {s : Connection V}

def answeredFirst (J : Codecs V) (method : String) (params result : V) : Connection V where
  nextId := 2
  calls := [⟨⟨1, method, params⟩, .awaiting, .empty⟩]
  pending := [(1, 0)]
  reader := .reading
  requests := []
  serving := true
  handlers := []
  answers := []
  responses := [Write.line 0 (J.responses.toStr (ResponseEnvelope.ok 1 result).fields)]
  handled := [⟨0, method, params, .ok result⟩]
  delivered := []

theorem run_answeredFirst {starts : Connection V → Prop} (hstarts : starts (.initial V))
    (method : String) (params result : V) :
    Run J null starts (.initial V) (answeredFirst J method params result) := by
  let request : RequestEnvelope V := ⟨1, method, params⟩
  let answer : Answer V := ⟨0, .ok 1 result⟩
  let sent : Connection V := { answeredFirst J method params result with
    requests := [Write.line 0 (J.requests.toStr request)], responses := [], handled := [] }
  let accepted : Connection V := { sent with requests := [], handlers := [⟨0, request⟩] }
  let handled : Connection V := { answeredFirst J method params result with
    answers := [answer], responses := [] }
  have hsent : Run J null starts (.initial V) sent := by
    refine .head (.start method params hstarts) ?_
    refine .head (.register (k := 0) rfl rfl) ?_
    exact .head (.write (k := 0) rfl rfl) .refl
  have haccept : Step J null starts sent accepted := by
    have hstep : Step J null starts sent (sent.accept J (J.requests.toStr request) 0 []) :=
      .accept rfl rfl
    rw [Connection.accept, decodeLine_toStr] at hstep
    exact hstep
  have hcomplete : Step J null starts accepted handled :=
    @Step.complete _ _ J null starts accepted [] [] ⟨0, request⟩ (.ok result) rfl
  have hrespond : Step J null starts handled (answeredFirst J method params result) :=
    @Step.respond _ _ J null starts handled [] [] answer rfl
  exact ((hsent.tail haccept).tail hcomplete).tail hrespond

theorem run_receive {starts : Connection V → Prop} {k origin id : Nat} {call : Call V} {v : V}
    {rest : List Write} (hcall : s.calls[k]? = some call) (hphase : call.phase = .awaiting)
    (hpending : s.pending = [(id, k)]) (hreader : s.reader = .reading)
    (hresponses : s.responses =
      Write.line origin (J.responses.toStr (ResponseEnvelope.ok id v).fields) :: rest) :
    ∃ s', Run J null starts s s' ∧ s'.handled = s.handled ∧
      ∃ call', s'.calls[k]? = some call' ∧ call'.request = call.request ∧
        call'.phase = .returned (.ok v) := by
  let response := (ResponseEnvelope.ok id v).fields.envelope null
  have hlt := (List.getElem?_eq_some_iff.mp hcall).1
  have hline : nextLine s.responses =
      some (J.responses.toStr (ResponseEnvelope.ok id v).fields, origin, rest) := by
    rw [hresponses, nextLine, Write.line, if_pos rfl]
  have hdeliver : Step J null starts s (s.deliver J null _ origin rest) := .deliver hreader hline
  have hrouted : ∃ s₁, s₁ = s.deliver J null (J.responses.toStr (ResponseEnvelope.ok id v).fields)
      origin rest ∧ s₁.handled = s.handled ∧
        s₁.calls[k]? = some { call with slot := .filled response } := by
    refine ⟨_, rfl, ?_⟩
    rw [Connection.deliver, decodeLine_toStr]
    have hfind : s.pending.find? (fun e => e.1 = response.id) = some (id, k) := by
      rw [hpending, List.find?_cons_of_pos (by exact decide_eq_true rfl)]
    simp only [Connection.route]
    rw [hfind]
    refine ⟨rfl, ?_⟩
    show (s.calls.modify k fun call => { call with slot := .filled response })[k]? = _
    rw [modify_eq_set hcall, List.getElem?_set_self hlt]
  obtain ⟨s₁, rfl, hhandled, hget⟩ := hrouted
  have hreceive : Step J null starts (s.deliver J null _ origin rest) _ :=
    .receive hget hphase rfl
  refine ⟨_, (Relation.ReflTransGen.single hdeliver).tail hreceive, hhandled, _,
    List.getElem?_set_self (List.getElem?_eq_some_iff.mp hget).1, rfl, ?_⟩
  exact congrArg Phase.returned (callResult_ofOutcome null id (.ok v))

theorem run_registered (hother : ∀ e ∈ s.pending, e.1 ≠ s.nextId) (method : String) (params : V) :
    Run J null (fun _ => True) s
      (registeredLast s ⟨⟨s.nextId, method, params⟩, .registered, .empty⟩) := by
  let call : Call V := ⟨⟨s.nextId, method, params⟩, .started, .empty⟩
  have hstep : Step J null (fun _ => True) (s.start method params)
      ((s.start method params).register s.calls.length call) :=
    .register List.getElem?_concat_length rfl
  have hempty : (s.start method params).entriesOf s.nextId = [] := entriesOf_next hother
  have hsame : (s.start method params).register s.calls.length call =
      registeredLast s { call with phase := .registered } := by
    simp only [Connection.register]
    rw [hempty]
    exact congrArg₂ (fun calls pending => ({ s with
      nextId := (s.nextId + 1) % 2 ^ 64, calls := calls, pending := pending } : Connection V))
      (closeAll_set_last (by simp) _ _)
      (congrArg ((s.nextId, s.calls.length) :: ·) (othersOf_next hother))
  rw [hsame] at hstep
  exact .head (.start method params trivial) (.single hstep)

theorem run_failed (hother : ∀ e ∈ s.pending, e.1 ≠ s.nextId) (method : String) (params : V) :
    ∃ call, Run J null (fun _ => True) s
      { s with nextId := (s.nextId + 1) % 2 ^ 64, calls := s.calls ++ [call] } := by
  let call : Call V := ⟨⟨s.nextId, method, params⟩, .registered, .empty⟩
  let unsent : Call V := { call with phase := .unsent }
  have hfail : Step J null (fun _ => True) (registeredLast s call) (registeredLast s unsent) := by
    have hstep : Step J null (fun _ => True) (registeredLast s call) _ :=
      .failWrite 0 List.getElem?_concat_length rfl
    simp only [Connection.setPhase, Write.cut, if_true, List.append_nil] at hstep
    rw [registeredLast, set_last] at hstep
    exact hstep
  have hunregister : Step J null (fun _ => True) (registeredLast s unsent)
      ((registeredLast s unsent).unregister s.calls.length unsent) :=
    .unregister List.getElem?_concat_length rfl
  rw [unregister_last hother rfl] at hunregister
  exact ⟨_, ((run_registered hother method params).tail hfail).tail hunregister⟩

theorem run_failures (n : Nat) (method : String) (params : V) (hid : s.nextId < 2 ^ 64)
    (hother : ∀ i < n, ∀ e ∈ s.pending, e.1 ≠ (s.nextId + i) % 2 ^ 64) :
    ∃ calls, calls.length = n ∧ Run J null (fun _ => True) s
      { s with nextId := (s.nextId + n) % 2 ^ 64, calls := s.calls ++ calls } := by
  induction n with
  | zero =>
    refine ⟨[], rfl, ?_⟩
    rw [Nat.add_zero, Nat.mod_eq_of_lt hid, List.append_nil]
  | succ n ih =>
    obtain ⟨calls, hlength, hrun⟩ := ih fun i hi => hother i (Nat.lt_succ_of_lt hi)
    let t : Connection V := { s with
      nextId := (s.nextId + n) % 2 ^ 64, calls := s.calls ++ calls }
    have hfresh : ∀ e ∈ t.pending, e.1 ≠ t.nextId := hother n (Nat.lt_succ_self n)
    obtain ⟨call, hlast⟩ : ∃ call, Run J null (fun _ => True) t
        { t with nextId := (t.nextId + 1) % 2 ^ 64, calls := t.calls ++ [call] } :=
      run_failed hfresh method params
    refine ⟨calls ++ [call], by simp [hlength], hrun.trans ?_⟩
    have hnext : (t.nextId + 1) % 2 ^ 64 = (s.nextId + (n + 1)) % 2 ^ 64 := by
      rw [Nat.mod_add_mod, Nat.add_assoc]
    have hcalls : t.calls ++ [call] = s.calls ++ (calls ++ [call]) := List.append_assoc _ _ _
    rw [← hnext, ← hcalls]
    exact hlast

theorem run_send (method : String) (params : V) :
    ∃ s', Run J null (fun _ => True) s s' ∧
      s'.calls[s.calls.length]? = some ⟨⟨s.nextId, method, params⟩, .awaiting, .empty⟩ ∧
        s'.pending = (s.nextId, s.calls.length) :: s.othersOf s.nextId ∧
          s'.reader = s.reader ∧ s'.responses = s.responses ∧ s'.handled = s.handled := by
  let k := s.calls.length
  let call : Call V := ⟨⟨s.nextId, method, params⟩, .started, .empty⟩
  have hget : (s.start method params).calls[k]? = some call := List.getElem?_concat_length
  let t := (s.start method params).register k call
  have hlt : k < (Connection.closeAll ((s.start method params).entriesOf s.nextId)
      (s.start method params).calls).length := by
    rw [Connection.closeAll, List.length_mapIdx]
    exact (List.getElem?_eq_some_iff.mp hget).1
  have hregistered : t.calls[k]? = some { call with phase := .registered } :=
    List.getElem?_set_self hlt
  have hwrite : Step J null (fun _ => True) t _ := .write hregistered rfl
  refine ⟨_, ((Relation.ReflTransGen.single (.start method params trivial)).tail
    (.register hget rfl)).tail hwrite, ?_, rfl, rfl, rfl, rfl⟩
  exact List.getElem?_set_self (List.getElem?_eq_some_iff.mp hregistered).1

end

end SwissArmyHammer.Leader.Ipc
