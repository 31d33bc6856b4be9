import Mathlib.Data.List.Induction
import Mathlib.Data.List.Infix
import Mathlib.Logic.Function.Basic
import SwissArmyHammer.Shell.ShellState

/-! Several sessions share one log. What a session reads of it is what it wrote, where no text has
what the readers take for something else. -/

namespace SwissArmyHammer.Shell

open Text

structure Shells (n : Nat) where
  states : Fin n → ShellState
  log : List Char

inductive Action (n : Nat)
  | start (i : Fin n)
  | append (i : Fin n) (cmdId : Nat) (lines : List Line)

variable {n : Nat}

def perform (w : Shells n) : Action n → Shells n
  | .start i => { w with states := Function.update w.states i (startCommand (w.states i)).2 }
  | .append i cmdId lines =>
    match appendLines (w.states i) w.log cmdId lines with
    | .error _ => w
    | .ok (state, log) => ⟨Function.update w.states i state, log⟩

def opened (sessions : Fin n → SessionId) : Shells n := ⟨fun i => ⟨sessions i, []⟩, []⟩

def run (sessions : Fin n → SessionId) (actions : List (Action n)) : Shells n :=
  actions.foldl perform (opened sessions)

structure Record (n : Nat) where
  session : Fin n
  cmdId : Nat
  number : Nat
  text : Line
  deriving DecidableEq

def Record.isOf (i : Fin n) (cmdId : Nat) (r : Record n) : Bool := r.session = i && r.cmdId = cmdId

structure Told (n : Nat) where
  started : Fin n → Nat
  records : List (Record n)

def Told.write (i : Fin n) (cmdId : Nat) (records : List (Record n)) (line : Line) :
    List (Record n) :=
  records ++ [⟨i, cmdId, records.countP (Record.isOf i cmdId) + 1, line⟩]

def Told.tell (t : Told n) : Action n → Told n
  | .start i => { t with started := Function.update t.started i (t.started i + 1) }
  | .append i cmdId lines =>
    if 1 ≤ cmdId ∧ cmdId ≤ t.started i then
      { t with records := lines.foldl (Told.write i cmdId) t.records }
    else t

def told (actions : List (Action n)) : Told n := actions.foldl Told.tell ⟨fun _ => 0, []⟩

def Record.line (sessions : Fin n → SessionId) (r : Record n) : List Char :=
  logEntry (sessions r.session) r.cmdId r.number r.text.val

def Record.entry (r : Record n) : LogEntry := ⟨r.cmdId, r.number, r.text.val⟩

def commandsOf (t : Told n) (i : Fin n) : List CommandRecord :=
  (List.range (t.started i)).map fun k => ⟨k + 1, t.records.countP (Record.isOf i (k + 1))⟩

structure Agrees (sessions : Fin n → SessionId) (t : Told n) (w : Shells n) : Prop where
  log : w.log = (t.records.map fun r => r.line sessions ++ ['\n']).flatten
  sessionId : ∀ i, (w.states i).sessionId = sessions i
  commands : ∀ i, (w.states i).commands = commandsOf t i
  known : ∀ r ∈ t.records, r.cmdId ≤ t.started r.session

def Numbered (records : List (Record n)) : Prop :=
  ∀ pre r post, records = pre ++ r :: post →
    r.number = pre.countP (Record.isOf r.session r.cmdId) + 1

section

variable {sessions : Fin n → SessionId} {t : Told n} {w : Shells n} {i j : Fin n}
  {cmdId k : Nat} {lines : List Line} {records : List (Record n)}

theorem countP_write (i j : Fin n) (cmdId k : Nat) (records : List (Record n)) (line : Line) :
    (Told.write i cmdId records line).countP (Record.isOf j k) =
      records.countP (Record.isOf j k) + if i = j ∧ cmdId = k then 1 else 0 := by
  rw [Told.write, List.countP_append, List.countP_singleton]
  by_cases h : i = j ∧ cmdId = k
  · simp [Record.isOf, h]
  · simp only [Record.isOf, Bool.and_eq_true, decide_eq_true_eq, if_neg h]

theorem countP_foldl_write (i j : Fin n) (cmdId k : Nat) (records : List (Record n)) :
    (lines.foldl (Told.write i cmdId) records).countP (Record.isOf j k) =
      records.countP (Record.isOf j k) + if i = j ∧ cmdId = k then lines.length else 0 := by
  induction lines generalizing records with
  | nil => simp
  | cons line lines ih =>
    rw [List.foldl_cons, ih, countP_write, Nat.add_assoc]
    congr 1
    split_ifs
    · rw [List.length_cons, Nat.add_comm]
    · rfl

theorem foldl_writeLine (i : Fin n) (cmdId : Nat) (records : List (Record n)) :
    lines.foldl (writeLine (sessions i) cmdId)
        (records.countP (Record.isOf i cmdId),
          (records.map fun r => r.line sessions ++ ['\n']).flatten) =
      ((lines.foldl (Told.write i cmdId) records).countP (Record.isOf i cmdId),
        ((lines.foldl (Told.write i cmdId) records).map
          fun r => r.line sessions ++ ['\n']).flatten) := by
  induction lines generalizing records with
  | nil => rfl
  | cons line lines ih =>
    rw [List.foldl_cons, List.foldl_cons, ← ih]
    rw [writeLine, countP_write, Told.write, List.map_append,
      List.flatten_append]
    simp [Record.line]

theorem find?_commandsOf (t : Told n) (i : Fin n) (cmdId : Nat) :
    (commandsOf t i).find? (fun r => r.id = cmdId) =
      if 1 ≤ cmdId ∧ cmdId ≤ t.started i then
        some ⟨cmdId, t.records.countP (Record.isOf i cmdId)⟩ else none := by
  split_ifs with h
  · obtain ⟨k, rfl⟩ := Nat.exists_eq_add_of_le' h.1
    rw [commandsOf, List.find?_map]
    have hfind : (List.range (t.started i)).find?
        ((fun r : CommandRecord => decide (r.id = k + 1)) ∘ fun k =>
          ⟨k + 1, t.records.countP (Record.isOf i (k + 1))⟩) = some k := by
      refine List.find?_range_eq_some.mpr ⟨by simp, List.mem_range.mpr h.2, ?_⟩
      intro m hm
      simp only [Function.comp_apply, Bool.not_eq_true', decide_eq_false_iff_not]
      omega
    rw [hfind]
    rfl
  · refine List.find?_eq_none.mpr fun r hr heq => h ?_
    obtain ⟨k, hk, rfl⟩ := List.mem_map.mp hr
    have hid : k + 1 = cmdId := of_decide_eq_true heq
    have hlt := List.mem_range.mp hk
    omega

theorem findIdx_commandsOf (hk : k < t.started i) :
    (commandsOf t i).findIdx (fun r => r.id = k + 1) = k := by
  have hlen : (commandsOf t i).length = t.started i := by simp [commandsOf]
  rw [List.findIdx_eq (by omega)]
  refine ⟨by simp [commandsOf], fun m hm => ?_⟩
  simp only [commandsOf, List.getElem_map, List.getElem_range, decide_eq_false_iff_not]
  omega

theorem Agrees.start (h : Agrees sessions t w) (i : Fin n) :
    Agrees sessions (t.tell (.start i)) (perform w (.start i)) := by
  refine ⟨h.log, ?_, ?_, ?_⟩
  · intro j
    by_cases hj : j = i
    · subst hj
      simp [perform, startCommand, h.sessionId]
    · simp [perform, hj, h.sessionId]
  · intro j
    by_cases hj : j = i
    · subst hj
      have hnone : t.records.countP (Record.isOf j (t.started j + 1)) = 0 := by
        refine List.countP_eq_zero.mpr fun r hr hof => ?_
        simp only [Record.isOf, Bool.and_eq_true, decide_eq_true_eq] at hof
        have hle := h.known r hr
        rw [hof.1, hof.2] at hle
        omega
      simp [perform, startCommand, h.commands, commandsOf, Told.tell, List.range_succ, hnone]
    · simp [perform, hj, h.commands, commandsOf, Told.tell]
  · intro r hr
    have hle := h.known r hr
    show r.cmdId ≤ Function.update t.started i (t.started i + 1) r.session
    by_cases hi : r.session = i
    · rw [hi, Function.update_self]
      rw [hi] at hle
      omega
    · rw [Function.update_of_ne hi]
      exact hle

theorem mem_foldl_write {r : Record n}
    (h : r ∈ lines.foldl (Told.write i cmdId) records) :
    r ∈ records ∨ r.session = i ∧ r.cmdId = cmdId := by
  induction lines generalizing records with
  | nil => exact .inl h
  | cons line lines ih =>
    rcases ih h with h | h
    · rcases List.mem_append.mp h with h | h
      · exact .inl h
      · rw [List.mem_singleton.mp h]
        exact .inr ⟨rfl, rfl⟩
    · exact .inr h

theorem modify_commandsOf (hcmd : 1 ≤ cmdId ∧ cmdId ≤ t.started i) (lines : List Line) :
    (commandsOf t i).modify ((commandsOf t i).findIdx fun r => r.id = cmdId) (fun r =>
        { r with
          lineCount :=
            (lines.foldl (Told.write i cmdId) t.records).countP (Record.isOf i cmdId) }) =
      commandsOf { t with records := lines.foldl (Told.write i cmdId) t.records } i := by
  obtain ⟨k, rfl⟩ := Nat.exists_eq_add_of_le' hcmd.1
  rw [findIdx_commandsOf hcmd.2]
  refine List.ext_getElem? fun m => ?_
  rw [List.getElem?_modify]
  simp only [commandsOf, List.getElem?_map]
  by_cases hm : m < t.started i
  · rw [List.getElem?_range hm]
    by_cases hk : k = m
    · subst hk
      simp
    · simp [hk, countP_foldl_write]
  · rw [List.getElem?_eq_none (by simpa using hm)]
    simp

theorem Agrees.append (h : Agrees sessions t w) (i : Fin n) (cmdId : Nat) (lines : List Line) :
    Agrees sessions (t.tell (.append i cmdId lines)) (perform w (.append i cmdId lines)) := by
  have hfind := find?_commandsOf t i cmdId
  by_cases hcmd : 1 ≤ cmdId ∧ cmdId ≤ t.started i
  · rw [if_pos hcmd] at hfind
    have hwritten : lines.foldl (writeLine (sessions i) cmdId) (t.records.countP (Record.isOf i cmdId),
        (t.records.map fun r => r.line sessions ++ ['\n']).flatten) = _ :=
      foldl_writeLine i cmdId t.records
    rw [← h.log] at hwritten
    have hperform : perform w (.append i cmdId lines) = ⟨Function.update w.states i
        ⟨sessions i, commandsOf
          { t with records := lines.foldl (Told.write i cmdId) t.records } i⟩,
        ((lines.foldl (Told.write i cmdId) t.records).map
          fun r => r.line sessions ++ ['\n']).flatten⟩ := by
      simp only [perform, appendLines, h.commands, hfind, h.sessionId, hwritten]
      rw [modify_commandsOf hcmd]
    have htell : t.tell (.append i cmdId lines) =
        { t with records := lines.foldl (Told.write i cmdId) t.records } := by
      rw [Told.tell, if_pos hcmd]
    rw [hperform, htell]
    refine ⟨rfl, ?_, ?_, ?_⟩
    · intro j
      show (Function.update w.states i _ j).sessionId = sessions j
      by_cases hj : j = i
      · rw [hj, Function.update_self]
      · rw [Function.update_of_ne hj, h.sessionId]
    · intro j
      show (Function.update w.states i _ j).commands = _
      by_cases hj : j = i
      · rw [hj, Function.update_self]
      · rw [Function.update_of_ne hj, h.commands]
        refine List.map_congr_left fun k _ => ?_
        rw [countP_foldl_write, if_neg fun heq => hj heq.1.symm]
        rfl
    · intro r hr
      rcases mem_foldl_write hr with hr | ⟨hi, hc⟩
      · exact h.known r hr
      · rw [hi, hc]
        exact hcmd.2
  · rw [if_neg hcmd] at hfind
    have hperform : perform w (.append i cmdId lines) = w := by
      simp only [perform, appendLines, h.commands, hfind]
    have htell : t.tell (.append i cmdId lines) = t := by
      rw [Told.tell, if_neg hcmd]
    rw [hperform, htell]
    exact h

theorem agrees_run (sessions : Fin n → SessionId) (actions : List (Action n)) :
    Agrees sessions (told actions) (run sessions actions) := by
  induction actions using List.reverseRecOn with
  | nil =>
    refine ⟨rfl, fun _ => rfl, fun i => ?_, by simp [told]⟩
    simp [run, opened, commandsOf, told]
  | append_singleton actions a ih =>
    rw [told, run, List.foldl_append, List.foldl_append]
    cases a with
    | start i => exact ih.start i
    | append i cmdId lines => exact ih.append i cmdId lines

theorem numbered_concat {r : Record n} :
    Numbered (records ++ [r]) ↔
      Numbered records ∧ r.number = records.countP (Record.isOf r.session r.cmdId) + 1 := by
  constructor
  · intro h
    refine ⟨fun pre r' post heq => h pre r' (post ++ [r]) ?_, h records r [] rfl⟩
    rw [heq, List.append_assoc, List.cons_append]
  · rintro ⟨h, hr⟩ pre r' post heq
    rcases List.eq_nil_or_concat post with rfl | ⟨post, last, rfl⟩
    · obtain ⟨rfl, hlast⟩ := List.append_inj' heq rfl
      obtain rfl := List.singleton_inj.mp hlast
      exact hr
    · have hsplit : records ++ [r] = (pre ++ r' :: post) ++ [last] := by
        rw [heq]
        simp
      obtain ⟨rfl, -⟩ := List.append_inj' hsplit rfl
      exact h pre r' post rfl

theorem Numbered.foldl_write (h : Numbered records) (i : Fin n) (cmdId : Nat) :
    Numbered (lines.foldl (Told.write i cmdId) records) := by
  induction lines generalizing records with
  | nil => exact h
  | cons line lines ih => exact ih (numbered_concat.mpr ⟨h, rfl⟩)

theorem numbered_told (actions : List (Action n)) : Numbered (told actions).records := by
  induction actions using List.reverseRecOn with
  | nil =>
    intro pre r post heq
    simp [told] at heq
  | append_singleton actions a ih =>
    rw [told, List.foldl_append]
    cases a with
    | start i => exact ih
    | append i cmdId lines =>
      show Numbered (Told.tell (told actions) (.append i cmdId lines)).records
      rw [Told.tell]
      split_ifs
      · exact ih.foldl_write i cmdId
      · exact ih

theorem map_number_filter (h : Numbered records) (i : Fin n) (cmdId : Nat) :
    (records.filter (Record.isOf i cmdId)).map Record.number =
      List.range' 1 (records.countP (Record.isOf i cmdId)) := by
  induction records using List.reverseRecOn with
  | nil => rfl
  | append_singleton records r ih =>
    obtain ⟨hrecords, hnumber⟩ := numbered_concat.mp h
    rw [List.filter_append, List.map_append, List.countP_append, List.countP_singleton, ih hrecords]
    by_cases hof : r.isOf i cmdId = true
    · have hsame : r.session = i ∧ r.cmdId = cmdId := by simpa [Record.isOf] using hof
      rw [hsame.1, hsame.2] at hnumber
      rw [if_pos hof, List.range'_append_1.symm, List.filter_cons_of_pos hof]
      simp [hnumber, Nat.add_comm]
    · simp [hof]

theorem pairwise_number_filter (h : Numbered records) (i : Fin n) (cmdId : Nat) :
    (records.filter (Record.isOf i cmdId)).Pairwise fun a b => a.number < b.number := by
  rw [← List.pairwise_map, map_number_filter h]
  exact List.pairwise_lt_range'

end

section

variable {sessions : Fin n → SessionId} {i : Fin n} {cmdId start : Nat} {stop : Option Nat}
  {records : List (Record n)} {r : Record n} {text : Record n → List Char}
  {matcher : List Char → Bool}

theorem parseLogEntry_record (hinj : Function.Injective sessions) (r : Record n)
    (text : List Char) (i : Fin n) :
    parseLogEntry (logEntry (sessions r.session) r.cmdId r.number text)
        (sessionPrefix (sessions i)) =
      if r.session = i then some ⟨r.cmdId, r.number, text⟩ else none := by
  split_ifs with h
  · rw [h, parseLogEntry_own]
  · exact parseLogEntry_other fun heq => h (hinj (SessionId.ext heq))

def inRange (start : Nat) (stop : Option Nat) (number : Nat) : Bool :=
  start ≤ number && !stop.any (· < number)

theorem readLines_records (hinj : Function.Injective sessions)
    (hsorted : (records.filter (Record.isOf i cmdId)).Pairwise fun a b => a.number < b.number) :
    readLines (sessionPrefix (sessions i)) cmdId start stop
        (records.map fun r => logEntry (sessions r.session) r.cmdId r.number (text r)) =
      ((records.filter (Record.isOf i cmdId)).filter fun r => inRange start stop r.number).map
        fun r => (r.number, text r) := by
  induction records with
  | nil => rfl
  | cons r records ih =>
    rw [List.map_cons, readLines, parseLogEntry_record hinj]
    by_cases hof : r.isOf i cmdId = true
    · have hsame : r.session = i ∧ r.cmdId = cmdId := by simpa [Record.isOf] using hof
      rw [List.filter_cons_of_pos hof] at hsorted ⊢
      obtain ⟨hfirst, hrest⟩ := List.pairwise_cons.mp hsorted
      have ih := ih hrest
      rw [if_pos hsame.1]
      simp only [hsame.2, ne_eq, not_true_eq_false, if_false]
      by_cases hstop : stop.any (· < r.number) = true
      · -- the loop stops here, and all the later lines of the command are past the end too
        have hlater : ∀ b ∈ records.filter (Record.isOf i cmdId),
            inRange start stop b.number = false := by
          intro b hb
          obtain ⟨limit, hlimit, hlt⟩ := (Option.any_eq_true _ _).mp hstop
          have hlt' := hfirst b hb
          have hpast : limit < b.number := lt_trans (of_decide_eq_true hlt) hlt'
          simp [inRange, hlimit, hpast]
        have hnone : inRange start stop r.number = false := by simp [inRange, hstop]
        rw [if_pos hstop, List.filter_cons_of_neg (by rw [hnone]; decide)]
        rw [List.filter_eq_nil_iff.mpr fun b hb => by rw [hlater b hb]; decide]
        rfl
      · rw [if_neg hstop, ih]
        by_cases hstart : start ≤ r.number
        · simp [hstart, inRange, hstop]
        · simp [hstart, inRange]
    · rw [List.filter_cons_of_neg hof] at hsorted ⊢
      rw [ih hsorted]
      by_cases hi : r.session = i
      · have hcmd : r.cmdId ≠ cmdId := by
          intro hcmd
          exact hof (by simp [Record.isOf, hi, hcmd])
        simp [hi, hcmd]
      · simp [hi]

def logOf (sessions : Fin n → SessionId) (records : List (Record n)) : List Char :=
  (records.map fun r => r.line sessions ++ ['\n']).flatten

theorem splitInclusive_logOf (sessions : Fin n → SessionId) (records : List (Record n)) :
    splitInclusive (logOf sessions records) = records.map fun r => r.line sessions ++ ['\n'] := by
  have hterminated : ∀ raw ∈ records.map fun r => r.line sessions ++ ['\n'],
      Terminated raw := by
    intro raw hraw
    obtain ⟨r, -, rfl⟩ := List.mem_map.mp hraw
    exact ⟨_, newline_notMem_logEntry r.text.property, rfl⟩
  have hsplit := splitInclusive_flatten_append hterminated []
  rwa [List.append_nil, splitInclusive_nil, List.append_nil] at hsplit

def Record.readText (r : Record n) : List Char := (stripSuffix '\r' r.text.val).getD r.text.val

theorem getLines_logOf (hinj : Function.Injective sessions) (hnumbered : Numbered records)
    {s : ShellState} (hs : s.sessionId = sessions i) (start : Option Nat) :
    getLines s (logOf sessions records) cmdId start stop =
      ((records.filter (Record.isOf i cmdId)).filter fun r =>
        inRange (start.getD defaultStartLine) stop r.number).map fun r => (r.number, r.readText) := by
  have hlines : lines (logOf sessions records) = records.map fun r =>
      logEntry (sessions r.session) r.cmdId r.number r.readText := by
    rw [lines, splitInclusive_logOf, List.map_map]
    refine List.map_congr_left fun r _ => ?_
    show stripEol (r.line sessions ++ ['\n']) = _
    rw [stripEol_concat, Record.line, stripSuffix_logEntry, Record.readText]
  rw [getLines, hs, hlines, readLines_records hinj (pairwise_number_filter hnumbered i cmdId)]

def LogEntry.trimmed (e : LogEntry) : LogEntry := { e with text := trimEnd e.text }

def wanted (commandId : Option Nat) (id : Nat) : Bool := !commandId.any (· ≠ id)

def selected (pre : List Char) (commandId : Option Nat) (ls : List (List Char)) : List LogEntry :=
  ls.filterMap fun line => (parseLogEntry line pre).filter fun e => wanted commandId e.commandId

theorem countMatch_eq {pre line : List Char} {commandId : Option Nat} {limit : Nat}
    (found : Grep) :
    countMatch pre commandId limit found line =
      match (parseLogEntry line pre).filter fun e => wanted commandId e.commandId with
      | none => found
      | some e =>
        ⟨if found.results.length < limit then found.results ++ [e.trimmed] else found.results,
          found.total + 1⟩ := by
  rw [countMatch]
  cases parseLogEntry line pre with
  | none => rfl
  | some e =>
    rw [Option.filter_some, wanted]
    cases hskip : commandId.any (· ≠ e.commandId) with
    | true => simp only [hskip, if_true, Bool.not_true, Bool.false_eq_true, if_false]
    | false => simp only [hskip, Bool.false_eq_true, if_false, Bool.not_false, if_true,
        LogEntry.trimmed]

theorem foldl_countMatch {pre : List Char} {commandId : Option Nat} {limit : Nat}
    (ls : List (List Char)) (found : Grep) :
    ls.foldl (countMatch pre commandId limit) found =
      ⟨found.results ++ ((selected pre commandId ls).map LogEntry.trimmed).take
          (limit - found.results.length),
        found.total + (selected pre commandId ls).length⟩ := by
  induction ls generalizing found with
  | nil => simp [selected]
  | cons line ls ih =>
    rw [List.foldl_cons, ih, countMatch_eq]
    cases hselected : (parseLogEntry line pre).filter fun e => wanted commandId e.commandId with
    | none =>
      have hcons : selected pre commandId (line :: ls) = selected pre commandId ls :=
        List.filterMap_cons_none hselected
      rw [hcons]
    | some e =>
      have hcons : selected pre commandId (line :: ls) = e :: selected pre commandId ls :=
        List.filterMap_cons_some hselected
      rw [hcons, List.map_cons, List.length_cons]
      by_cases hroom : found.results.length < limit
      · obtain ⟨k, hk⟩ := Nat.exists_eq_add_of_lt hroom
        have htake : limit - found.results.length = k + 1 := by omega
        have hrest : limit - (found.results.length + 1) = k := by omega
        simp only [if_pos hroom, htake, List.length_append, List.length_singleton, hrest,
          List.take_succ_cons, List.append_assoc, List.singleton_append, Grep.mk.injEq, true_and]
        omega
      · have hzero : limit - found.results.length = 0 := by omega
        simp only [if_neg hroom, hzero, List.take_zero, Grep.mk.injEq, true_and]
        omega

theorem trimEnd_concat_newline (s : List Char) : trimEnd (s ++ ['\n']) = trimEnd s :=
  List.rdropWhile_concat_pos _ _ _ (by decide)

def shown (records : List (Record n)) : List (Record n) :=
  records.takeWhile fun r => '\x00' ∉ r.text.val

theorem searchLog_logOf (sessions : Fin n → SessionId) (records : List (Record n)) :
    searchLog matcher (logOf sessions records) =
      ((shown records).filter fun r => matcher (r.line sessions)).map
        fun r => r.line sessions ++ ['\n'] := by
  have hnul : ((fun raw : List Char => decide ('\x00' ∉ raw)) ∘
      fun r : Record n => r.line sessions ++ ['\n']) = fun r => decide ('\x00' ∉ r.text.val) := by
    funext r
    refine decide_eq_decide.mpr (not_congr ?_)
    rw [List.mem_append, Record.line, nul_mem_logEntry]
    simp
  rw [searchLog, splitInclusive_logOf, List.takeWhile_map, hnul, List.filter_map]
  congr 2
  funext r
  simp

def Record.asked (i : Fin n) (commandId : Option Nat) (r : Record n) : Bool :=
  r.session = i && wanted commandId r.cmdId

theorem selected_logOf (hinj : Function.Injective sessions) (commandId : Option Nat)
    (rs : List (Record n)) :
    (selected (sessionPrefix (sessions i)) commandId
        (rs.map fun r => r.line sessions ++ ['\n'])).map LogEntry.trimmed =
      (rs.filter (Record.asked i commandId)).map fun r => r.entry.trimmed := by
  rw [selected, List.filterMap_map, List.map_filterMap, ← List.filterMap_eq_map,
    List.filterMap_filter]
  refine List.filterMap_congr fun r _ => ?_
  simp only [Function.comp_apply, Record.line, logEntry_append, parseLogEntry_record hinj]
  by_cases hi : r.session = i
  · cases hcmd : wanted commandId r.cmdId with
    | true =>
      simp [hi, hcmd, Record.asked, LogEntry.trimmed, Record.entry, trimEnd_concat_newline]
    | false => simp [hi, hcmd, Record.asked]
  · simp [hi, Record.asked]

def reported (matcher : List Char → Bool) (sessions : Fin n → SessionId)
    (records : List (Record n)) (i : Fin n) (commandId : Option Nat) : List (Record n) :=
  ((shown records).filter fun r => matcher (r.line sessions)).filter (Record.asked i commandId)

theorem grep_logOf (hinj : Function.Injective sessions)
    {compile : List Char → Except String (List Char → Bool)} {pattern : List Char}
    (hcompile : compile pattern = .ok matcher) {s : ShellState} (hs : s.sessionId = sessions i)
    (commandId limit : Option Nat) :
    grep compile s (logOf sessions records) pattern commandId limit =
      .ok ⟨((reported matcher sessions records i commandId).map fun r => r.entry.trimmed).take
          (limit.getD defaultGrepLimit),
        (reported matcher sessions records i commandId).length⟩ := by
  have hselected := selected_logOf (i := i) hinj commandId
    ((shown records).filter fun r => matcher (r.line sessions))
  have hlength := congrArg List.length hselected
  rw [List.length_map] at hlength
  simp only [grep, hcompile, hs, searchLog_logOf, foldl_countMatch, hselected, hlength]
  simp [reported]

end

section

variable {sessions : Fin n → SessionId} {i : Fin n} {cmdId : Nat} {records : List (Record n)}
  {r r' : Record n} {matcher : List Char → Bool} {s : List Char} {commandId : Option Nat}

def linesOf (records : List (Record n)) (i : Fin n) (cmdId : Nat) : List (Nat × List Char) :=
  (((records.filter (Record.isOf i cmdId)).map fun r => r.text.val).zipIdx 1).map Prod.swap

def matching (matcher : List Char → Bool) (records : List (Record n)) (i : Fin n)
    (commandId : Option Nat) : List (Record n) :=
  records.filter fun r => r.asked i commandId && matcher r.text.val

structure HistoryExact (compile : List Char → Except String (List Char → Bool))
    (sessions : Fin n → SessionId) (actions : List (Action n)) (i : Fin n) (pattern : List Char)
    (matcher : List Char → Bool) : Prop where
  lines : ∀ cmdId start stop,
    getLines ((run sessions actions).states i) (run sessions actions).log cmdId start stop =
      (linesOf (told actions).records i cmdId).filter fun l =>
        inRange (start.getD defaultStartLine) stop l.1
  hits : ∀ commandId limit,
    grep compile ((run sessions actions).states i) (run sessions actions).log pattern commandId
        limit =
      .ok ⟨((matching matcher (told actions).records i commandId).map Record.entry).take
          (limit.getD defaultGrepLimit),
        (matching matcher (told actions).records i commandId).length⟩

/-- No line of the session ends in a carriage return; the entry of a line matches, and comes before
any NUL, where the text matches, and only there; and a text that matches does not end in white
space. -/
structure Legible (matcher : List Char → Bool) (sessions : Fin n → SessionId)
    (records : List (Record n)) (i : Fin n) : Prop where
  noReturn : ∀ r ∈ records, r.session = i → r.text.val.getLast? ≠ some '\r'
  found : ∀ r ∈ records, r.session = i →
    (r ∈ shown records ∧ matcher (r.line sessions) = true ↔ matcher r.text.val = true)
  noBlank : ∀ r ∈ records, r.session = i → matcher r.text.val = true →
    ∀ c, r.text.val.getLast? = some c → isWhitespace c = false

theorem linesOf_eq (h : Numbered records) (i : Fin n) (cmdId : Nat) :
    linesOf records i cmdId =
      (records.filter (Record.isOf i cmdId)).map fun r => (r.number, r.text.val) := by
  have hnumbers := map_number_filter h i cmdId
  rw [List.countP_eq_length_filter] at hnumbers
  rw [linesOf, List.zipIdx_eq_zip_range', List.length_map, ← hnumbers, List.zip_map', List.map_map]
  rfl

theorem eq_of_number (h : Numbered records) (hr : r ∈ records) (hr' : r' ∈ records)
    (hsession : r.session = r'.session) (hcmd : r.cmdId = r'.cmdId)
    (hnumber : r.number = r'.number) : r = r' := by
  have hnodup : ((records.filter (Record.isOf r'.session r'.cmdId)).map Record.number).Nodup := by
    rw [map_number_filter h]
    exact List.nodup_range'
  refine List.inj_on_of_nodup_map hnodup ?_ ?_ hnumber
  · exact List.mem_filter.mpr ⟨hr, by simp [Record.isOf, hsession, hcmd]⟩
  · exact List.mem_filter.mpr ⟨hr', by simp [Record.isOf]⟩

theorem readText_eq_iff : r.readText = r.text.val ↔ r.text.val.getLast? ≠ some '\r' := by
  rw [← stripEol_concat_eq, stripEol_concat]
  rfl

theorem trimEnd_eq_iff :
    trimEnd s = s ↔ ∀ c, s.getLast? = some c → isWhitespace c = false := by
  rw [trimEnd, List.rdropWhile_eq_self_iff]
  constructor
  · intro h c hc
    obtain ⟨hne, rfl⟩ := List.mem_getLast?_eq_getLast (Option.mem_def.mpr hc)
    exact Bool.eq_false_iff.mpr (h hne)
  · intro h hne
    rw [h _ (List.getLast?_eq_some_getLast hne)]
    decide

theorem mem_reported :
    r ∈ reported matcher sessions records i commandId ↔
      (r ∈ shown records ∧ matcher (r.line sessions) = true) ∧ r.asked i commandId = true := by
  rw [reported, List.mem_filter, List.mem_filter]

theorem mem_matching :
    r ∈ matching matcher records i commandId ↔
      r ∈ records ∧ r.asked i commandId = true ∧ matcher r.text.val = true := by
  rw [matching, List.mem_filter, Bool.and_eq_true]

theorem mem_of_mem_shown (h : r ∈ shown records) : r ∈ records :=
  (List.takeWhile_prefix _).subset h

theorem asked_none : r.asked i none = true ↔ r.session = i := by
  simp [Record.asked, wanted]

theorem legible_of_entries (h : Numbered records)
    (hentries : (reported matcher sessions records i none).map (fun r => r.entry.trimmed) =
      (matching matcher records i none).map Record.entry) (hr : r ∈ records) (hi : r.session = i) :
    (r ∈ shown records ∧ matcher (r.line sessions) = true ↔ matcher r.text.val = true) ∧
      (matcher r.text.val = true → trimEnd r.text.val = r.text.val) := by
  have hmatch : matcher r.text.val = true →
      r ∈ reported matcher sessions records i none ∧ trimEnd r.text.val = r.text.val := by
    intro hm
    have hmem : r.entry ∈ (matching matcher records i none).map Record.entry :=
      List.mem_map_of_mem (mem_matching.mpr ⟨hr, asked_none.mpr hi, hm⟩)
    rw [← hentries] at hmem
    obtain ⟨r', hr', heq⟩ := List.mem_map.mp hmem
    obtain ⟨⟨hshown, -⟩, hasked⟩ := mem_reported.mp hr'
    have hsame : r' = r := eq_of_number h (mem_of_mem_shown hshown) hr
      ((asked_none.mp hasked).trans hi.symm) (congrArg LogEntry.commandId heq)
      (congrArg LogEntry.lineNumber heq)
    subst hsame
    exact ⟨hr', congrArg LogEntry.text heq⟩
  refine ⟨⟨?_, ?_⟩, fun hm => (hmatch hm).2⟩
  · intro hshown
    have hmem : r.entry.trimmed ∈
        (reported matcher sessions records i none).map fun r => r.entry.trimmed :=
      List.mem_map_of_mem (mem_reported.mpr ⟨hshown, asked_none.mpr hi⟩)
    rw [hentries] at hmem
    obtain ⟨r', hr', heq⟩ := List.mem_map.mp hmem
    obtain ⟨hrecord, hasked, hm⟩ := mem_matching.mp hr'
    have hsame : r' = r := eq_of_number h hrecord hr
      ((asked_none.mp hasked).trans hi.symm) (congrArg LogEntry.commandId heq)
      (congrArg LogEntry.lineNumber heq)
    rwa [← hsame]
  · intro hm
    exact (mem_reported.mp (hmatch hm).1).1

theorem reported_eq_matching (h : Numbered records) (hlegible : Legible matcher sessions records i)
    (commandId : Option Nat) :
    reported matcher sessions records i commandId = matching matcher records i commandId := by
  have hsplit : shown records ++ records.dropWhile (fun r => '\x00' ∉ r.text.val) = records :=
    List.takeWhile_append_dropWhile
  have hsession : ∀ {r : Record n}, r.asked i commandId = true → r.session = i := by
    intro r hasked
    exact of_decide_eq_true (Bool.and_eq_true_iff.mp hasked).1
  have hrest : (records.dropWhile fun r => '\x00' ∉ r.text.val).filter (fun r =>
      r.asked i commandId && matcher r.text.val) = [] := by
    refine List.filter_eq_nil_iff.mpr fun r hr hboth => ?_
    obtain ⟨hasked, hm⟩ := Bool.and_eq_true_iff.mp hboth
    have hrecord : r ∈ records := (List.dropWhile_suffix _).subset hr
    have hshown := ((hlegible.found r hrecord (hsession hasked)).mpr hm).1
    have hsorted := pairwise_number_filter h r.session r.cmdId
    rw [← hsplit, List.filter_append, List.pairwise_append] at hsorted
    have hof : r.isOf r.session r.cmdId = true := by simp [Record.isOf]
    have hlt := hsorted.2.2 r (List.mem_filter.mpr ⟨hshown, hof⟩) r
      (List.mem_filter.mpr ⟨hr, hof⟩)
    exact lt_irrefl _ hlt
  have hmatching : matching matcher records i commandId =
      (shown records).filter fun r => r.asked i commandId && matcher r.text.val := by
    rw [matching, ← hsplit, List.filter_append, hsplit, hrest, List.append_nil]
  rw [hmatching, reported, List.filter_filter]
  refine List.filter_congr fun r hr => ?_
  cases hasked : r.asked i commandId with
  | false => rfl
  | true =>
    have hfound := hlegible.found r (mem_of_mem_shown hr) (hsession hasked)
    rw [Bool.true_and, Bool.true_and, Bool.eq_iff_iff, ← hfound]
    exact (and_iff_right hr).symm

theorem legible_iff (h : Numbered records) (hinj : Function.Injective sessions)
    {compile : List Char → Except String (List Char → Bool)} {pattern : List Char}
    (hcompile : compile pattern = .ok matcher) {s : ShellState} (hs : s.sessionId = sessions i) :
    ((∀ cmdId start stop, getLines s (logOf sessions records) cmdId start stop =
        (linesOf records i cmdId).filter fun l =>
          inRange (start.getD defaultStartLine) stop l.1) ∧
      ∀ commandId limit, grep compile s (logOf sessions records) pattern commandId limit =
        .ok ⟨((matching matcher records i commandId).map Record.entry).take
            (limit.getD defaultGrepLimit),
          (matching matcher records i commandId).length⟩) ↔
      Legible matcher sessions records i := by
  simp only [getLines_logOf hinj h hs, grep_logOf hinj hcompile hs, linesOf_eq h, List.filter_map,
    Except.ok.injEq, Grep.mk.injEq]
  constructor
  · rintro ⟨hlines, hhits⟩
    have hlong := hhits none (some ((reported matcher sessions records i none).length))
    rw [Option.getD_some, List.take_of_length_le (by rw [List.length_map]),
      List.take_of_length_le (by rw [List.length_map, hlong.2])] at hlong
    have hone := fun r hr hi => legible_of_entries (r := r) h hlong.1 hr hi
    refine ⟨?_, fun r hr hi => (hone r hr hi).1,
      fun r hr hi hm => trimEnd_eq_iff.mp ((hone r hr hi).2 hm)⟩
    intro r hr hi
    have hmap := List.map_inj_left.mp (hlines r.cmdId (some 0) none) r
      (List.mem_filter.mpr ⟨List.mem_filter.mpr ⟨hr, by simp [Record.isOf, hi]⟩, by
        simp [inRange]⟩)
    exact readText_eq_iff.mp (congrArg Prod.snd hmap)
  · intro hlegible
    constructor
    · intro cmdId start stop
      refine List.map_congr_left fun r hr => ?_
      obtain ⟨hrecord, hof⟩ := List.mem_filter.mp (List.mem_filter.mp hr).1
      have hi : r.session = i := of_decide_eq_true (Bool.and_eq_true_iff.mp hof).1
      rw [readText_eq_iff.mpr (hlegible.noReturn r hrecord hi)]
    · intro commandId limit
      rw [reported_eq_matching h hlegible]
      refine ⟨congrArg _ (List.map_congr_left fun r hr => ?_), rfl⟩
      obtain ⟨hrecord, hasked, hm⟩ := mem_matching.mp hr
      have hi : r.session = i := of_decide_eq_true (Bool.and_eq_true_iff.mp hasked).1
      rw [LogEntry.trimmed, Record.entry, trimEnd_eq_iff.mpr (hlegible.noBlank r hrecord hi hm)]

/-- What a session reads back is exact where its lines are legible, and only there. -/
theorem historyExact_iff (hinj : Function.Injective sessions)
    {compile : List Char → Except String (List Char → Bool)} {pattern : List Char}
    (hcompile : compile pattern = .ok matcher) (actions : List (Action n)) (i : Fin n) :
    HistoryExact compile sessions actions i pattern matcher ↔
      Legible matcher sessions (told actions).records i := by
  have hagrees := agrees_run sessions actions
  have hiff := legible_iff (numbered_told actions) hinj hcompile (hagrees.sessionId i)
  rw [← hiff, logOf, ← hagrees.log]
  exact ⟨fun h => ⟨h.lines, h.hits⟩, fun h => ⟨h.1, h.2⟩⟩

end

def zeros : SessionId where
  chars := List.replicate 26 '0'
  length_eq := rfl
  alphanum := by
    intro c hc
    rw [List.eq_of_mem_replicate hc]
    rfl

def ones : SessionId where
  chars := List.replicate 26 '1'
  length_eq := rfl
  alphanum := by
    intro c hc
    rw [List.eq_of_mem_replicate hc]
    rfl

def twoSessions (i : Fin 2) : SessionId := if i = 0 then zeros else ones

def literal (pattern : List Char) : Except String (List Char → Bool) :=
  .ok fun s => pattern <:+: s

def builds : List (Action 2) :=
  [.start 0, .start 1, .append 0 1 [⟨"ok".toList, by decide⟩],
    .append 1 1 [⟨"error".toList, by decide⟩], .append 0 1 [⟨"error: e1".toList, by decide⟩]]

theorem injective_twoSessions : Function.Injective twoSessions := by
  have hchars : ∀ a b, (twoSessions a).chars = (twoSessions b).chars → a = b := by decide
  exact fun a b h => hchars a b (congrArg SessionId.chars h)

theorem builds_exact :
    HistoryExact literal twoSessions builds 0 "error".toList
      fun s => "error".toList <:+: s := by
  refine (historyExact_iff injective_twoSessions rfl builds 0).mpr ⟨?_, ?_, ?_⟩
  · decide
  · decide
  · have hlast : ∀ r ∈ (told builds).records,
        (r.text.val.getLast?.all fun c => !isWhitespace c) = true := by decide
    intro r hr _ _ c hc
    have hall := hlast r hr
    rw [hc] at hall
    simpa using hall

def progress : List (Action 2) := [.start 0, .append 0 1 [⟨"50%\r".toList, by decide⟩]]

theorem return_is_lost :
    ¬ ∀ (n : Nat) (sessions : Fin n → SessionId) (actions : List (Action n)) (i : Fin n)
      (compile : List Char → Except String (List Char → Bool)) (pattern : List Char)
      (matcher : List Char → Bool), Function.Injective sessions → compile pattern = .ok matcher →
        HistoryExact compile sessions actions i pattern matcher := by
  intro h
  have hexact := h 2 twoSessions progress 0 literal [] (fun s => [] <:+: s)
    injective_twoSessions rfl
  have hlines := hexact.lines 1 none none
  revert hlines
  decide

end SwissArmyHammer.Shell
