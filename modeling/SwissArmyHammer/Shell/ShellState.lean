import Mathlib.Data.List.Nodup
import SwissArmyHammer.Text.Lines

/-! The output log that several shell sessions write to, and what a session reads back of it. -/

namespace SwissArmyHammer.Shell

open Text

@[ext] structure SessionId where
  chars : List Char
  length_eq : chars.length = 26
  alphanum : ∀ c ∈ chars, c.isAlphanum = true

abbrev Line := { s : List Char // '\n' ∉ s }

structure CommandRecord where
  id : Nat
  lineCount : Nat

structure ShellState where
  sessionId : SessionId
  commands : List CommandRecord

inductive ShellStateError
  | unknownCommand (cmdId : Nat)
  | invalidPattern (message : String)

def startCommand (s : ShellState) : Nat × ShellState :=
  let id := s.commands.length + 1
  (id, { s with commands := s.commands ++ [⟨id, 0⟩] })

def sessionPrefix (session : SessionId) : List Char := session.chars ++ [':']

/-- `session_id:cmd_id:line_number:text`. -/
def logEntry (session : SessionId) (cmdId number : Nat) (text : List Char) : List Char :=
  sessionPrefix session ++ (Nat.toDigits 10 cmdId ++ ':' :: (Nat.toDigits 10 number ++ ':' :: text))

def writeLine (session : SessionId) (cmdId : Nat) (s : Nat × List Char) (line : Line) :
    Nat × List Char :=
  (s.1 + 1, s.2 ++ (logEntry session cmdId (s.1 + 1) line.val ++ ['\n']))

def appendLines (s : ShellState) (log : List Char) (cmdId : Nat) (lines : List Line) :
    Except ShellStateError (ShellState × List Char) :=
  match s.commands.find? fun r => r.id = cmdId with
  | none => .error (.unknownCommand cmdId)
  | some record =>
    let written := lines.foldl (writeLine s.sessionId cmdId) (record.lineCount, log)
    .ok ({ s with commands := s.commands.modify (s.commands.findIdx fun r => r.id = cmdId) fun r =>
      { r with lineCount := written.1 } }, written.2)

structure LogEntry where
  commandId : Nat
  lineNumber : Nat
  text : List Char
  deriving DecidableEq

/-- `str::parse::<usize>`, for numbers that a `usize` holds. -/
def parseUsize (s : List Char) : Option Nat :=
  let digits := if s.head? = some '+' then s.tail else s
  if digits ≠ [] ∧ digits.all Char.isDigit then some (Nat.ofDigitChars 10 digits 0) else none

def stripPrefix (pre s : List Char) : Option (List Char) :=
  if pre <+: s then some (s.drop pre.length) else none

def splitFields (rest : List Char) : Option (List Char × List Char × List Char) :=
  match rest.dropWhile (· ≠ ':') with
  | [] => none
  | _ :: rest' =>
    match rest'.dropWhile (· ≠ ':') with
    | [] => none
    | _ :: text => some (rest.takeWhile (· ≠ ':'), rest'.takeWhile (· ≠ ':'), text)

def parseLogEntry (line sessionPrefix : List Char) : Option LogEntry :=
  (stripPrefix sessionPrefix line).bind fun rest =>
    (splitFields rest).bind fun parts =>
      (parseUsize parts.1).bind fun commandId =>
        (parseUsize parts.2.1).map fun lineNumber => ⟨commandId, lineNumber, parts.2.2⟩

def readLines (pre : List Char) (cmdId start : Nat) (stop : Option Nat) :
    List (List Char) → List (Nat × List Char)
  | [] => []
  | line :: rest =>
    match parseLogEntry line pre with
    | none => readLines pre cmdId start stop rest
    | some entry =>
      if entry.commandId ≠ cmdId then readLines pre cmdId start stop rest
      else if stop.any (· < entry.lineNumber) then []
      else if start ≤ entry.lineNumber then
        (entry.lineNumber, entry.text) :: readLines pre cmdId start stop rest
      else readLines pre cmdId start stop rest

def defaultStartLine : Nat := 1

def getLines (s : ShellState) (log : List Char) (cmdId : Nat) (start stop : Option Nat) :
    List (Nat × List Char) :=
  readLines (sessionPrefix s.sessionId) cmdId (start.getD defaultStartLine) stop (lines log)

def searchLog (matcher : List Char → Bool) (log : List Char) : List (List Char) :=
  ((splitInclusive log).takeWhile fun raw => '\x00' ∉ raw).filter fun raw =>
    matcher ((stripSuffix '\n' raw).getD raw)

def defaultGrepLimit : Nat := 10

structure Grep where
  results : List LogEntry
  total : Nat

def countMatch (pre : List Char) (commandId : Option Nat) (limit : Nat) (found : Grep)
    (line : List Char) : Grep :=
  match parseLogEntry line pre with
  | none => found
  | some entry =>
    if commandId.any (· ≠ entry.commandId) then found
    else
      ⟨if found.results.length < limit then
          found.results ++ [{ entry with text := trimEnd entry.text }]
        else found.results,
        found.total + 1⟩

def grep (compile : List Char → Except String (List Char → Bool)) (s : ShellState)
    (log pattern : List Char) (commandId limit : Option Nat) : Except ShellStateError Grep :=
  match compile pattern with
  | .error message => .error (.invalidPattern message)
  | .ok matcher =>
    .ok ((searchLog matcher log).foldl
      (countMatch (sessionPrefix s.sessionId) commandId (limit.getD defaultGrepLimit)) ⟨[], 0⟩)

section

variable {session session' : SessionId} {cmdId number n : Nat} {text a b : List Char}

theorem ne_of_mem_toDigits {c : Char} (h : c ∈ Nat.toDigits 10 n) :
    c ≠ ':' ∧ c ≠ '\n' ∧ c ≠ '\x00' ∧ c ≠ '+' := by
  have hdigit := Nat.isDigit_of_mem_toDigits (by decide) (by decide) h
  refine ⟨?_, ?_, ?_, ?_⟩
  all_goals
    rintro rfl
    cases hdigit

theorem SessionId.ne_of_mem {c : Char} (h : c ∈ session.chars) :
    c ≠ ':' ∧ c ≠ '\n' ∧ c ≠ '\x00' := by
  have halphanum := session.alphanum c h
  refine ⟨?_, ?_, ?_⟩
  all_goals
    rintro rfl
    cases halphanum

theorem parseUsize_toDigits (n : Nat) : parseUsize (Nat.toDigits 10 n) = some n := by
  have hhead : ¬ (Nat.toDigits 10 n).head? = some '+' := fun hplus =>
    (ne_of_mem_toDigits (List.mem_of_mem_head? (Option.mem_def.mpr hplus))).2.2.2 rfl
  have hall : (Nat.toDigits 10 n).all Char.isDigit = true :=
    List.all_eq_true.mpr fun c hc => Nat.isDigit_of_mem_toDigits (by decide) (by decide) hc
  simp only [parseUsize, if_neg hhead, Nat.ofDigitChars_ten_toDigits]
  rw [if_pos ⟨Nat.toDigits_ne_nil, hall⟩]

theorem cut_at_colon (ha : ':' ∉ a) :
    (a ++ ':' :: b).dropWhile (· ≠ ':') = ':' :: b ∧ (a ++ ':' :: b).takeWhile (· ≠ ':') = a := by
  have hall : ∀ c ∈ a, decide (c ≠ ':') = true := by
    intro c hc
    refine decide_eq_true ?_
    rintro rfl
    exact ha hc
  rw [List.dropWhile_append_of_pos hall, List.takeWhile_append_of_pos hall]
  simp

theorem splitFields_entry : splitFields (Nat.toDigits 10 cmdId ++ ':' ::
    (Nat.toDigits 10 number ++ ':' :: text)) =
      some (Nat.toDigits 10 cmdId, Nat.toDigits 10 number, text) := by
  obtain ⟨hdrop, htake⟩ := cut_at_colon (a := Nat.toDigits 10 cmdId)
    (b := Nat.toDigits 10 number ++ ':' :: text) fun h => (ne_of_mem_toDigits h).1 rfl
  obtain ⟨hdrop', htake'⟩ := cut_at_colon (a := Nat.toDigits 10 number) (b := text)
    fun h => (ne_of_mem_toDigits h).1 rfl
  simp only [splitFields, hdrop, htake, hdrop', htake']

theorem parseLogEntry_own :
    parseLogEntry (logEntry session cmdId number text) (sessionPrefix session) =
      some ⟨cmdId, number, text⟩ := by
  have hstrip : stripPrefix (sessionPrefix session) (logEntry session cmdId number text) =
      some (Nat.toDigits 10 cmdId ++ ':' :: (Nat.toDigits 10 number ++ ':' :: text)) := by
    rw [stripPrefix, logEntry, if_pos (List.prefix_append _ _), List.drop_left]
  rw [parseLogEntry, hstrip, Option.bind_some, splitFields_entry, Option.bind_some,
    parseUsize_toDigits, parseUsize_toDigits]
  rfl

theorem parseLogEntry_other (h : session.chars ≠ session'.chars) :
    parseLogEntry (logEntry session cmdId number text) (sessionPrefix session') = none := by
  have hstrip : stripPrefix (sessionPrefix session') (logEntry session cmdId number text) =
      none := by
    rw [stripPrefix, if_neg]
    rintro ⟨rest, hrest⟩
    rw [sessionPrefix, logEntry, sessionPrefix, List.append_assoc, List.append_assoc,
      List.singleton_append, List.singleton_append] at hrest
    have hnot : ∀ session : SessionId, ':' ∉ session.chars :=
      fun _ hmem => (SessionId.ne_of_mem hmem).1 rfl
    refine h ?_
    rw [← (cut_at_colon (hnot session)).2, ← hrest, (cut_at_colon (hnot session')).2]
  rw [parseLogEntry, hstrip]
  rfl

theorem newline_notMem_logEntry (h : '\n' ∉ text) : '\n' ∉ logEntry session cmdId number text := by
  intro hmem
  simp only [logEntry, sessionPrefix, List.mem_append, List.mem_cons, List.not_mem_nil,
    or_false] at hmem
  rcases hmem with (hmem | hmem) | hmem | hmem | hmem | hmem | hmem
  · exact (SessionId.ne_of_mem hmem).2.1 rfl
  · cases hmem
  · exact (ne_of_mem_toDigits hmem).2.1 rfl
  · cases hmem
  · exact (ne_of_mem_toDigits hmem).2.1 rfl
  · cases hmem
  · exact h hmem

theorem nul_mem_logEntry : '\x00' ∈ logEntry session cmdId number text ↔ '\x00' ∈ text := by
  constructor
  · intro hmem
    simp only [logEntry, sessionPrefix, List.mem_append, List.mem_cons, List.not_mem_nil,
      or_false] at hmem
    rcases hmem with (hmem | hmem) | hmem | hmem | hmem | hmem | hmem
    · exact absurd rfl (SessionId.ne_of_mem hmem).2.2
    · cases hmem
    · exact absurd rfl (ne_of_mem_toDigits hmem).2.2.1
    · cases hmem
    · exact absurd rfl (ne_of_mem_toDigits hmem).2.2.1
    · cases hmem
    · exact hmem
  · intro hmem
    simp [logEntry, hmem]

theorem logEntry_append (text' : List Char) :
    logEntry session cmdId number text ++ text' = logEntry session cmdId number (text ++ text') := by
  simp [logEntry]

theorem stripSuffix_logEntry :
    (stripSuffix '\r' (logEntry session cmdId number text)).getD
        (logEntry session cmdId number text) =
      logEntry session cmdId number ((stripSuffix '\r' text).getD text) := by
  have hempty : logEntry session cmdId number [] = sessionPrefix session ++
      (Nat.toDigits 10 cmdId ++ ':' :: Nat.toDigits 10 number) ++ [':'] := by
    simp [logEntry]
  have hentry : logEntry session cmdId number text = logEntry session cmdId number [] ++ text := by
    rw [logEntry_append, List.nil_append]
  by_cases htext : text = []
  · rw [htext, hempty, stripSuffix_concat]
    simp [hempty]
  · rw [hentry, stripSuffix_append _ htext]
    cases stripSuffix '\r' text with
    | none => rw [Option.map_none, Option.getD_none, Option.getD_none, ← hentry]
    | some l => rw [Option.map_some, Option.getD_some, Option.getD_some, logEntry_append,
        List.nil_append]

end

end SwissArmyHammer.Shell
