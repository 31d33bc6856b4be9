import Mathlib.Algebra.Group.Nat.Defs
import SwissArmyHammer.Leader.Lease

/-! The lock file as text, and the lease that is written over it in place. -/

namespace SwissArmyHammer.Leader

structure Lease.Fits (lease : Lease) : Prop where
  pid : lease.pid < 2 ^ 32
  nonce : lease.nonce < 2 ^ 64
  heartbeatMs : lease.heartbeatMs < 2 ^ 64

def pidKey : List Char := "\x7b\"pid\":".toList
def nonceKey : List Char := ",\"nonce\":".toList
def heartbeatKey : List Char := ",\"heartbeat_ms\":".toList

/-- `serde_json::to_string`. -/
def Lease.toJson (lease : Lease) : List Char :=
  pidKey ++ Nat.toDigits 10 lease.pid ++ (nonceKey ++ Nat.toDigits 10 lease.nonce ++
    (heartbeatKey ++ Nat.toDigits 10 lease.heartbeatMs ++ ['\x7d']))

def Lease.digits (lease : Lease) : Nat :=
  (Nat.toDigits 10 lease.pid).length + (Nat.toDigits 10 lease.nonce).length +
    (Nat.toDigits 10 lease.heartbeatMs).length

/-- `serde_json::from_str` on records and on what begins with one. -/
structure LeaseJson where
  fromStr : List Char → Option Lease
  fromStr_toJson : ∀ lease : Lease, lease.Fits → fromStr lease.toJson = some lease
  fromStr_trailing : ∀ (lease : Lease) (garbage : List Char), lease.Fits → garbage ≠ [] →
    (∀ c ∈ garbage, c.isWhitespace = false) → fromStr (lease.toJson ++ garbage) = none

def readLease (json : LeaseJson) (file : Option (List Char)) : Option Lease :=
  file.bind json.fromStr

/-- `write_all` at offset 0. -/
def writeAll (text file : List Char) : List Char := text ++ file.drop text.length

def setLen (n : Nat) (file : List Char) : List Char :=
  file.take n ++ List.replicate (n - file.length) '\x00'

/-- What `write_lease_atomic` does to the file, step by step. -/
def writeLeaseAtomic (lease : Lease) : List (List Char → List Char) :=
  [writeAll lease.toJson, setLen lease.toJson.length]

def afterSteps (steps : List (List Char → List Char)) (file : List Char) : List Char :=
  steps.foldl (fun file step => step file) file

section

variable {lease old new : Lease}

theorem length_toJson (lease : Lease) : lease.toJson.length = 33 + lease.digits := by
  have hpid : pidKey.length = 7 := by decide
  have hnonce : nonceKey.length = 9 := by decide
  have hheartbeat : heartbeatKey.length = 16 := by decide
  simp only [Lease.toJson, Lease.digits, List.length_append, hpid, hnonce, hheartbeat,
    List.length_singleton]
  omega

theorem not_whitespace_of_digit {c : Char} (h : c.isDigit = true) : c.isWhitespace = false := by
  obtain ⟨hlow, -⟩ := Char.isDigit_iff_toNat.mp h
  cases hc : c.isWhitespace with
  | false => rfl
  | true =>
    have hspace : c = ' ' ∨ c = '\t' ∨ c = '\r' ∨ c = '\n' := by
      simpa [Char.isWhitespace, or_assoc] using hc
    rcases hspace with rfl | rfl | rfl | rfl <;> exact absurd hlow (by decide)

theorem toJson_not_whitespace (lease : Lease) : ∀ c ∈ lease.toJson, c.isWhitespace = false := by
  intro c hc
  have hdigits : ∀ n, c ∈ Nat.toDigits 10 n → c.isWhitespace = false := fun n hn =>
    not_whitespace_of_digit (Nat.isDigit_of_mem_toDigits (by decide) (by decide) hn)
  have hkeys : ∀ d ∈ pidKey ++ nonceKey ++ heartbeatKey ++ ['\x7d'], d.isWhitespace = false := by
    have hall : ((pidKey ++ nonceKey ++ heartbeatKey ++ ['\x7d']).all fun d => !d.isWhitespace) =
        true := rfl
    intro d hd
    simpa using List.all_eq_true.mp hall d hd
  simp only [Lease.toJson, List.mem_append] at hc
  rcases hc with (hc | hc) | (hc | hc) | (hc | hc) | hc
  · exact hkeys c (by simp [hc])
  · exact hdigits _ hc
  · exact hkeys c (by simp [hc])
  · exact hdigits _ hc
  · exact hkeys c (by simp [hc])
  · exact hdigits _ hc
  · exact hkeys c (by simp only [List.mem_append, hc, or_true])

theorem writeAll_of_le (h : old.digits ≤ new.digits) :
    writeAll new.toJson old.toJson = new.toJson := by
  have hlength : old.toJson.length ≤ new.toJson.length := by
    rw [length_toJson, length_toJson]
    omega
  rw [writeAll, List.drop_eq_nil_of_le hlength, List.append_nil]

theorem setLen_writeAll (text file : List Char) :
    setLen text.length (writeAll text file) = text := by
  have hzero : text.length - (writeAll text file).length = 0 := by
    simp only [writeAll, List.length_append]
    omega
  rw [setLen, hzero, List.replicate_zero, List.append_nil, writeAll, List.take_left]

end

section

variable (json : LeaseJson) {old new : Lease}

theorem fromStr_writeAll (hnew : new.Fits) :
    json.fromStr (writeAll new.toJson old.toJson) =
      if old.digits ≤ new.digits then some new else none := by
  split_ifs with h
  · rw [writeAll_of_le h]
    exact json.fromStr_toJson new hnew
  · have hlonger : new.toJson.length < old.toJson.length := by
      rw [length_toJson, length_toJson]
      omega
    have htail : old.toJson.drop new.toJson.length ≠ [] := by
      intro hnil
      have := List.drop_eq_nil_iff.mp hnil
      omega
    apply json.fromStr_trailing new _ hnew htail
    intro c hc
    exact toJson_not_whitespace old c (List.mem_of_mem_drop hc)

theorem afterSteps_take (old new : Lease) (k : Nat) :
    afterSteps ((writeLeaseAtomic new).take k) old.toJson =
      if k = 0 then old.toJson
      else if k = 1 then writeAll new.toJson old.toJson else new.toJson := by
  rcases k with _ | _ | k
  · rfl
  · rfl
  · simpa [writeLeaseAtomic, afterSteps] using setLen_writeAll new.toJson old.toJson

theorem reader_never_torn_iff (hold : old.Fits) (hnew : new.Fits) :
    (∀ k, readLease json (some (afterSteps ((writeLeaseAtomic new).take k) old.toJson)) = some old ∨
      readLease json (some (afterSteps ((writeLeaseAtomic new).take k) old.toJson)) = some new) ↔
    old.digits ≤ new.digits := by
  constructor
  · intro h
    by_contra hlonger
    have hmid := h 1
    rw [afterSteps_take] at hmid
    simp [readLease, fromStr_writeAll json hnew, hlonger] at hmid
  · intro h k
    rw [afterSteps_take]
    simp only [readLease, Option.bind_some]
    split_ifs with hzero hone
    · exact .inl (json.fromStr_toJson old hold)
    · rw [fromStr_writeAll json hnew, if_pos h]
      exact .inr rfl
    · exact .inr (json.fromStr_toJson new hnew)

end

section

variable (json : LeaseJson) {first lease : Lease} {leases : List Lease}

end

def field (key text : List Char) : Option (Nat × List Char) :=
  if key.isPrefixOf text then
    let rest := text.drop key.length
    some (Nat.ofDigitChars 10 (rest.takeWhile Char.isDigit) 0, rest.dropWhile Char.isDigit)
  else none

def parseRecord (text : List Char) : Option Lease :=
  (field pidKey text).bind fun pid =>
    (field nonceKey pid.2).bind fun nonce =>
      (field heartbeatKey nonce.2).bind fun heartbeat =>
        if heartbeat.2 = ['\x7d'] then some ⟨pid.1, nonce.1, heartbeat.1⟩ else none

theorem field_append (key : List Char) (n : Nat) (rest : List Char)
    (hrest : rest.head?.all fun c => !c.isDigit) :
    field key (key ++ (Nat.toDigits 10 n ++ rest)) = some (n, rest) := by
  have hall : ∀ d ∈ Nat.toDigits 10 n, d.isDigit = true := fun d hd =>
    Nat.isDigit_of_mem_toDigits (by decide) (by decide) hd
  have hprefix : key.isPrefixOf (key ++ (Nat.toDigits 10 n ++ rest)) = true :=
    List.isPrefixOf_iff_prefix.mpr (List.prefix_append _ _)
  have hnone : rest.takeWhile Char.isDigit = [] ∧ rest.dropWhile Char.isDigit = rest := by
    cases rest with
    | nil => simp
    | cons c rest =>
      have hc : c.isDigit = false := by simpa using hrest
      simp [hc]
  have htake : (Nat.toDigits 10 n ++ rest).takeWhile Char.isDigit = Nat.toDigits 10 n := by
    rw [List.takeWhile_append_of_pos hall, hnone.1, List.append_nil]
  have hdrop : (Nat.toDigits 10 n ++ rest).dropWhile Char.isDigit = rest := by
    rw [List.dropWhile_append_of_pos hall, hnone.2]
  simp only [field, hprefix, if_true, List.drop_left, htake, hdrop, Nat.ofDigitChars_ten_toDigits]

theorem parseRecord_append (lease : Lease) (garbage : List Char) :
    parseRecord (lease.toJson ++ garbage) = if garbage = [] then some lease else none := by
  have hpid := field_append pidKey lease.pid (nonceKey ++ (Nat.toDigits 10 lease.nonce ++
    (heartbeatKey ++ (Nat.toDigits 10 lease.heartbeatMs ++ '\x7d' :: garbage)))) rfl
  have hnonce := field_append nonceKey lease.nonce (heartbeatKey ++
    (Nat.toDigits 10 lease.heartbeatMs ++ '\x7d' :: garbage)) rfl
  have hheartbeat := field_append heartbeatKey lease.heartbeatMs ('\x7d' :: garbage) rfl
  simp only [parseRecord, Lease.toJson, List.append_assoc, List.singleton_append]
  rw [hpid, Option.bind_some, hnonce, Option.bind_some, hheartbeat]
  simp

def recordJson : LeaseJson where
  fromStr := parseRecord
  fromStr_toJson lease _ := by simpa using parseRecord_append lease []
  fromStr_trailing lease garbage _ hne _ := by rw [parseRecord_append, if_neg hne]

theorem reader_never_torn_iff_heartbeat :
    (∀ k, readLease recordJson (some (afterSteps ((writeLeaseAtomic ⟨812, 5, 1700000001000⟩).take k)
        (Lease.toJson ⟨812, 5, 1700000000000⟩))) = some ⟨812, 5, 1700000000000⟩ ∨
      readLease recordJson (some (afterSteps ((writeLeaseAtomic ⟨812, 5, 1700000001000⟩).take k)
        (Lease.toJson ⟨812, 5, 1700000000000⟩))) = some ⟨812, 5, 1700000001000⟩) ↔
      Lease.digits ⟨812, 5, 1700000000000⟩ ≤ Lease.digits ⟨812, 5, 1700000001000⟩ :=
  reader_never_torn_iff recordJson ⟨by decide, by decide, by decide⟩
    ⟨by decide, by decide, by decide⟩

theorem successor_reads_as_none :
    ¬ ∀ old new : Lease, old.Fits → new.Fits → ∀ k,
      readLease recordJson (some (afterSteps ((writeLeaseAtomic new).take k) old.toJson)) =
        some old ∨
      readLease recordJson (some (afterSteps ((writeLeaseAtomic new).take k) old.toJson)) =
        some new := by
  intro h
  have hmid := h ⟨1042, 5, 1700000000000⟩ ⟨977, 6, 1700000009000⟩
    ⟨by decide, by decide, by decide⟩ ⟨by decide, by decide, by decide⟩ 1
  have hnone : readLease recordJson (some (afterSteps
      ((writeLeaseAtomic ⟨977, 6, 1700000009000⟩).take 1)
      (Lease.toJson ⟨1042, 5, 1700000000000⟩))) = none := by decide
  rw [hnone] at hmid
  rcases hmid with hmid | hmid <;> cases hmid

end SwissArmyHammer.Leader
