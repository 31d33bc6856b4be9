import Mathlib.Data.List.Induction
import SwissArmyHammer.Common.LastPart
import SwissArmyHammer.Text.Utf8

/-! The captured output of a terminal: the loops that read the pipes of the child, and
`TerminalSession::add_output`. -/

namespace SwissArmyHammer.Terminals

open Text

structure Chunk where
  bytes : List UInt8
  nonempty : bytes ≠ []
  le : bytes.length ≤ 4096

inductive Pipe
  | stdout | stderr
  deriving DecidableEq

/-- `output_buffer` and `buffer_truncated`. -/
structure Output where
  buffer : List UInt8
  truncated : Bool
  deriving DecidableEq

def Output.empty : Output := ⟨[], false⟩

/-- `Vec::drain(0..n)`, which panics when there are fewer bytes. -/
def drain (n : Nat) (buffer : List UInt8) : Option (List UInt8) :=
  if n ≤ buffer.length then some (buffer.drop n) else none

def captureTurn (limit : Nat) (out : Output) (chunk : Chunk) : Option Output :=
  let n := chunk.bytes.length
  if out.buffer.length + n > limit then
    let keepFrom := out.buffer.length + n - limit
    (drain keepFrom out.buffer).map fun buffer => ⟨buffer ++ chunk.bytes, true⟩
  else some ⟨out.buffer ++ chunk.bytes, out.truncated⟩

def captureStdout (limit : Nat) : Output → Chunk → Option Output := captureTurn limit

def captureStderr (limit : Nat) : Output → Chunk → Option Output := captureTurn limit

def captureRead (limit : Nat) (out : Output) : Pipe × Chunk → Option Output
  | (.stdout, chunk) => captureStdout limit out chunk
  | (.stderr, chunk) => captureStderr limit out chunk

def capture (limit : Nat) (reads : List (Pipe × Chunk)) : Option Output :=
  reads.foldlM (captureRead limit) .empty

def isContinuation (b : UInt8) : Bool := b &&& 0xC0 = 0x80

def skipContinuation : Nat → List UInt8 → Nat
  | pos, [] => pos
  | pos, b :: rest => if isContinuation b then skipContinuation (pos + 1) rest else pos

def findUtf8Boundary (data : List UInt8) (minPos : Nat) : Nat :=
  if minPos < data.length then skipContinuation minPos (data.drop minPos) else data.length

def addOutput (limit : Nat) (out : Output) (data : List UInt8) : Output :=
  let buffer := out.buffer ++ data
  if buffer.length > limit then
    let excess := buffer.length - limit
    ⟨buffer.drop (findUtf8Boundary buffer excess), true⟩
  else ⟨buffer, out.truncated⟩

def session (limit : Nat) (reads : List (Pipe × Chunk)) : Output :=
  reads.foldl (fun out read => addOutput limit out read.2.bytes) .empty

def bytesOf (reads : List (Pipe × Chunk)) : List UInt8 := reads.flatMap fun read => read.2.bytes

def OnBoundary (buffer bytes : List UInt8) : Prop :=
  ∀ s, utf8 s = bytes → ∃ t, t <:+ s ∧ utf8 t = buffer

structure BoundedSuffix (limit : Nat) (reads : List (Pipe × Chunk)) (out : Output) : Prop where
  bounded : out.buffer.length ≤ limit
  suffix : out.buffer <:+ bytesOf reads
  flag : out.truncated = true ↔ out.buffer ≠ bytesOf reads
  boundary : OnBoundary out.buffer (bytesOf reads)

/-- After each of the reads no loop has panicked, and the captured output is the bounded suffix that
`add_output` makes. -/
def CapturesSuffix (limit : Nat) (reads : List (Pipe × Chunk)) : Prop :=
  ∀ seen, seen <+: reads →
    ∃ out, capture limit seen = some out ∧ BoundedSuffix limit seen out ∧ out = session limit seen

def CutsOnBoundary (limit : Nat) (bytes : List UInt8) : Prop :=
  limit < bytes.length → ∀ b, bytes[bytes.length - limit]? = some b → isContinuation b = false

def CleanCuts (limit : Nat) (reads : List (Pipe × Chunk)) : Prop :=
  (∀ read ∈ reads, read.2.bytes.length ≤ limit) ∧
    ∀ seen, seen <+: reads → CutsOnBoundary limit (bytesOf seen)

section

variable {c : Char} {s : List Char} {b : UInt8} {k : Nat}

theorem isContinuation_ofNat {n : Nat} (hlo : 128 ≤ n) (hhi : n < 192) :
    isContinuation (UInt8.ofNat n) = true := by
  obtain ⟨k, rfl⟩ := Nat.exists_eq_add_of_le hlo
  have hk : k < 64 := by omega
  have hall : ∀ k : Fin 64, isContinuation (UInt8.ofNat (128 + k.val)) = true := by decide
  exact hall ⟨k, hk⟩

theorem isContinuation_of_tail (h : b ∈ (String.utf8EncodeChar c).tail) :
    isContinuation b = true := by
  have hlast : ∀ n, isContinuation (UInt8.ofNat (n % 64 + 128)) = true := fun n =>
    isContinuation_ofNat (by omega) (by omega)
  simp only [String.utf8EncodeChar] at h
  split_ifs at h
  · simp at h
  · grind
  · grind
  · grind

theorem exists_suffix_of_boundary (hget : (utf8 s)[k]? = some b) (hb : isContinuation b = false) :
    ∃ t, t <:+ s ∧ utf8 t = (utf8 s).drop k := by
  induction s generalizing k with
  | nil => simp at hget
  | cons c s ih =>
    rw [utf8_cons] at hget ⊢
    by_cases hk : k < (String.utf8EncodeChar c).length
    · by_cases hzero : k = 0
      · subst hzero
        exact ⟨c :: s, List.suffix_refl _, by rw [List.drop_zero, utf8_cons]⟩
      · rw [List.getElem?_append_left hk] at hget
        have htail : b ∈ (String.utf8EncodeChar c).tail := by
          obtain ⟨j, rfl⟩ := Nat.exists_eq_succ_of_ne_zero hzero
          refine List.mem_of_getElem? (i := j) ?_
          rwa [List.getElem?_tail]
        have hcont := isContinuation_of_tail htail
        rw [hb] at hcont
        cases hcont
    · rw [List.getElem?_append_right (by omega)] at hget
      obtain ⟨t, hsuffix, ht⟩ := ih hget
      refine ⟨t, hsuffix.trans (List.suffix_cons c s), ?_⟩
      rw [ht, List.drop_append, List.drop_eq_nil_of_le (Nat.le_of_not_lt hk), List.nil_append]

end

section

variable {data rest : List UInt8} {pos minPos : Nat}

theorem le_skipContinuation (pos : Nat) (data : List UInt8) : pos ≤ skipContinuation pos data := by
  induction data generalizing pos with
  | nil => exact Nat.le_refl pos
  | cons b rest ih =>
    have hnext := ih (pos + 1)
    rw [skipContinuation]
    split_ifs
    · omega
    · exact Nat.le_refl pos

theorem skipContinuation_le (pos : Nat) (data : List UInt8) :
    skipContinuation pos data ≤ pos + data.length := by
  induction data generalizing pos with
  | nil => exact Nat.le_refl pos
  | cons b rest ih =>
    have hnext := ih (pos + 1)
    rw [skipContinuation, List.length_cons]
    split_ifs
    · omega
    · omega

theorem findUtf8Boundary_le : findUtf8Boundary data minPos ≤ data.length := by
  rw [findUtf8Boundary]
  split_ifs
  · have hle := skipContinuation_le minPos (data.drop minPos)
    rw [List.length_drop] at hle
    omega
  · exact Nat.le_refl _

theorem findUtf8Boundary_eq_iff {b : UInt8} (hget : data[minPos]? = some b) :
    findUtf8Boundary data minPos = minPos ↔ isContinuation b = false := by
  have hlt : minPos < data.length := by
    by_contra hge
    rw [List.getElem?_eq_none (by omega)] at hget
    cases hget
  have hdrop : data.drop minPos = b :: data.drop (minPos + 1) := by
    have hb : data[minPos] = b := by
      rw [List.getElem?_eq_getElem hlt] at hget
      exact Option.some.inj hget
    rw [List.drop_eq_getElem_cons hlt, hb]
  rw [findUtf8Boundary, if_pos hlt, hdrop, skipContinuation]
  by_cases hb : isContinuation b = true
  · have hnext := le_skipContinuation (minPos + 1) (data.drop (minPos + 1))
    rw [if_pos hb, hb]
    constructor
    · omega
    · intro h
      cases h
  · simp [hb]

end

section

variable {limit : Nat} {bytes : List UInt8} {chunk : Chunk} {out : Output}

def lastBytes (limit : Nat) (bytes : List UInt8) : Output :=
  ⟨lastPart limit bytes, decide (limit < bytes.length)⟩

theorem captureTurn_lastBytes : captureTurn limit (lastBytes limit bytes) chunk =
    if chunk.bytes.length ≤ limit then some (lastBytes limit (bytes ++ chunk.bytes)) else none := by
  have hlen := length_lastPart limit bytes
  by_cases hchunk : chunk.bytes.length ≤ limit
  · rw [if_pos hchunk]
    by_cases hover : limit < (lastPart limit bytes).length + chunk.bytes.length
    · have hroom : (lastPart limit bytes).length + chunk.bytes.length - limit ≤
          (lastPart limit bytes).length := by omega
      have hkeep := lastPart_append_of_le hchunk hover
      have htotal : limit < (bytes ++ chunk.bytes).length := by
        rw [List.length_append]
        omega
      simp only [captureTurn, lastBytes, hover, if_true, drain, hroom, if_true, Option.map_some]
      rw [← lastPart_append, hkeep, decide_eq_true htotal]
    · have hshort : bytes.length ≤ limit := by
        have hpos := List.length_pos_iff.mpr chunk.nonempty
        omega
      have htotal : (bytes ++ chunk.bytes).length ≤ limit := by
        rw [List.length_append]
        omega
      simp only [captureTurn, lastBytes, hover, if_false]
      rw [lastPart_of_le hshort, lastPart_of_le htotal, decide_eq_false (by omega),
        decide_eq_false (by omega)]
  · have hover : limit < (lastPart limit bytes).length + chunk.bytes.length := by omega
    have hroom : ¬ (lastPart limit bytes).length + chunk.bytes.length - limit ≤
        (lastPart limit bytes).length := by omega
    simp only [captureTurn, lastBytes, hover, if_true, drain, hroom, if_false, Option.map_none,
      hchunk]

theorem addOutput_lastBytes_iff (hlimit : 0 < limit) :
    addOutput limit (lastBytes limit bytes) chunk.bytes = lastBytes limit (bytes ++ chunk.bytes) ↔
      CutsOnBoundary limit (bytes ++ chunk.bytes) := by
  have hlen := length_lastPart limit bytes
  by_cases hover : limit < (lastPart limit bytes ++ chunk.bytes).length
  · have htotal : limit < (bytes ++ chunk.bytes).length := by
      rw [List.length_append] at hover ⊢
      omega
    have hkept : (lastPart limit bytes ++ chunk.bytes).drop
        ((lastPart limit bytes ++ chunk.bytes).length - limit) =
          lastPart limit (bytes ++ chunk.bytes) := lastPart_append limit bytes chunk.bytes
    have hfirst : (lastPart limit bytes ++ chunk.bytes)[
        (lastPart limit bytes ++ chunk.bytes).length - limit]? =
          (bytes ++ chunk.bytes)[(bytes ++ chunk.bytes).length - limit]? := by
      have hget := congrArg (fun l => l[0]?) hkept
      rw [lastPart.eq_1 limit (bytes ++ chunk.bytes)] at hget
      simpa only [List.getElem?_drop, Nat.add_zero] using hget
    obtain ⟨b, hb⟩ : ∃ b, (bytes ++ chunk.bytes)[(bytes ++ chunk.bytes).length - limit]? = some b :=
      ⟨_, List.getElem?_eq_getElem (by omega)⟩
    have hcuts : CutsOnBoundary limit (bytes ++ chunk.bytes) ↔ isContinuation b = false := by
      rw [CutsOnBoundary, hb]
      simp only [htotal, Option.some.injEq, forall_eq', forall_const]
    rw [hcuts, ← findUtf8Boundary_eq_iff (hfirst.trans hb)]
    simp only [addOutput, lastBytes, hover, if_true, decide_eq_true htotal, Output.mk.injEq,
      and_true]
    rw [← hkept]
    constructor
    · intro hsame
      have hlength := congrArg List.length hsame
      simp only [List.length_drop] at hlength
      omega
    · intro hsame
      rw [hsame]
  · have hpos := List.length_pos_iff.mpr chunk.nonempty
    have htotal : ¬ limit < (bytes ++ chunk.bytes).length := by
      rw [List.length_append] at hover ⊢
      omega
    have hshort : bytes.length ≤ limit := by
      rw [List.length_append] at htotal
      omega
    simp only [addOutput, lastBytes, if_false, lastPart_of_le hshort,
      lastPart_of_le (Nat.le_of_not_lt htotal), CutsOnBoundary, htotal, false_implies,
      decide_eq_false (Nat.not_lt.mpr hshort), decide_false]

end

section

variable {limit : Nat} {seen reads : List (Pipe × Chunk)} {read : Pipe × Chunk} {out : Output}

theorem captureRead_eq (limit : Nat) (out : Output) (read : Pipe × Chunk) :
    captureRead limit out read = captureTurn limit out read.2 := by
  obtain ⟨pipe, chunk⟩ := read
  cases pipe
  · rfl
  · rfl

theorem capture_append (limit : Nat) (seen : List (Pipe × Chunk)) (read : Pipe × Chunk) :
    capture limit (seen ++ [read]) =
      (capture limit seen).bind fun out => captureTurn limit out read.2 := by
  rw [capture, capture]
  simp [captureRead_eq]

theorem session_append (limit : Nat) (seen : List (Pipe × Chunk)) (read : Pipe × Chunk) :
    session limit (seen ++ [read]) = addOutput limit (session limit seen) read.2.bytes := by
  rw [session, List.foldl_append]
  rfl

theorem bytesOf_append (seen : List (Pipe × Chunk)) (read : Pipe × Chunk) :
    bytesOf (seen ++ [read]) = bytesOf seen ++ read.2.bytes := by
  simp [bytesOf]

theorem capture_clean (h : CleanCuts limit reads) (hseen : seen <+: reads) :
    capture limit seen = some (lastBytes limit (bytesOf seen)) ∧
      session limit seen = lastBytes limit (bytesOf seen) := by
  induction seen using List.reverseRecOn with
  | nil => exact ⟨by simp [capture, lastBytes, bytesOf, lastPart, Output.empty],
      by simp [session, lastBytes, bytesOf, lastPart, Output.empty]⟩
  | append_singleton seen read ih =>
    obtain ⟨hcapture, hsession⟩ := ih ((List.prefix_append seen [read]).trans hseen)
    have hread : read ∈ reads := hseen.subset (by simp)
    have hchunk := h.1 read hread
    have hpos := List.length_pos_iff.mpr read.2.nonempty
    have hcuts := h.2 _ hseen
    rw [bytesOf_append] at hcuts ⊢
    rw [capture_append, hcapture, Option.bind_some, captureTurn_lastBytes, if_pos hchunk,
      session_append, hsession, (addOutput_lastBytes_iff (by omega)).mpr hcuts]
    exact ⟨rfl, rfl⟩

theorem clean_of_captures (h : CapturesSuffix limit reads) (hseen : seen <+: reads) :
    capture limit seen = some (lastBytes limit (bytesOf seen)) ∧ CleanCuts limit seen := by
  induction seen using List.reverseRecOn with
  | nil =>
    have hnone : ∀ seen : List (Pipe × Chunk), seen <+: [] → bytesOf seen = [] := by
      intro seen hnil
      rw [List.prefix_nil.mp hnil]
      rfl
    refine ⟨by simp [capture, lastBytes, bytesOf, lastPart, Output.empty], by simp, ?_⟩
    intro seen hnil
    rw [hnone seen hnil]
    simp [CutsOnBoundary]
  | append_singleton seen read ih =>
    have hbefore := (List.prefix_append seen [read]).trans hseen
    obtain ⟨hcapture, hclean⟩ := ih hbefore
    obtain ⟨out, hout, -, hsame⟩ := h _ hseen
    obtain ⟨out', hout', -, hsame'⟩ := h _ hbefore
    obtain rfl : lastBytes limit (bytesOf seen) = out' := Option.some.inj (hcapture.symm.trans hout')
    rw [capture_append, hcapture, Option.bind_some, captureTurn_lastBytes] at hout
    split_ifs at hout with hchunk
    obtain rfl := Option.some.inj hout
    have hpos := List.length_pos_iff.mpr read.2.nonempty
    rw [session_append, ← hsame'] at hsame
    have hcuts := (addOutput_lastBytes_iff (by omega)).mp hsame.symm
    refine ⟨?_, ?_, ?_⟩
    · rw [capture_append, hcapture, Option.bind_some, captureTurn_lastBytes, if_pos hchunk,
        bytesOf_append]
    · intro other hother
      rcases List.mem_append.mp hother with hother | hother
      · exact hclean.1 other hother
      · rw [List.mem_singleton.mp hother]
        exact hchunk
    · intro part hpart
      rcases List.prefix_concat_iff.mp hpart with hall | hpart
      · rw [hall, bytesOf_append]
        exact hcuts
      · exact hclean.2 part hpart

theorem boundedSuffix_lastBytes (h : CutsOnBoundary limit (bytesOf reads)) :
    BoundedSuffix limit reads (lastBytes limit (bytesOf reads)) := by
  have hlen := length_lastPart limit (bytesOf reads)
  refine ⟨?_, lastPart_suffix limit (bytesOf reads), ?_, ?_⟩
  · show (lastPart limit (bytesOf reads)).length ≤ limit
    omega
  · show decide (limit < (bytesOf reads).length) = true ↔ lastPart limit (bytesOf reads) ≠ _
    rw [decide_eq_true_iff, ne_eq, lastPart_eq_self_iff]
    omega
  · intro s hs
    show ∃ t, t <:+ s ∧ utf8 t = lastPart limit (bytesOf reads)
    by_cases hover : limit < (bytesOf reads).length
    · by_cases hzero : limit = 0
      · refine ⟨[], List.nil_suffix, ?_⟩
        rw [hzero, lastPart, Nat.sub_zero, List.drop_length, utf8_nil]
      · obtain ⟨b, hb⟩ : ∃ b, (bytesOf reads)[(bytesOf reads).length - limit]? = some b :=
          ⟨_, List.getElem?_eq_getElem (by omega)⟩
        have hfirst := h hover b hb
        rw [← hs] at hb
        obtain ⟨t, hsuffix, ht⟩ := exists_suffix_of_boundary hb hfirst
        exact ⟨t, hsuffix, by rw [ht, hs, lastPart]⟩
    · exact ⟨s, List.suffix_refl s, by rw [hs, lastPart_of_le (Nat.le_of_not_lt hover)]⟩

/-- The loops capture the bounded suffix if and only if no read brings more bytes than the limit and
no cut falls inside a character. -/
theorem capturesSuffix_iff (limit : Nat) (reads : List (Pipe × Chunk)) :
    CapturesSuffix limit reads ↔ CleanCuts limit reads := by
  constructor
  · intro h
    exact (clean_of_captures h (List.prefix_refl reads)).2
  · intro h seen hseen
    obtain ⟨hcapture, hsession⟩ := capture_clean h hseen
    exact ⟨_, hcapture, boundedSuffix_lastBytes (h.2 seen hseen), hsession.symm⟩

def twoBytes : List (Pipe × Chunk) := [(.stdout, ⟨[104, 105], by decide, by decide⟩)]

theorem long_chunk_panics : capture 1 twoBytes = none ∧
    ¬ ∀ limit reads, CapturesSuffix limit reads := by
  have hpanics : capture 1 twoBytes = none := by decide
  refine ⟨hpanics, fun h => ?_⟩
  obtain ⟨out, hout, -⟩ := h 1 twoBytes twoBytes (List.prefix_refl twoBytes)
  rw [hpanics] at hout
  cases hout

end

end SwissArmyHammer.Terminals
