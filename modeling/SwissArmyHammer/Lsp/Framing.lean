import SwissArmyHammer.Common.BufferedReader
import SwissArmyHammer.Common.Json
import SwissArmyHammer.Text.Lines
import SwissArmyHammer.Text.Utf8

/-! Messages on a pipe: header lines, a blank line and as many bytes as the headers say. -/

namespace SwissArmyHammer.Lsp

open Text

def contentLengthPrefix : List Char := "Content-Length:".toList

def stripPrefix (line : List Char) : Option (List Char) :=
  if contentLengthPrefix.isPrefixOf line then some (line.drop contentLengthPrefix.length) else none

def parseUsize (s : List Char) : Option Nat :=
  let digits := if s.head? = some '+' then s.tail else s
  if digits ≠ [] ∧ digits.all Char.isDigit then
    let n := Nat.ofDigitChars 10 digits 0
    if n < 2 ^ 64 then some n else none
  else none

abbrev Pipe := BufferedReader UInt8

def readHeaders : Nat → Option Nat → Pipe → Except String (Option Nat) × Pipe
  | 0, _, r => (.error "unexpected EOF reading headers", r)
  | fuel + 1, contentLength, r =>
    let read := BufferedReader.readUntil 10 r.buffer r.chunks
    if read.1 = [] then (.error "unexpected EOF reading headers", read.2)
    else
      match decodeUtf8 read.1 with
      | none => (.error "read header: stream did not contain valid UTF-8", read.2)
      | some line =>
        if trim line = [] then (.ok contentLength, read.2)
        else
          match stripPrefix (trim line) with
          | none => readHeaders fuel contentLength read.2
          | some val =>
            match parseUsize (trim val) with
            | none => (.error "bad Content-Length: invalid digit found in string", read.2)
            | some n => readHeaders fuel (some n) read.2

/-- `read_jsonrpc_message`, and `read_jsonrpc_response`. -/
def readMessage (decode : List UInt8 → Option Json) (r : Pipe) : Except String Json × Pipe :=
  match readHeaders (r.bytes.length + 1) none r with
  | (.error e, r) => (.error e, r)
  | (.ok none, r) => (.error "missing Content-Length header", r)
  | (.ok (some length), r) =>
    match BufferedReader.readExact length r.buffer r.chunks with
    | (none, r) => (.error "read body: failed to fill whole buffer", r)
    | (some body, r) =>
      match decode body with
      | none => (.error "json decode", r)
      | some json => (.ok json, r)

structure Frame where
  before : List (List Char)
  after : List (List Char)
  body : List UInt8

def crlf : List Char := ['\r', '\n']

def OtherHeader (line : List Char) : Prop :=
  '\n' ∉ line ∧ trim (line ++ crlf) ≠ [] ∧ stripPrefix (trim (line ++ crlf)) = none

namespace Frame

variable (frame : Frame)

def lengthHeader : List Char := contentLengthPrefix ++ ' ' :: Nat.toDigits 10 frame.body.length

def lineBytes (line : List Char) : List UInt8 := utf8 (line ++ crlf)

def bytes : List UInt8 :=
  (frame.before ++ frame.lengthHeader :: frame.after).flatMap lineBytes ++ lineBytes [] ++ frame.body

structure WellFormed : Prop where
  before : ∀ line ∈ frame.before, OtherHeader line
  after : ∀ line ∈ frame.after, OtherHeader line
  fits : frame.body.length < 2 ^ 64

end Frame

theorem not_white_of_digit {c : Char} (h : c.isDigit = true) : isWhitespace c = false ∧ c ≠ '+' := by
  obtain ⟨hlow, hhigh⟩ := Char.isDigit_iff_toNat.mp h
  have hlow' : 48 ≤ c.toNat := hlow
  have hhigh' : c.toNat ≤ 57 := hhigh
  constructor
  · simp only [isWhitespace, Bool.or_eq_false_iff, Bool.and_eq_false_iff, decide_eq_false_iff_not]
    omega
  · rintro rfl
    exact absurd hlow' (by decide)

theorem digits_isDigit (n : Nat) : ∀ c ∈ Nat.toDigits 10 n, c.isDigit = true := fun _ hc =>
  Nat.isDigit_of_mem_toDigits (by decide) (by decide) hc

theorem parseUsize_toDigits {n : Nat} (h : n < 2 ^ 64) : parseUsize (Nat.toDigits 10 n) = some n := by
  have hhead : ¬ (Nat.toDigits 10 n).head? = some '+' := by
    intro hplus
    have hmem := List.mem_of_mem_head? (Option.mem_def.mpr hplus)
    exact (not_white_of_digit (digits_isDigit n _ hmem)).2 rfl
  have hall : (Nat.toDigits 10 n).all Char.isDigit = true := List.all_eq_true.mpr (digits_isDigit n)
  rw [parseUsize, if_neg hhead, if_pos ⟨Nat.toDigits_ne_nil, hall⟩, Nat.ofDigitChars_ten_toDigits,
    if_pos h]

theorem trim_of_ends {s : List Char} (white : List Char) (hne : s ≠ [])
    (hhead : ∀ c, s.head? = some c → isWhitespace c = false)
    (hlast : ∀ c, s.getLast? = some c → isWhitespace c = false)
    (hwhite : ∀ c ∈ white, isWhitespace c = true) : trim (s ++ white) = s := by
  obtain ⟨first, rest, rfl⟩ := List.exists_cons_of_ne_nil hne
  have hfirst := hhead first rfl
  have hdrop : ((first :: rest) ++ white).dropWhile isWhitespace = (first :: rest) ++ white := by
    rw [List.cons_append, List.dropWhile_cons_of_neg (by simp [hfirst])]
  obtain ⟨init, last, hinit⟩ := (List.eq_nil_or_concat (first :: rest)).resolve_left hne
  have hend : isWhitespace last = false := hlast last (by rw [hinit]; simp)
  rw [trim, hdrop, List.reverse_append,
    List.dropWhile_append_of_pos fun c hc => hwhite c (List.mem_reverse.mp hc), hinit,
    List.concat_eq_append, List.reverse_append, List.reverse_singleton, List.singleton_append,
    List.dropWhile_cons_of_neg (by simp [hend]), List.reverse_cons, List.reverse_reverse]

theorem trim_spaced {s : List Char} (hne : s ≠ []) (hall : ∀ c ∈ s, isWhitespace c = false) :
    trim (' ' :: s) = s := by
  have htrim := trim_of_ends [] hne (fun c hc => hall c (List.mem_of_mem_head? hc))
    (fun c hc => hall c (List.mem_of_getLast? hc)) (fun c hc => absurd hc List.not_mem_nil)
  rw [List.append_nil] at htrim
  rw [trim] at htrim ⊢
  exact htrim

section

variable {decode : List UInt8 → Option Json} {frame : Frame} {r : Pipe} {rest : List UInt8}

theorem white_crlf : ∀ c ∈ crlf, isWhitespace c = true := by
  intro c hc
  rcases List.mem_cons.mp hc with rfl | hc
  · rfl
  · obtain rfl := List.mem_singleton.mp hc
    rfl

theorem trim_lengthHeader (frame : Frame) :
    trim (frame.lengthHeader ++ crlf) = frame.lengthHeader := by
  refine trim_of_ends crlf (by simp [Frame.lengthHeader]) (fun c hc => ?_) (fun c hc => ?_) white_crlf
  · obtain rfl : 'C' = c := Option.some.inj hc
    decide
  · have hmem : c ∈ Nat.toDigits 10 frame.body.length := by
      have hsplit : frame.lengthHeader = (contentLengthPrefix ++ [' ']) ++
        Nat.toDigits 10 frame.body.length := by simp [Frame.lengthHeader]
      rw [hsplit, List.getLast?_append_of_ne_nil _ Nat.toDigits_ne_nil] at hc
      exact List.mem_of_getLast? hc
    exact (not_white_of_digit (digits_isDigit _ c hmem)).1

theorem stripPrefix_lengthHeader (frame : Frame) :
    stripPrefix frame.lengthHeader = some (' ' :: Nat.toDigits 10 frame.body.length) := by
  rw [stripPrefix, Frame.lengthHeader, if_pos (by simp [List.isPrefixOf_iff_prefix]), List.drop_left]

theorem newline_mem_utf8 {s : List Char} (h : (10 : UInt8) ∈ utf8 s) : '\n' ∈ s := by
  obtain ⟨c, hc, hbyte⟩ := List.mem_flatMap.mp h
  by_cases hascii : c.toNat < 128
  · rw [utf8EncodeChar_ascii hascii, List.mem_singleton] at hbyte
    have hnat := congrArg UInt8.toNat hbyte
    rw [toNat_ofNat_ascii hascii] at hnat
    have hten : c.toNat = 10 := hnat.symm
    have hnewline : c = '\n' := Char.toNat_inj.mp hten
    exact hnewline ▸ hc
  · have hhigh := byte_of_not_ascii (Nat.not_lt.mp hascii) _ hbyte
    exact absurd hhigh (by decide)

theorem readLine_spec {line : List Char} (hline : '\n' ∉ line)
    (h : r.bytes = Frame.lineBytes line ++ rest) :
    let read := BufferedReader.readUntil 10 r.buffer r.chunks
    read.1 ≠ [] ∧ decodeUtf8 read.1 = some (line ++ crlf) ∧
      BufferedReader.Took r (Frame.lineBytes line) read.2 := by
  have hsplit : Frame.lineBytes line = (utf8 line ++ [13]) ++ [10] := by
    rw [Frame.lineBytes, crlf, utf8_append, List.append_assoc]
    rfl
  have hnot : (10 : UInt8) ∉ utf8 line ++ [13] := by
    intro hmem
    rcases List.mem_append.mp hmem with hmem | hmem
    · exact hline (newline_mem_utf8 hmem)
    · exact absurd (List.mem_singleton.mp hmem) (by decide)
  have hbytes : r.buffer ++ r.chunks.flatten = (utf8 line ++ [13]) ++ 10 :: rest := by
    rw [← BufferedReader.bytes, h, hsplit, List.append_assoc _ [10]]
    rfl
  obtain ⟨hread, htook⟩ := BufferedReader.readUntil_spec hnot hbytes
  rw [← hsplit] at hread htook
  refine ⟨?_, ?_, htook⟩
  · rw [hread, hsplit]
    simp
  · rw [hread]
    exact decodeUtf8_eq_some.mpr rfl

theorem readHeaders_blank (fuel : Nat) (contentLength : Option Nat)
    (h : r.bytes = Frame.lineBytes [] ++ rest) :
    ∃ r', BufferedReader.Took r (Frame.lineBytes []) r' ∧
      readHeaders (fuel + 1) contentLength r = (.ok contentLength, r') := by
  obtain ⟨hne, hdecode, htook⟩ := readLine_spec List.not_mem_nil h
  refine ⟨_, htook, ?_⟩
  have htrim : trim ([] ++ crlf) = [] := by decide
  simp only [readHeaders, if_neg hne, hdecode, htrim, if_true]

theorem readHeaders_other (fuel : Nat) (contentLength : Option Nat) {line : List Char}
    (hline : OtherHeader line) (h : r.bytes = Frame.lineBytes line ++ rest) :
    ∃ r', BufferedReader.Took r (Frame.lineBytes line) r' ∧
      readHeaders (fuel + 1) contentLength r = readHeaders fuel contentLength r' := by
  obtain ⟨hne, hdecode, htook⟩ := readLine_spec hline.1 h
  refine ⟨_, htook, ?_⟩
  simp only [readHeaders, if_neg hne, hdecode, if_neg hline.2.1, hline.2.2]

theorem readHeaders_length (fuel : Nat) (contentLength : Option Nat) (hframe : frame.WellFormed)
    (h : r.bytes = Frame.lineBytes frame.lengthHeader ++ rest) :
    ∃ r', BufferedReader.Took r (Frame.lineBytes frame.lengthHeader) r' ∧
      readHeaders (fuel + 1) contentLength r = readHeaders fuel (some frame.body.length) r' := by
  have hall : ∀ c ∈ Nat.toDigits 10 frame.body.length, isWhitespace c = false := fun c hc =>
    (not_white_of_digit (digits_isDigit _ c hc)).1
  have hline : '\n' ∉ frame.lengthHeader := by
    intro hmem
    rcases List.mem_append.mp hmem with hmem | hmem
    · exact absurd hmem (by decide)
    · rcases List.mem_cons.mp hmem with heq | hmem
      · exact absurd heq (by decide)
      · exact absurd (hall _ hmem) (by decide)
  obtain ⟨hne, hdecode, htook⟩ := readLine_spec hline h
  refine ⟨_, htook, ?_⟩
  have hnonempty : frame.lengthHeader ≠ [] := by simp [Frame.lengthHeader]
  simp only [readHeaders, if_neg hne, hdecode, trim_lengthHeader, if_neg hnonempty,
    stripPrefix_lengthHeader, trim_spaced Nat.toDigits_ne_nil hall, parseUsize_toDigits hframe.fits]

theorem readHeaders_others (fuel : Nat) (contentLength : Option Nat) {lines : List (List Char)}
    (hlines : ∀ line ∈ lines, OtherHeader line)
    (h : r.bytes = lines.flatMap Frame.lineBytes ++ rest) :
    ∃ r', BufferedReader.Took r (lines.flatMap Frame.lineBytes) r' ∧
      readHeaders (lines.length + fuel) contentLength r = readHeaders fuel contentLength r' := by
  induction lines generalizing r with
  | nil => exact ⟨r, .refl r, by rw [List.length_nil, Nat.zero_add]⟩
  | cons line lines ih =>
    rw [List.flatMap_cons, List.append_assoc] at h
    have hlength : (line :: lines).length + fuel = (lines.length + fuel) + 1 := by
      rw [List.length_cons]
      omega
    obtain ⟨r', htook, hread⟩ := readHeaders_other (lines.length + fuel) contentLength
      (hlines line List.mem_cons_self) h
    have hrest : r'.bytes = lines.flatMap Frame.lineBytes ++ rest :=
      List.append_cancel_left (htook.bytes.symm.trans h)
    obtain ⟨r'', htook', hread'⟩ := ih (fun l hl => hlines l (List.mem_cons_of_mem _ hl)) hrest
    exact ⟨r'', htook.trans htook', by rw [hlength, hread, hread']⟩

theorem length_le_lines (lines : List (List Char)) :
    lines.length ≤ (lines.flatMap Frame.lineBytes).length := by
  induction lines with
  | nil => exact Nat.le_refl _
  | cons line lines ih =>
    have hpos : 0 < (Frame.lineBytes line).length := utf8_length_pos (by simp [crlf])
    rw [List.flatMap_cons, List.length_append, List.length_cons]
    omega

theorem readMessage_spec {json : Json} (hframe : frame.WellFormed)
    (hdecode : decode frame.body = some json) (h : r.bytes = frame.bytes ++ rest) :
    ∃ r', BufferedReader.Took r frame.bytes r' ∧ readMessage decode r = (.ok json, r') := by
  have hsplit : frame.bytes = frame.before.flatMap Frame.lineBytes ++
      (Frame.lineBytes frame.lengthHeader ++ (frame.after.flatMap Frame.lineBytes ++
        (Frame.lineBytes [] ++ frame.body))) := by
    simp only [Frame.bytes, List.flatMap_append, List.flatMap_cons, List.append_assoc]
  have hbefore := length_le_lines frame.before
  have hafter := length_le_lines frame.after
  have hblank : 0 < (Frame.lineBytes []).length := utf8_length_pos (by simp [crlf])
  have htotal := congrArg List.length h
  rw [hsplit] at htotal
  simp only [List.length_append] at htotal
  obtain ⟨extra, hfuel⟩ : ∃ extra, r.bytes.length + 1 =
      frame.before.length + ((frame.after.length + (extra + 1)) + 1) :=
    ⟨r.bytes.length - frame.before.length - frame.after.length - 1, by omega⟩
  rw [hsplit] at h
  simp only [List.append_assoc] at h
  obtain ⟨r₁, htook₁, hread₁⟩ := readHeaders_others ((frame.after.length + (extra + 1)) + 1) none
    hframe.before h
  have h₁ := List.append_cancel_left (htook₁.bytes.symm.trans h)
  obtain ⟨r₂, htook₂, hread₂⟩ := readHeaders_length (frame.after.length + (extra + 1)) none hframe h₁
  have h₂ := List.append_cancel_left (htook₂.bytes.symm.trans h₁)
  obtain ⟨r₃, htook₃, hread₃⟩ := readHeaders_others (extra + 1) (some frame.body.length) hframe.after h₂
  have h₃ := List.append_cancel_left (htook₃.bytes.symm.trans h₂)
  obtain ⟨r₄, htook₄, hread₄⟩ := readHeaders_blank extra (some frame.body.length) h₃
  have h₄ := List.append_cancel_left (htook₄.bytes.symm.trans h₃)
  obtain ⟨hbody, htook₅⟩ := BufferedReader.readExact_spec h₄
  refine ⟨(BufferedReader.readExact frame.body.length r₄.buffer r₄.chunks).2, ?_, ?_⟩
  · rw [hsplit]
    exact htook₁.trans (htook₂.trans (htook₃.trans (htook₄.trans htook₅)))
  · have hheaders : readHeaders (r.bytes.length + 1) none r = (.ok (some frame.body.length), r₄) := by
      rw [hfuel, hread₁, hread₂, hread₃, hread₄]
    rw [readMessage, hheaders]
    dsimp only
    have hexact : BufferedReader.readExact frame.body.length r₄.buffer r₄.chunks =
        (some frame.body, (BufferedReader.readExact frame.body.length r₄.buffer r₄.chunks).2) := by
      rw [← hbody]
    rw [hexact]
    dsimp only
    rw [hdecode]

theorem readMessage_end (h : r.bytes = []) :
    readMessage decode r = (.error "unexpected EOF reading headers", ⟨[], []⟩) := by
  rw [readMessage, readHeaders, BufferedReader.readUntil_end h]
  rfl

end

end SwissArmyHammer.Lsp
