import Mathlib.Algebra.Group.Int.Defs
import Mathlib.Algebra.Group.Nat.Defs
import Mathlib.Data.List.DropRight
import SwissArmyHammer.Text.Utf8

/-! Hashline anchors: lines tagged with their number and a hash, and the lines that such tags
are resolved to. -/

namespace SwissArmyHammer.Edit

open Text

def isHorizontal (c : Char) : Bool := c = ' ' || c = '\t'

/-- `trim_matches([' ', '\t'])`. -/
def trimHorizontal (s : List Char) : List Char :=
  (s.dropWhile isHorizontal).rdropWhile isHorizontal

def renderHash (hash : UInt8) : List Char :=
  [Nat.digitChar (hash.toNat / 16), Nat.digitChar (hash.toNat % 16)]

structure Line where
  text : List Char
  terminator : List Char
  deriving DecidableEq

def isTerminator (c : Char) : Bool := c = '\n' || c = '\r'

theorem length_dropWhile_le (p : Char → Bool) (s : List Char) :
    (s.dropWhile p).length ≤ s.length :=
  (List.dropWhile_sublist p).length_le

def splitLines (content : List Char) : List Line :=
  if content = [] then []
  else
    let text := content.takeWhile fun c => !isTerminator c
    match _h : content.dropWhile fun c => !isTerminator c with
    | [] => [⟨text, []⟩]
    | '\r' :: '\n' :: rest => ⟨text, ['\r', '\n']⟩ :: splitLines rest
    | '\r' :: rest => ⟨text, ['\r']⟩ :: splitLines rest
    | _ :: rest => ⟨text, ['\n']⟩ :: splitLines rest
termination_by content.length
decreasing_by
  all_goals
    have hle := length_dropWhile_le (fun c => !isTerminator c) content
    rw [_h] at hle
    simp only [List.length_cons] at hle
    omega

/-- `split_once`. -/
def splitOnce (sep : Char) : List Char → Option (List Char × List Char)
  | [] => none
  | c :: s => if c = sep then some ([], s) else (splitOnce sep s).map fun r => (c :: r.1, r.2)

def stripPlus : List Char → List Char
  | '+' :: s => s
  | s => s

def parseUsize (s : List Char) : Option Nat :=
  let digits := stripPlus s
  if digits ≠ [] ∧ digits.all Char.isDigit ∧ Nat.ofDigitChars 10 digits 0 < 2 ^ 64 then
    some (Nat.ofDigitChars 10 digits 0)
  else none

def hexValue (c : Char) : Option Nat :=
  if c.isDigit then some (c.toNat - 48)
  else if 97 ≤ c.toNat ∧ c.toNat ≤ 102 then some (c.toNat - 87)
  else if 65 ≤ c.toNat ∧ c.toNat ≤ 70 then some (c.toNat - 55)
  else none

/-- `u8::from_str_radix(_, 16)`. -/
def parseHexU8 (s : List Char) : Option UInt8 :=
  match stripPlus s with
  | [] => none
  | digits =>
    match digits.foldlM (fun n c => (hexValue c).map fun d => 16 * n + d) 0 with
    | some n => if n < 256 then some (UInt8.ofNat n) else none
    | none => none

def parseAnchor (s : List Char) : Option (Nat × UInt8) :=
  let anchor := ((splitOnce '|' s).map Prod.fst).getD s
  match splitOnce ':' anchor with
  | none => none
  | some (num, hex) =>
    if num = [] ∨ (utf8 hex).length ≠ 2 then none
    else
      match parseUsize num, parseHexU8 hex with
      | some line, some hash => some (line, hash)
      | _, _ => none

section

variable (crc32 : List UInt8 → UInt32)

def hashLine (line : List Char) : UInt8 := (crc32 (utf8 (trimHorizontal line)) &&& 0xff).toUInt8

def tagged (n : Nat) (text : List Char) : List Char :=
  Nat.toDigits 10 n ++ ':' :: (renderHash (hashLine crc32 text) ++ '|' :: text)

def tag (content : List Char) (startLine : Nat) : List Char :=
  (splitLines content).zipIdx.flatMap fun (line, offset) =>
    tagged crc32 (startLine + offset) line.text ++ line.terminator

def proximityWindow : Nat := 50

def asIsize (n : Nat) : Int := if n < 2 ^ 63 then n else n - 2 ^ 64

def candidates (line : Nat) : List Int :=
  let center := asIsize (line - 1)
  (if 1 ≤ line then [center] else []) ++
    (List.range' 1 proximityWindow).flatMap fun (delta : Nat) => [center + delta, center - delta]

structure Nearest where
  hash : Option Nat
  text : Option Nat

def hashMatches (lines : List (List Char)) (hash : UInt8) (idx : Nat) : Bool :=
  (lines[idx]?).any fun t => hashLine crc32 t = hash

def textMatches (lines : List (List Char)) (text : Option (List Char)) (idx : Nat) : Bool :=
  text.any fun wanted => (lines[idx]?).any fun t => trimHorizontal t = trimHorizontal wanted

def consider (lines : List (List Char)) (hash : UInt8) (text : Option (List Char))
    (nearest : Nearest) (candidate : Int) : Nearest :=
  if candidate < 0 then nearest
  else
    let idx := candidate.toNat
    if !hashMatches crc32 lines hash idx then nearest
    else
      { hash := nearest.hash.or (some idx)
        text := nearest.text.or (if textMatches lines text idx then some idx else none) }

def resolveIndex (lines : List (List Char)) (line : Nat) (hash : UInt8)
    (text : Option (List Char)) : Option Nat :=
  let nearest := (candidates line).foldl (consider crc32 lines hash text) ⟨none, none⟩
  nearest.text.or nearest.hash

def lineSpans (offset : Nat) : List Line → List (Nat × List Char)
  | [] => []
  | line :: lines =>
    (offset, line.text) ::
      lineSpans (offset + (utf8 line.text).length + (utf8 line.terminator).length) lines

def spanRange (span : Nat × List Char) : Nat × Nat := (span.1, span.1 + (utf8 span.2).length)

def resolveAnchorRangeIn (content : List Char) (line : Nat) (hash : UInt8)
    (text : Option (List Char)) : Option (Nat × Nat) :=
  let spans := lineSpans 0 (splitLines content)
  (resolveIndex crc32 (spans.map Prod.snd) line hash text).bind fun idx =>
    (spans[idx]?).map spanRange

def resolveAnchor (content find : List Char) : Option (Nat × Nat) :=
  match parseAnchor find with
  | none => none
  | some (line, hash) =>
    resolveAnchorRangeIn crc32 content line hash ((splitOnce '|' find).map Prod.snd)

end

example : splitLines "a\rb\r\nc\n\nd".toList = [⟨['a'], ['\r']⟩, ⟨['b'], ['\r', '\n']⟩,
    ⟨['c'], ['\n']⟩, ⟨[], ['\n']⟩, ⟨['d'], []⟩] := by
  decide +kernel

end SwissArmyHammer.Edit
