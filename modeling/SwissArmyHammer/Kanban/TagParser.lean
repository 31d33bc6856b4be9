import Mathlib.Data.Char
import Mathlib.Data.Finset.Sort
import Mathlib.Data.List.Lex
import SwissArmyHammer.Text.Lines
import SwissArmyHammer.Text.Utf8

/-! `#tag` markers in a markdown text: the reader, which walks the bytes of a line, and the
writer, which walks its characters. A cursor is what stands before it and the rest of the
line. -/

namespace SwissArmyHammer.Kanban

open Text

abbrev Slug := List Char

instance : LawfulBEq Slug := inferInstance

def tick : Char := Char.ofNat 96

def byte (c : Char) : UInt8 := UInt8.ofNat c.toNat

def isFenceLine (trimmed : List Char) : Bool :=
  (List.replicate 3 tick).isPrefixOf trimmed || (List.replicate 3 '~').isPrefixOf trimmed

def isHeadingLine (line : List Char) : Bool :=
  match trimStart line with
  | ['#'] => true
  | '#' :: c :: _ => c = '#' || c = ' '
  | _ => false

structure MarkdownLine where
  content : List Char
  terminator : List Char
  tagBearing : Bool
  deriving DecidableEq

def splitLineTerminator (raw : List Char) : List Char × List Char :=
  match stripSuffix '\n' raw with
  | some content =>
    match stripSuffix '\r' content with
    | some content => (content, ['\r', '\n'])
    | none => (content, ['\n'])
  | none => (raw, [])

def markdownLinesFrom (inFencedBlock : Bool) : List (List Char) → List MarkdownLine
  | [] => []
  | raw :: raws =>
    let content := (splitLineTerminator raw).1
    let terminator := (splitLineTerminator raw).2
    if isFenceLine (trimStart content) then
      ⟨content, terminator, false⟩ :: markdownLinesFrom (!inFencedBlock) raws
    else
      ⟨content, terminator, !inFencedBlock && !isHeadingLine content⟩ ::
        markdownLinesFrom inFencedBlock raws

def markdownLines (text : List Char) : List MarkdownLine :=
  markdownLinesFrom false (splitInclusive text)

/-- What follows an opening backtick: the rest of its span, with the closing backtick when
there is one, and what comes after. -/
def skipInlineCode {α : Type} [DecidableEq α] (tick : α) : List α → List α × List α
  | [] => ([], [])
  | a :: rest =>
    if a = tick then ([a], rest)
    else (a :: (skipInlineCode tick rest).1, (skipInlineCode tick rest).2)

def isAsciiAlphanumeric (b : UInt8) : Bool :=
  (byte '0' ≤ b && b ≤ byte '9') || (byte 'A' ≤ b && b ≤ byte 'Z') ||
    (byte 'a' ≤ b && b ≤ byte 'z')

def gluedToAWord (before : Option UInt8) : Bool :=
  before.any fun b => isAsciiAlphanumeric b || b = byte '_'

def tagSlugAt (before : Option UInt8) (bytes : List UInt8) : Option (List UInt8) :=
  match bytes with
  | b :: start :: rest =>
    if b ≠ byte '#' || gluedToAWord before then none
    else if !isAsciiAlphanumeric start then none
    else some ((start :: rest).takeWhile fun b => isAsciiAlphanumeric b || b = byte '-')
  | _ => none

theorem length_skipInlineCode {α : Type} [DecidableEq α] (tick : α) (rest : List α) :
    (skipInlineCode tick rest).1.length + (skipInlineCode tick rest).2.length = rest.length := by
  induction rest with
  | nil => rfl
  | cons a rest ih =>
    rw [skipInlineCode]
    split
    · simp [Nat.add_comm]
    · simp only [List.length_cons]
      omega

def collectLineTags (before : Option UInt8) (bytes : List UInt8) : List Slug :=
  match bytes with
  | [] => []
  | b :: rest =>
    if b = byte tick then
      collectLineTags (b :: (skipInlineCode (byte tick) rest).1).getLast?
        (skipInlineCode (byte tick) rest).2
    else
      match tagSlugAt before (b :: rest) with
      | some slug => ofAscii slug :: collectLineTags slug.getLast? (rest.drop slug.length)
      | none => collectLineTags (some b) rest
termination_by bytes.length
decreasing_by
  · have := length_skipInlineCode (byte tick) rest
    simp only [List.length_cons]
    omega
  · simp only [List.length_drop, List.length_cons]
    omega
  · simp

def MarkdownLine.tags (line : MarkdownLine) : List Slug :=
  if line.tagBearing then collectLineTags none (utf8 line.content) else []

def parseTags (text : List Char) : List Slug :=
  ((markdownLines text).flatMap MarkdownLine.tags).toFinset.sort

def appendTag (text : List Char) (slug : Slug) : List Char :=
  if slug ∈ parseTags text then text
  else
    let space := if text ≠ [] ∧ ¬ text.getLast?.any isWhitespace then [' '] else []
    let inline := text ++ space ++ '#' :: slug
    if slug ∈ parseTags inline then inline
    else
      let newline := if text ≠ [] ∧ text.getLast? ≠ some '\n' then ['\n'] else []
      text ++ newline ++ '#' :: slug

/-- `rest` starts just past the marker and `out` is what the line has written so far: where
to go on, the character before it, and what is then written. -/
def rewriteMarker (last : Option Char) (rest : List Char) (replacement : Option (List Char))
    (out : List Char) : Option Char × List Char × List Char :=
  match replacement with
  | some text => (last, rest, out ++ text)
  | none =>
    match rest with
    | ' ' :: rest => (some ' ', rest, out)
    | _ => (last, rest, (stripSuffix ' ' out).getD out)

def lastByte (before : Option Char) : Option UInt8 :=
  before.bind fun c => (String.utf8EncodeChar c).getLast?

theorem length_rewriteMarker (last : Option Char) (rest : List Char)
    (replacement : Option (List Char)) (out : List Char) :
    (rewriteMarker last rest replacement out).2.1.length ≤ rest.length := by
  unfold rewriteMarker
  split
  · simp
  · split <;> simp

/-- What the line writes and whether it has rewritten a marker. The slug of a marker is
ASCII, so that it has as many characters as bytes. -/
def editLineMarkers (slug : Slug) (replacement : Option (List Char)) (before : Option Char)
    (line out : List Char) (edited : Bool) : List Char × Bool :=
  match line with
  | [] => (out, edited)
  | c :: rest =>
    if c = tick then
      editLineMarkers slug replacement (c :: (skipInlineCode tick rest).1).getLast?
        (skipInlineCode tick rest).2 (out ++ c :: (skipInlineCode tick rest).1) edited
    else
      match (tagSlugAt (lastByte before) (utf8 (c :: rest))).filter (· = utf8 slug) with
      | some found =>
        let next := rewriteMarker slug.getLast? (rest.drop found.length) replacement out
        editLineMarkers slug replacement next.1 next.2.1 next.2.2 true
      | none => editLineMarkers slug replacement (some c) rest (out ++ [c]) edited
termination_by line.length
decreasing_by
  · have := length_skipInlineCode tick rest
    simp only [List.length_cons]
    omega
  · have := length_rewriteMarker slug.getLast? (rest.drop found.length) replacement out
    simp only [List.length_drop, List.length_cons] at this ⊢
    omega
  · simp

def dropLastLineTerminator (text : List Char) : List Char :=
  match stripSuffix '\n' text with
  | some stripped => (stripSuffix '\r' stripped).getD stripped
  | none => text

def tidyRemovedLine (result written terminator : List Char) : List Char × Bool :=
  let kept := trimEnd written
  if kept = [] ∧ terminator = [] then (dropLastLineTerminator result, true)
  else (result ++ kept, false)

def editTagLine (slug : Slug) (replacement : Option (List Char)) (result : List Char)
    (line : MarkdownLine) : List Char :=
  if !line.tagBearing then result ++ line.content ++ line.terminator
  else
    let written := editLineMarkers slug replacement none line.content [] false
    if written.2 && replacement.isNone then
      let tidied := tidyRemovedLine result written.1 line.terminator
      if tidied.2 then tidied.1 else tidied.1 ++ line.terminator
    else result ++ written.1 ++ line.terminator

def editTagMarkers (text : List Char) (slug : Slug) (replacement : Option (List Char)) :
    List Char :=
  (markdownLines text).foldl (editTagLine slug replacement) []

def removeTag (text : List Char) (slug : Slug) : List Char := editTagMarkers text slug none

def renameTag (text : List Char) (oldSlug newSlug : Slug) : List Char :=
  editTagMarkers text oldSlug (some ('#' :: newSlug))

def normalizeSlugFrom (out : List Char) (lastWasHyphen : Bool) : List Char → List Char
  | [] => (stripSuffix '-' out).getD out
  | ch :: raw =>
    if ch.isAlphanum then normalizeSlugFrom (out ++ [ch]) false raw
    else if !lastWasHyphen then normalizeSlugFrom (out ++ ['-']) true raw
    else normalizeSlugFrom out lastWasHyphen raw

def normalizeSlug (raw : List Char) : Slug := normalizeSlugFrom [] true raw

end SwissArmyHammer.Kanban
