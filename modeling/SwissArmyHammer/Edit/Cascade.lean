import Mathlib.Data.Nat.Cast.Defs
import SwissArmyHammer.Edit.Hashline
import SwissArmyHammer.Text.Lines
import SwissArmyHammer.Text.Search

/-! The ladder that finds the span of a text that a literal `find` describes. `K` is the type of
similarities. -/

namespace SwissArmyHammer.Edit

open Text

inductive Rung where
  | exact
  | normalized
  | anchor
  | fuzzy
  deriving DecidableEq

structure Span where
  range : Nat × Nat
  startLine : Nat
  endLine : Nat
  text : List Char
  deriving DecidableEq

inductive MatchOutcome (K : Type) where
  | unique (span : Nat × Nat) (rung : Rung) (confidence : K)
  | ambiguous (candidates : List Span)
  | noMatch (near : List Span)
  deriving DecidableEq

def physicalLinesFrom (bytes : List UInt8) (start idx : Nat) : List Char → List (Nat × Nat)
  | [] => if start < bytes.length then [(start, bytes.length)] else []
  | c :: rest =>
    if c = '\n' then
      (start, if start < idx ∧ bytes[idx - 1]? = some 13 then idx - 1 else idx) ::
        physicalLinesFrom bytes (idx + 1) (idx + 1) rest
    else physicalLinesFrom bytes start (idx + c.utf8Size) rest

def physicalLines (content : List Char) : List (Nat × Nat) :=
  physicalLinesFrom (utf8 content) 0 0 content

def slice (content : List Char) (range : Nat × Nat) : List Char :=
  (decodeUtf8 (((utf8 content).take range.2).drop range.1)).getD []

def isTrimmed (c : Char) : Bool := c = ' ' || c = '\t' || c = '\r'

def normalizeLine (s : List Char) : List Char := (s.dropWhile isTrimmed).rdropWhile isTrimmed

def lineNumberAt (content : List Char) (offset : Nat) : Nat :=
  ((utf8 content).take offset).count 10 + 1

def spanOf (content : List Char) (range : Nat × Nat) : Span where
  range := range
  startLine := lineNumberAt content range.1
  endLine :=
    if range.1 < range.2 then lineNumberAt content (range.2 - 1) else lineNumberAt content range.1
  text := slice content range

section

def levenshteinRow (ca : Char) (left : Nat) : List Nat → List Char → List Nat
  | diag :: up :: prev, cb :: b =>
    let cost := if ca ≠ cb then 1 else 0
    let cell := min (min (up + 1) (left + 1)) (diag + cost)
    cell :: levenshteinRow ca cell (up :: prev) b
  | _, _ => []

def levenshtein (a b : List Char) : Nat :=
  if a = [] then b.length
  else if b = [] then a.length
  else
    let last := a.zipIdx.foldl (fun prev (ca, i) => (i + 1) :: levenshteinRow ca (i + 1) prev b)
      (List.range (b.length + 1))
    (last[b.length]?).getD 0

variable (K : Type) [NatCast K] [Sub K] [Div K]

def fuzzyAcceptThreshold : K := (85 : Nat) / (100 : Nat)

def fuzzyRunnerUpMargin : K := (10 : Nat) / (100 : Nat)

def fuzzyBoundaryEpsilon : K := (1 : Nat) / (10000 : Nat)

def maxNearMisses : Nat := 3

def similarity (a b : List Char) : K :=
  let maxLen := max a.length b.length
  if maxLen = 0 then (1 : Nat) else (1 : Nat) - (levenshtein a b : K) / (maxLen : K)

end

section

variable {K : Type} [NatCast K] [Sub K] [Div K] [LE K] [DecidableLE K] [LT K] [DecidableLT K]

def isLineAligned (content : List Char) (start len : Nat) : Bool :=
  let bytes := utf8 content
  let stop := start + len
  let leftOk := start = 0 || bytes[start - 1]? = some 10
  let rightOk := stop = bytes.length || bytes[stop]? = some 10 ||
    (bytes[stop]? = some 13 && stop + 1 < bytes.length && bytes[stop + 1]? = some 10) ||
    (bytes[stop]? = some 13 && stop + 1 = bytes.length)
  leftOk && rightOk

def byteOffsetsFrom (haystack needle : List UInt8) (hne : needle ≠ []) (start : Nat) : List Nat :=
  match _h : findFirst needle (haystack.drop start) with
  | none => []
  | some rel =>
    (start + rel) :: byteOffsetsFrom haystack needle hne (start + rel + needle.length)
termination_by haystack.length - start
decreasing_by
  have hoccurs := occurs_drop.mp (findFirst_eq_some _h).1
  have hle := hoccurs.length_le hne
  have hpos := List.length_pos_iff.mpr hne
  omega

def byteOffsetsOf (haystack needle : List Char) (hne : needle ≠ []) : List Nat :=
  byteOffsetsFrom (utf8 haystack) (utf8 needle) (utf8_ne_nil hne) 0

def tryExact (content find : List Char) : Option (MatchOutcome K) :=
  if hne : find = [] then none
  else
    let singleLine := !find.contains '\n'
    let len := (utf8 find).length
    let offsets := (byteOffsetsOf content find hne).filter fun start =>
      !singleLine || isLineAligned content start len
    match offsets with
    | [] => none
    | [start] => some (.unique (start, start + len) .exact (1 : Nat))
    | offsets => some (.ambiguous (offsets.map fun start => spanOf content (start, start + len)))

def finalizeBlockMatches (content : List Char) (ranges : List (Nat × Nat)) (rung : Rung) :
    Option (MatchOutcome K) :=
  match ranges with
  | [] => none
  | [range] => some (.unique range rung (1 : Nat))
  | ranges => some (.ambiguous (ranges.map (spanOf content)))

def findNorm (find : List Char) : List (List Char) :=
  ((lines find).map normalizeLine).rdropWhile List.isEmpty

def contentNorm (content : List Char) : List (List Char) :=
  (physicalLines content).map fun range => normalizeLine (slice content range)

def blockRange (lines : List (Nat × Nat)) (first last : Nat) : Option (Nat × Nat) :=
  (lines[first]?).bind fun a => (lines[last]?).map fun b => (a.1, b.2)

def tryLineBlock (content find : List Char) (rung : Rung) : Option (MatchOutcome K) :=
  let contentLines := physicalLines content
  let find := findNorm find
  let content' := contentNorm content
  if find = [] then none
  else if content'.length < find.length then none
  else
    let windows := (List.range (content'.length - find.length + 1)).filter fun windowStart =>
      (content'.drop windowStart).take find.length = find
    finalizeBlockMatches content (windows.filterMap fun windowStart =>
      blockRange contentLines windowStart (windowStart + find.length - 1)) rung

def hits (lines : List (List Char)) (line : List Char) : List Nat :=
  (List.range lines.length).filter fun i => lines[i]? = some line

def tryAnchor (content find : List Char) : Option (MatchOutcome K) :=
  let find := findNorm find
  if find.length < 2 then none
  else
    match find.head?, find.getLast? with
    | some first, some last =>
      if first = [] ∨ last = [] then none
      else
        match hits (contentNorm content) first, hits (contentNorm content) last with
        | [startIdx], [endIdx] =>
          if endIdx ≤ startIdx then none
          else
            (blockRange (physicalLines content) startIdx endIdx).map fun range =>
              .unique range .anchor (1 : Nat)
        | _, _ => none
    | _, _ => none

def normalizeMultiline (find : List Char) : List Char :=
  joinLines ((lines find).map normalizeLine)

def scoredLines (content find : List Char) : List (K × (Nat × Nat)) :=
  let scored := (physicalLines content).map fun range =>
    (similarity K (normalizeMultiline find) (normalizeLine (slice content range)), range)
  scored.mergeSort fun a b => decide (b.1 ≤ a.1)

def tryFuzzy (content find : List Char) : MatchOutcome K :=
  let scored := scoredLines content find
  let above := scored.filter fun s =>
    decide (fuzzyAcceptThreshold K - fuzzyBoundaryEpsilon K ≤ s.1)
  match above with
  | [] => .noMatch (((scored.take maxNearMisses).filter fun s => decide (((0 : Nat) : K) < s.1)).map
      fun s => spanOf content s.2)
  | [best] => .unique best.2 .fuzzy best.1
  | best :: runnerUp :: _ =>
    if fuzzyRunnerUpMargin K - fuzzyBoundaryEpsilon K ≤ best.1 - runnerUp.1 then
      .unique best.2 .fuzzy best.1
    else .ambiguous (above.map fun s => spanOf content s.2)

def findMatch (content find : List Char) : MatchOutcome K :=
  match tryExact content find with
  | some outcome => outcome
  | none =>
    match tryLineBlock content find .normalized with
    | some outcome => outcome
    | none =>
      match tryAnchor content find with
      | some outcome => outcome
      | none => tryFuzzy content find

end

end SwissArmyHammer.Edit

/-! The cascade that resolves the pairs of an edit one after the other on a working copy. -/

namespace SwissArmyHammer.Edit

open Text

structure EditPair where
  find : List Char
  replace : List Char
  replaceAll : Bool
  occurrence : Option Nat
  occurrence_pos : ∀ n, occurrence = some n → 1 ≤ n

structure Candidate where
  range : Nat × Nat
  line : Nat
  text : List Char
  context : List Char
  deriving DecidableEq

structure NearMiss where
  line : Nat
  text : List Char
  context : List Char
  diff : List Char
  deriving DecidableEq

inductive ChangeTag
  | delete
  | insert
  | equal
  deriving DecidableEq

inductive Resolution
  | splice (range : Nat × Nat) (replacement : List Char)
  | globalLiteral (find replace : List Char)
  deriving DecidableEq

inductive PairOutcome
  | resolved (resolution : Resolution)
  | ambiguous (find : List Char) (candidates : List Candidate)
  | noMatch (find : List Char) (near : List NearMiss)
  deriving DecidableEq

inductive ApplyOutcome
  | applied (content : List Char)
  | ambiguous (find : List Char) (candidates : List Candidate)
  | noMatch (find : List Char) (near : List NearMiss)
  | alreadyApplied (find replace : List Char)
  | consumedTarget (find : List Char) (line : Nat)
  deriving DecidableEq

def strFind (content find : List Char) : Option Nat := findFirst (utf8 find) (utf8 content)

def contains (content find : List Char) : Bool := (strFind content find).isSome

def replaceFrom (find replace : List Char) : Nat → List Char → List Char
  | _, [] => []
  | skip + 1, _ :: rest => replaceFrom find replace skip rest
  | 0, c :: rest =>
    if find.isPrefixOf (c :: rest) then replace ++ replaceFrom find replace (find.length - 1) rest
    else c :: replaceFrom find replace 0 rest

def strReplace (content find replace : List Char) : List Char :=
  if find = [] then replace ++ content.flatMap fun c => c :: replace
  else replaceFrom find replace 0 content

section

def candidateContextRadius : Nat := 2

def renderContext (content : List Char) (line radius : Nat) : List Char :=
  let ls := lines content
  if ls.length = 0 ∨ line = 0 then []
  else
    let first := max (line - radius) 1
    let last := min (line + radius) ls.length
    (List.range' first (last + 1 - first)).flatMap fun n =>
      Nat.toDigits 10 n ++ ':' :: ' ' :: ((ls[n - 1]?).getD [] ++ ['\n'])

def candidateFor (content : List Char) (range : Nat × Nat) : Candidate where
  range := range
  line := lineNumberAt content range.1
  text := slice content range
  context := renderContext content (lineNumberAt content range.1) candidateContextRadius

def ChangeTag.sign : ChangeTag → Char
  | .delete => '-'
  | .insert => '+'
  | .equal => ' '

variable (diffLines : List Char → List Char → List (ChangeTag × List Char))

def renderFindVsTextDiff (find text : List Char) : List Char :=
  (diffLines find text).flatMap fun (tag, value) =>
    tag.sign :: (value ++ if value.getLast? = some '\n' then [] else ['\n'])

def nearMissFor (content find : List Char) (range : Nat × Nat) : NearMiss where
  line := lineNumberAt content range.1
  text := slice content range
  context := renderContext content (lineNumberAt content range.1) candidateContextRadius
  diff := renderFindVsTextDiff diffLines find (slice content range)

end

def disambiguate (pair : EditPair) (candidates : List Candidate) : PairOutcome :=
  match pair.occurrence.bind fun idx => candidates[idx - 1]? with
  | some chosen => .resolved (.splice chosen.range pair.replace)
  | none => .ambiguous pair.find candidates

def applyResolution (content : List Char) : Resolution → List Char
  | .splice range replacement =>
    let bytes := utf8 content
    (decodeUtf8 (bytes.take range.1 ++ utf8 replacement ++ bytes.drop range.2)).getD []
  | .globalLiteral find replace => strReplace content find replace

def reclassifyNoMatch (original working : List Char) (pair : EditPair) (find : List Char)
    (near : List NearMiss) : ApplyOutcome :=
  let findAbsent := !contains working pair.find
  if findAbsent ∧ pair.replace ≠ [] ∧ contains working pair.replace then
    .alreadyApplied find pair.replace
  else
    match if findAbsent ∧ working ≠ original then strFind original pair.find else none with
    | some start => .consumedTarget find (lineNumberAt original start)
    | none => .noMatch find near

section

variable (K : Type) [NatCast K] [Sub K] [Div K] [LE K] [DecidableLE K] [LT K] [DecidableLT K]
  (crc32 : List UInt8 → UInt32)
  (diffLines : List Char → List Char → List (ChangeTag × List Char))

def resolveViaLadder (content : List Char) (pair : EditPair) : PairOutcome :=
  match (findMatch content pair.find : MatchOutcome K) with
  | .unique span _ _ => .resolved (.splice span pair.replace)
  | .ambiguous candidates =>
    disambiguate pair (candidates.map fun span => candidateFor content span.range)
  | .noMatch near =>
    .noMatch pair.find (near.map fun span => nearMissFor diffLines content pair.find span.range)

def noMatchOutcome (content find : List Char) : PairOutcome :=
  match (findMatch content find : MatchOutcome K) with
  | .noMatch near =>
    .noMatch find (near.map fun span => nearMissFor diffLines content find span.range)
  | .unique _ _ _ => .noMatch find []
  | .ambiguous _ => .noMatch find []

def resolvePair (content : List Char) (pair : EditPair) : PairOutcome :=
  if pair.replaceAll then
    if contains content pair.find then .resolved (.globalLiteral pair.find pair.replace)
    else noMatchOutcome K diffLines content pair.find
  else
    match resolveAnchor crc32 content pair.find, strFind content pair.find with
    | some anchorRange, some start =>
      disambiguate pair [candidateFor content anchorRange,
        candidateFor content (start, start + (utf8 pair.find).length)]
    | some range, none => .resolved (.splice range pair.replace)
    | none, some start =>
      .resolved (.splice (start, start + (utf8 pair.find).length) pair.replace)
    | none, none => resolveViaLadder K diffLines content pair

def applyPairsFrom (original : List Char) : List Char → List EditPair → ApplyOutcome
  | working, [] => .applied working
  | working, pair :: pairs =>
    match resolvePair K crc32 diffLines working pair with
    | .resolved resolution => applyPairsFrom original (applyResolution working resolution) pairs
    | .ambiguous find candidates => .ambiguous find candidates
    | .noMatch find near => reclassifyNoMatch original working pair find near

def applyAllPairs (original : List Char) (pairs : List EditPair) : ApplyOutcome :=
  applyPairsFrom K crc32 diffLines original original pairs

end

end SwissArmyHammer.Edit
