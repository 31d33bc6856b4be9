import SwissArmyHammer.Common.JsonText
import SwissArmyHammer.Review.Render
import SwissArmyHammer.Text.Search

/-! The findings of an agent's reply: where the JSON of the reply is, and how it is read. -/

namespace SwissArmyHammer.Review

open JsonText Text

def Finding.members (finding : Finding) : List (String × Scalar) :=
  [("file", .string finding.file), ("line", .number finding.line),
    ("validator", .string finding.validator)] ++
  (finding.rule.toList.map fun rule => ("rule", .string rule)) ++
  [("claim", .string finding.claim), ("evidence", .string finding.evidence)] ++
  finding.suggestion.toList.map fun suggestion => ("suggestion", .string suggestion)

def Finding.json (finding : Finding) : List Char := objectText finding.members

def findingsJson (findings : List Finding) : List Char := arrayText (findings.map Finding.json)

def spacedJson (finding : Finding) : List (List Char × Finding) → List Char
  | [] => finding.json
  | (gap, next) :: more => finding.json ++ (gap ++ spacedJson next more)

/-- A `&str` that is a part of a text: what the text holds from its first character on, and how
many of these characters are its own. -/
structure Slice where
  tail : List Char
  length : Nat

namespace Slice

def whole (text : List Char) : Slice := ⟨text, text.length⟩

def text (s : Slice) : List Char := s.tail.take s.length

def drop (n : Nat) (s : Slice) : Slice := ⟨s.tail.drop n, s.length - n⟩

def take (n : Nat) (s : Slice) : Slice := ⟨s.tail, min n s.length⟩

def trim (s : Slice) : Slice :=
  ⟨s.tail.drop (s.text.takeWhile isWhitespace).length, (Text.trim s.text).length⟩

end Slice

/-- The scan of `matching_delimiter` from a depth, inside a string or not, after a backslash or
not. -/
def matchingFrom (opening closing : Char) : Nat → Bool → Bool → List Char → Option Nat
  | _, _, _, [] => none
  | depth, inString, true, _ :: rest =>
    (matchingFrom opening closing depth inString false rest).map Nat.succ
  | depth, inString, false, c :: rest =>
    if c = '\\' ∧ inString = true then
      (matchingFrom opening closing depth inString true rest).map Nat.succ
    else if c = '"' then
      (matchingFrom opening closing depth (!inString) false rest).map Nat.succ
    else if c = opening ∧ inString = false then
      (matchingFrom opening closing (depth + 1) inString false rest).map Nat.succ
    else if c = closing ∧ inString = false then
      if depth - 1 = 0 then some 0
      else (matchingFrom opening closing (depth - 1) inString false rest).map Nat.succ
    else (matchingFrom opening closing depth inString false rest).map Nat.succ

def matchingDelimiter (s : List Char) (opening closing : Char) : Option Nat :=
  matchingFrom opening closing 0 false false s

def codeFence : List Char := "```".toList

def jsonCodeFence : List Char := "```json".toList

def delimitedValue (content : Slice) (opening closing : Char) : Option Slice :=
  let content := content.trim
  if content.text.head? = some opening ∧ content.text.getLast? = some closing then some content
  else none

def jsonFencedValue (trimmed : Slice) (opening closing : Char) : Option Slice :=
  (findFirst jsonCodeFence trimmed.text).bind fun marker =>
    let body := trimmed.drop (marker + jsonCodeFence.length)
    (findFirst codeFence body.text).bind fun stop =>
      delimitedValue (body.take stop) opening closing

def bareFencedValue (trimmed : Slice) (opening closing : Char) : Option Slice :=
  (findFirst codeFence trimmed.text).bind fun marker =>
    let afterMarker := trimmed.drop (marker + codeFence.length)
    let bodyStart := ((findFirst ['\n'] afterMarker.text).map Nat.succ).getD 0
    let body := afterMarker.drop bodyStart
    (findFirst codeFence body.text).bind fun stop =>
      delimitedValue (body.take stop) opening closing

def balancedValue (trimmed : Slice) (opening closing : Char) : Option Slice :=
  (findFirst [opening] trimmed.text).bind fun start =>
    (matchingDelimiter (trimmed.text.drop start) opening closing).map fun stop =>
      (trimmed.drop start).take (stop + 1)

def findLast (c : Char) (s : List Char) : Option Nat :=
  (findFirst [c] s.reverse).map fun i => s.length - 1 - i

def spanningValue (trimmed : Slice) (opening closing : Char) : Option Slice :=
  (findFirst [opening] trimmed.text).bind fun start =>
    (findLast closing trimmed.text).bind fun stop =>
      if start < stop then some ((trimmed.drop start).take (stop - start + 1)) else none

def extractJsonValue (response : List Char) (opening closing : Char) : Slice :=
  let trimmed := (Slice.whole response).trim
  ((((jsonFencedValue trimmed opening closing).or (bareFencedValue trimmed opening closing)).or
    (balancedValue trimmed opening closing)).or
      (spanningValue trimmed opening closing)).getD trimmed

/-- The calls of `serde_json` that read a reply. -/
structure SerdeJson (ε : Type) where
  readFindings : List Char → Except ε (List Finding)
  readFinding : List Char → Except ε Finding

section

variable {ε : Type} (serde : SerdeJson ε)

def bareObjects (rest : List Char) : List Finding :=
  if rest.head? = some '\x7b' then
    match matchingDelimiter rest '\x7b' '\x7d' with
    | none => []
    | some stop =>
      match serde.readFinding (rest.take (stop + 1)) with
      | .error _ => []
      | .ok finding => finding :: bareObjects (trimStart (rest.drop (stop + 1)))
  else []
termination_by rest.length
decreasing_by
  have hpos : 0 < rest.length := by
    refine List.length_pos_iff.mpr ?_
    rintro rfl
    contradiction
  have htrim : (trimStart (rest.drop (stop + 1))).length ≤ (rest.drop (stop + 1)).length :=
    (List.dropWhile_sublist _).length_le
  rw [List.length_drop] at htrim
  omega

def parseBareObjectFindings (agentText : List Char) : Option (List Finding) :=
  let region := extractJsonValue agentText '\x7b' '\x7d'
  let findings := bareObjects serde (trimStart region.tail)
  if findings = [] then none else some findings

def parseFindings (agentText : List Char) : Except ε (List Finding) :=
  match serde.readFindings (extractJsonValue agentText '[' ']').text with
  | .ok findings => .ok findings
  | .error e =>
    match parseBareObjectFindings serde agentText with
    | some findings => .ok findings
    | none => .error e

def maxRepairArrayStarts : Nat := 16

/-- `match_indices` of one character. -/
def matchIndices (c : Char) (s : List Char) : List Nat :=
  (List.range s.length).filter fun i => s[i]? = some c

def repairFindingsArray (agentText : List Char) : Option (List Finding) :=
  (findLast ']' agentText).bind fun stop =>
    (((matchIndices '[' agentText).takeWhile fun start => start < stop).take
      maxRepairArrayStarts).findSome? fun start =>
        (serde.readFindings ((agentText.drop start).take (stop - start + 1))).toOption

def parseFindingsRepaired (agentText : List Char) : Except ε (List Finding) :=
  match parseFindings serde agentText with
  | .ok findings => .ok findings
  | .error e =>
    match repairFindingsArray serde agentText with
    | some findings => .ok findings
    | none => .error e

end

section

variable {opening closing c : Char} {a b s t : List Char} {d e f : Nat}

def Scans (opening closing : Char) (a : List Char) (d e : Nat) : Prop :=
  ∀ t, matchingFrom opening closing d false false (a ++ t) =
    (matchingFrom opening closing e false false t).map (· + a.length)

theorem Scans.nil : Scans opening closing [] d d := fun t => by simp

theorem Scans.append (ha : Scans opening closing a d e) (hb : Scans opening closing b e f) :
    Scans opening closing (a ++ b) d f := by
  intro t
  rw [List.append_assoc, ha, hb, Option.map_map, List.length_append]
  congr 1
  funext n
  simp only [Function.comp_apply]
  omega

theorem Scans.cons (hc : Scans opening closing [c] d e) (hb : Scans opening closing b e f) :
    Scans opening closing (c :: b) d f :=
  hc.append hb

theorem Scans.plain (hquote : c ≠ '"') (hopening : c ≠ opening) (hclosing : c ≠ closing) :
    Scans opening closing [c] d d := by
  intro t
  rw [List.singleton_append, matchingFrom, if_neg (by simp), if_neg hquote,
    if_neg fun h => hopening h.1, if_neg fun h => hclosing h.1]
  rfl

theorem Scans.plains (h : ∀ c ∈ a, c ≠ '"' ∧ c ≠ opening ∧ c ≠ closing) :
    Scans opening closing a d d := by
  induction a with
  | nil => exact .nil
  | cons c a ih =>
    obtain ⟨hquote, hopening, hclosing⟩ := h c List.mem_cons_self
    exact .cons (.plain hquote hopening hclosing) (ih fun d hd => h d (List.mem_cons_of_mem _ hd))

theorem matchingFrom_inside (h : ∀ c ∈ a, c ≠ '"' ∧ c ≠ '\\') :
    matchingFrom opening closing d true false (a ++ t) =
      (matchingFrom opening closing d true false t).map (· + a.length) := by
  induction a with
  | nil => simp
  | cons c a ih =>
    obtain ⟨hquote, hslash⟩ := h c List.mem_cons_self
    rw [List.cons_append, matchingFrom, if_neg fun h => hslash h.1, if_neg hquote,
      if_neg (by simp), if_neg (by simp), ih fun d hd => h d (List.mem_cons_of_mem _ hd),
      Option.map_map]
    rfl

theorem matchingFrom_string :
    matchingFrom opening closing d true false (s.flatMap escape ++ '"' :: t) =
      (matchingFrom opening closing d false false t).map (· + (s.flatMap escape).length + 1) := by
  induction s with
  | nil =>
    rfl
  | cons c s ih =>
    rw [List.flatMap_cons, List.append_assoc]
    have hescape : matchingFrom opening closing d true false
        (escape c ++ (s.flatMap escape ++ '"' :: t)) =
          (matchingFrom opening closing d true false (s.flatMap escape ++ '"' :: t)).map
            (· + (escape c).length) := by
      rcases escape_eq c with ⟨hone, hquote, hslash, -⟩ | ⟨e, more, hmore, hplain⟩
      · rw [hone]
        exact matchingFrom_inside fun d hd => by
          rw [List.mem_singleton.mp hd]
          exact ⟨hquote, hslash⟩
      · rw [hmore, List.cons_append, List.cons_append, matchingFrom, matchingFrom, matchingFrom_inside hplain, Option.map_map, Option.map_map]
        rfl
    rw [hescape, ih, Option.map_map, List.length_append]
    congr 1
    funext n
    simp only [Function.comp_apply]
    omega

theorem Scans.quoted (s : String) : Scans opening closing (quoted s) d d := by
  intro t
  rw [JsonText.quoted, List.cons_append, List.append_assoc, matchingFrom, if_neg (by simp),
    if_pos rfl, List.singleton_append, Bool.not_false, matchingFrom_string, Option.map_map]
  congr 1
  funext n
  simp only [Function.comp_apply, List.length_cons, List.length_append, List.length_nil]
  omega

def Delimiters (opening closing : Char) : Prop :=
  opening = '[' ∧ closing = ']' ∨ opening = '\x7b' ∧ closing = '\x7d'

theorem Delimiters.plain (h : Delimiters opening closing) (hc : ¬ Marker c) (hbracket : c ≠ ']')
    (hbrace : c ≠ '\x7d') : c ≠ opening ∧ c ≠ closing := by
  rcases h with ⟨rfl, rfl⟩ | ⟨rfl, rfl⟩
  · exact ⟨fun h => hc (.inl h), hbracket⟩
  · exact ⟨fun h => hc (.inr (.inl h)), hbrace⟩

theorem Scans.member (h : Delimiters opening closing) (m : String × Scalar) :
    Scans opening closing (memberText m) d d := by
  refine (Scans.quoted m.1).append (.cons (e := d) ?_ ?_)
  · obtain ⟨hopening, hclosing⟩ := h.plain (c := ':') (by decide) (by decide) (by decide)
    exact .plain (by decide) hopening hclosing
  · cases hv : m.2 with
    | string s => exact .quoted s
    | number n =>
      refine .plains fun c hc => ?_
      obtain ⟨hquote, -, hmarker, -, hbrace, hbracket⟩ :=
        not_mark_of_isDigit (isDigit_of_mem_number hc)
      exact ⟨hquote, h.plain hmarker hbracket hbrace⟩

theorem scans_comma (h : Delimiters opening closing) : Scans opening closing [','] d d := by
  obtain ⟨hopening, hclosing⟩ := h.plain (c := ',') (by decide) (by decide) (by decide)
  exact .plain (by decide) hopening hclosing

theorem membersRest_inner (ms : List (String × Scalar)) :
    ∃ inner, membersRest ms = inner ++ ['\x7d'] ∧
      ∀ opening closing d, Delimiters opening closing → Scans opening closing inner d d := by
  induction ms with
  | nil => exact ⟨[], rfl, fun _ _ _ _ => .nil⟩
  | cons m ms ih =>
    obtain ⟨inner, hinner, hscans⟩ := ih
    refine ⟨',' :: (memberText m ++ inner), by simp [membersRest, hinner], fun o c d h => ?_⟩
    exact .cons (scans_comma h) ((Scans.member h m).append (hscans o c d h))

theorem objectText_inner (ms : List (String × Scalar)) :
    ∃ inner, objectText ms = '\x7b' :: (inner ++ ['\x7d']) ∧
      ∀ opening closing d, Delimiters opening closing → Scans opening closing inner d d := by
  cases ms with
  | nil => exact ⟨[], rfl, fun _ _ _ _ => .nil⟩
  | cons m ms =>
    obtain ⟨inner, hinner, hscans⟩ := membersRest_inner ms
    refine ⟨memberText m ++ inner, by simp [objectText, hinner], fun o c d h => ?_⟩
    exact (Scans.member h m).append (hscans o c d h)

theorem Scans.object (ms : List (String × Scalar)) : Scans '[' ']' (objectText ms) d d := by
  obtain ⟨inner, hinner, hscans⟩ := objectText_inner ms
  rw [hinner]
  exact .cons (.plain (by decide) (by decide) (by decide))
    ((hscans _ _ _ (.inl ⟨rfl, rfl⟩)).append (.plain (by decide) (by decide) (by decide)))

theorem matchingDelimiter_inner (h : Delimiters opening closing)
    (hinner : Scans opening closing a 1 1) :
    matchingDelimiter (opening :: (a ++ closing :: t)) opening closing = some (a.length + 1) := by
  have hquote : opening ≠ '"' ∧ closing ≠ '"' ∧ closing ≠ opening := by
    rcases h with ⟨rfl, rfl⟩ | ⟨rfl, rfl⟩ <;> decide
  rw [matchingDelimiter, matchingFrom, if_neg (by simp), if_neg hquote.1, if_pos ⟨rfl, rfl⟩,
    hinner, matchingFrom, if_neg (by simp), if_neg hquote.2.1,
    if_neg fun h => hquote.2.2 h.1, if_pos ⟨rfl, rfl⟩, if_pos rfl]
  simp

theorem elementsRest_inner {es : List (List Char)} (h : ∀ e ∈ es, ∀ d, Scans '[' ']' e d d) :
    ∃ inner, elementsRest es = inner ++ [']'] ∧ ∀ d, Scans '[' ']' inner d d := by
  induction es with
  | nil => exact ⟨[], rfl, fun _ => .nil⟩
  | cons e es ih =>
    obtain ⟨inner, hinner, hscans⟩ := ih fun e' he => h e' (List.mem_cons_of_mem _ he)
    refine ⟨',' :: (e ++ inner), by simp [elementsRest, hinner], fun d => ?_⟩
    exact .cons (scans_comma (.inl ⟨rfl, rfl⟩)) ((h e List.mem_cons_self d).append (hscans d))

theorem arrayText_inner {es : List (List Char)} (h : ∀ e ∈ es, ∀ d, Scans '[' ']' e d d) :
    ∃ inner, arrayText es = '[' :: (inner ++ [']']) ∧ ∀ d, Scans '[' ']' inner d d := by
  cases es with
  | nil => exact ⟨[], rfl, fun _ => .nil⟩
  | cons e es =>
    obtain ⟨inner, hinner, hscans⟩ :=
      elementsRest_inner fun e' he => h e' (List.mem_cons_of_mem _ he)
    refine ⟨e ++ inner, by simp [arrayText, hinner], fun d => ?_⟩
    exact (h e List.mem_cons_self d).append (hscans d)

theorem scans_json (findings : List Finding) :
    ∀ e ∈ findings.map Finding.json, ∀ d, Scans '[' ']' e d d := by
  intro e he d
  obtain ⟨finding, -, rfl⟩ := List.mem_map.mp he
  exact .object _

theorem matchingDelimiter_findingsJson (findings : List Finding) (t : List Char) :
    matchingDelimiter (findingsJson findings ++ t) '[' ']' =
      some ((findingsJson findings).length - 1) := by
  obtain ⟨inner, hinner, hscans⟩ := arrayText_inner (scans_json findings)
  have hmatch := matchingDelimiter_inner (t := t) (.inl ⟨rfl, rfl⟩) (hscans 1)
  rw [findingsJson, hinner]
  simpa using hmatch

theorem matchingDelimiter_json (finding : Finding) (t : List Char) :
    matchingDelimiter (finding.json ++ t) '\x7b' '\x7d' = some (finding.json.length - 1) := by
  obtain ⟨inner, hinner, hscans⟩ := objectText_inner finding.members
  have hmatch := matchingDelimiter_inner (t := t) (.inr ⟨rfl, rfl⟩)
    (hscans _ _ 1 (.inr ⟨rfl, rfl⟩))
  rw [Finding.json, hinner]
  simpa using hmatch

end

section

variable {α : Type} [DecidableEq α] {c : α} {a b s : List α}

theorem findFirst_singleton (h : c ∉ a) : findFirst [c] (a ++ c :: b) = some a.length := by
  induction a with
  | nil => simp [findFirst]
  | cons d a ih =>
    have hne : c ≠ d := fun heq => h (heq ▸ List.mem_cons_self)
    rw [List.cons_append, findFirst, if_neg (by simpa using hne),
      ih fun hmem => h (List.mem_cons_of_mem _ hmem)]
    rfl

theorem findFirst_singleton_eq_some {p : Nat} (h : findFirst [c] s = some p) :
    ∃ a b, s = a ++ c :: b ∧ c ∉ a ∧ a.length = p := by
  induction s generalizing p with
  | nil => simp [findFirst] at h
  | cons d s ih =>
    rw [findFirst] at h
    split_ifs at h with hstarts
    · obtain rfl := Option.some.inj h
      have heq : c = d := by simpa using hstarts
      exact ⟨[], s, by rw [heq]; rfl, List.not_mem_nil, rfl⟩
    · obtain ⟨q, hq, rfl⟩ := Option.map_eq_some_iff.mp h
      obtain ⟨a, b, rfl, ha, rfl⟩ := ih hq
      have hne : c ≠ d := by simpa using hstarts
      exact ⟨d :: a, b, rfl, by simp [hne, ha], rfl⟩

theorem findFirst_eq_some_split {needle : List α} {p : Nat} (h : findFirst needle s = some p) :
    ∃ a b, s = a ++ (needle ++ b) ∧ a.length = p := by
  obtain ⟨⟨b, hb⟩, -⟩ := findFirst_eq_some h
  have hle : p ≤ s.length := by
    by_contra hlt
    rw [List.drop_eq_nil_of_le (by omega), List.append_eq_nil_iff] at hb
    exact (findFirst_eq_some h).2 0 (by omega) (hb.1 ▸ List.nil_prefix)
  exact ⟨s.take p, b, by rw [hb, List.take_append_drop], by simp [hle]⟩

end

namespace Slice

variable {s : Slice} {n : Nat} {x : List Char}

@[simp] theorem tail_drop : (s.drop n).tail = s.tail.drop n := rfl

@[simp] theorem tail_take : (s.take n).tail = s.tail := rfl

@[simp] theorem text_whole : (whole x).text = x := List.take_length

@[simp] theorem text_drop : (s.drop n).text = s.text.drop n := by
  rw [text, text, List.drop_take]
  rfl

@[simp] theorem text_take : (s.take n).text = s.text.take n := by
  rw [text, text, List.take_take]
  rfl

theorem text_prefix : s.text <+: s.tail := List.take_prefix _ _

theorem drop_takeWhile {α : Type} (p : α → Bool) (l : List α) :
    l.drop (l.takeWhile p).length = l.dropWhile p := by
  have h : (l.takeWhile p ++ l.dropWhile p).drop (l.takeWhile p).length = l.dropWhile p :=
    List.drop_left
  rwa [List.takeWhile_append_dropWhile] at h

theorem isPrefix_trim (l : List Char) : Text.trim l <+: l.dropWhile isWhitespace := by
  rw [Text.trim, ← List.reverse_suffix, List.reverse_reverse]
  exact List.dropWhile_suffix _

@[simp] theorem text_trim : s.trim.text = Text.trim s.text := by
  have hdrop : s.text.dropWhile isWhitespace =
      (s.tail.drop (s.text.takeWhile isWhitespace).length).take
        (s.length - (s.text.takeWhile isWhitespace).length) := by
    rw [← List.drop_take]
    exact (drop_takeWhile _ _).symm
  have hprefix := (isPrefix_trim s.text).trans (hdrop ▸ List.take_prefix _ _)
  exact (List.prefix_iff_eq_take.mp hprefix).symm

theorem tail_trim : ∃ a, s.tail = a ++ s.trim.tail ∧ ∀ c ∈ a, isWhitespace c = true := by
  obtain ⟨more, hmore⟩ := text_prefix (s := s)
  refine ⟨s.text.takeWhile isWhitespace, ?_, fun c hc => List.mem_takeWhile_imp hc⟩
  rw [trim, ← hmore]
  conv_lhs => rw [← List.takeWhile_append_dropWhile (p := isWhitespace) (l := s.text)]
  rw [List.drop_append_of_le_length (List.takeWhile_sublist _).length_le, drop_takeWhile,
    List.append_assoc]

end Slice

section

variable {pre body suf : List Char}

structure Solid (body : List Char) : Prop where
  first : ∀ c, body.head? = some c → isWhitespace c = false
  last : ∀ c, body.getLast? = some c → isWhitespace c = false
  ne : body ≠ []

theorem dropWhile_solid {α : Type} {p : α → Bool} {a b : List α} (hb : b ≠ [])
    (h : ∀ c, b.head? = some c → p c = false) : (a ++ b).dropWhile p = a.dropWhile p ++ b := by
  induction a with
  | nil =>
    obtain ⟨c, b, rfl⟩ := List.exists_cons_of_ne_nil hb
    rw [List.nil_append, List.dropWhile_cons_of_neg (by simp [h c rfl])]
    rfl
  | cons c a ih =>
    rw [List.cons_append, List.dropWhile_cons, List.dropWhile_cons]
    split
    · exact ih
    · rfl

theorem Solid.text_trim (h : Solid body) :
    (Slice.whole (pre ++ (body ++ suf))).trim.text = trimStart pre ++ (body ++ trimEnd suf) := by
  have hfirst : ∀ c, (body ++ suf).head? = some c → isWhitespace c = false := by
    intro c hc
    rw [List.head?_append_of_ne_nil _ h.ne] at hc
    exact h.first c hc
  have hlast : ∀ c, (body.reverse ++ (pre.dropWhile isWhitespace).reverse).head? = some c →
      isWhitespace c = false := by
    intro c hc
    rw [List.head?_append_of_ne_nil _ (by simpa using h.ne), List.head?_reverse] at hc
    exact h.last c hc
  rw [Slice.text_trim, Slice.text_whole, Text.trim,
    dropWhile_solid (by simp [h.ne]) hfirst, ← List.append_assoc, List.reverse_append,
    List.reverse_append, dropWhile_solid (by simp [h.ne]) hlast]
  simp [trimEnd, List.rdropWhile, trimStart]

theorem Solid.tail_trim (h : Solid body) :
    (Slice.whole (pre ++ (body ++ suf))).trim.tail = trimStart pre ++ (body ++ suf) := by
  have hfirst : ∀ c, (body ++ suf).head? = some c → isWhitespace c = false := by
    intro c hc
    rw [List.head?_append_of_ne_nil _ h.ne] at hc
    exact h.first c hc
  rw [Slice.trim, Slice.text_whole, Slice.whole, Slice.drop_takeWhile,
    dropWhile_solid (by simp [h.ne]) hfirst]
  rfl

end

section

variable {s piece : Slice} {opening closing : Char}

def fencedValue (s : Slice) (opening closing : Char) : Option Slice :=
  (jsonFencedValue s opening closing).or (bareFencedValue s opening closing)

theorem delimitedValue_eq_some (h : delimitedValue s opening closing = some piece) :
    piece = s.trim ∧ piece.text.head? = some opening ∧ piece.text.getLast? = some closing := by
  rw [delimitedValue] at h
  simp only [Option.ite_none_right_eq_some, Option.some.injEq] at h
  obtain ⟨⟨hhead, hlast⟩, rfl⟩ := h
  exact ⟨rfl, hhead, hlast⟩

theorem drop_fence {a b fence : List Char} (h : s.text = a ++ (fence ++ b)) :
    s.tail = a ++ (fence ++ (s.drop (a.length + fence.length)).tail) ∧
      (s.drop (a.length + fence.length)).text = b := by
  obtain ⟨more, hmore⟩ := Slice.text_prefix (s := s)
  constructor
  · rw [Slice.tail_drop, ← hmore, h, ← List.length_append, ← List.append_assoc, List.append_assoc]
    simp
  · rw [Slice.text_drop, h, ← List.length_append, ← List.append_assoc, List.drop_left]

theorem fencedValue_place (h : fencedValue s opening closing = some piece) :
    piece.text.head? = some opening ∧ ∃ a b, s.tail = a ++ (codeFence ++ (b ++ piece.tail)) ∧
      ((∃ lang blanks, b = lang ++ blanks ∧ (lang = [] ∨ lang = "json".toList) ∧
        ∀ c ∈ blanks, isWhitespace c = true) ∨
      ∃ u y, s.text = a ++ (codeFence ++ (u ++ '\n' :: y)) ∧ codeFence <:+: y) := by
  rw [fencedValue, Option.or_eq_some_iff] at h
  rcases h with h | ⟨-, h⟩
  · obtain ⟨marker, hmarker, h⟩ := Option.bind_eq_some_iff.mp h
    obtain ⟨stop, -, h⟩ := Option.bind_eq_some_iff.mp h
    obtain ⟨hpiece, hhead, -⟩ := delimitedValue_eq_some h
    obtain ⟨a, b, htext, rfl⟩ := findFirst_eq_some_split hmarker
    obtain ⟨hdrop, -⟩ := drop_fence htext
    obtain ⟨blanks, htail, hblanks⟩ :=
      Slice.tail_trim (s := (s.drop (a.length + jsonCodeFence.length)).take stop)
    rw [← hpiece] at htail
    refine ⟨hhead, a, "json".toList ++ blanks, ?_, .inl ⟨_, _, rfl, .inr rfl, hblanks⟩⟩
    have hfence : jsonCodeFence = codeFence ++ "json".toList := by decide
    rw [Slice.tail_take] at htail
    rw [hdrop, htail, hfence]
    simp
  · obtain ⟨marker, hmarker, h⟩ := Option.bind_eq_some_iff.mp h
    obtain ⟨stop, hstop, h⟩ := Option.bind_eq_some_iff.mp h
    obtain ⟨hpiece, hhead, -⟩ := delimitedValue_eq_some h
    obtain ⟨a, b, htext, rfl⟩ := findFirst_eq_some_split hmarker
    obtain ⟨hdrop, hafter⟩ := drop_fence htext
    refine ⟨hhead, a, ?_⟩
    cases hline : findFirst ['\n'] (s.drop (a.length + codeFence.length)).text with
    | none =>
      rw [hline, Option.map_none, Option.getD_none] at hpiece
      obtain ⟨blanks, htail, hblanks⟩ := Slice.tail_trim
        (s := ((s.drop (a.length + codeFence.length)).drop 0).take stop)
      rw [← hpiece] at htail
      refine ⟨blanks, ?_, .inl ⟨[], blanks, rfl, .inl rfl, hblanks⟩⟩
      rw [hdrop, ← htail]
      rfl
    | some n =>
      obtain ⟨u, y, hu, -, rfl⟩ := findFirst_singleton_eq_some hline
      rw [hline, Option.map_some, Option.getD_some] at hpiece hstop
      have hbody : ((s.drop (a.length + codeFence.length)).drop u.length.succ).text = y := by
        rw [Slice.text_drop, hu]
        simp
      obtain ⟨blanks, htail, -⟩ := Slice.tail_trim
        (s := ((s.drop (a.length + codeFence.length)).drop u.length.succ).take stop)
      rw [← hpiece, Slice.tail_take, Slice.tail_drop] at htail
      rw [hbody] at hstop
      obtain ⟨z, z', hz, -⟩ := findFirst_eq_some_split hstop
      refine ⟨(s.drop (a.length + codeFence.length)).tail.take u.length.succ ++ blanks, ?_,
        .inr ⟨u, y, ?_, z, z', by rw [hz, List.append_assoc]⟩⟩
      · rw [hdrop, List.append_assoc, ← htail, List.take_append_drop]
      · rw [htext, ← hafter, hu]

end

end SwissArmyHammer.Review
