import Mathlib.Data.List.Nodup
import SwissArmyHammer.Edit.Anchors

/-! Anchors that have drifted: the line they are resolved to is the nearest right one. -/

namespace SwissArmyHammer.Edit

open Text

section

variable {n i j : Nat}

def lineDistance (n i : Nat) : Nat := (i + 1 - n) + (n - (i + 1))

def Closer (n i j : Nat) : Prop :=
  lineDistance n i < lineDistance n j ∨ lineDistance n i = lineDistance n j ∧ j < i

def InWindow (n i : Nat) : Prop := lineDistance n i ≤ proximityWindow

def spot (center : Int) (k : Nat) : Int :=
  if k % 2 = 0 then center - (k / 2 : Nat) else center + ((k + 1) / 2 : Nat)

theorem spots (center : Int) :
    center :: ((List.range' 1 proximityWindow).flatMap fun (delta : Nat) =>
      [center + delta, center - delta]) = (List.range 101).map (spot center) := by
  have hrange : List.range 101 =
      0 :: (List.range' 1 proximityWindow).flatMap fun delta => [2 * delta - 1, 2 * delta] := by
    decide
  have hfirst : spot center 0 = center := by simp [spot]
  rw [hrange, List.map_cons, List.map_flatMap, hfirst]
  apply congrArg (List.cons center)
  apply List.flatMap_congr
  intro delta hdelta
  have hpos : 1 ≤ delta := (List.mem_range'_1.mp hdelta).1
  have hodd : (2 * delta - 1) % 2 ≠ 0 := by omega
  have heven : 2 * delta % 2 = 0 := by omega
  have hhalf : (2 * delta - 1 + 1) / 2 = delta := by omega
  have hdouble : 2 * delta / 2 = delta := by omega
  simp only [List.map_cons, List.map_nil, spot, if_neg hodd, if_pos heven, hhalf, hdouble]

theorem candidates_eq (hn : 1 ≤ n) :
    candidates n = (List.range 101).map (spot (asIsize (n - 1))) := by
  rw [candidates, if_pos hn, ← spots]
  rfl

theorem mem_reach (hn : 1 ≤ n) :
    i ∈ reach n ↔ ∃ k < 101, spot (asIsize (n - 1)) k = i := by
  simp only [reach, candidates_eq hn, List.filterMap_map, List.mem_filterMap, List.mem_range,
    Function.comp_apply]
  constructor
  · grind
  · grind

theorem pairwise_reach (hn : 1 ≤ n) (hlt : n ≤ 2 ^ 63) : (reach n).Pairwise (Closer n) := by
  have hcenter : asIsize (n - 1) = ((n - 1 : Nat) : Int) := by
    rw [asIsize, if_pos (by omega)]
  rw [reach, candidates_eq hn, List.filterMap_map]
  refine List.Pairwise.filterMap _ ?_ List.pairwise_lt_range
  intro k l hkl i hi j hj
  simp only [Function.comp_apply, hcenter] at hi hj
  split_ifs at hi hj with hneg hneg'
  cases hi
  cases hj
  simp only [Closer, lineDistance]
  simp only [spot] at *
  split_ifs at * <;> omega

theorem mem_reach_iff (hn : 1 ≤ n) (hlt : n ≤ 2 ^ 63) : i ∈ reach n ↔ InWindow n i := by
  have hcenter : asIsize (n - 1) = ((n - 1 : Nat) : Int) := by
    rw [asIsize, if_pos (by omega)]
  rw [mem_reach hn, InWindow, lineDistance, proximityWindow]
  constructor
  · rintro ⟨k, hk, hspot⟩
    simp only [spot] at hspot
    split_ifs at hspot <;> omega
  · intro h
    rcases Nat.lt_or_ge i n with hbefore | hafter
    · refine ⟨2 * (n - 1 - i), by omega, ?_⟩
      rw [spot]
      omega
    · refine ⟨2 * (i + 1 - n) - 1, by omega, ?_⟩
      rw [spot]
      omega

theorem mem_reach_of_large (hn : 2 ^ 63 < n) (hlt : n < 2 ^ 64) (hi : i + 50 < 2 ^ 63) :
    i ∈ reach n ↔ i < n - (2 ^ 64 - 50) := by
  have hcenter : asIsize (n - 1) = ((n - 1 : Nat) : Int) - 2 ^ 64 := by
    rw [asIsize, if_neg (by omega)]
  rw [mem_reach (by omega)]
  constructor
  · rintro ⟨k, hk, hspot⟩
    simp only [spot] at hspot
    split_ifs at hspot <;> omega
  · intro h
    refine ⟨2 * (i + (2 ^ 64 - (n - 1))) - 1, by omega, ?_⟩
    rw [spot]
    omega

end

section

variable (crc32 : List UInt8 → UInt32) {content : List Char} {n : Nat} {hash : UInt8}
  {text : Option (List Char)} {i : Nat}

def HashesTo (content : List Char) (hash : UInt8) (i : Nat) : Prop :=
  ∃ line, (splitLines content)[i]? = some line ∧ hashLine crc32 line.text = hash

def TextIs (content : List Char) (text : Option (List Char)) (i : Nat) : Prop :=
  ∃ line wanted, (splitLines content)[i]? = some line ∧ text = some wanted ∧
    trimHorizontal line.text = trimHorizontal wanted

def IsNearest (n : Nat) (Right : Nat → Prop) (i : Nat) : Prop :=
  InWindow n i ∧ Right i ∧ ∀ j, InWindow n j → Right j → j ≠ i → Closer n i j

def LineRange (content : List Char) (i : Nat) (range : Nat × Nat) : Prop :=
  ∃ before line after, splitLines content = before ++ line :: after ∧ before.length = i ∧
    content = before.flatMap Line.raw ++ (line.text ++ (line.terminator ++ after.flatMap Line.raw)) ∧
    range = ((utf8 (before.flatMap Line.raw)).length,
      (utf8 (before.flatMap Line.raw ++ line.text)).length)

/-- The nearest line with the hash and the text, else the nearest with the hash, and a line whose
own text the anchor carries is found again. -/
structure Relocates (content : List Char) (n : Nat) (hash : UInt8) (text : Option (List Char))
    (result : Option (Nat × Nat)) : Prop where
  none_iff : result = none ↔ ∀ i, InWindow n i → ¬ HashesTo crc32 content hash i
  nearest : ∀ range, result = some range → ∃ i, LineRange content i range ∧
    ((∃ j, InWindow n j ∧ HashesTo crc32 content hash j ∧ TextIs content text j) →
      IsNearest n (fun j => HashesTo crc32 content hash j ∧ TextIs content text j) i) ∧
    ((∀ j, InWindow n j → ¬ (HashesTo crc32 content hash j ∧ TextIs content text j)) →
      IsNearest n (HashesTo crc32 content hash) i)
  again : ∀ wanted, text = some wanted → hash = hashLine crc32 wanted →
    (∃ j line, InWindow n j ∧ (splitLines content)[j]? = some line ∧ line.text = wanted) →
    ∃ range i, result = some range ∧ LineRange content i range ∧
      IsNearest n (TextIs content text) i

theorem lineRange_spanRange {span : Nat × List Char} (h : (spansAt 0 content)[i]? = some span) :
    LineRange content i (spanRange span) := by
  obtain ⟨hi, hget⟩ := List.getElem?_eq_some_iff.mp h
  have hlines : i < (splitLines content).length := by rwa [length_spansAt] at hi
  let before := (splitLines content).take i
  let line := (splitLines content)[i]
  let after := (splitLines content).drop (i + 1)
  have hsplit : splitLines content = before ++ line :: after := by
    rw [List.getElem_cons_drop, List.take_append_drop]
  have hlength : before.length = i := List.length_take_of_le (Nat.le_of_lt hlines)
  have hspan : span = ((utf8 (before.flatMap Line.raw)).length, line.text) := by
    rw [spansAt, hsplit, lineSpans_append, List.getElem?_append_right (by simp [hlength]),
      length_lineSpans, hlength, Nat.sub_self, Nat.zero_add] at h
    exact (Option.some.inj h).symm
  refine ⟨before, line, after, hsplit, hlength, ?_, ?_⟩
  · have hraw := flatMap_raw content
    rw [hsplit, List.flatMap_append, List.flatMap_cons, Line.raw, List.append_assoc] at hraw
    exact hraw.symm
  · rw [hspan, spanRange, utf8_append, List.length_append]

theorem hashMatches_iff : hashMatches crc32 ((spansAt 0 content).map Prod.snd) hash i = true ↔
    HashesTo crc32 content hash i := by
  simp only [hashMatches, spansAt, map_snd_lineSpans, List.getElem?_map, Option.any_map,
    Option.any_eq_true, decide_eq_true_eq, HashesTo]

theorem textMatches_iff : textMatches ((spansAt 0 content).map Prod.snd) text i = true ↔
    TextIs content text i := by
  simp only [textMatches, spansAt, map_snd_lineSpans, List.getElem?_map, Option.any_map,
    Option.any_eq_true, decide_eq_true_eq, TextIs]
  constructor
  · rintro ⟨wanted, htext, line, hline, heq⟩
    exact ⟨line, wanted, hline, htext, heq⟩
  · rintro ⟨line, wanted, hline, htext, heq⟩
    exact ⟨wanted, htext, line, hline, heq⟩

theorem nearest_of_find {right : Nat → Bool} {Right : Nat → Prop}
    (hright : ∀ j, right j = true ↔ Right j) (hn : 1 ≤ n) (hlt : n ≤ 2 ^ 63)
    (h : (reach n).find? right = some i) : IsNearest n Right i := by
  obtain ⟨hi, before, after, hsplit, hbefore⟩ := List.find?_eq_some_iff_append.mp h
  have hmem : ∀ j, InWindow n j ↔ j ∈ reach n := fun j => (mem_reach_iff hn hlt).symm
  have hpair := pairwise_reach hn hlt
  rw [hsplit] at hpair
  refine ⟨(hmem i).mpr (by simp [hsplit]), (hright i).mp hi, fun j hj hjright hne => ?_⟩
  have hjmem := (hmem j).mp hj
  rw [hsplit] at hjmem
  rcases List.mem_append.mp hjmem with hjmem | hjmem
  · grind
  · rcases List.mem_cons.mp hjmem with rfl | hjmem
    · exact absurd rfl hne
    · exact (List.pairwise_cons.mp (List.pairwise_append.mp hpair).2.1).1 j hjmem

theorem find_eq_none {right : Nat → Bool} {Right : Nat → Prop}
    (hright : ∀ j, right j = true ↔ Right j) (hn : 1 ≤ n) (hlt : n ≤ 2 ^ 63) :
    (reach n).find? right = none ↔ ∀ j, InWindow n j → ¬ Right j := by
  simp only [List.find?_eq_none, mem_reach_iff hn hlt, hright]

variable {crc32} in
theorem HashesTo.lt (h : HashesTo crc32 content hash i) : i < (splitLines content).length := by
  obtain ⟨line, hline, -⟩ := h
  exact (List.getElem?_eq_some_iff.mp hline).1

def lineIndex (content : List Char) (n : Nat) (hash : UInt8) (text : Option (List Char)) :
    Option Nat :=
  resolveIndex crc32 ((spansAt 0 content).map Prod.snd) n hash text

theorem resolveAnchorRangeIn_eq (content : List Char) (n : Nat) (hash : UInt8)
    (text : Option (List Char)) : resolveAnchorRangeIn crc32 content n hash text =
      (lineIndex crc32 content n hash text).bind fun idx =>
        ((spansAt 0 content)[idx]?).map spanRange := rfl

theorem lineIndex_hashes (h : lineIndex crc32 content n hash text = some i) :
    HashesTo crc32 content hash i := by
  rw [lineIndex, resolveIndex_eq, Option.or_eq_some_iff] at h
  rcases h with hboth | ⟨-, hhash⟩
  · have hright := List.find?_some hboth
    exact (hashMatches_iff crc32).mp (Bool.and_eq_true_iff.mp hright).1
  · exact (hashMatches_iff crc32).mp (List.find?_some hhash)

theorem range_of_lineIndex (h : lineIndex crc32 content n hash text = some i) :
    ∃ range, resolveAnchorRangeIn crc32 content n hash text = some range ∧
      LineRange content i range := by
  have hlt := (lineIndex_hashes crc32 h).lt
  rw [← length_spansAt 0] at hlt
  have hspan := List.getElem?_eq_getElem hlt
  refine ⟨_, ?_, lineRange_spanRange hspan⟩
  rw [resolveAnchorRangeIn_eq, h, Option.bind_some, hspan, Option.map_some]

theorem range_eq_none_iff : resolveAnchorRangeIn crc32 content n hash text = none ↔
    lineIndex crc32 content n hash text = none := by
  constructor
  · intro hnone
    cases hindex : lineIndex crc32 content n hash text with
    | none => rfl
    | some i =>
      obtain ⟨range, hrange, -⟩ := range_of_lineIndex crc32 hindex
      rw [hnone] at hrange
      cases hrange
  · intro hnone
    rw [resolveAnchorRangeIn_eq, hnone, Option.bind_none]

theorem lineIndex_eq_none_iff : lineIndex crc32 content n hash text = none ↔
    ∀ i ∈ reach n, ¬ HashesTo crc32 content hash i := by
  rw [lineIndex, resolveIndex_eq, Option.or_eq_none_iff, List.find?_eq_none, List.find?_eq_none]
  simp only [Bool.and_eq_true, hashMatches_iff, not_and]
  exact ⟨fun h => h.2, fun h => ⟨fun i hi hhash => absurd hhash (h i hi), h⟩⟩

theorem lineIndex_nearest (hn : 1 ≤ n) (hlt : n ≤ 2 ^ 63)
    (h : lineIndex crc32 content n hash text = some i) :
    IsNearest n (fun j => HashesTo crc32 content hash j ∧ TextIs content text j) i ∨
    (∀ j, InWindow n j → ¬ (HashesTo crc32 content hash j ∧ TextIs content text j)) ∧
      IsNearest n (HashesTo crc32 content hash) i := by
  have hboth : ∀ j, (hashMatches crc32 ((spansAt 0 content).map Prod.snd) hash j &&
      textMatches ((spansAt 0 content).map Prod.snd) text j) = true ↔
      HashesTo crc32 content hash j ∧ TextIs content text j := fun j => by
    rw [Bool.and_eq_true_iff, hashMatches_iff, textMatches_iff]
  rw [lineIndex, resolveIndex_eq, Option.or_eq_some_iff] at h
  rcases h with hfound | ⟨hnone, hfound⟩
  · exact .inl (nearest_of_find hboth hn hlt hfound)
  · exact .inr ⟨(find_eq_none hboth hn hlt).mp hnone,
      nearest_of_find (fun j => hashMatches_iff crc32) hn hlt hfound⟩

theorem relocates_of_small (hn : 1 ≤ n) (hlt : n ≤ 2 ^ 63) (content : List Char) (hash : UInt8)
    (text : Option (List Char)) :
    Relocates crc32 content n hash text (resolveAnchorRangeIn crc32 content n hash text) where
  none_iff := by
    rw [range_eq_none_iff, lineIndex_eq_none_iff]
    simp only [mem_reach_iff hn hlt]
  nearest := by
    intro range hrange
    cases hindex : lineIndex crc32 content n hash text with
    | none =>
      rw [(range_eq_none_iff crc32).mpr hindex] at hrange
      cases hrange
    | some i =>
      obtain ⟨found, hfound, hline⟩ := range_of_lineIndex crc32 hindex
      rw [hrange] at hfound
      cases hfound
      refine ⟨i, hline, ?_⟩
      rcases lineIndex_nearest crc32 hn hlt hindex with hnearest | ⟨hnone, hnearest⟩
      · exact ⟨fun _ => hnearest, fun hnone => absurd hnearest.2.1 (hnone i hnearest.1)⟩
      · grind
  again := by
    rintro wanted rfl rfl ⟨j, line, hj, hline, rfl⟩
    have hsame : ∀ k, TextIs content (some line.text) k →
        HashesTo crc32 content (hashLine crc32 line.text) k := by
      rintro k ⟨other, wanted, hother, hwanted, htext⟩
      cases hwanted
      exact ⟨other, hother, by rw [hashLine, htext, hashLine]⟩
    have hthere : TextIs content (some line.text) j := ⟨line, _, hline, rfl, rfl⟩
    cases hindex : lineIndex crc32 content n (hashLine crc32 line.text) (some line.text) with
    | none =>
      have hnone := (lineIndex_eq_none_iff crc32).mp hindex j ((mem_reach_iff hn hlt).mpr hj)
      exact absurd (hsame j hthere) hnone
    | some i =>
      obtain ⟨range, hrange, hlineRange⟩ := range_of_lineIndex crc32 hindex
      refine ⟨range, i, hrange, hlineRange, ?_⟩
      rcases lineIndex_nearest crc32 hn hlt hindex with hnearest | ⟨hnone, -⟩
      · obtain ⟨hwindow, ⟨-, htext⟩, hcloser⟩ := hnearest
        exact ⟨hwindow, htext, fun k hk htext hne => hcloser k hk ⟨hsame k htext, htext⟩ hne⟩
      · exact absurd ⟨hsame j hthere, hthere⟩ (hnone j hj)

theorem relocates_of_large_iff (hn : 2 ^ 63 < n) (hlt : n < 2 ^ 64)
    (hlength : (utf8 content).length + 50 < 2 ^ 63) (hash : UInt8) (text : Option (List Char)) :
    Relocates crc32 content n hash text (resolveAnchorRangeIn crc32 content n hash text) ↔
      ∀ i < n - (2 ^ 64 - 50), ¬ HashesTo crc32 content hash i := by
  have hlines := length_splitLines_le content
  have hfar : ∀ i, InWindow n i → ¬ i < (splitLines content).length := by
    intro i hi
    rw [InWindow, lineDistance, proximityWindow] at hi
    omega
  have hnone : resolveAnchorRangeIn crc32 content n hash text = none ↔
      ∀ i < n - (2 ^ 64 - 50), ¬ HashesTo crc32 content hash i := by
    rw [range_eq_none_iff, lineIndex_eq_none_iff]
    constructor
    · intro h i hi hhash
      exact h i ((mem_reach_of_large hn hlt (by omega)).mpr hi) hhash
    · intro h i hi hhash
      have hshort := hhash.lt
      exact h i ((mem_reach_of_large hn hlt (by omega)).mp hi) hhash
  rw [← hnone]
  constructor
  · intro h
    exact h.none_iff.mpr fun i hi hhash => hfar i hi hhash.lt
  · intro hresult
    rw [hresult]
    refine ⟨⟨fun _ i hi hhash => hfar i hi hhash.lt, fun _ => rfl⟩, fun range h => (by cases h), ?_⟩
    rintro wanted - - ⟨j, line, hj, hline, -⟩
    exact absurd (List.getElem?_eq_some_iff.mp hline).1 (hfar j hj)

/-- `usize` line numbers, and texts that memory can hold. -/
theorem relocates_iff (content : List Char) (n : Nat) (hash : UInt8) (text : Option (List Char))
    (hn : 1 ≤ n) (hlt : n < 2 ^ 64) (hlength : (utf8 content).length + 50 < 2 ^ 63) :
    Relocates crc32 content n hash text (resolveAnchorRangeIn crc32 content n hash text) ↔
      n ≤ 2 ^ 64 - 50 ∨ ∀ i < n - (2 ^ 64 - 50), ¬ HashesTo crc32 content hash i := by
  rcases Nat.lt_or_ge (2 ^ 63) n with hlarge | hsmall
  · rw [relocates_of_large_iff crc32 hlarge hlt hlength]
    constructor
    · exact .inr
    · rintro (hle | h)
      · intro i hi
        omega
      · exact h
  · exact ⟨fun _ => .inl (by omega), fun _ => relocates_of_small crc32 hn hsmall content hash text⟩

end

theorem relocates_drifted_line :
    Relocates crc32Reflected "x\ny\nz".toList 1 (hashLine crc32Reflected ['z']) (some ['z'])
        (resolveAnchorRangeIn crc32Reflected "x\ny\nz".toList 1 (hashLine crc32Reflected ['z'])
          (some ['z'])) ↔
      1 ≤ 2 ^ 64 - 50 ∨ ∀ i < 1 - (2 ^ 64 - 50),
        ¬ HashesTo crc32Reflected "x\ny\nz".toList (hashLine crc32Reflected ['z']) i :=
  relocates_iff crc32Reflected _ 1 _ _ (by decide) (by decide) (by decide)

theorem last_number_names_first_line :
    resolveAnchorRangeIn crc32Reflected ['a'] (2 ^ 64 - 1) (hashLine crc32Reflected ['a']) none =
        some (0, 1) ∧
      ¬ Relocates crc32Reflected ['a'] (2 ^ 64 - 1) (hashLine crc32Reflected ['a']) none
        (resolveAnchorRangeIn crc32Reflected ['a'] (2 ^ 64 - 1) (hashLine crc32Reflected ['a'])
          none) := by
  have hfound : resolveAnchorRangeIn crc32Reflected ['a'] (2 ^ 64 - 1)
      (hashLine crc32Reflected ['a']) none = some (0, 1) := by decide +kernel
  refine ⟨hfound, fun h => ?_⟩
  have hnone := h.none_iff.mpr fun i hi hhash => by
    have hlt := hhash.lt
    have hlines : (splitLines ['a']).length = 1 := by decide +kernel
    rw [InWindow, lineDistance, proximityWindow] at hi
    omega
  rw [hfound] at hnone
  cases hnone

end SwissArmyHammer.Edit

/-! Edits that name their lines by anchors, applied one after the other to a vector of lines. -/

namespace SwissArmyHammer.Edit.Hashline

open Text

structure AnchorOp where
  line : Nat
  hash : UInt8
  replacement : List Char
  deriving DecidableEq

inductive Failure
  | mismatch (op : AnchorOp) (retagged : List Char)
  | outOfBounds (idx : Nat)
  deriving DecidableEq

def setText (lines : List Line) (idx : Nat) (text : List Char) : List Line :=
  lines.modify idx fun line => { line with text := text }

section

variable (crc32 : List UInt8 → UInt32)

def resolveAnchorIn (content : List Char) (line : Nat) (hash : UInt8)
    (text : Option (List Char)) : Option Nat :=
  (resolveIndex crc32 ((splitLines content).map Line.text) line hash text).map fun idx => idx + 1

def resolve (lines : List Line) (op : AnchorOp) : Option Nat :=
  (resolveAnchorIn crc32 (lines.flatMap Line.raw) op.line op.hash none).map fun line => line - 1

def applyOps (content : List Char) : List Line → List AnchorOp → Except Failure (List Line)
  | lines, [] => .ok lines
  | lines, op :: ops =>
    match resolve crc32 lines op with
    | some idx =>
      if idx < lines.length then applyOps content (setText lines idx op.replacement) ops
      else .error (.outOfBounds idx)
    | none => .error (.mismatch op (tag crc32 content 1))

def apply (content : List Char) (ops : List AnchorOp) : Except Failure (List Char) :=
  (applyOps crc32 content (splitLines content) ops).map fun lines => lines.flatMap Line.raw

end

section

variable {lines : List Line} {ops ops' : List AnchorOp} {op : AnchorOp} {n idx : Nat}
  {text : List Char}

def replacementFor (ops : List AnchorOp) (n : Nat) : Option (List Char) :=
  (ops.find? fun op => op.line = n).map AnchorOp.replacement

def edited (lines : List Line) (ops : List AnchorOp) : List Line :=
  lines.mapIdx fun i line => { line with text := (replacementFor ops (i + 1)).getD line.text }

def editedText (content : List Char) (ops : List AnchorOp) : List Char :=
  (edited (splitLines content) ops).flatMap Line.raw

theorem length_edited : (edited lines ops).length = lines.length := List.length_mapIdx

theorem edited_nil : edited lines [] = lines := by
  apply List.ext_getElem?
  simp [edited, replacementFor]

theorem replacementFor_eq_some (hnodup : (ops.map AnchorOp.line).Nodup) :
    replacementFor ops n = some text ↔ ∃ op ∈ ops, op.line = n ∧ op.replacement = text := by
  induction ops with
  | nil => simp [replacementFor]
  | cons op ops ih =>
    obtain ⟨hfresh, hnodup⟩ := List.nodup_cons.mp hnodup
    by_cases hline : op.line = n
    · have hfirst : replacementFor (op :: ops) n = some op.replacement := by
        simp [replacementFor, hline]
      rw [hfirst, Option.some.injEq]
      constructor
      · intro htext
        exact ⟨op, List.mem_cons_self, hline, htext⟩
      · grind
    · have hrest : replacementFor (op :: ops) n = replacementFor ops n := by
        simp [replacementFor, hline]
      rw [hrest, ih hnodup]
      constructor
      · rintro ⟨other, hother, hsame⟩
        exact ⟨other, List.mem_cons_of_mem _ hother, hsame⟩
      · grind

theorem edited_perm (hperm : ops.Perm ops') (hnodup : (ops.map AnchorOp.line).Nodup) :
    edited lines ops = edited lines ops' := by
  have hnodup' := (hperm.map AnchorOp.line).nodup hnodup
  have hsame : ∀ n, replacementFor ops n = replacementFor ops' n := by
    intro n
    apply Option.ext
    intro text
    rw [replacementFor_eq_some hnodup, replacementFor_eq_some hnodup']
    simp only [hperm.mem_iff]
  simp only [edited, hsame]

theorem edited_append (hfresh : op.line ∉ ops.map AnchorOp.line) (hline : 1 ≤ op.line) :
    edited lines (ops ++ [op]) = setText (edited lines ops) (op.line - 1) op.replacement := by
  apply List.ext_getElem?
  intro i
  simp only [edited, setText, List.getElem?_modify, List.getElem?_mapIdx, replacementFor,
    List.find?_append]
  by_cases hi : op.line - 1 = i
  · grind
  · have hother : op.line ≠ i + 1 := by omega
    simp [hi, hother]

end

section

variable (crc32 : List UInt8 → UInt32) {content : List Char} {ops order done rest : List AnchorOp}
  {op : AnchorOp} {lines lines' : List Line}

/-- The operations name different lines of the content, each by the hash of its text. -/
structure Anchored (content : List Char) (ops : List AnchorOp) : Prop where
  nodup : (ops.map AnchorOp.line).Nodup
  named : ∀ op ∈ ops, 1 ≤ op.line ∧ HashesTo crc32 content op.hash (op.line - 1)

/-- In whatever order they come, each operation replaces the line that it names, and the result is
the content with these lines replaced. -/
def Composes (content : List Char) (ops : List AnchorOp) : Prop :=
  ∀ order, order.Perm ops → apply crc32 content order = .ok (editedText content ops) ∧
    ∀ done op rest lines, order = done ++ op :: rest →
      applyOps crc32 content (splitLines content) done = .ok lines →
        resolve crc32 lines op = some (op.line - 1)

/-- Whichever of the others are applied, the text that they leave has the hash of each operation
in the line with its number. -/
def NumbersStand (content : List Char) (ops : List AnchorOp) : Prop :=
  ∀ op ∈ ops, ∀ done, done.Sublist ops → op ∉ done →
    HashesTo crc32 (editedText content done) op.hash (op.line - 1)

theorem resolve_own_iff (hline : 1 ≤ op.line) (hbound : op.line ≤ 2 ^ 63) :
    resolve crc32 lines op = some (op.line - 1) ↔
      HashesTo crc32 (lines.flatMap Line.raw) op.hash (op.line - 1) := by
  have hindex : resolve crc32 lines op = resolveIndex crc32
      ((splitLines (lines.flatMap Line.raw)).map Line.text) op.line op.hash none := by
    rw [resolve, resolveAnchorIn, Option.map_map]
    simp [Function.comp_def]
  have hmatches : hashMatches crc32 ((splitLines (lines.flatMap Line.raw)).map Line.text) op.hash
      (op.line - 1) = true ↔ HashesTo crc32 (lines.flatMap Line.raw) op.hash (op.line - 1) := by
    rw [← hashMatches_iff, spansAt, map_snd_lineSpans]
  have hnone : ∀ idx, (hashMatches crc32 ((splitLines (lines.flatMap Line.raw)).map Line.text)
      op.hash idx && textMatches ((splitLines (lines.flatMap Line.raw)).map Line.text) none idx) =
        false := by
    intro idx
    rw [textMatches, Option.any_none, Bool.and_false]
  obtain ⟨tail, hreach⟩ := reach_eq hline hbound
  rw [hindex, resolveIndex_eq, ← hmatches, hreach]
  simp only [hnone, List.find?_eq_none.mpr fun _ _ => Bool.false_ne_true, Option.none_or]
  constructor
  · exact List.find?_some
  · intro hfirst
    rw [List.find?_cons, hfirst]

theorem applyOps_append (h : applyOps crc32 content lines done = .ok lines') :
    applyOps crc32 content lines (done ++ rest) = applyOps crc32 content lines' rest := by
  induction done generalizing lines with
  | nil =>
    cases h
    rfl
  | cons op done ih =>
    rw [applyOps] at h
    rw [List.cons_append, applyOps]
    cases hidx : resolve crc32 lines op with
    | none =>
      rw [hidx] at h
      cases h
    | some idx =>
      grind

variable {crc32}

theorem Anchored.perm (h : Anchored crc32 content ops) (hperm : order.Perm ops) :
    Anchored crc32 content order where
  nodup := (hperm.map AnchorOp.line).nodup_iff.mpr h.nodup
  named op hop := h.named op (hperm.mem_iff.mp hop)

theorem Anchored.nodup_ops (h : Anchored crc32 content ops) : ops.Nodup :=
  List.Nodup.of_map _ h.nodup

theorem Anchored.fresh (h : Anchored crc32 content order) (hsplit : order = done ++ op :: rest) :
    op.line ∉ done.map AnchorOp.line := by
  have hnodup := h.nodup
  rw [hsplit, List.map_append] at hnodup
  intro hmem
  exact (List.nodup_append.mp hnodup).2.2 _ hmem _ List.mem_cons_self rfl

theorem Anchored.bound (h : Anchored crc32 content ops) (hsize : (utf8 content).length < 2 ^ 63)
    (hop : op ∈ ops) : op.line ≤ 2 ^ 63 := by
  have hlt := (h.named op hop).2.lt
  have hle := length_splitLines_le content
  omega

theorem applyOps_edited (h : Anchored crc32 content order)
    (hown : ∀ done op rest, order = done ++ op :: rest →
      applyOps crc32 content (splitLines content) done = .ok (edited (splitLines content) done) →
        resolve crc32 (edited (splitLines content) done) op = some (op.line - 1))
    (hsplit : order = done ++ rest) :
    applyOps crc32 content (splitLines content) done = .ok (edited (splitLines content) done) := by
  induction done using List.reverseRecOn generalizing rest with
  | nil => rw [applyOps, edited_nil]
  | append_singleton done op ih =>
    have hcons : order = done ++ op :: rest := by rw [hsplit, List.append_assoc]; rfl
    have hdone := ih hcons
    have hop : op ∈ order := by simp [hcons]
    obtain ⟨hline, hhash⟩ := h.named op hop
    rw [applyOps_append crc32 hdone, applyOps, hown done op rest hcons hdone]
    simp only
    rw [if_pos (by rw [length_edited]; exact hhash.lt), applyOps,
      edited_append (h.fresh hcons) hline]

theorem composes_iff (hsize : (utf8 content).length < 2 ^ 63) (h : Anchored crc32 content ops) :
    Composes crc32 content ops ↔ NumbersStand crc32 content ops := by
  constructor
  · intro hcomposes op hop done hsub hfresh
    obtain ⟨others, hothers⟩ := hsub.exists_perm_append
    have hmem : op ∈ others := by
      rcases List.mem_append.mp (hothers.mem_iff.mp hop) with hdone | hmem
      · exact absurd hdone hfresh
      · exact hmem
    have hperm : (done ++ op :: others.erase op).Perm ops :=
      ((List.perm_cons_erase hmem).symm.append_left done).trans hothers.symm
    obtain ⟨-, hown⟩ := hcomposes _ hperm
    have hdone := applyOps_edited (h.perm hperm)
      (fun done op rest hsplit hdone => hown done op rest _ hsplit hdone) rfl
    exact (resolve_own_iff crc32 (h.named op hop).1 (h.bound hsize hop)).mp
      (hown done op _ _ rfl hdone)
  · intro hstand order hperm
    have horder := h.perm hperm
    have hown : ∀ done op rest, order = done ++ op :: rest →
        resolve crc32 (edited (splitLines content) done) op = some (op.line - 1) := by
      intro done op rest hsplit
      have hop : op ∈ ops := hperm.mem_iff.mp (by simp [hsplit])
      have hnodup := horder.nodup_ops
      rw [hsplit] at hnodup
      have hsub : (ops.filter fun other => decide (other ∈ done)).Perm done := by
        refine (List.perm_ext_iff_of_nodup (h.nodup_ops.filter _)
          (List.nodup_append.mp hnodup).1).mpr fun other => ?_
        rw [List.mem_filter, decide_eq_true_eq]
        exact ⟨fun hother => hother.2, fun hother => ⟨hperm.mem_iff.mp (by simp [hsplit, hother]),
          hother⟩⟩
      have hfresh : op ∉ ops.filter fun other => decide (other ∈ done) := by
        intro hmem
        exact horder.fresh hsplit (List.mem_map_of_mem (hsub.mem_iff.mp hmem))
      have hhash := hstand op hop _ List.filter_sublist hfresh
      rw [editedText, edited_perm hsub ((List.filter_sublist.map _).nodup h.nodup)] at hhash
      exact (resolve_own_iff crc32 (h.named op hop).1 (h.bound hsize hop)).mpr hhash
    have hrun : ∀ done rest, order = done ++ rest →
        applyOps crc32 content (splitLines content) done =
          .ok (edited (splitLines content) done) := fun done rest hsplit =>
      applyOps_edited horder (fun done op rest hsplit _ => hown done op rest hsplit) hsplit
    refine ⟨?_, fun done op rest lines hsplit hlines => ?_⟩
    · rw [apply, hrun order [] (List.append_nil _).symm, edited_perm hperm horder.nodup]
      rfl
    · rw [hrun done _ hsplit] at hlines
      cases hlines
      exact hown done op rest hsplit

end

def upperEnds : List AnchorOp :=
  [⟨1, hashLine crc32Reflected ['a'], ['A']⟩, ⟨3, hashLine crc32Reflected ['c'], ['C']⟩]

theorem upperEnds_anchored : Anchored crc32Reflected "a\nb\nc".toList upperEnds where
  nodup := by decide
  named op hop := by
    rcases List.mem_pair.mp hop with rfl | rfl
    · exact ⟨by decide, ⟨['a'], ['\n']⟩, by decide +kernel, rfl⟩
    · exact ⟨by decide, ⟨['c'], []⟩, by decide +kernel, rfl⟩

theorem composes_iff_upperEnds : Composes crc32Reflected "a\nb\nc".toList upperEnds ↔
    NumbersStand crc32Reflected "a\nb\nc".toList upperEnds :=
  composes_iff (by decide) upperEnds_anchored

def splitFirst : List AnchorOp :=
  [⟨1, hashLine crc32Reflected ['a'], "x\ny".toList⟩, ⟨3, hashLine crc32Reflected ['c'], ['C']⟩]

theorem later_line_shifted :
    apply crc32Reflected "a\nb\nc".toList splitFirst = .error (.outOfBounds 3) ∧
      ¬ ∀ content ops, (utf8 content).length < 2 ^ 63 → Anchored crc32Reflected content ops →
        ∀ order, order.Perm ops → apply crc32Reflected content order = .ok (editedText content ops) := by
  have hpanics : apply crc32Reflected "a\nb\nc".toList splitFirst = .error (.outOfBounds 3) := by
    decide +kernel
  refine ⟨hpanics, fun h => ?_⟩
  have hanchored : Anchored crc32Reflected "a\nb\nc".toList splitFirst := by
    refine ⟨by decide, fun op hop => ?_⟩
    rcases List.mem_pair.mp hop with rfl | rfl
    · exact ⟨by decide, ⟨['a'], ['\n']⟩, by decide +kernel, rfl⟩
    · exact ⟨by decide, ⟨['c'], []⟩, by decide +kernel, rfl⟩
  have hok := h _ _ (by decide) hanchored splitFirst (List.Perm.refl _)
  rw [hpanics] at hok
  cases hok

end SwissArmyHammer.Edit.Hashline
