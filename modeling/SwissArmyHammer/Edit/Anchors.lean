import Mathlib.Logic.Function.Iterate
import SwissArmyHammer.Edit.Resolve
import SwissArmyHammer.Edit.Window

/-! The anchors that a read hands out, and the lines that an edit of the same file resolves them
to. -/

namespace SwissArmyHammer.Edit

open Text

section

variable {content : List Char} {pre win post raws : List (List Char)} {offset : Nat}

theorem drop_lineSlices (k offset : Nat) (raws : List (List Char)) :
    (lineSlices offset raws).drop k =
      lineSlices (offset + (utf8 (raws.take k).flatten).length) (raws.drop k) := by
  induction raws generalizing k offset with
  | nil => simp [lineSlices]
  | cons raw raws ih =>
    cases k with
    | zero => simp
    | succ k =>
      rw [lineSlices, List.drop_succ_cons, ih, List.take_succ_cons, List.flatten_cons, utf8_append,
        List.length_append, Nat.add_assoc, List.drop_succ_cons]

theorem take_lineSlices (k offset : Nat) (raws : List (List Char)) :
    (lineSlices offset raws).take k = lineSlices offset (raws.take k) := by
  induction raws generalizing k offset with
  | nil => simp [lineSlices]
  | cons raw raws ih =>
    cases k with
    | zero => simp [lineSlices]
    | succ k => rw [lineSlices, List.take_succ_cons, ih, List.take_succ_cons, lineSlices]

theorem spansAt_splitInclusive (h : splitInclusive content = pre ++ (win ++ post)) :
    spansAt 0 content = contentSpans 0 pre ++
      (contentSpans (utf8 pre.flatten).length win ++
        contentSpans ((utf8 pre.flatten).length + (utf8 win.flatten).length) post) := by
  have hterm : ∀ raw ∈ (splitInclusive content).dropLast, Terminated raw := by
    intro raw hraw
    have hne : splitInclusive content ≠ [] := by
      intro hnil
      simp [hnil] at hraw
    exact terminated_of_splitInclusive (List.dropLast_append_getLast hne).symm raw hraw
  have hspans := spansAt_flatten hterm 0
  rw [flatten_splitInclusive, h, contentSpans_append, contentSpans_append, Nat.zero_add] at hspans
  exact hspans

theorem count_eq_zero : (raws.flatMap stripEol).count '\r' = 0 ↔
    ∀ raw ∈ raws, '\r' ∉ stripEol raw := by
  simp [List.count_eq_zero]

theorem windowSpans_drop_iff (h : splitInclusive content = pre ++ (win ++ post))
    (hne : windowSpans (lineSlices (utf8 pre.flatten).length win) ≠ []) :
    windowSpans (lineSlices (utf8 pre.flatten).length win) <+:
        (spansAt 0 content).drop pre.length ↔
      (∀ raw ∈ pre, '\r' ∉ stripEol raw) ∧ keepsBreaks (win.map stripEol) := by
  have hmem : ∀ raw ∈ win, raw ∈ splitInclusive content := fun raw hraw => by simp [h, hraw]
  have hraws : ∀ raw ∈ win, Terminated raw ∨ '\n' ∉ raw := fun raw hraw =>
    terminated_or_not_mem (hmem raw hraw)
  cases win with
  | nil => exact absurd rfl hne
  | cons raw win =>
    have hpre : ∀ raw ∈ pre, Terminated raw := terminated_of_splitInclusive h
    have hterm : ∀ r ∈ (raw :: win).dropLast, Terminated r := by
      intro r hr
      have hlast := List.dropLast_append_getLast (List.cons_ne_nil raw win)
      rw [← hlast, List.append_assoc, ← List.append_assoc, List.singleton_append] at h
      exact terminated_of_splitInclusive h r (List.mem_append_right _ hr)
    have hspans := spansAt_splitInclusive h
    have hlen := length_contentSpans hpre 0
    have hstarts := windowSpans_prefix_iff hterm hraws (utf8 pre.flatten).length
      (contentSpans ((utf8 pre.flatten).length + (utf8 (raw :: win).flatten).length) post)
    rw [← hstarts, ← count_eq_zero]
    have hdrop : (pre.flatMap stripEol).count '\r' = 0 →
        (spansAt 0 content).drop pre.length =
          contentSpans (utf8 pre.flatten).length (raw :: win) ++
            contentSpans ((utf8 pre.flatten).length + (utf8 (raw :: win).flatten).length) post := by
      intro hzero
      rw [hspans, List.drop_append_of_le_length (by omega), List.drop_eq_nil_of_le (by omega),
        List.nil_append]
    constructor
    · intro hwindow
      have hzero : (pre.flatMap stripEol).count '\r' = 0 := by
        obtain ⟨span, spans, hwin⟩ := List.exists_cons_of_ne_nil hne
        have hstart : span.1 = (utf8 pre.flatten).length :=
          head?_windowSpans (by
            rw [lineSlices] at hwin
            rw [hwin, List.head?_cons])
        have hrawne : spansAt (utf8 pre.flatten).length raw ≠ [] := by
          rw [Ne, spansAt_eq_nil]
          exact ne_nil_of_mem_splitInclusive (hmem raw (by simp))
        obtain ⟨first, firsts, hfirst⟩ := List.exists_cons_of_ne_nil hrawne
        have hfirststart : first.1 = (utf8 pre.flatten).length :=
          head?_spansAt (by rw [hfirst, List.head?_cons])
        have hi : (spansAt 0 content)[pre.length]? = some span := by
          rw [hwin] at hwindow
          obtain ⟨rest, hrest⟩ := hwindow
          have hget := congrArg (fun l => l[0]?) hrest
          simpa using hget.symm
        have hj : (spansAt 0 content)[(contentSpans 0 pre).length]? = some first := by
          rw [hspans, contentSpans, hfirst]
          simp
        have hindex := index_of_start hi hj (by rw [hstart, hfirststart])
        omega
      exact ⟨hzero, hdrop hzero ▸ hwindow⟩
    · grind

end

section

variable {content : List Char} {offset limit : Option Nat}

def windowSlices (content : List Char) (offset limit : Option Nat) : List (Nat × List Char) :=
  match offset, limit with
  | none, none => [(0, content)]
  | offset, limit =>
    let rest := (lineSlices 0 (splitInclusive content)).drop ((offset.map fun o => o - 1).getD 0)
    match limit with
    | some limit => rest.take limit
    | none => rest

/-- The window is the whole text, or it is not line 0 that it is asked from, no `\r` stands within
the lines that it skips and none of its own is joined to a `\n`. -/
def WindowAligned (content : List Char) (offset limit : Option Nat) : Prop :=
  (offset = none ∧ limit = none) ∨
    (offset ≠ some 0 ∧ (∀ l ∈ skippedLines content offset, '\r' ∉ l) ∧
      keepsBreaks (windowOfLines content offset limit))

def NumbersHold (content : List Char) (offset limit : Option Nat) : Prop :=
  ∀ i span, (spansAt 0 (windowLines content offset limit))[i]? = some span →
    1 ≤ offset.getD 1 + i ∧ (spansAt 0 content)[offset.getD 1 + i - 1]? =
      some (originOf (windowSlices content offset limit) span.1, span.2)

theorem window_parts (content : List Char) (h : ¬ (offset = none ∧ limit = none)) :
    let pre := (splitInclusive content).take ((offset.map fun o => o - 1).getD 0)
    ∃ win post, splitInclusive content = pre ++ (win ++ post) ∧
      skippedLines content offset = pre.map stripEol ∧
      windowOfLines content offset limit = win.map stripEol ∧
      windowSlices content offset limit = lineSlices (utf8 pre.flatten).length win := by
  intro pre
  let rest := (splitInclusive content).drop ((offset.map fun o => o - 1).getD 0)
  have hslices : (lineSlices 0 (splitInclusive content)).drop ((offset.map fun o => o - 1).getD 0) =
      lineSlices (utf8 pre.flatten).length rest := by
    rw [drop_lineSlices, Nat.zero_add]
  have hsplit : splitInclusive content = pre ++ rest := (List.take_append_drop _ _).symm
  have hskipped : skippedLines content offset = pre.map stripEol := List.map_take.symm
  cases limit with
  | none =>
    obtain ⟨o, rfl⟩ : ∃ o, offset = some o := by
      cases offset with
      | none => exact absurd ⟨rfl, rfl⟩ h
      | some o => exact ⟨o, rfl⟩
    refine ⟨rest, [], ?_, hskipped, List.map_drop.symm, hslices⟩
    rw [List.append_nil]
    exact hsplit
  | some k =>
    refine ⟨rest.take k, rest.drop k, ?_, hskipped, ?_, ?_⟩
    · rw [List.take_append_drop]
      exact hsplit
    · rw [List.map_take]
      exact congrArg (List.take k) List.map_drop.symm
    · rw [← take_lineSlices, ← hslices]
      cases offset <;> rfl

theorem windowLines_eq (h : ¬ (offset = none ∧ limit = none)) :
    windowLines content offset limit = joinLines (windowOfLines content offset limit) := by
  cases offset with
  | none =>
    cases limit with
    | none => exact absurd ⟨rfl, rfl⟩ h
    | some k => rfl
  | some o => rfl

theorem joinLines_windowSlices (content : List Char) (offset limit : Option Nat) :
    joinLines ((windowSlices content offset limit).map Prod.snd) =
      windowLines content offset limit := by
  by_cases h : offset = none ∧ limit = none
  · obtain ⟨rfl, rfl⟩ := h
    exact joinLines_singleton
  · obtain ⟨win, post, -, -, hwin, hslices⟩ := window_parts content h
    rw [windowLines_eq h, hslices, hwin, map_snd_lineSlices]

theorem numbersHold_windowSpans : NumbersHold content offset limit ↔
    ∀ i span, (windowSpans (windowSlices content offset limit))[i]? = some span →
      1 ≤ offset.getD 1 + i ∧ (spansAt 0 content)[offset.getD 1 + i - 1]? = some span := by
  rw [NumbersHold, ← joinLines_windowSlices, ← map_originOf]
  simp only [List.getElem?_map, Option.map_eq_some_iff]
  constructor
  · rintro h i _ ⟨span, hspan, rfl⟩
    exact h i span hspan
  · intro h i span hspan
    exact h i _ ⟨span, hspan, rfl⟩

theorem getElem?_drop_iff {α : Type} {xs ys : List α} {start : Nat} (hne : xs ≠ []) :
    (∀ i x, xs[i]? = some x → 1 ≤ start + i ∧ ys[start + i - 1]? = some x) ↔
      1 ≤ start ∧ xs <+: ys.drop (start - 1) := by
  rw [List.prefix_iff_getElem?]
  constructor
  · intro h
    obtain ⟨x, xs', rfl⟩ := List.exists_cons_of_ne_nil hne
    have hstart := (h 0 x rfl).1
    refine ⟨by omega, fun i hi => ?_⟩
    have hget := (h i _ (List.getElem?_eq_getElem hi)).2
    rw [List.getElem?_drop, show start - 1 + i = start + i - 1 by omega]
    exact hget
  · grind

theorem numbersHold_iff : NumbersHold content offset limit ↔
    windowLines content offset limit = [] ∨ WindowAligned content offset limit := by
  rw [numbersHold_windowSpans, ← joinLines_windowSlices, ← windowSpans_eq_nil]
  by_cases hne : windowSpans (windowSlices content offset limit) = []
  · rw [hne]
    simp
  · rw [getElem?_drop_iff hne, or_iff_right hne, WindowAligned]
    by_cases h : offset = none ∧ limit = none
    · refine iff_of_true ?_ (.inl h)
      obtain ⟨rfl, rfl⟩ := h
      exact ⟨Nat.le_refl 1, List.prefix_rfl⟩
    · rw [or_iff_right h]
      obtain ⟨win, post, hsplit, hskipped, hwin, hslices⟩ := window_parts content h
      rw [hslices] at hne ⊢
      have hiff := windowSpans_drop_iff hsplit hne
      have hlen : ((splitInclusive content).take ((offset.map fun o => o - 1).getD 0)).length =
          (offset.map fun o => o - 1).getD 0 := by
        rw [List.length_take, Nat.min_eq_left]
        by_contra hlt
        have htake := List.take_of_length_le (Nat.le_of_lt (Nat.lt_of_not_le hlt))
        rw [htake] at hsplit
        have hnil : win = [] := by
          have hlength := congrArg List.length hsplit
          simp only [List.length_append] at hlength
          exact List.eq_nil_of_length_eq_zero (by omega)
        rw [hnil] at hne
        exact hne rfl
      have hskip : (∀ l ∈ skippedLines content offset, '\r' ∉ l) ↔
          ∀ raw ∈ (splitInclusive content).take ((offset.map fun o => o - 1).getD 0),
            '\r' ∉ stripEol raw := by
        rw [hskipped]
        simp only [List.forall_mem_map]
      rw [hskip, hwin, ← hiff, hlen]
      cases offset with
      | none => simp
      | some o =>
        simp only [Option.getD_some, Option.map_some, ne_eq, Option.some.injEq]
        rw [Nat.one_le_iff_ne_zero]

end

section

variable {content text s : List Char} {k : Nat} {line : Line} {lines : List Line}

theorem splitLines_plain_append (h : Plain text) (hs : splitLines s = line :: lines) :
    splitLines (text ++ s) = ⟨text ++ line.text, line.terminator⟩ :: lines := by
  have happend : ∀ {t : List Char}, Plain t → Plain (text ++ t) := by
    intro t ht c hc
    rcases List.mem_append.mp hc with hc | hc
    · exact h c hc
    · exact ht c hc
  cases firstLine s with
  | nil => simp at hs
  | plain ht hne =>
    rw [splitLines_plain ht hne] at hs
    obtain ⟨rfl, rfl⟩ := List.cons.inj hs
    exact splitLines_plain (happend ht) (by simp [hne])
  | lf rest ht =>
    rw [splitLines_lf ht] at hs
    obtain ⟨rfl, rfl⟩ := List.cons.inj hs
    rw [← List.append_assoc, splitLines_lf (happend ht)]
  | crlf rest ht =>
    rw [splitLines_crlf ht] at hs
    obtain ⟨rfl, rfl⟩ := List.cons.inj hs
    rw [← List.append_assoc, splitLines_crlf (happend ht)]
  | cr ht hrest =>
    rw [splitLines_cr ht hrest] at hs
    obtain ⟨rfl, rfl⟩ := List.cons.inj hs
    rw [← List.append_assoc, splitLines_cr (happend ht) hrest]

theorem plain_mark : Plain ['\uFEFF'] := by
  intro c hc
  rw [List.mem_singleton.mp hc]
  decide

theorem splitLines_stripMark (hs : splitLines (stripMark content) = line :: lines) :
    ∃ first, splitLines content = first :: lines ∧
      line.text.count '\uFEFF' ≤ first.text.count '\uFEFF' ∧
        (content.head? = some '\uFEFF' →
          line.text.count '\uFEFF' < first.text.count '\uFEFF') := by
  by_cases h : content.head? = some '\uFEFF'
  · have hlines := splitLines_plain_append plain_mark hs
    rw [List.singleton_append, ← stripMark_of_head h] at hlines
    have hcount : line.text.count '\uFEFF' < (['\uFEFF'] ++ line.text).count '\uFEFF' := by
      simp
    exact ⟨_, hlines, Nat.le_of_lt hcount, fun _ => hcount⟩
  · rw [stripMark_of_ne h] at hs
    exact ⟨line, hs, Nat.le_refl _, fun habs => absurd habs h⟩

theorem splitLines_eq_nil : splitLines s = [] ↔ s = [] := by
  constructor
  · intro h
    rw [← flatMap_raw s, h]
    rfl
  · rintro rfl
    exact splitLines_nil

theorem tail_splitLines_stripMark (content : List Char) :
    (splitLines (stripMark content)).tail = (splitLines content).tail := by
  cases hs : splitLines (stripMark content) with
  | nil =>
    rw [splitLines_eq_nil] at hs
    by_cases h : content.head? = some '\uFEFF'
    · rw [stripMark_of_head h, hs, splitLines_plain plain_mark (by simp)]
      rfl
    · rw [stripMark_of_ne h] at hs
      rw [hs, splitLines_nil]
  | cons line lines =>
    obtain ⟨first, hfirst, -⟩ := splitLines_stripMark hs
    rw [hfirst]
    rfl

theorem count_trimHorizontal {c : Char} (h : isHorizontal c = false) (s : List Char) :
    (trimHorizontal s).count c = s.count c := by
  have hdrop : ∀ s : List Char, (s.dropWhile isHorizontal).count c = s.count c := by
    intro s
    induction s with
    | nil => rfl
    | cons d s ih =>
      rw [List.dropWhile_cons]
      split_ifs with hd
      · grind
      · rfl
  rw [trimHorizontal, List.rdropWhile, List.count_reverse, hdrop, List.count_reverse, hdrop]

theorem splitLines_withoutMarks (content : List Char) (k : Nat) :
    (splitLines (withoutMarks content))[k + 1]? = (splitLines content)[k + 1]? := by
  rw [← List.getElem?_tail, ← List.getElem?_tail, withoutMarks, tail_splitLines_stripMark,
    tail_splitLines_stripMark]

theorem text_of_spansAt {offset : Nat} {span : Nat × List Char}
    (h : (spansAt offset s)[k]? = some span) :
    ∃ line, (splitLines s)[k]? = some line ∧ line.text = span.2 := by
  have hmap : ((spansAt offset s).map Prod.snd)[k]? = some span.2 := by
    rw [List.getElem?_map, h]
    rfl
  rw [spansAt, map_snd_lineSpans, List.getElem?_map, Option.map_eq_some_iff] at hmap
  exact hmap

theorem span_of_splitLines {line : Line} (h : (splitLines s)[k]? = some line) (offset : Nat) :
    ∃ start, (spansAt offset s)[k]? = some (start, line.text) := by
  have hmap : ((spansAt offset s).map Prod.snd)[k]? = some line.text := by
    rw [spansAt, map_snd_lineSpans, List.getElem?_map, h]
    rfl
  rw [List.getElem?_map, Option.map_eq_some_iff] at hmap
  obtain ⟨⟨start, text⟩, hspan, rfl⟩ := hmap
  exact ⟨start, hspan⟩

theorem length_splitLines_le (s : List Char) : (splitLines s).length ≤ (utf8 s).length := by
  have hlines : ∀ lines : List Line, (∀ line ∈ lines, line.raw ≠ []) →
      lines.length ≤ (utf8 (lines.flatMap Line.raw)).length := by
    intro lines hraw
    induction lines with
    | nil => exact Nat.zero_le _
    | cons line lines ih =>
      have hpos := utf8_length_pos (hraw line (by simp))
      have hrest := ih fun line hline => hraw line (by simp [hline])
      rw [List.flatMap_cons, utf8_append, List.length_append, List.length_cons]
      omega
  have hle := hlines _ (raw_ne_nil s)
  rwa [flatMap_raw] at hle

end

section

variable (crc32 : List UInt8 → UInt32)

def Resolves (decoded : List Char) (n : Nat) (text : List Char) : Prop :=
  ∃ line, (spansAt 0 decoded)[n - 1]? = some line ∧
    resolveAnchor crc32 decoded (tagged crc32 n text) = some (spanRange line)

/-- The first line has the hash that it has with the mark, and no line near it is the first line
with the mark. -/
def MarkResolves (content : List Char) : Prop :=
  match splitLines content, splitLines (withoutMarks content) with
  | first :: _, line :: others => hashLine crc32 line.text = hashLine crc32 first.text ∧
      ∀ other ∈ others.take proximityWindow,
        trimHorizontal other.text ≠ trimHorizontal first.text
  | _, _ => False

variable {crc32} {content : List Char} {n : Nat} {span : Nat × List Char}

theorem resolves_plain (hsize : (utf8 content).length < 2 ^ 63) (h : 1 ≤ n)
    (hline : (spansAt 0 content)[n - 1]? = some span)
    (hmark : n ≠ 1 ∨ content.head? ≠ some '\uFEFF') :
    Resolves crc32 (withoutMarks content) n span.2 := by
  obtain ⟨line, hget, htext⟩ := text_of_spansAt hline
  have hn : n - 1 < (splitLines content).length := (List.getElem?_eq_some_iff.mp hget).1
  have hle := length_splitLines_le content
  have hdecoded : (splitLines (withoutMarks content))[n - 1]? = some line := by
    rcases hmark with hne | hhead
    · rw [show n - 1 = n - 2 + 1 by omega] at hget ⊢
      rw [splitLines_withoutMarks, hget]
    · rw [withoutMarks, stripMark_of_ne hhead, stripMark_of_ne hhead, hget]
  obtain ⟨start, hspan⟩ := span_of_splitLines hdecoded 0
  have hbound : n ≤ 2 ^ 63 := by omega
  have hresolve := resolveAnchor_exact crc32 h hbound hspan
  rw [htext] at hspan hresolve
  exact ⟨_, hspan, hresolve⟩

theorem resolves_mark_iff (h : content.head? = some '\uFEFF')
    (hline : (spansAt 0 content)[0]? = some span) :
    Resolves crc32 (withoutMarks content) 1 span.2 ↔ MarkResolves crc32 content := by
  obtain ⟨wanted, hget, htext⟩ := text_of_spansAt hline
  cases hdecoded : splitLines (withoutMarks content) with
  | nil =>
    have hcases : MarkResolves crc32 content ↔ False := by
      rw [MarkResolves, hdecoded]
      cases splitLines content <;> rfl
    rw [hcases, iff_false]
    rintro ⟨line, hfirst, -⟩
    rw [splitLines_eq_nil.mp hdecoded] at hfirst
    simp at hfirst
  | cons line others =>
    obtain ⟨middle, hmiddle, hle, -⟩ := splitLines_stripMark hdecoded
    obtain ⟨first, hfirst, -, hlt⟩ := splitLines_stripMark hmiddle
    obtain rfl : first = wanted := by
      rw [hfirst] at hget
      simpa using hget
    have hne : trimHorizontal line.text ≠ trimHorizontal first.text := by
      intro heq
      have hcount := congrArg (List.count '\uFEFF') heq
      have hmark : isHorizontal '\uFEFF' = false := by decide
      rw [count_trimHorizontal hmark, count_trimHorizontal hmark] at hcount
      have := hlt h
      omega
    have hiff : MarkResolves crc32 content ↔
        hashLine crc32 line.text = hashLine crc32 first.text ∧
          ∀ other ∈ (others.map Line.text).take proximityWindow,
            trimHorizontal other ≠ trimHorizontal first.text := by
      rw [MarkResolves, hdecoded, hfirst, ← List.map_take]
      simp only [List.forall_mem_map]
    rw [hiff, ← resolveIndex_one_iff hne, ← htext]
    have hspans : (spansAt 0 (withoutMarks content)).map Prod.snd =
        line.text :: others.map Line.text := by
      rw [spansAt, map_snd_lineSpans, hdecoded, List.map_cons]
    have hresolve : resolveAnchor crc32 (withoutMarks content) (tagged crc32 1 first.text) =
        (resolveIndex crc32 (line.text :: others.map Line.text) 1 (hashLine crc32 first.text)
          (some first.text)).bind fun idx =>
            ((spansAt 0 (withoutMarks content))[idx]?).map spanRange := by
      rw [resolveAnchor_tagged (by omega), ← hspans]
      rfl
    rw [Resolves, hresolve]
    constructor
    · rintro ⟨span, hspan, hrange⟩
      obtain ⟨idx, hidx, hrange⟩ := Option.bind_eq_some_iff.mp hrange
      obtain ⟨span', hspan', heq⟩ := Option.map_eq_some_iff.mp hrange
      have hstart := congrArg Prod.fst heq
      rw [hidx, index_of_start hspan' hspan hstart]
    · grind

variable (crc32) in
/-- Every anchor that is handed out names its line of the text, and is resolved to that line in
what an edit reads from the same bytes. -/
def AnchorsHold (content decoded : List Char) (offset limit : Option Nat) : Prop :=
  ∀ i span, (spansAt 0 (windowLines content offset limit))[i]? = some span →
    (1 ≤ offset.getD 1 + i ∧ (spansAt 0 content)[offset.getD 1 + i - 1]? =
      some (originOf (windowSlices content offset limit) span.1, span.2)) ∧
    Resolves crc32 decoded (offset.getD 1 + i) span.2

theorem anchorsHold_iff (hsize : (utf8 content).length < 2 ^ 63) (offset limit : Option Nat) :
    AnchorsHold crc32 content (withoutMarks content) offset limit ↔
      windowLines content offset limit = [] ∨
        WindowAligned content offset limit ∧
          (content.head? = some '\uFEFF' → offset.getD 1 = 1 → MarkResolves crc32 content) := by
  by_cases hempty : windowLines content offset limit = []
  · refine iff_of_true ?_ (.inl hempty)
    intro i span hspan
    rw [hempty] at hspan
    simp at hspan
  · rw [or_iff_right hempty]
    have hnumbers : NumbersHold content offset limit ↔ WindowAligned content offset limit := by
      rw [numbersHold_iff, or_iff_right hempty]
    constructor
    · intro h
      refine ⟨hnumbers.mp fun i span hspan => (h i span hspan).1, fun hhead hstart => ?_⟩
      have hne : spansAt 0 (windowLines content offset limit) ≠ [] := by
        rw [Ne, spansAt_eq_nil]
        exact hempty
      obtain ⟨span, spans, hspans⟩ := List.exists_cons_of_ne_nil hne
      obtain ⟨⟨-, hline⟩, hresolves⟩ := h 0 span (by rw [hspans]; rfl)
      rw [hstart] at hline hresolves
      exact (resolves_mark_iff hhead hline).mp hresolves
    · rintro ⟨haligned, hmark⟩ i span hspan
      obtain ⟨hn, hline⟩ := hnumbers.mpr haligned i span hspan
      refine ⟨⟨hn, hline⟩, ?_⟩
      by_cases hfirst : offset.getD 1 + i = 1 ∧ content.head? = some '\uFEFF'
      · obtain ⟨hone, hhead⟩ := hfirst
        have hstart : offset.getD 1 = 1 := by
          by_contra hne
          have hzero : offset.getD 1 = 0 := by omega
          rcases haligned with ⟨rfl, -⟩ | ⟨hoffset, -⟩
          · simp at hzero
          · cases offset with
            | none => simp at hzero
            | some o => exact hoffset (congrArg some hzero)
        rw [hone] at hline ⊢
        exact (resolves_mark_iff hhead hline).mpr (hmark hhead hstart)
      · have hmarked : offset.getD 1 + i ≠ 1 ∨ content.head? ≠ some '\uFEFF' := by
          by_cases hone : offset.getD 1 + i = 1
          · exact .inr fun hhead => hfirst ⟨hone, hhead⟩
          · exact .inl hone
        show Resolves crc32 (withoutMarks content) (offset.getD 1 + i)
          (originOf (windowSlices content offset limit) span.1, span.2).2
        exact resolves_plain hsize hn hline hmarked

end

section

variable {debug : String → String} {crc32 : List UInt8 → UInt32} {md5 : List UInt8 → List UInt8}
  {read : String → Except McpError (List Char)} {request : ReadRequest} {E : EncodingRs}
  {content answer : List Char}

/-- The anchors in the answer of a read hold for an edit of the same file exactly when nothing is
tagged, or the window is aligned and no mark stands in the way of its first line. -/
theorem read_anchors_hold_iff (hE : E.Contract) (hread : read request.path = .ok content)
    (hsize : (utf8 content).length < 2 ^ 63)
    (hformat : ReadFormat.parse debug request.format = .ok .hashline)
    (h : executeRead debug crc32 md5 read request = .ok answer) :
    answer = hashLinePrefix ++ wholeFileHash md5 content ++ '\n' ::
        tag crc32 (windowLines content request.offset request.limit) (request.offset.getD 1) ∧
      readWithEncodingDetection E (utf8 content) = .ok (withoutMarks content, .utf8) ∧
      (AnchorsHold crc32 content (withoutMarks content) request.offset request.limit ↔
        windowLines content request.offset request.limit = [] ∨
          WindowAligned content request.offset request.limit ∧
            (content.head? = some '\uFEFF' → request.offset.getD 1 = 1 →
              MarkResolves crc32 content)) := by
  refine ⟨?_, read_utf8 hE content, anchorsHold_iff hsize _ _⟩
  simp only [executeRead, hread, hformat, bind, Except.bind, throw, throwThe, MonadExceptOf.throw,
    pure, Except.pure] at h
  split_ifs at h
  all_goals simp_all

end

def crcStep (crc : UInt32) : UInt32 :=
  if crc &&& 1 = 1 then (crc >>> 1) ^^^ 0xEDB88320 else crc >>> 1

def crc32Reflected (bytes : List UInt8) : UInt32 :=
  bytes.foldl (fun crc b => crcStep^[8] (crc ^^^ b.toUInt32)) 0xFFFFFFFF ^^^ 0xFFFFFFFF

def twoLines : List Char := ['a', '\n', 'b']

def md5OfTwoLines (_ : List UInt8) : List UInt8 :=
  [140, 222, 180, 68, 23, 243, 194, 104, 38, 89, 93, 88, 32, 207, 87, 0]

def quoted (s : String) : String := "\"" ++ s ++ "\""

theorem read_anchors_hold_second_line :
    "#hash:8cdeb44417f3c26826595d5820cf5700\n2:f9|b".toList =
        hashLinePrefix ++ wholeFileHash md5OfTwoLines twoLines ++ '\n' ::
          tag crc32Reflected (windowLines twoLines (some 2) none) 2 ∧
      readWithEncodingDetection unicodeOnly (utf8 twoLines) =
        .ok (withoutMarks twoLines, .utf8) ∧
      (AnchorsHold crc32Reflected twoLines (withoutMarks twoLines) (some 2) none ↔
        windowLines twoLines (some 2) none = [] ∨
          WindowAligned twoLines (some 2) none ∧
            (twoLines.head? = some '\uFEFF' → (some 2).getD 1 = 1 →
              MarkResolves crc32Reflected twoLines)) :=
  @read_anchors_hold_iff quoted crc32Reflected md5OfTwoLines (fun _ => .ok twoLines)
    ⟨"notes.txt", some 2, none, none⟩ unicodeOnly twoLines _ unicodeOnly_contract rfl
    (by decide +kernel) rfl (by decide +kernel)

theorem resolveAnchor_wrong_line :
    tag crc32Reflected (windowLines "x\rx\nx".toList (some 2) none) 2 = "2:83|x".toList ∧
      originOf (windowSlices "x\rx\nx".toList (some 2) none) 0 = 4 ∧
      resolveAnchor crc32Reflected "x\rx\nx".toList "2:83|x".toList = some (2, 3) ∧
      ¬ AnchorsHold crc32Reflected "x\rx\nx".toList (withoutMarks "x\rx\nx".toList)
        (some 2) none := by
  have horigin : originOf (windowSlices "x\rx\nx".toList (some 2) none) 0 = 4 := by decide
  refine ⟨by decide +kernel, horigin, by decide +kernel, fun h => ?_⟩
  have hline := (h 0 (0, ['x']) (by decide +kernel)).1.2
  rw [horigin] at hline
  exact absurd hline (by decide +kernel)

end SwissArmyHammer.Edit
