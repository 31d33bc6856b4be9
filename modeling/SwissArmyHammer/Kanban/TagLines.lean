import SwissArmyHammer.Kanban.TagPieces

/-! A text rewritten line by line: which lines the result has, and when they bear tags. -/

namespace SwissArmyHammer.Kanban

open Text

section

variable {raws : List (List Char)} {raw : List Char}

def LineList : List (List Char) → Prop
  | [] => True
  | [raw] => Terminated raw ∨ '\n' ∉ raw
  | raw :: raws => Terminated raw ∧ LineList raws

theorem lineList_splitInclusive (text : List Char) : LineList (splitInclusive text) := by
  obtain ⟨raws, tail, hraws, htail, hs⟩ := exists_lines text
  rw [hs]
  clear hs
  induction raws with
  | nil =>
    split
    · exact trivial
    · exact .inr htail
  | cons raw raws ih =>
    have hraw := hraws raw (by simp)
    have hrest := ih fun r hr => hraws r (by simp [hr])
    rw [List.cons_append]
    cases hr : raws ++ (if tail = [] then [] else [tail]) with
    | nil => exact .inl hraw
    | cons r rs => exact ⟨hraw, hr ▸ hrest⟩

theorem splitInclusive_flatten_lineList (h : LineList raws) :
    splitInclusive raws.flatten = raws.filter (· ≠ []) := by
  induction raws with
  | nil => rfl
  | cons raw raws ih =>
    cases raws with
    | nil =>
      rcases h with ⟨l, hl, rfl⟩ | h
      · simpa using splitInclusive_line hl []
      · by_cases hraw : raw = []
        · simp [hraw]
        · simp [hraw, splitInclusive_of_not_mem h hraw]
    | cons r rs =>
      obtain ⟨⟨l, hl, rfl⟩, hrest⟩ := h
      rw [List.flatten_cons, List.append_assoc, List.singleton_append, splitInclusive_line hl,
        ih hrest]
      simp [List.filter_cons]

end

section

variable {raw content : List Char}

theorem splitLineTerminator_append (raw : List Char) :
    (splitLineTerminator raw).1 ++ (splitLineTerminator raw).2 = raw := by
  unfold splitLineTerminator
  split
  · rename_i content hc
    rw [stripSuffix_eq_some] at hc
    split
    · rename_i content' hr
      rw [stripSuffix_eq_some] at hr
      simp [hc, hr]
    · simp [hc]
  · simp

theorem splitLineTerminator_newline (l : List Char) :
    (splitLineTerminator (l ++ ['\n'])).1 = (stripSuffix '\r' l).getD l := by
  rw [splitLineTerminator, stripSuffix_concat]
  cases h : stripSuffix '\r' l with
  | none => simp [h]
  | some content => simp [h]

theorem splitLineTerminator_crlf (l : List Char) :
    splitLineTerminator (l ++ ['\r'] ++ ['\n']) = (l, ['\r', '\n']) := by
  simp only [splitLineTerminator, stripSuffix_concat, if_true]

def Fits (content terminator : List Char) : Prop :=
  '\n' ∉ content ∧ (terminator = ['\n'] → content.getLast? ≠ some '\r')

theorem splitLineTerminator_of_fits (raw : List Char)
    (h : Fits content (splitLineTerminator raw).2) :
    splitLineTerminator (content ++ (splitLineTerminator raw).2) =
      (content, (splitLineTerminator raw).2) := by
  obtain ⟨hlf, hcr⟩ := h
  have hterm : (splitLineTerminator raw).2 = ['\r', '\n'] ∨ (splitLineTerminator raw).2 = ['\n'] ∨
      (splitLineTerminator raw).2 = [] := by
    unfold splitLineTerminator
    split
    · split <;> simp
    · simp
  rcases hterm with ht | ht | ht
  · have hcrlf := splitLineTerminator_crlf content
    rw [ht]
    simpa using hcrlf
  · rw [ht]
    have hnone : stripSuffix '\r' content = none := by
      simp [stripSuffix, hcr ht]
    simp [splitLineTerminator, hnone]
  · rw [ht]
    simp [splitLineTerminator, stripSuffix_of_not_mem hlf]

theorem fits_content (raw : List Char) (hraw : Terminated raw ∨ '\n' ∉ raw) :
    Fits (splitLineTerminator raw).1 (splitLineTerminator raw).2 := by
  rcases hraw with ⟨l, hl, rfl⟩ | hraw
  · cases hcr : stripSuffix '\r' l with
    | none =>
      have hsplit : splitLineTerminator (l ++ ['\n']) = (l, ['\n']) := by
        simp [splitLineTerminator, hcr]
      rw [hsplit]
      refine ⟨hl, fun _ hlast => ?_⟩
      simp [stripSuffix, hlast] at hcr
    | some l' =>
      have hl' : '\n' ∉ l' := by
        rw [stripSuffix_eq_some] at hcr
        exact fun hmem => hl (by simp [hcr, hmem])
      exact ⟨by simp [splitLineTerminator, hcr, hl'], by simp [splitLineTerminator, hcr]⟩
  · have hnone := stripSuffix_of_not_mem (c := '\n') hraw
    exact ⟨by simp [splitLineTerminator, hnone, hraw], by simp [splitLineTerminator, hnone]⟩

theorem terminator_ne_nil (h : Terminated raw) : (splitLineTerminator raw).2 ≠ [] := by
  obtain ⟨l, -, rfl⟩ := h
  unfold splitLineTerminator
  rw [stripSuffix_concat, if_pos rfl]
  simp only
  split <;> simp

end

section

def MarkdownLine.raw (line : MarkdownLine) : List Char := line.content ++ line.terminator

def rewriteLine (edit : List Char → List Char) (line : MarkdownLine) : MarkdownLine :=
  if line.tagBearing then
    ⟨edit line.content, line.terminator, !isHeadingLine (edit line.content)⟩
  else line

def rewriteText (edit : List Char → List Char) (text : List Char) : List Char :=
  (markdownLines text).flatMap fun line => (rewriteLine edit line).raw

def KeepsLine (edit : List Char → List Char) (line : MarkdownLine) : Prop :=
  line.tagBearing = true → Fits (edit line.content) line.terminator ∧
    isFenceLine (trimStart (edit line.content)) = false

variable {edit : List Char → List Char} {raws : List (List Char)} {raw : List Char}
  {line : MarkdownLine} {inFencedBlock : Bool} {text : List Char}

theorem rewriteLine_of_not_bearing (h : line.tagBearing = false) : rewriteLine edit line = line := by
  simp [rewriteLine, h]

theorem rewriteLine_of_bearing (h : line.tagBearing = true) : rewriteLine edit line =
    ⟨edit line.content, line.terminator, !isHeadingLine (edit line.content)⟩ := by
  simp [rewriteLine, h]

theorem markdownLinesFrom_cons_fence
    (h : isFenceLine (trimStart (splitLineTerminator raw).1) = true) :
    markdownLinesFrom inFencedBlock (raw :: raws) =
      ⟨(splitLineTerminator raw).1, (splitLineTerminator raw).2, false⟩ ::
        markdownLinesFrom (!inFencedBlock) raws := by
  simp [markdownLinesFrom, h]

theorem markdownLinesFrom_cons
    (h : isFenceLine (trimStart (splitLineTerminator raw).1) = false) :
    markdownLinesFrom inFencedBlock (raw :: raws) =
      ⟨(splitLineTerminator raw).1, (splitLineTerminator raw).2,
        !inFencedBlock && !isHeadingLine (splitLineTerminator raw).1⟩ ::
        markdownLinesFrom inFencedBlock raws := by
  simp [markdownLinesFrom, h]

theorem markdownLinesFrom_rewrite
    (h : ∀ line ∈ markdownLinesFrom inFencedBlock raws, KeepsLine edit line) :
    markdownLinesFrom inFencedBlock
        ((markdownLinesFrom inFencedBlock raws).map fun line => (rewriteLine edit line).raw) =
      (markdownLinesFrom inFencedBlock raws).map (rewriteLine edit) := by
  induction raws generalizing inFencedBlock with
  | nil => rfl
  | cons raw raws ih =>
    cases hfence : isFenceLine (trimStart (splitLineTerminator raw).1) with
    | true =>
      rw [markdownLinesFrom_cons_fence hfence] at h ⊢
      rw [List.map_cons, List.map_cons, rewriteLine_of_not_bearing rfl, MarkdownLine.raw,
        splitLineTerminator_append, markdownLinesFrom_cons_fence hfence,
        ih fun line hline => h line (by simp [hline])]
    | false =>
      rw [markdownLinesFrom_cons hfence] at h ⊢
      have hhead := h _ List.mem_cons_self
      have htail := ih fun line hline => h line (List.mem_cons_of_mem _ hline)
      rw [List.map_cons, List.map_cons]
      cases hbear : !inFencedBlock && !isHeadingLine (splitLineTerminator raw).1 with
      | false =>
        rw [rewriteLine_of_not_bearing rfl, MarkdownLine.raw, splitLineTerminator_append,
          markdownLinesFrom_cons hfence, hbear, htail]
      | true =>
        rw [hbear] at hhead
        obtain ⟨hfits, hnofence⟩ := hhead rfl
        obtain rfl : inFencedBlock = false := by
          simp only [Bool.and_eq_true, Bool.not_eq_eq_eq_not, Bool.not_true] at hbear
          exact hbear.1
        have hsplit := splitLineTerminator_of_fits raw hfits
        rw [rewriteLine_of_bearing rfl, MarkdownLine.raw,
          markdownLinesFrom_cons (by rw [hsplit]; exact hnofence), hsplit, htail]
        simp

theorem exists_markdownLinesFrom_cons (inFencedBlock : Bool) (raw : List Char)
    (raws : List (List Char)) : ∃ tagBearing inFencedBlock',
    markdownLinesFrom inFencedBlock (raw :: raws) =
      ⟨(splitLineTerminator raw).1, (splitLineTerminator raw).2, tagBearing⟩ ::
        markdownLinesFrom inFencedBlock' raws := by
  cases hfence : isFenceLine (trimStart (splitLineTerminator raw).1) with
  | true => exact ⟨_, _, markdownLinesFrom_cons_fence hfence⟩
  | false => exact ⟨_, _, markdownLinesFrom_cons hfence⟩

theorem mem_markdownLinesFrom (h : line ∈ markdownLinesFrom inFencedBlock raws) :
    ∃ raw ∈ raws, line.content = (splitLineTerminator raw).1 ∧
      line.terminator = (splitLineTerminator raw).2 ∧
      (line.tagBearing = true → isFenceLine (trimStart line.content) = false ∧
        isHeadingLine line.content = false) := by
  induction raws generalizing inFencedBlock with
  | nil => simp [markdownLinesFrom] at h
  | cons raw raws ih =>
    cases hfence : isFenceLine (trimStart (splitLineTerminator raw).1) with
    | true =>
      rw [markdownLinesFrom_cons_fence hfence, List.mem_cons] at h
      rcases h with rfl | h
      · exact ⟨raw, by simp, rfl, rfl, by simp⟩
      · obtain ⟨r, hr, hline⟩ := ih h
        exact ⟨r, by simp [hr], hline⟩
    | false =>
      rw [markdownLinesFrom_cons hfence, List.mem_cons] at h
      rcases h with rfl | h
      · grind
      · obtain ⟨r, hr, hline⟩ := ih h
        exact ⟨r, by simp [hr], hline⟩

theorem fits_line (h : line ∈ markdownLines text) : Fits line.content line.terminator := by
  obtain ⟨raw, hraw, hcontent, hterm, -⟩ := mem_markdownLinesFrom h
  rw [hcontent, hterm]
  exact fits_content raw (terminated_or_not_mem hraw)

theorem kind_line (h : line ∈ markdownLines text) (hbear : line.tagBearing = true) :
    isFenceLine (trimStart line.content) = false ∧ isHeadingLine line.content = false := by
  obtain ⟨raw, -, -, -, hkind⟩ := mem_markdownLinesFrom h
  exact hkind hbear

theorem map_raw (inFencedBlock : Bool) (raws : List (List Char)) :
    (markdownLinesFrom inFencedBlock raws).map MarkdownLine.raw = raws := by
  induction raws generalizing inFencedBlock with
  | nil => rfl
  | cons raw raws ih =>
    obtain ⟨tagBearing, inFencedBlock', heq⟩ := exists_markdownLinesFrom_cons inFencedBlock raw raws
    rw [heq, List.map_cons, ih, MarkdownLine.raw, splitLineTerminator_append]

theorem raw_ne_nil (h : line ∈ markdownLines text) : line.raw ≠ [] := by
  have hmem : line.raw ∈ splitInclusive text := by
    rw [← map_raw false (splitInclusive text)]
    exact List.mem_map_of_mem h
  exact ne_nil_of_mem_splitInclusive hmem

theorem terminated_raw {content : List Char} (hraw : Terminated raw) (hlf : '\n' ∉ content) :
    Terminated (content ++ (splitLineTerminator raw).2) := by
  obtain ⟨l, -, rfl⟩ := hraw
  unfold splitLineTerminator
  rw [stripSuffix_concat, if_pos rfl]
  simp only
  split
  · exact ⟨content ++ ['\r'], by simp [hlf], by simp⟩
  · exact ⟨content, hlf, rfl⟩

theorem not_mem_raw {content : List Char} (hraw : '\n' ∉ raw) (hlf : '\n' ∉ content) :
    '\n' ∉ content ++ (splitLineTerminator raw).2 := by
  simpa [splitLineTerminator, stripSuffix_of_not_mem hraw] using hlf

theorem lineList_rewrite (hraws : LineList raws)
    (h : ∀ line ∈ markdownLinesFrom inFencedBlock raws, KeepsLine edit line) :
    LineList ((markdownLinesFrom inFencedBlock raws).map fun line => (rewriteLine edit line).raw) := by
  induction raws generalizing inFencedBlock with
  | nil => exact trivial
  | cons raw raws ih =>
    obtain ⟨tagBearing, inFencedBlock', heq⟩ := exists_markdownLinesFrom_cons inFencedBlock raw raws
    rw [heq] at h ⊢
    have hhead := h _ List.mem_cons_self
    have htail := fun line hline => h line (List.mem_cons_of_mem _ hline)
    have hterm : Terminated raw → Terminated (rewriteLine edit
        ⟨(splitLineTerminator raw).1, (splitLineTerminator raw).2, tagBearing⟩).raw := by
      intro hraw
      cases tagBearing with
      | false =>
        rwa [rewriteLine_of_not_bearing rfl, MarkdownLine.raw, splitLineTerminator_append]
      | true => exact terminated_raw hraw (hhead rfl).1.1
    have hnot : '\n' ∉ raw → '\n' ∉ (rewriteLine edit
        ⟨(splitLineTerminator raw).1, (splitLineTerminator raw).2, tagBearing⟩).raw := by
      intro hraw
      cases tagBearing with
      | false =>
        rwa [rewriteLine_of_not_bearing rfl, MarkdownLine.raw, splitLineTerminator_append]
      | true => exact not_mem_raw hraw (hhead rfl).1.1
    cases raws with
    | nil => exact hraws.imp hterm hnot
    | cons r rs =>
      have hrest := ih hraws.2 htail
      obtain ⟨_, _, hr⟩ := exists_markdownLinesFrom_cons inFencedBlock' r rs
      rw [hr] at hrest ⊢
      exact ⟨hterm hraws.1, hrest⟩

theorem splitInclusive_rewriteText (h : ∀ line ∈ markdownLines text, KeepsLine edit line) :
    splitInclusive (rewriteText edit text) =
      ((markdownLines text).map fun line => (rewriteLine edit line).raw).filter (· ≠ []) := by
  have hlines := lineList_rewrite (lineList_splitInclusive text) h
  exact splitInclusive_flatten_lineList hlines

theorem tags_filter_ne_nil (inFencedBlock : Bool) (raws : List (List Char)) :
    (markdownLinesFrom inFencedBlock (raws.filter (· ≠ []))).flatMap MarkdownLine.tags =
      (markdownLinesFrom inFencedBlock raws).flatMap MarkdownLine.tags := by
  induction raws generalizing inFencedBlock with
  | nil => rfl
  | cons raw raws ih =>
    by_cases hraw : raw = []
    · subst hraw
      rw [List.filter_cons_of_neg (by simp), ih]
      have hempty : splitLineTerminator [] = ([], []) := rfl
      rw [markdownLinesFrom_cons (by rw [hempty]; rfl), hempty]
      simp [MarkdownLine.tags, collectLineTags]
    · rw [List.filter_cons_of_pos (by simpa using hraw)]
      cases hfence : isFenceLine (trimStart (splitLineTerminator raw).1) with
      | true =>
        rw [markdownLinesFrom_cons_fence hfence, markdownLinesFrom_cons_fence hfence,
          List.flatMap_cons, List.flatMap_cons, ih]
      | false =>
        rw [markdownLinesFrom_cons hfence, markdownLinesFrom_cons hfence, List.flatMap_cons,
          List.flatMap_cons, ih]

theorem tags_rewriteText (h : ∀ line ∈ markdownLines text, KeepsLine edit line) :
    (markdownLines (rewriteText edit text)).flatMap MarkdownLine.tags =
      (markdownLines text).flatMap fun line => (rewriteLine edit line).tags := by
  rw [markdownLines, splitInclusive_rewriteText h, tags_filter_ne_nil]
  rw [markdownLines] at h ⊢
  rw [markdownLinesFrom_rewrite h, List.flatMap_map]

theorem mem_parseTags {slug : Slug} :
    slug ∈ parseTags text ↔ ∃ line ∈ markdownLines text, slug ∈ line.tags := by
  simp [parseTags, Finset.mem_sort]

theorem editTagLine_absent {slug : Slug} {replacement : Option (List Char)} (result : List Char)
    (h : slug ∉ line.tags) : editTagLine slug replacement result line = result ++ line.raw := by
  rw [tags_eq] at h
  cases hbear : line.tagBearing with
  | false => simp [editTagLine, hbear, MarkdownLine.raw]
  | true =>
    rw [hbear] at h
    simp [editTagLine, hbear, MarkdownLine.raw, editLineMarkers_absent h]

theorem editTagMarkers_absent {slug : Slug} (replacement : Option (List Char))
    (h : slug ∉ parseTags text) : editTagMarkers text slug replacement = text := by
  have hfold : ∀ (lines : List MarkdownLine) (result : List Char),
      (∀ line ∈ lines, slug ∉ line.tags) →
        lines.foldl (editTagLine slug replacement) result =
          result ++ (lines.map MarkdownLine.raw).flatten := by
    intro lines
    induction lines with
    | nil => simp
    | cons line lines ih =>
      intro result hlines
      rw [List.foldl_cons, editTagLine_absent result (hlines line (by simp)),
        ih _ fun l hl => hlines l (by simp [hl])]
      simp
  have hlines : ∀ line ∈ markdownLines text, slug ∉ line.tags :=
    fun line hline hmem => h (mem_parseTags.mpr ⟨line, hline, hmem⟩)
  rw [editTagMarkers, hfold _ _ hlines, markdownLines, map_raw, flatten_splitInclusive,
    List.nil_append]

end

end SwissArmyHammer.Kanban
