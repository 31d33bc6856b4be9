import SwissArmyHammer.Common.Frontmatter

/-! The merge driver's own split of a document, and when it sees the same document as the
entity readers. -/

namespace SwissArmyHammer.Merge

open Text

structure FrontmatterParts where
  frontmatter : Option (List Char)
  body : List Char
  deriving DecidableEq, Repr

def splitFrontmatter (content : List Char) : FrontmatterParts :=
  let ls := lines content
  if ls.head? = some fence then
    match ls.tail.findIdx? (· == fence) with
    | some closeIdx =>
      let closeAbs := closeIdx + 1
      let frontmatter := joinLines ((ls.take closeAbs).drop 1)
      let bodyLines := ls.drop (closeAbs + 1)
      let body :=
        if bodyLines = [] then []
        else joinLines bodyLines ++ if content.getLast? = some '\n' then ['\n'] else []
      { frontmatter := some frontmatter, body }
    | none => { frontmatter := none, body := content }
  else { frontmatter := none, body := content }

/-- Both splitters find frontmatter in `content`, or neither does; if they do, the body is
the same text and the frontmatter has the same lines. -/
def SameDocument (content : List Char) : Prop :=
  ((splitFrontmatter content).frontmatter.isSome ↔ (splitFrontmatterBody content).isSome) ∧
    ∀ fm body, splitFrontmatterBody content = some (fm, body) →
      (splitFrontmatter content).body = body ∧
        ∃ fm', (splitFrontmatter content).frontmatter = some fm' ∧ lines fm' = lines fm

/-- The closing delimiter is not an unterminated `---\r`, no line of the body ends in
`\r\n`, the frontmatter does not end in an empty line, and no line of it but the last keeps
a `\r` when its terminator is gone. -/
structure Plain (d : Document) : Prop where
  closing : d.closing ≠ fence ++ ['\r']
  body : ∀ raw ∈ d.body, ¬ ['\r', '\n'] <:+ raw
  last : (d.frontmatter.map stripEol).getLast? ≠ some []
  inner : ∀ l ∈ (d.frontmatter.map stripEol).dropLast, l.getLast? ≠ some '\r'

section

variable {content : List Char} {d : Document}

theorem Document.lines_eq (h : d.Reads content) :
    lines content = stripEol d.opening ::
      (d.frontmatter.map stripEol ++ stripEol d.closing :: d.body.map stripEol) := by
  rw [lines, h, Document.raws]
  simp

theorem findIdx_closing (fm : List (List Char)) (rest : List (List Char)) {closing : List Char}
    (hfm : ∀ raw ∈ fm, isDelimiterLine raw = false) (hclosing : stripEol closing = fence) :
    (fm.map stripEol ++ stripEol closing :: rest).findIdx? (· == fence) = some fm.length := by
  induction fm with
  | nil => simp [List.findIdx?_cons, hclosing]
  | cons raw fm ih =>
    have hraw := stripEol_beq_fence_of_not_delimiter (hfm raw (by simp))
    have hrest := ih fun raw' hraw' => hfm raw' (by simp [hraw'])
    simp [List.findIdx?_cons, hraw, hrest]

theorem Document.stripEol_opening (h : d.Reads content) : stripEol d.opening = fence := by
  have hterm := @terminated_of_splitInclusive content d.closing (d.opening :: d.frontmatter)
    d.body h
  obtain ⟨l, -, hl⟩ := hterm d.opening (by simp)
  refine stripEol_eq_fence.mpr ⟨d.opening_delimits, fun hcr => ?_⟩
  have := congrArg List.getLast? (hl.symm.trans hcr)
  simp at this

theorem Document.getLast (h : d.Reads content) (hbody : d.body ≠ []) :
    content.getLast? = d.body.flatten.getLast? := by
  have hcontent := flatten_splitInclusive content
  rw [h] at hcontent
  have hraws : d.raws.flatten =
      (d.opening ++ d.frontmatter.flatten ++ d.closing) ++ d.body.flatten := by
    simp [Document.raws]
  have hne : d.body.flatten ≠ [] := by
    have hsplit := @splitInclusive_flatten content (d.opening :: (d.frontmatter ++ [d.closing]))
      d.body (by rw [h, Document.raws]; simp)
    intro hnil
    rw [hnil, splitInclusive_nil] at hsplit
    exact hbody hsplit.2.symm
  rw [← hcontent, hraws, List.getLast?_append_of_ne_nil _ hne]

theorem Document.find_closing (h : d.Reads content) :
    (splitInclusive content).tail.find? isDelimiterLine = some d.closing := by
  rw [h, Document.raws, List.find?_eq_some_iff_append]
  exact ⟨d.closing_delimits, d.frontmatter, d.body, rfl, by simpa using d.closing_first⟩

theorem splitFrontmatter_of_reads (h : d.Reads content) (hclosing : d.closing ≠ fence ++ ['\r']) :
    splitFrontmatter content =
      { frontmatter := some (joinLines (d.frontmatter.map stripEol))
        body := (d.body.map dropCr).flatten } := by
  have hls := Document.lines_eq h
  have hopening := Document.stripEol_opening h
  have hfence : stripEol d.closing = fence := stripEol_eq_fence.mpr ⟨d.closing_delimits, hclosing⟩
  have hidx := findIdx_closing d.frontmatter (d.body.map stripEol) d.closing_first hfence
  have hdrop : (lines content).drop (d.frontmatter.length + 1 + 1) = d.body.map stripEol := by
    rw [hls, List.drop_succ_cons, ← List.length_map stripEol, List.drop_append]
    simp
  have htake : ((lines content).take (d.frontmatter.length + 1)).drop 1 =
      d.frontmatter.map stripEol := by
    rw [hls, List.take_succ_cons, List.drop_succ_cons, List.drop_zero,
      ← List.length_map stripEol, List.take_left]
  have hhead : (lines content).head? = some fence := by rw [hls, List.head?_cons, hopening]
  have htail : (lines content).tail.findIdx? (· == fence) = some d.frontmatter.length := by
    rw [hls, List.tail_cons, hidx]
  have hbody : (if d.body.map stripEol = [] then []
      else joinLines (d.body.map stripEol) ++ if content.getLast? = some '\n' then ['\n'] else []) =
      (d.body.map dropCr).flatten := by
    by_cases hnil : d.body = []
    · simp [hnil]
    · have hsplit := @splitInclusive_flatten content (d.opening :: (d.frontmatter ++ [d.closing]))
        d.body (by rw [h, Document.raws]; simp)
      have hjoin := joinLines_lines d.body.flatten
      rw [lines, hsplit.2] at hjoin
      rw [if_neg (by simpa using hnil), Document.getLast h hnil, hjoin]
  unfold splitFrontmatter
  simp only [hhead, if_true, htail, htake, hdrop, hbody]

theorem splitFrontmatter_eq_none
    (h : ∀ d : Document, d.Reads content → d.closing = fence ++ ['\r']) :
    splitFrontmatter content = { frontmatter := none, body := content } := by
  unfold splitFrontmatter
  by_cases hhead : (lines content).head? = some fence
  · have hnone : (lines content).tail.findIdx? (· == fence) = none := by
      rw [List.findIdx?_eq_none_iff]
      cases hraws : splitInclusive content with
      | nil => simp [lines, hraws]
      | cons opening raws =>
        rw [lines, hraws, List.map_cons, List.head?_cons, Option.some.injEq,
          stripEol_eq_fence] at hhead
        rw [lines, hraws, List.map_cons]
        intro l hl
        obtain ⟨raw, hraw, rfl⟩ := List.mem_map.mp hl
        rw [beq_eq_false_iff_ne]
        intro hfence
        rw [stripEol_eq_fence] at hfence
        -- the first delimiter line is an unterminated one, so nothing follows it
        obtain ⟨closing, hfind⟩ : ∃ closing, raws.find? isDelimiterLine = some closing := by
          rw [← Option.isSome_iff_exists, List.find?_isSome]
          exact ⟨raw, hraw, hfence.1⟩
        obtain ⟨hclosing, fm, body, rfl, hfm⟩ := List.find?_eq_some_iff_append.mp hfind
        have hcr := h ⟨opening, fm, closing, body, hhead.1, hclosing, by simpa using hfm⟩ hraws
        subst hcr
        cases body with
        | nil =>
          grind
        | cons raw' body =>
          have hterm := @terminated_of_splitInclusive content raw'
            (opening :: (fm ++ [fence ++ ['\r']])) body (by rw [hraws]; simp)
          obtain ⟨l, -, hl⟩ := hterm (fence ++ ['\r']) (by simp)
          have := congrArg List.getLast? hl
          simp at this
    simp only [hhead, if_true, hnone]
  · rw [if_neg hhead]

theorem Document.not_mem_frontmatter (h : d.Reads content) :
    ∀ l ∈ d.frontmatter.map stripEol, '\n' ∉ l := by
  intro l hl
  obtain ⟨raw, hraw, rfl⟩ := List.mem_map.mp hl
  have hmem : raw ∈ splitInclusive content := by
    rw [h, Document.raws]
    simp [hraw]
  exact not_mem_stripEol hmem

theorem lines_frontmatter (h : d.Reads content) :
    lines d.frontmatter.flatten = d.frontmatter.map stripEol := by
  have hsplit :=
    @splitInclusive_flatten content (d.opening :: d.frontmatter) (d.closing :: d.body) h
  have htail := splitInclusive_tail hsplit.1
  rw [lines, htail]

end

/-- The two splitters see the same document exactly when it is plain. -/
theorem sameDocument_iff (content : List Char) :
    SameDocument content ↔ ∀ d : Document, d.Reads content → Plain d := by
  constructor
  · rintro ⟨hfound, hparts⟩ d hd
    have hread := splitFrontmatterBody_of_reads hd
    have hclosing : d.closing ≠ fence ++ ['\r'] := by
      intro hcr
      have hall : ∀ d' : Document, d'.Reads content → d'.closing = fence ++ ['\r'] := by
        intro d' hd'
        have hfind := (Document.find_closing hd').symm.trans (Document.find_closing hd)
        rw [Option.some.inj hfind, hcr]
      rw [splitFrontmatter_eq_none hall, hread] at hfound
      simp at hfound
    obtain ⟨hbody, fm', hfm', hlines⟩ := hparts _ _ hread
    rw [splitFrontmatter_of_reads hd hclosing] at hbody hfm'
    rw [flatten_map_eq_iff dropCr_eq_or_shorter] at hbody
    rw [← Option.some.inj hfm', lines_frontmatter hd,
      lines_joinLines (Document.not_mem_frontmatter hd)] at hlines
    exact ⟨hclosing, fun raw hraw => dropCr_eq.mp (hbody raw hraw), hlines.1, hlines.2⟩
  · intro h
    by_cases hex : ∃ d : Document, d.Reads content
    · obtain ⟨d, hd⟩ := hex
      have hplain := h d hd
      have hread := splitFrontmatterBody_of_reads hd
      have hbody := (flatten_map_eq_iff dropCr_eq_or_shorter).mpr
        fun raw hraw => dropCr_eq.mpr (hplain.body raw hraw)
      have hlines := (lines_joinLines (Document.not_mem_frontmatter hd)).mpr
        ⟨hplain.last, hplain.inner⟩
      rw [SameDocument, hread, splitFrontmatter_of_reads hd hplain.closing]
      refine ⟨by simp, ?_⟩
      rintro fm body heq
      obtain ⟨rfl, rfl⟩ := Prod.mk.inj (Option.some.inj heq)
      exact ⟨hbody, _, rfl, by rw [hlines, lines_frontmatter hd]⟩
    · have hnone : ∀ d : Document, ¬ d.Reads content := fun d hd => hex ⟨d, hd⟩
      rw [SameDocument, splitFrontmatterBody_eq_none hnone,
        splitFrontmatter_eq_none fun d hd => absurd hd (hnone d)]
      simp

theorem not_sameDocument_crlf :
    ¬ SameDocument "---\na: 1\n---\nline\r\n".toList := by
  intro h
  obtain ⟨hbody, -⟩ := h.2 "a: 1\n".toList "line\r\n".toList (by decide)
  exact absurd hbody (by decide)

end SwissArmyHammer.Merge
