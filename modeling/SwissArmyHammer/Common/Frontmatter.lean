import SwissArmyHammer.Text.Lines

/-! The split of a document into frontmatter and body that the entity readers use. -/

namespace SwissArmyHammer

open Text

def fence : List Char := ['-', '-', '-']

def lineContent (raw : List Char) : List Char :=
  let withoutLf := (stripSuffix '\n' raw).getD raw
  (stripSuffix '\r' withoutLf).getD withoutLf

def isDelimiterLine (raw : List Char) : Bool := lineContent raw == fence

/-- The loop of `split_frontmatter_body` over the lines after the opening delimiter. -/
def splitFrontmatterBody.scan (afterOpening : List Char) (offset : Nat) :
    List (List Char) → Option (List Char × List Char)
  | [] => none
  | raw :: raws =>
    if isDelimiterLine raw then
      some (afterOpening.take offset, afterOpening.drop (offset + raw.length))
    else splitFrontmatterBody.scan afterOpening (offset + raw.length) raws

def splitFrontmatterBody (content : List Char) : Option (List Char × List Char) :=
  match (splitInclusive content).head? with
  | none => none
  | some opening =>
    if isDelimiterLine opening then
      let afterOpening := content.drop opening.length
      splitFrontmatterBody.scan afterOpening 0 (splitInclusive afterOpening)
    else none

section

variable {raw : List Char}

theorem isDelimiterLine_iff :
    isDelimiterLine raw = true ↔ stripEol raw = fence ∨ raw = fence ++ ['\r'] := by
  rw [isDelimiterLine, lineContent, stripEol]
  cases hlf : stripSuffix '\n' raw with
  | none =>
    cases hcr : stripSuffix '\r' raw with
    | none =>
      have hne : raw ≠ fence ++ ['\r'] := stripSuffix_eq_none.mp hcr fence
      simp [hcr, hne]
    | some l =>
      rw [stripSuffix_eq_some] at hcr
      subst hcr
      have hne : l ++ ['\r'] ≠ fence := by
        intro h
        have := congrArg List.getLast? h
        simp [fence] at this
      simp [hne]
  | some l =>
    have hne : raw ≠ fence ++ ['\r'] := by
      rintro rfl
      simp at hlf
    simp [hne]

theorem stripEol_eq_fence :
    stripEol raw = fence ↔ isDelimiterLine raw = true ∧ raw ≠ fence ++ ['\r'] := by
  rw [isDelimiterLine_iff]
  constructor
  · intro h
    refine ⟨.inl h, ?_⟩
    rintro rfl
    exact absurd h (by decide)
  · rintro ⟨h | h, hne⟩
    · exact h
    · exact absurd h hne

theorem stripEol_beq_fence_of_not_delimiter (h : isDelimiterLine raw = false) :
    (stripEol raw == fence) = false := by
  rw [beq_eq_false_iff_ne, ne_eq, stripEol_eq_fence]
  simp [h]

end

/-- A document with frontmatter in its raw lines: `closing` is the first delimiter line
after the opening one. -/
structure Document where
  opening : List Char
  frontmatter : List (List Char)
  closing : List Char
  body : List (List Char)
  opening_delimits : isDelimiterLine opening = true
  closing_delimits : isDelimiterLine closing = true
  closing_first : ∀ raw ∈ frontmatter, isDelimiterLine raw = false

namespace Document

def raws (d : Document) : List (List Char) := d.opening :: (d.frontmatter ++ d.closing :: d.body)

def Reads (d : Document) (content : List Char) : Prop := splitInclusive content = d.raws

end Document

section

variable {before : List Char} {raws fm body : List (List Char)} {closing : List Char}

theorem scan_of_forall (afterOpening : List Char) (offset : Nat)
    (h : ∀ raw ∈ raws, isDelimiterLine raw = false) :
    splitFrontmatterBody.scan afterOpening offset raws = none := by
  induction raws generalizing offset with
  | nil => rfl
  | cons raw raws ih =>
    rw [splitFrontmatterBody.scan, h raw (by simp)]
    exact ih _ fun raw' hraw' => h raw' (by simp [hraw'])

theorem scan_append (before : List Char) (hclosing : isDelimiterLine closing = true)
    (hfm : ∀ raw ∈ fm, isDelimiterLine raw = false) :
    splitFrontmatterBody.scan (before ++ (fm ++ closing :: body).flatten) before.length
      (fm ++ closing :: body) = some (before ++ fm.flatten, body.flatten) := by
  induction fm generalizing before with
  | nil =>
    rw [List.nil_append, splitFrontmatterBody.scan, if_pos hclosing]
    simp
  | cons raw fm ih =>
    have hrest := ih (before ++ raw) fun raw' hraw' => hfm raw' (by simp [hraw'])
    rw [List.cons_append, splitFrontmatterBody.scan, hfm raw (by simp)]
    simpa using hrest

end

section

variable {content : List Char} {d : Document}

theorem splitFrontmatterBody_of_reads (h : d.Reads content) :
    splitFrontmatterBody content = some (d.frontmatter.flatten, d.body.flatten) := by
  have hcontent := flatten_splitInclusive content
  have hrest := splitInclusive_tail h
  rw [h, Document.raws, List.flatten_cons] at hcontent
  have hafter : content.drop d.opening.length = (d.frontmatter ++ d.closing :: d.body).flatten := by
    rw [← hcontent, List.drop_left]
  rw [splitFrontmatterBody, h]
  simp only [Document.raws, List.head?_cons, if_pos d.opening_delimits]
  rw [hafter, hrest]
  exact scan_append [] d.closing_delimits d.closing_first

theorem splitFrontmatterBody_eq_none (h : ∀ d : Document, ¬ d.Reads content) :
    splitFrontmatterBody content = none := by
  rw [splitFrontmatterBody]
  cases hraws : splitInclusive content with
  | nil => rfl
  | cons opening raws =>
    simp only [List.head?_cons]
    by_cases hopening : isDelimiterLine opening = true
    · have hrest := splitInclusive_tail hraws
      have hcontent := flatten_splitInclusive content
      rw [hraws, List.flatten_cons] at hcontent
      rw [if_pos hopening, ← hcontent, List.drop_left, hrest]
      apply scan_of_forall
      -- a delimiter line among the rest would make a document
      by_contra hex
      obtain ⟨closing, hfind⟩ : ∃ closing, raws.find? isDelimiterLine = some closing := by
        rw [← Option.isSome_iff_exists]
        simpa using hex
      obtain ⟨hclosing, fm, body, rfl, hfm⟩ := List.find?_eq_some_iff_append.mp hfind
      exact h ⟨opening, fm, closing, body, hopening, hclosing, by simpa using hfm⟩ hraws
    · rw [if_neg hopening]

theorem splitFrontmatterBody_fence {fm : List Char} (hlast : fm.getLast? = some '\n')
    (hfence : fence ∉ lines fm) (body : List Char) :
    splitFrontmatterBody (fence ++ '\n' :: (fm ++ (fence ++ '\n' :: body))) = some (fm, body) := by
  have hline : '\n' ∉ fence := by decide
  have hfirst : ∀ raw ∈ splitInclusive fm, isDelimiterLine raw = false := by
    intro raw hraw
    rw [Bool.eq_false_iff, ne_eq, isDelimiterLine_iff]
    rintro (heq | heq)
    · exact hfence (heq ▸ List.mem_map_of_mem hraw)
    · obtain ⟨l, -, hl⟩ := terminated_of_getLast (.inr hlast) raw hraw
      have := congrArg List.getLast? (hl.symm.trans heq)
      simp at this
  let d : Document :=
    { opening := fence ++ ['\n']
      frontmatter := splitInclusive fm
      closing := fence ++ ['\n']
      body := splitInclusive body
      opening_delimits := by decide
      closing_delimits := by decide
      closing_first := hfirst }
  have hreads : d.Reads (fence ++ '\n' :: (fm ++ (fence ++ '\n' :: body))) := by
    rw [Document.Reads, splitInclusive_line hline, splitInclusive_append (.inr hlast),
      splitInclusive_line hline]
    rfl
  rw [splitFrontmatterBody_of_reads hreads]
  simp only [d, flatten_splitInclusive]

end
end SwissArmyHammer
