import Mathlib.Order.Basic
import SwissArmyHammer.Edit.Hashline

/-! The line model of anchors: lines end at `\n`, at `\r\n` and at a `\r` alone. -/

namespace SwissArmyHammer.Edit

open Text

section

variable {s t text rest : List Char} {line : Line} {c : Char}

def Plain (s : List Char) : Prop := ∀ c ∈ s, isTerminator c = false

theorem isTerminator_lf : isTerminator '\n' = true := by decide

theorem isTerminator_cr : isTerminator '\r' = true := by decide

theorem takeWhile_plain (h : Plain text) (rest : List Char)
    (hrest : rest.head?.all isTerminator = true) :
    (text ++ rest).takeWhile (fun c => !isTerminator c) = text := by
  rw [List.takeWhile_append_of_pos fun c hc => by simp [h c hc]]
  cases rest with
  | nil => simp
  | cons c rest =>
    have hc : isTerminator c = true := by simpa using hrest
    simp [hc]

theorem dropWhile_plain (h : Plain text) (rest : List Char)
    (hrest : rest.head?.all isTerminator = true) :
    (text ++ rest).dropWhile (fun c => !isTerminator c) = rest := by
  rw [List.dropWhile_append_of_pos fun c hc => by simp [h c hc]]
  cases rest with
  | nil => rfl
  | cons c rest =>
    have hc : isTerminator c = true := by simpa using hrest
    simp [hc]

@[simp] theorem splitLines_nil : splitLines [] = [] := by
  rw [splitLines]
  rfl

theorem splitLines_plain (h : Plain text) (hne : text ≠ []) : splitLines text = [⟨text, []⟩] := by
  have htake := takeWhile_plain h [] rfl
  have hdrop := dropWhile_plain h [] rfl
  rw [splitLines, if_neg hne]
  split <;> simp_all

theorem splitLines_lf (h : Plain text) (rest : List Char) :
    splitLines (text ++ '\n' :: rest) = ⟨text, ['\n']⟩ :: splitLines rest := by
  have htake := takeWhile_plain h ('\n' :: rest) isTerminator_lf
  have hdrop := dropWhile_plain h ('\n' :: rest) isTerminator_lf
  rw [splitLines, if_neg (by simp)]
  split <;> simp_all

theorem splitLines_crlf (h : Plain text) (rest : List Char) :
    splitLines (text ++ '\r' :: '\n' :: rest) = ⟨text, ['\r', '\n']⟩ :: splitLines rest := by
  have htake := takeWhile_plain h ('\r' :: '\n' :: rest) isTerminator_cr
  have hdrop := dropWhile_plain h ('\r' :: '\n' :: rest) isTerminator_cr
  rw [splitLines, if_neg (by simp)]
  split <;> simp_all

theorem splitLines_cr (h : Plain text) (hrest : rest.head? ≠ some '\n') :
    splitLines (text ++ '\r' :: rest) = ⟨text, ['\r']⟩ :: splitLines rest := by
  have htake := takeWhile_plain h ('\r' :: rest) isTerminator_cr
  have hdrop := dropWhile_plain h ('\r' :: rest) isTerminator_cr
  rw [splitLines, if_neg (by simp)]
  split <;> simp_all
  subst hdrop
  simp at hrest

inductive FirstLine : List Char → Prop
  | nil : FirstLine []
  | plain {text : List Char} (h : Plain text) (hne : text ≠ []) : FirstLine text
  | lf {text : List Char} (rest : List Char) (h : Plain text) : FirstLine (text ++ '\n' :: rest)
  | crlf {text : List Char} (rest : List Char) (h : Plain text) :
      FirstLine (text ++ '\r' :: '\n' :: rest)
  | cr {text rest : List Char} (h : Plain text) (hrest : rest.head? ≠ some '\n') :
      FirstLine (text ++ '\r' :: rest)

theorem firstLine (s : List Char) : FirstLine s := by
  have hsplit := List.takeWhile_append_dropWhile (p := fun c => !isTerminator c) (l := s)
  have hplain : Plain (s.takeWhile fun c => !isTerminator c) := by
    intro c hc
    simpa using List.mem_takeWhile_imp hc
  cases hdrop : s.dropWhile fun c => !isTerminator c with
  | nil =>
    rw [hdrop, List.append_nil] at hsplit
    rw [hsplit] at hplain
    by_cases hs : s = []
    · rw [hs]
      exact .nil
    · exact .plain hplain hs
  | cons c rest =>
    have hc : isTerminator c = true := by
      have hhead := List.head_dropWhile_not (fun c => !isTerminator c) (l := s) (by simp [hdrop])
      simpa [hdrop] using hhead
    rw [← hsplit, hdrop]
    simp only [isTerminator, Bool.or_eq_true, decide_eq_true_eq] at hc
    rcases hc with rfl | rfl
    · exact .lf rest hplain
    · cases rest with
      | nil => exact .cr hplain (by simp)
      | cons d rest =>
        by_cases hd : d = '\n'
        · rw [hd]
          exact .crlf rest hplain
        · exact .cr hplain (by simpa using hd)

theorem line_induction {P : List Char → Prop} (hnil : P [])
    (hplain : ∀ text, Plain text → text ≠ [] → P text)
    (hlf : ∀ text rest, Plain text → P rest → P (text ++ '\n' :: rest))
    (hcrlf : ∀ text rest, Plain text → P rest → P (text ++ '\r' :: '\n' :: rest))
    (hcr : ∀ text rest, Plain text → rest.head? ≠ some '\n' → P rest → P (text ++ '\r' :: rest))
    (s : List Char) : P s := by
  induction hn : s.length using Nat.strongRecOn generalizing s with
  | ind n ih =>
    cases firstLine s with
    | nil => exact hnil
    | plain h hne => exact hplain s h hne
    | lf rest h =>
      grind
    | crlf rest h =>
      refine hcrlf _ rest h (ih rest.length ?_ rest rfl)
      simp only [List.length_append, List.length_cons] at hn
      omega
    | cr h hrest =>
      grind

theorem splitLines_newline (s t : List Char) :
    splitLines (s ++ '\n' :: t) = splitLines (s ++ ['\n']) ++ splitLines t := by
  induction s using line_induction with
  | hnil =>
    rw [List.nil_append, List.nil_append, ← List.nil_append ('\n' :: t), ← List.nil_append ['\n'],
      splitLines_lf (by simp [Plain]), splitLines_lf (by simp [Plain])]
    simp
  | hplain text h _ =>
    rw [splitLines_lf h, splitLines_lf h]
    simp
  | hlf text rest h ih =>
    rw [List.append_assoc, List.append_assoc, List.cons_append, List.cons_append, splitLines_lf h,
      splitLines_lf h, ih]
    rfl
  | hcrlf text rest h ih =>
    simp only [List.append_assoc, List.cons_append]
    rw [splitLines_crlf h, splitLines_crlf h, ih]
    rfl
  | hcr text rest h hrest ih =>
    cases rest with
    | nil =>
      simp only [List.append_assoc, List.cons_append, List.nil_append]
      rw [splitLines_crlf h, splitLines_crlf h]
      simp
    | cons c rest =>
      simp only [List.append_assoc, List.cons_append] at ih ⊢
      rw [splitLines_cr h (by simpa using hrest), splitLines_cr h (by simpa using hrest), ih]
      rfl

end

section

variable {s t l : List Char} {lines lines' : List Line} {span : Nat × List Char} {offset : Nat}

def Line.raw (line : Line) : List Char := line.text ++ line.terminator

def spansAt (offset : Nat) (s : List Char) : List (Nat × List Char) :=
  lineSpans offset (splitLines s)

@[simp] theorem spansAt_nil (offset : Nat) : spansAt offset [] = [] := by
  rw [spansAt, splitLines_nil]
  rfl

theorem flatMap_raw (s : List Char) : (splitLines s).flatMap Line.raw = s := by
  induction s using line_induction with
  | hnil => simp
  | hplain text h hne => simp [splitLines_plain h hne, Line.raw]
  | hlf text rest h ih => simp [splitLines_lf h, Line.raw, ih]
  | hcrlf text rest h ih => simp [splitLines_crlf h, Line.raw, ih]
  | hcr text rest h hrest ih => simp [splitLines_cr h hrest, Line.raw, ih]

theorem raw_ne_nil (s : List Char) : ∀ line ∈ splitLines s, line.raw ≠ [] := by
  induction s using line_induction with
  | hnil => simp
  | hplain text h hne => simp [splitLines_plain h hne, Line.raw, hne]
  | hlf text rest h ih =>
    rw [splitLines_lf h]
    intro line hline
    rcases List.mem_cons.mp hline with rfl | hline
    · simp [Line.raw]
    · exact ih line hline
  | hcrlf text rest h ih =>
    rw [splitLines_crlf h]
    intro line hline
    rcases List.mem_cons.mp hline with rfl | hline
    · simp [Line.raw]
    · exact ih line hline
  | hcr text rest h hrest ih =>
    rw [splitLines_cr h hrest]
    intro line hline
    rcases List.mem_cons.mp hline with rfl | hline
    · simp [Line.raw]
    · exact ih line hline

@[simp] theorem map_snd_lineSpans (offset : Nat) (lines : List Line) :
    (lineSpans offset lines).map Prod.snd = lines.map Line.text := by
  induction lines generalizing offset with
  | nil => rfl
  | cons line lines ih => simp [lineSpans, ih]

@[simp] theorem length_lineSpans (offset : Nat) (lines : List Line) :
    (lineSpans offset lines).length = lines.length := by
  rw [← List.length_map (f := Prod.snd), map_snd_lineSpans, List.length_map]

theorem lineSpans_append (offset : Nat) (lines lines' : List Line) :
    lineSpans offset (lines ++ lines') = lineSpans offset lines ++
      lineSpans (offset + (utf8 (lines.flatMap Line.raw)).length) lines' := by
  induction lines generalizing offset with
  | nil => rfl
  | cons line lines ih =>
    simp only [List.cons_append, lineSpans, ih, List.flatMap_cons, Line.raw, utf8_append,
      List.length_append, Nat.add_assoc]

theorem spansAt_newline (offset : Nat) (s t : List Char) : spansAt offset (s ++ '\n' :: t) =
    spansAt offset (s ++ ['\n']) ++ spansAt (offset + (utf8 s).length + 1) t := by
  have hlf : (utf8 ['\n']).length = 1 := rfl
  rw [spansAt, splitLines_newline, lineSpans_append, flatMap_raw, utf8_append, List.length_append,
    ← Nat.add_assoc]
  rfl

theorem lineSpans_shift (k offset : Nat) (lines : List Line) :
    lineSpans (k + offset) lines =
      (lineSpans offset lines).map fun span => (k + span.1, span.2) := by
  induction lines generalizing offset with
  | nil => rfl
  | cons line lines ih => simp only [lineSpans, List.map_cons, ← ih, Nat.add_assoc]

theorem spansAt_shift (k : Nat) (s : List Char) :
    spansAt k s = (spansAt 0 s).map fun span => (k + span.1, span.2) :=
  lineSpans_shift k 0 _

theorem mem_lineSpans (h : span ∈ lineSpans offset lines) (hraw : ∀ line ∈ lines, line.raw ≠ []) :
    offset ≤ span.1 ∧ span.1 < offset + (utf8 (lines.flatMap Line.raw)).length := by
  induction lines generalizing offset with
  | nil => simp [lineSpans] at h
  | cons line lines ih =>
    have hpos := utf8_length_pos (hraw line (by simp))
    simp only [List.flatMap_cons, Line.raw, utf8_append, List.length_append] at hpos ⊢
    rcases List.mem_cons.mp h with rfl | h
    · omega
    · have hbounds := ih h fun line hline => hraw line (by simp [hline])
      omega

theorem mem_spansAt (h : span ∈ spansAt offset s) :
    offset ≤ span.1 ∧ span.1 < offset + (utf8 s).length := by
  have hbounds := mem_lineSpans h (raw_ne_nil s)
  rwa [flatMap_raw] at hbounds

theorem pairwise_lineSpans (hraw : ∀ line ∈ lines, line.raw ≠ []) (offset : Nat) :
    (lineSpans offset lines).Pairwise fun a b => a.1 < b.1 := by
  induction lines generalizing offset with
  | nil => exact .nil
  | cons line lines ih =>
    have hpos := utf8_length_pos (hraw line (by simp))
    have htail : ∀ line ∈ lines, line.raw ≠ [] := fun line hline => hraw line (by simp [hline])
    simp only [Line.raw, utf8_append, List.length_append] at hpos
    refine List.pairwise_cons.mpr ⟨fun span hspan => ?_, ih htail _⟩
    have hbounds := mem_lineSpans hspan htail
    omega

theorem pairwise_spansAt (offset : Nat) (s : List Char) :
    (spansAt offset s).Pairwise fun a b => a.1 < b.1 :=
  pairwise_lineSpans (raw_ne_nil s) offset

theorem index_of_start {i j : Nat} {a b : Nat × List Char} (hi : (spansAt offset s)[i]? = some a)
    (hj : (spansAt offset s)[j]? = some b) (h : a.1 = b.1) : i = j := by
  have hpair := pairwise_spansAt offset s
  rw [List.pairwise_iff_getElem] at hpair
  obtain ⟨hi', rfl⟩ := List.getElem?_eq_some_iff.mp hi
  obtain ⟨hj', rfl⟩ := List.getElem?_eq_some_iff.mp hj
  rcases Nat.lt_trichotomy i j with hlt | rfl | hlt
  · have := hpair i j hi' hj' hlt
    omega
  · rfl
  · have := hpair j i hj' hi' hlt
    omega

theorem spansAt_lf {text : List Char} (h : Plain text) (offset : Nat) (rest : List Char) :
    spansAt offset (text ++ '\n' :: rest) =
      (offset, text) :: spansAt (offset + (utf8 text).length + 1) rest := by
  rw [spansAt, splitLines_lf h]
  rfl

theorem spansAt_crlf {text : List Char} (h : Plain text) (offset : Nat) (rest : List Char) :
    spansAt offset (text ++ '\r' :: '\n' :: rest) =
      (offset, text) :: spansAt (offset + (utf8 text).length + 2) rest := by
  rw [spansAt, splitLines_crlf h]
  rfl

theorem spansAt_cr {text rest : List Char} (h : Plain text) (hrest : rest.head? ≠ some '\n')
    (offset : Nat) : spansAt offset (text ++ '\r' :: rest) =
      (offset, text) :: spansAt (offset + (utf8 text).length + 1) rest := by
  rw [spansAt, splitLines_cr h hrest]
  rfl

theorem spansAt_append_crlf (h : '\n' ∉ l) (offset : Nat) : spansAt offset (l ++ ['\r', '\n']) =
    spansAt offset (l ++ ['\n']) ++
      if l.getLast? = some '\r' then [(offset + (utf8 l).length, [])] else [] := by
  induction l using line_induction generalizing offset with
  | hnil =>
    have hplain : Plain [] := by simp [Plain]
    have hcrlf := splitLines_crlf hplain []
    have hlf := splitLines_lf hplain []
    simp only [List.nil_append] at hcrlf hlf
    simp [spansAt, hcrlf, hlf, lineSpans]
  | hplain text hplain hne =>
    have hlast : text.getLast? ≠ some '\r' := by
      intro hlast
      exact absurd (hplain '\r' (List.mem_of_getLast? hlast)) (by decide)
    rw [if_neg hlast, spansAt, spansAt, splitLines_crlf hplain, splitLines_lf hplain]
    simp [lineSpans]
  | hlf text rest hplain ih => simp at h
  | hcrlf text rest hplain ih => simp at h
  | hcr text rest hplain hrest ih =>
    have hnot : '\n' ∉ rest := by
      intro hmem
      exact h (by simp [hmem])
    have hcr : (utf8 ['\r']).length = 1 := rfl
    cases rest with
    | nil =>
      have hplain' : Plain [] := by simp [Plain]
      have hempty := splitLines_crlf hplain' []
      simp only [List.append_assoc, List.cons_append, List.nil_append] at hempty ⊢
      rw [spansAt, spansAt, splitLines_cr hplain (by simp), splitLines_crlf hplain, hempty]
      simp [lineSpans, hcr, Nat.add_assoc]
    | cons c rest =>
      have hassoc : ∀ tail, text ++ '\r' :: c :: rest ++ tail =
          text ++ '\r' :: (c :: rest ++ tail) := by simp
      have hhead : ∀ tail, (c :: rest ++ tail).head? ≠ some '\n' := by simpa using hrest
      have hlast : (text ++ '\r' :: c :: rest).getLast? = (c :: rest).getLast? := by
        rw [List.getLast?_append_cons, List.getLast?_cons_cons]
      have hlen : (utf8 (text ++ '\r' :: c :: rest)).length =
          (utf8 text).length + 1 + (utf8 (c :: rest)).length := by
        rw [List.append_cons, utf8_append, utf8_append, List.length_append, List.length_append, hcr]
      rw [hassoc, hassoc, spansAt_cr hplain (hhead _), spansAt_cr hplain (hhead _), ih hnot, hlen]
      simp [Nat.add_assoc]

theorem spansAt_dropNewline (l : List Char) (offset : Nat) :
    spansAt offset l <+: spansAt offset (l ++ ['\n']) := by
  induction l using line_induction generalizing offset with
  | hnil =>
    rw [spansAt_nil]
    exact List.nil_prefix
  | hplain text hplain hne =>
    rw [spansAt, spansAt, splitLines_plain hplain hne, splitLines_lf hplain]
    exact List.prefix_append _ _
  | hlf text rest hplain ih =>
    rw [List.append_assoc, List.cons_append, spansAt_lf hplain, spansAt_lf hplain]
    exact (List.prefix_cons_inj _).mpr (ih _)
  | hcrlf text rest hplain ih =>
    rw [List.append_assoc, List.cons_append, List.cons_append, spansAt_crlf hplain,
      spansAt_crlf hplain]
    exact (List.prefix_cons_inj _).mpr (ih _)
  | hcr text rest hplain hrest ih =>
    rw [List.append_assoc, List.cons_append]
    cases rest with
    | nil =>
      rw [List.nil_append, spansAt_cr hplain (by simp), spansAt_crlf hplain]
      exact (List.prefix_cons_inj _).mpr (spansAt_nil _ ▸ List.nil_prefix)
    | cons c rest =>
      rw [spansAt_cr hplain hrest, spansAt_cr hplain (by simpa using hrest)]
      exact (List.prefix_cons_inj _).mpr (ih _)

theorem length_spansAt (offset : Nat) (s : List Char) :
    (spansAt offset s).length = (splitLines s).length :=
  length_lineSpans _ _

theorem length_splitLines_crlf (h : '\n' ∉ l) :
    (splitLines (l ++ ['\r', '\n'])).length = l.count '\r' + 1 := by
  induction l using line_induction with
  | hnil =>
    have hcrlf := splitLines_crlf (show Plain [] by simp [Plain]) []
    rw [List.nil_append] at hcrlf
    simp [hcrlf]
  | hplain text hplain hne =>
    have hcount : text.count '\r' = 0 :=
      List.count_eq_zero.mpr fun hmem => absurd (hplain '\r' hmem) (by decide)
    simp [splitLines_crlf hplain, hcount]
  | hlf text rest hplain ih => simp at h
  | hcrlf text rest hplain ih => simp at h
  | hcr text rest hplain hrest ih =>
    have hnot : '\n' ∉ rest := fun hmem => h (by simp [hmem])
    have hcount : text.count '\r' = 0 :=
      List.count_eq_zero.mpr fun hmem => absurd (hplain '\r' hmem) (by decide)
    have hhead : (rest ++ ['\r', '\n']).head? ≠ some '\n' := by
      cases rest with
      | nil => simp
      | cons c rest => simpa using hrest
    rw [List.append_assoc, List.cons_append, splitLines_cr hplain hhead, List.length_cons, ih hnot,
      List.count_append, hcount, List.count_cons_self, Nat.zero_add]

end

end SwissArmyHammer.Edit
