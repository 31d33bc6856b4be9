import Mathlib.Data.List.Basic
import Mathlib.Data.List.DropRight

/-! Lines of a text as Rust's `str` cuts them. A text is the list of its characters. -/

namespace SwissArmyHammer.Text

/-- `split_inclusive('\n')`: every line keeps its terminator. -/
def splitInclusive : List Char → List (List Char)
  | [] => []
  | c :: rest =>
    if c = '\n' then [c] :: splitInclusive rest
    else
      match splitInclusive rest with
      | [] => [[c]]
      | l :: ls => (c :: l) :: ls

def stripSuffix (c : Char) (s : List Char) : Option (List Char) :=
  if s.getLast? = some c then some s.dropLast else none

/-- What `str::lines` keeps of a line: without `\n`, and then without `\r`. A line that has
no `\n` keeps its `\r`. -/
def stripEol (raw : List Char) : List Char :=
  match stripSuffix '\n' raw with
  | none => raw
  | some l => (stripSuffix '\r' l).getD l

def lines (s : List Char) : List (List Char) := (splitInclusive s).map stripEol

/-- `char::is_whitespace`: the property White_Space of Unicode. -/
def isWhitespace (c : Char) : Bool :=
  let n := c.toNat
  (9 ≤ n && n ≤ 13) || n = 32 || n = 133 || n = 160 || n = 5760 || (8192 ≤ n && n ≤ 8202) ||
    n = 8232 || n = 8233 || n = 8239 || n = 8287 || n = 12288

def trimStart (s : List Char) : List Char := s.dropWhile isWhitespace

def trimEnd (s : List Char) : List Char := s.rdropWhile isWhitespace

def trim (s : List Char) : List Char :=
  ((s.dropWhile isWhitespace).reverse.dropWhile isWhitespace).reverse

def joinLines (ls : List (List Char)) : List Char := List.intercalate ['\n'] ls

theorem toList_eq {s : String} {cs : List Char} (h : s = String.ofList cs) : s.toList = cs := by
  rw [h, String.toList_ofList]

section

variable {c d : Char} {s l : List Char}

@[simp] theorem stripSuffix_nil : stripSuffix c [] = none := rfl

@[simp] theorem stripSuffix_concat : stripSuffix c (s ++ [d]) = if d = c then some s else none := by
  simp [stripSuffix]

theorem stripSuffix_eq_some : stripSuffix c s = some l ↔ s = l ++ [c] := by
  rcases List.eq_nil_or_concat s with rfl | ⟨s, d, rfl⟩
  · simp
  · by_cases hd : d = c
    · subst hd
      simp
    · simp [hd]

theorem stripSuffix_eq_none : stripSuffix c s = none ↔ ∀ l, s ≠ l ++ [c] := by
  constructor
  · rintro h l rfl
    simp at h
  · intro h
    cases hs : stripSuffix c s with
    | none => rfl
    | some l => exact absurd (stripSuffix_eq_some.mp hs) (h l)

theorem stripSuffix_of_not_mem (h : c ∉ s) : stripSuffix c s = none :=
  stripSuffix_eq_none.mpr fun l hl => h (by simp [hl])

theorem stripSuffix_append {t : List Char} (s : List Char) (hne : t ≠ []) :
    stripSuffix c (s ++ t) = (stripSuffix c t).map (s ++ ·) := by
  obtain ⟨t, d, rfl⟩ := (List.eq_nil_or_concat t).resolve_left hne
  rw [List.concat_eq_append, ← List.append_assoc, stripSuffix_concat, stripSuffix_concat]
  split
  · rfl
  · rfl

theorem mem_of_mem_getD_stripSuffix (h : d ∈ (stripSuffix c s).getD s) : d ∈ s := by
  cases hs : stripSuffix c s with
  | none => rwa [hs] at h
  | some l =>
    rw [hs] at h
    rw [stripSuffix_eq_some.mp hs]
    exact List.mem_append_left _ h

end

def Terminated (raw : List Char) : Prop := ∃ l, '\n' ∉ l ∧ raw = l ++ ['\n']

section

variable {s t l raw : List Char} {raws pre post : List (List Char)}

@[simp] theorem splitInclusive_nil : splitInclusive [] = [] := rfl

theorem flatten_splitInclusive (s : List Char) : (splitInclusive s).flatten = s := by
  induction s with
  | nil => rfl
  | cons c rest ih =>
    rw [splitInclusive]
    split
    · simp [ih]
    · grind

theorem splitInclusive_of_not_mem (h : '\n' ∉ s) (hne : s ≠ []) : splitInclusive s = [s] := by
  induction s with
  | nil => exact absurd rfl hne
  | cons c rest ih =>
    have hc : c ≠ '\n' := fun hc => h (by simp [hc])
    have hrest : '\n' ∉ rest := fun hr => h (by simp [hr])
    cases rest with
    | nil => simp [splitInclusive, hc]
    | cons d rest => rw [splitInclusive, if_neg hc, ih hrest (by simp)]

theorem splitInclusive_line (h : '\n' ∉ l) (s : List Char) :
    splitInclusive (l ++ '\n' :: s) = (l ++ ['\n']) :: splitInclusive s := by
  induction l with
  | nil => simp [splitInclusive]
  | cons c l ih =>
    have hc : c ≠ '\n' := fun hc => h (by simp [hc])
    rw [List.cons_append, splitInclusive, if_neg hc, ih fun hl => h (by simp [hl])]
    rfl

theorem splitInclusive_flatten_append (h : ∀ raw ∈ raws, Terminated raw) (s : List Char) :
    splitInclusive (raws.flatten ++ s) = raws ++ splitInclusive s := by
  induction raws with
  | nil => rfl
  | cons raw raws ih =>
    obtain ⟨l, hl, rfl⟩ := h raw (by simp)
    have hrest := ih fun raw' hraw' => h raw' (by simp [hraw'])
    have hsplit := splitInclusive_line hl (raws.flatten ++ s)
    rw [hrest] at hsplit
    simpa using hsplit

theorem getD_stripSuffix_flatten (h : ∀ raw ∈ raws, Terminated raw) (s : List Char) :
    (stripSuffix '\r' (raws.flatten ++ s)).getD (raws.flatten ++ s) =
      raws.flatten ++ (stripSuffix '\r' s).getD s := by
  by_cases hne : s = []
  · subst hne
    rcases List.eq_nil_or_concat raws with rfl | ⟨raws, raw, rfl⟩
    · rfl
    · obtain ⟨l, -, rfl⟩ := h raw (by simp)
      have hflat : (raws.concat (l ++ ['\n'])).flatten = raws.flatten ++ l ++ ['\n'] := by simp
      rw [List.append_nil, hflat, stripSuffix_concat]
      simp
  · rw [stripSuffix_append _ hne]
    cases stripSuffix '\r' s with
    | none => rfl
    | some l => rfl

theorem exists_lines (s : List Char) : ∃ (raws : List (List Char)) (tail : List Char),
    (∀ raw ∈ raws, Terminated raw) ∧ '\n' ∉ tail ∧
      splitInclusive s = raws ++ if tail = [] then [] else [tail] := by
  induction s with
  | nil => exact ⟨[], [], by simp, by simp, rfl⟩
  | cons c s ih =>
    obtain ⟨raws, tail, hraws, htail, hs⟩ := ih
    by_cases hc : c = '\n'
    · refine ⟨['\n'] :: raws, tail, ?_, htail, by simp [splitInclusive, hc, hs]⟩
      intro raw hraw
      rcases List.mem_cons.mp hraw with rfl | hraw
      · exact ⟨[], by simp, rfl⟩
      · exact hraws raw hraw
    · have hc' : '\n' ≠ c := fun h => hc h.symm
      cases raws with
      | nil =>
        refine ⟨[], c :: tail, by simp, by simp [hc', htail], ?_⟩
        by_cases ht : tail = [] <;> simp_all [splitInclusive]
      | cons raw raws =>
        refine ⟨(c :: raw) :: raws, tail, ?_, htail, by simp [splitInclusive, hc, hs]⟩
        intro raw' hraw'
        rcases List.mem_cons.mp hraw' with rfl | hraw'
        · obtain ⟨l, hl, rfl⟩ := hraws raw (by simp)
          exact ⟨c :: l, by simp [hc', hl], rfl⟩
        · exact hraws raw' (by simp [hraw'])

theorem terminated_of_splitInclusive (h : splitInclusive s = pre ++ raw :: post) :
    ∀ raw ∈ pre, Terminated raw := by
  obtain ⟨raws, tail, hraws, -, hs⟩ := exists_lines s
  intro r hr
  apply hraws r
  rw [h] at hs
  by_cases ht : tail = []
  · have hmem : r ∈ pre ++ raw :: post := by simp [hr]
    simpa [hs, ht] using hmem
  · have hdrop := congrArg List.dropLast hs
    rw [if_neg ht, List.dropLast_concat, List.dropLast_append_of_ne_nil (by simp)] at hdrop
    rw [← hdrop]
    exact List.mem_append_left _ hr

theorem terminated_or_not_mem (h : raw ∈ splitInclusive s) : Terminated raw ∨ '\n' ∉ raw := by
  obtain ⟨raws, tail, hraws, htail, hs⟩ := exists_lines s
  rw [hs, List.mem_append] at h
  rcases h with h | h
  · exact .inl (hraws raw h)
  · grind

theorem ne_nil_of_mem_splitInclusive (h : raw ∈ splitInclusive s) : raw ≠ [] := by
  obtain ⟨raws, tail, hraws, -, hs⟩ := exists_lines s
  rw [hs, List.mem_append] at h
  rcases h with h | h
  · obtain ⟨l, -, rfl⟩ := hraws raw h
    simp
  · grind

theorem splitInclusive_flatten (h : splitInclusive s = pre ++ post) :
    splitInclusive pre.flatten = pre ∧ splitInclusive post.flatten = post := by
  cases post with
  | nil =>
    have hs := flatten_splitInclusive s
    rw [h, List.append_nil] at hs
    simpa [hs] using h
  | cons raw post =>
    have hpre := terminated_of_splitInclusive h
    have hs := flatten_splitInclusive s
    have hall := splitInclusive_flatten_append hpre (raw :: post).flatten
    rw [← List.flatten_append, ← h, hs, h] at hall
    exact ⟨by simpa using splitInclusive_flatten_append hpre [],
      (List.append_cancel_left hall).symm⟩

theorem splitInclusive_tail (h : splitInclusive s = raw :: raws) :
    splitInclusive raws.flatten = raws :=
  (@splitInclusive_flatten s [raw] raws h).2

theorem terminated_of_getLast (h : s = [] ∨ s.getLast? = some '\n') :
    ∀ raw ∈ splitInclusive s, Terminated raw := by
  obtain ⟨raws, tail, hraws, htail, hs⟩ := exists_lines s
  have hflat := flatten_splitInclusive s
  have hnil : tail = [] := by
    by_contra ht
    rw [hs, if_neg ht] at hflat
    rcases h with rfl | h
    · simp [ht] at hflat
    · rw [← hflat, List.flatten_append, List.flatten_singleton,
        List.getLast?_append_of_ne_nil _ ht] at h
      exact htail (List.mem_of_getLast? h)
  rw [hs, hnil]
  simpa using hraws

theorem splitInclusive_append (h : s = [] ∨ s.getLast? = some '\n') (t : List Char) :
    splitInclusive (s ++ t) = splitInclusive s ++ splitInclusive t := by
  have hsplit := splitInclusive_flatten_append (terminated_of_getLast h) t
  rwa [flatten_splitInclusive] at hsplit

end

section

variable {l raw s : List Char} {ls raws : List (List Char)}

theorem stripEol_of_not_mem (h : '\n' ∉ raw) : stripEol raw = raw := by
  simp [stripEol, stripSuffix_of_not_mem h]

theorem stripEol_concat (l : List Char) : stripEol (l ++ ['\n']) = (stripSuffix '\r' l).getD l := by
  simp [stripEol]

theorem stripEol_concat_eq : stripEol (l ++ ['\n']) = l ↔ l.getLast? ≠ some '\r' := by
  rw [stripEol_concat]
  rcases List.eq_nil_or_concat l with rfl | ⟨l, d, rfl⟩
  · simp
  · by_cases hd : d = '\r' <;> simp [hd]

theorem not_mem_stripEol (h : raw ∈ splitInclusive s) : '\n' ∉ stripEol raw := by
  rcases terminated_or_not_mem h with ⟨l, hl, rfl⟩ | hraw
  · rw [stripEol_concat]
    cases hs : stripSuffix '\r' l with
    | none => exact hl
    | some l' =>
      rw [stripSuffix_eq_some] at hs
      exact fun hmem => hl (by rw [hs]; exact List.mem_append_left _ hmem)
  · rwa [stripEol_of_not_mem hraw]

def dropCr (raw : List Char) : List Char :=
  stripEol raw ++ if raw.getLast? = some '\n' then ['\n'] else []

theorem dropCr_of_none (h : stripSuffix '\n' raw = none) : dropCr raw = raw := by
  have hlast : raw.getLast? ≠ some '\n' := by
    intro hlast
    simp [stripSuffix, hlast] at h
  simp [dropCr, stripEol, h, hlast]

theorem dropCr_concat (l : List Char) :
    dropCr (l ++ ['\n']) = (stripSuffix '\r' l).getD l ++ ['\n'] := by
  simp [dropCr, stripEol_concat]

theorem dropCr_eq_or_shorter (raw : List Char) :
    dropCr raw = raw ∨ (dropCr raw).length < raw.length := by
  cases hlf : stripSuffix '\n' raw with
  | none => exact .inl (dropCr_of_none hlf)
  | some l =>
    rw [stripSuffix_eq_some] at hlf
    rw [hlf, dropCr_concat]
    cases hcr : stripSuffix '\r' l with
    | none => exact .inl rfl
    | some l' =>
      rw [stripSuffix_eq_some] at hcr
      subst hcr
      simp

theorem dropCr_eq : dropCr raw = raw ↔ ¬ ['\r', '\n'] <:+ raw := by
  constructor
  · rintro h ⟨l, rfl⟩
    have hraw : l ++ ['\r', '\n'] = l ++ ['\r'] ++ ['\n'] := by simp
    rw [hraw, dropCr_concat] at h
    simp at h
  · intro h
    cases hlf : stripSuffix '\n' raw with
    | none => exact dropCr_of_none hlf
    | some l =>
      rw [stripSuffix_eq_some] at hlf
      rw [hlf, dropCr_concat]
      cases hcr : stripSuffix '\r' l with
      | none => rfl
      | some l' =>
        rw [stripSuffix_eq_some] at hcr
        exact absurd ⟨l', by simp [hlf, hcr]⟩ h

theorem flatten_map_eq_iff {f : List Char → List Char}
    (hf : ∀ raw, f raw = raw ∨ (f raw).length < raw.length) :
    (raws.map f).flatten = raws.flatten ↔ ∀ raw ∈ raws, f raw = raw := by
  have hle : ∀ raws : List (List Char), (raws.map f).flatten.length ≤ raws.flatten.length := by
    intro raws
    induction raws with
    | nil => simp
    | cons raw raws ih =>
      grind
  induction raws with
  | nil => simp
  | cons raw raws ih =>
    simp only [List.map_cons, List.flatten_cons, List.forall_mem_cons]
    rcases hf raw with h | h
    · simp only [h, List.append_cancel_left_eq, ih, true_and]
    · have hlen := hle raws
      constructor
      · intro heq
        have := congrArg List.length heq
        simp only [List.length_append] at this
        omega
      · rintro ⟨heq, -⟩
        rw [heq] at h
        omega

end

section

variable {l s : List Char} {ls : List (List Char)}

@[simp] theorem joinLines_nil : joinLines [] = [] := rfl

@[simp] theorem joinLines_singleton : joinLines [l] = l := by simp [joinLines]

@[simp] theorem joinLines_cons_cons (l l' : List Char) (ls : List (List Char)) :
    joinLines (l :: l' :: ls) = l ++ '\n' :: joinLines (l' :: ls) := by
  simp [joinLines, List.intercalate]

theorem joinLines_concat (ls : List (List Char)) (l : List Char) :
    joinLines (ls ++ [l]) = ls.flatMap (· ++ ['\n']) ++ l := by
  induction ls with
  | nil => simp
  | cons l' ls ih =>
    cases ls with
    | nil => simp
    | cons l'' ls =>
      rw [List.cons_append, List.cons_append, joinLines_cons_cons, ← List.cons_append, ih]
      simp

theorem lines_of_not_mem (h : '\n' ∉ l) (hne : l ≠ []) : lines l = [l] := by
  simp [lines, splitInclusive_of_not_mem h hne, stripEol_of_not_mem h]

theorem lines_joinLines (h : ∀ l ∈ ls, '\n' ∉ l) :
    lines (joinLines ls) = ls ↔
      ls.getLast? ≠ some [] ∧ ∀ l ∈ ls.dropLast, l.getLast? ≠ some '\r' := by
  induction ls with
  | nil => simp [lines]
  | cons l ls ih =>
    have hl := h l (by simp)
    cases ls with
    | nil =>
      by_cases hne : l = []
      · simp [hne, lines]
      · simp [hne, lines_of_not_mem hl hne]
    | cons l' ls =>
      have hrest := ih fun l'' hl'' => h l'' (List.mem_cons_of_mem _ hl'')
      have hsplit : lines (joinLines (l :: l' :: ls)) =
          stripEol (l ++ ['\n']) :: lines (joinLines (l' :: ls)) := by
        rw [joinLines_cons_cons, lines, splitInclusive_line hl]
        rfl
      rw [hsplit, List.cons.injEq, stripEol_concat_eq, List.getLast?_cons_cons,
        List.dropLast_cons_cons, List.forall_mem_cons]
      tauto

theorem joinLines_lines (s : List Char) :
    (joinLines (lines s) ++ if s.getLast? = some '\n' then ['\n'] else []) =
      ((splitInclusive s).map dropCr).flatten := by
  obtain ⟨raws, tail, hraws, htail, hs⟩ := exists_lines s
  have hterm : ∀ raw ∈ raws, dropCr raw = stripEol raw ++ ['\n'] := by
    intro raw hraw
    obtain ⟨l, -, rfl⟩ := hraws raw hraw
    simp [dropCr]
  have hbody : (raws.map dropCr).flatten = (raws.map stripEol).flatMap (· ++ ['\n']) := by
    rw [List.map_congr_left hterm, List.flatMap_map, List.flatMap_def]
  have hflat := flatten_splitInclusive s
  by_cases ht : tail = []
  · rw [if_pos ht, List.append_nil] at hs
    rw [hs] at hflat
    rcases List.eq_nil_or_concat raws with rfl | ⟨raws', raw, rfl⟩
    · simp [lines, ← hflat]
    · rw [List.concat_eq_append] at *
      obtain ⟨l, -, rfl⟩ := hraws raw (by simp)
      have hlast : s.getLast? = some '\n' := by simp [← hflat]
      rw [lines, hs, hbody, if_pos hlast, List.map_append, List.map_singleton, joinLines_concat]
      simp
  · rw [if_neg ht] at hs
    have hdrop : dropCr tail = tail := by
      refine dropCr_eq.mpr fun hsuf => htail (hsuf.subset (by simp))
    have hlast : s.getLast? ≠ some '\n' := by
      rw [← hflat, hs, List.flatten_append]
      intro h
      have htl : tail.getLast? = some '\n' := by
        rw [List.getLast?_append] at h
        cases htl : tail.getLast? with
        | none => exact absurd (List.getLast?_eq_none_iff.mp htl) ht
        | some d => simpa [htl] using h
      exact htail (List.mem_of_getLast? htl)
    rw [lines, hs, if_neg hlast, List.map_append, List.map_singleton, joinLines_concat,
      stripEol_of_not_mem htail, List.map_append, List.flatten_append, hbody]
    simp [hdrop]

end

section

variable {s : List Char} {c : Char}

theorem trim_eq_rdropWhile (s : List Char) :
    trim s = (s.dropWhile isWhitespace).rdropWhile isWhitespace := rfl

theorem mem_of_mem_trim (h : c ∈ trim s) : c ∈ s := by
  exact (List.dropWhile_suffix _).subset ((List.rdropWhile_prefix _ _).subset h)

theorem getLast?_trim (h : (trim s).getLast? = some c) : isWhitespace c = false := by
  rw [trim_eq_rdropWhile] at h
  have hne : (s.dropWhile isWhitespace).rdropWhile isWhitespace ≠ [] := by
    intro hnil
    simp [hnil] at h
  have hlast := List.rdropWhile_last_not isWhitespace (s.dropWhile isWhitespace) hne
  rw [List.getLast?_eq_some_getLast hne, Option.some.injEq] at h
  simpa [h] using hlast

theorem head?_trim (h : (trim s).head? = some c) : isWhitespace c = false := by
  obtain ⟨rest, hrest⟩ := List.rdropWhile_prefix isWhitespace (s.dropWhile isWhitespace)
  rw [← trim_eq_rdropWhile] at hrest
  have hhead : (s.dropWhile isWhitespace).head? = some c := by
    rw [← hrest, List.head?_append, h]
    rfl
  have hnot := List.head?_dropWhile_not isWhitespace s
  rw [hhead] at hnot
  simpa using hnot

theorem trim_eq_self (hhead : ∀ c, s.head? = some c → isWhitespace c = false)
    (hlast : ∀ c, s.getLast? = some c → isWhitespace c = false) : trim s = s := by
  have hstart : s.dropWhile isWhitespace = s := by
    cases s with
    | nil => rfl
    | cons c s => simp [hhead c rfl]
  rw [trim_eq_rdropWhile, hstart]
  rcases List.eq_nil_or_concat s with rfl | ⟨s, c, rfl⟩
  · rfl
  · rw [List.concat_eq_append] at hlast ⊢
    simp [hlast c (by simp)]

theorem trim_trim (s : List Char) : trim (trim s) = trim s :=
  trim_eq_self (fun _ => head?_trim) (fun _ => getLast?_trim)

end
end SwissArmyHammer.Text
