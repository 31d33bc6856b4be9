import SwissArmyHammer.Edit.Encoding
import SwissArmyHammer.Edit.LineModel
import SwissArmyHammer.Text.Lines

/-! Reading a file, whole or a window of its lines, with or without anchors. -/

namespace SwissArmyHammer.Edit

open Text

structure ReadRequest where
  path : String
  offset : Option Nat
  limit : Option Nat
  format : Option String

inductive ReadFormat where
  | hashline
  | plain
  deriving DecidableEq

def ReadFormat.parse (debug : String → String) (value : Option String) :
    Except McpError ReadFormat :=
  match value with
  | none => .ok .hashline
  | some "hashline" => .ok .hashline
  | some "plain" => .ok .plain
  | some other =>
    .error (.invalidRequest ("format must be \"hashline\" or \"plain\", got " ++ debug other))

def skippedLines (content : List Char) (offset : Option Nat) : List (List Char) :=
  (lines content).take ((offset.map fun o => o - 1).getD 0)

def windowOfLines (content : List Char) (offset limit : Option Nat) : List (List Char) :=
  let rest := (lines content).drop ((offset.map fun o => o - 1).getD 0)
  match limit with
  | some limit => rest.take limit
  | none => rest

def windowLines (content : List Char) (offset limit : Option Nat) : List Char :=
  match offset, limit with
  | none, none => content
  | offset, limit => joinLines (windowOfLines content offset limit)

def hashLinePrefix : List Char := ['#', 'h', 'a', 's', 'h', ':']

def wholeFileHash (md5 : List UInt8 → List UInt8) (content : List Char) : List Char :=
  (md5 (utf8 content)).flatMap renderHash

def executeRead (debug : String → String) (crc32 : List UInt8 → UInt32)
    (md5 : List UInt8 → List UInt8) (read : String → Except McpError (List Char))
    (request : ReadRequest) : Except McpError (List Char) := do
  if request.offset.any fun offset => 1000000 < offset then
    throw (.invalidRequest "offset must be less than 1,000,000 lines")
  if request.limit = some 0 then
    throw (.invalidRequest "limit must be greater than 0")
  if request.limit.any fun limit => 100000 < limit then
    throw (.invalidRequest "limit must be less than or equal to 100,000 lines")
  if request.path = "" then
    throw (.invalidRequest "path cannot be empty")
  let format ← ReadFormat.parse debug request.format
  let fullContent ← read request.path
  let hash := wholeFileHash md5 fullContent
  let windowed := windowLines fullContent request.offset request.limit
  let body := match format with
    | .hashline => tag crc32 windowed (request.offset.getD 1)
    | .plain => windowed
  return hashLinePrefix ++ hash ++ '\n' :: body

end SwissArmyHammer.Edit

/-! A window of the lines of `str::lines`, in the line model of anchors: where the lines it is
tagged by come from, and when their numbers are those of the whole file. -/

namespace SwissArmyHammer.Edit

open Text

section

variable {content : List Char} {raws raws' : List (List Char)} {raw : List Char}
  {offset : Nat} {slices : List (Nat × List Char)} {span : Nat × List Char}

def lineSlices (offset : Nat) : List (List Char) → List (Nat × List Char)
  | [] => []
  | raw :: raws => (offset, stripEol raw) :: lineSlices (offset + (utf8 raw).length) raws

def originOf : List (Nat × List Char) → Nat → Nat
  | [], position => position
  | (start, text) :: slices, position =>
    if position ≤ (utf8 text).length then start + position
    else originOf slices (position - ((utf8 text).length + 1))

def windowSpans : List (Nat × List Char) → List (Nat × List Char)
  | [] => []
  | [(start, text)] => spansAt start text
  | (start, text) :: slices => spansAt start (text ++ ['\n']) ++ windowSpans slices

theorem windowSpans_cons_cons (start : Nat) (text : List Char) (slice : Nat × List Char)
    (slices : List (Nat × List Char)) : windowSpans ((start, text) :: slice :: slices) =
      spansAt start (text ++ ['\n']) ++ windowSpans (slice :: slices) := rfl

theorem length_newline (s : List Char) : (utf8 (s ++ ['\n'])).length = (utf8 s).length + 1 := by
  rw [utf8_append, List.length_append]
  rfl

theorem map_originOf (slices : List (Nat × List Char)) :
    (spansAt 0 (joinLines (slices.map Prod.snd))).map
      (fun span => (originOf slices span.1, span.2)) = windowSpans slices := by
  induction slices with
  | nil => simp [windowSpans]
  | cons slice slices ih =>
    obtain ⟨start, text⟩ := slice
    cases slices with
    | nil =>
      simp only [List.map_cons, List.map_nil, joinLines_singleton, windowSpans]
      rw [spansAt_shift start]
      refine List.map_congr_left fun span hspan => ?_
      have hbounds := mem_spansAt hspan
      simp only [originOf, if_pos (show span.1 ≤ (utf8 text).length by omega)]
    | cons slice slices =>
      rw [windowSpans_cons_cons, ← ih]
      simp only [List.map_cons, joinLines_cons_cons]
      rw [spansAt_newline, List.map_append]
      congr 1
      · rw [spansAt_shift start]
        refine List.map_congr_left fun span hspan => ?_
        have hbounds := mem_spansAt hspan
        rw [length_newline] at hbounds
        simp only [originOf, if_pos (show span.1 ≤ (utf8 text).length by omega)]
      · rw [Nat.zero_add, spansAt_shift ((utf8 text).length + 1), List.map_map]
        refine List.map_congr_left fun span hspan => ?_
        have hafter : ¬ (utf8 text).length + 1 + span.1 ≤ (utf8 text).length := by omega
        simp only [Function.comp_apply, originOf, if_neg hafter, Nat.add_sub_cancel_left]

@[simp] theorem map_snd_lineSlices (offset : Nat) (raws : List (List Char)) :
    (lineSlices offset raws).map Prod.snd = raws.map stripEol := by
  induction raws generalizing offset with
  | nil => rfl
  | cons raw raws ih => simp [lineSlices, ih]

end

section

variable {raws after : List (List Char)} {raw l : List Char} {offset : Nat}

def contentSpans (offset : Nat) : List (List Char) → List (Nat × List Char)
  | [] => []
  | raw :: raws => spansAt offset raw ++ contentSpans (offset + (utf8 raw).length) raws

theorem contentSpans_append (offset : Nat) (raws raws' : List (List Char)) :
    contentSpans offset (raws ++ raws') =
      contentSpans offset raws ++ contentSpans (offset + (utf8 raws.flatten).length) raws' := by
  induction raws generalizing offset with
  | nil => rfl
  | cons raw raws ih =>
    simp only [List.cons_append, contentSpans, ih, List.flatten_cons, utf8_append,
      List.length_append, Nat.add_assoc, List.append_assoc]

theorem spansAt_flatten (h : ∀ raw ∈ raws.dropLast, Terminated raw) (offset : Nat) :
    spansAt offset raws.flatten = contentSpans offset raws := by
  induction raws generalizing offset with
  | nil => simp [contentSpans]
  | cons raw raws ih =>
    cases raws with
    | nil => simp [contentSpans]
    | cons raw' raws =>
      obtain ⟨l, -, rfl⟩ := h raw (by simp)
      rw [contentSpans, ← ih (fun r hr => h r (by simp [hr])), List.flatten_cons, List.append_assoc,
        List.singleton_append, spansAt_newline, length_newline, Nat.add_assoc]

theorem exists_content (h : Terminated raw) : ∃ l, '\n' ∉ l ∧ stripEol raw = l ∧
    (raw = l ++ ['\n'] ∧ l.getLast? ≠ some '\r' ∨ raw = l ++ ['\r', '\n']) := by
  obtain ⟨l, hl, rfl⟩ := h
  rw [stripEol_concat]
  cases hstrip : stripSuffix '\r' l with
  | none =>
    refine ⟨l, hl, rfl, .inl ⟨rfl, fun hlast => ?_⟩⟩
    simp [stripSuffix, hlast] at hstrip
  | some m =>
    obtain rfl := stripSuffix_eq_some.mp hstrip
    exact ⟨m, fun hmem => hl (by simp [hmem]), rfl, .inr (by simp)⟩

theorem spansAt_terminated (h : Terminated raw) (offset : Nat) :
    spansAt offset raw = spansAt offset (stripEol raw ++ ['\n']) ++
      if (stripEol raw).getLast? = some '\r' then [(offset + (utf8 (stripEol raw)).length, [])]
      else [] := by
  obtain ⟨l, hl, hstrip, ⟨hraw, hlast⟩ | hraw⟩ := exists_content h
  · rw [hstrip, hraw, if_neg hlast, List.append_nil]
  · rw [hstrip, hraw]
    exact spansAt_append_crlf hl offset

theorem length_terminated (h : Terminated raw) :
    (splitLines raw).length = (stripEol raw).count '\r' + 1 := by
  obtain ⟨l, hl, hstrip, ⟨hraw, hlast⟩ | hraw⟩ := exists_content h
  · have hcrlf := spansAt_append_crlf hl 0
    rw [if_neg hlast, List.append_nil] at hcrlf
    rw [hstrip, hraw, ← length_splitLines_crlf hl, ← length_spansAt 0, ← length_spansAt 0, hcrlf]
  · rw [hstrip, hraw, ← length_splitLines_crlf hl]

theorem length_contentSpans (h : ∀ raw ∈ raws, Terminated raw) (offset : Nat) :
    (contentSpans offset raws).length =
      raws.length + (raws.flatMap stripEol).count '\r' := by
  induction raws generalizing offset with
  | nil => rfl
  | cons raw raws ih =>
    rw [contentSpans, List.length_append, length_spansAt, length_terminated (h raw (by simp)),
      ih fun r hr => h r (by simp [hr])]
    simp only [List.length_cons, List.flatMap_cons, List.count_append]
    omega

end

section

variable {raws rest : List (List Char)} {raw l : List Char} {ls : List (List Char)} {offset : Nat}
  {slices : List (Nat × List Char)} {span : Nat × List Char}

def keepsBreaks : List (List Char) → Prop
  | [] => True
  | l :: ls => (l.getLast? = some '\r' → joinLines ls = []) ∧ keepsBreaks ls

instance decidableKeepsBreaks : (ls : List (List Char)) → Decidable (keepsBreaks ls)
  | [] => .isTrue trivial
  | _ :: ls => @instDecidableAnd _ _ _ (decidableKeepsBreaks ls)

theorem keepsBreaks_of_empty (h : joinLines ls = []) : keepsBreaks ls := by
  match ls, h with
  | [], _ => trivial
  | [l], h =>
    rw [joinLines_singleton] at h
    exact ⟨by simp, trivial⟩
  | l :: l' :: ls, h => simp at h

theorem spansAt_eq_nil {s : List Char} : spansAt offset s = [] ↔ s = [] := by
  constructor
  · intro h
    rw [← flatMap_raw s, List.eq_nil_of_length_eq_zero (l := splitLines s) (by
      rw [← length_lineSpans offset, ← spansAt, h]
      rfl)]
    rfl
  · rintro rfl
    exact spansAt_nil offset

theorem head?_spansAt {s : List Char} (h : (spansAt offset s).head? = some span) :
    span.1 = offset := by
  rw [spansAt] at h
  cases hlines : splitLines s with
  | nil => simp [hlines, lineSpans] at h
  | cons line lines =>
    rw [hlines, lineSpans, List.head?_cons, Option.some.injEq] at h
    rw [← h]

theorem windowSpans_eq_nil :
    windowSpans slices = [] ↔ joinLines (slices.map Prod.snd) = [] := by
  rw [← map_originOf, List.map_eq_nil_iff, spansAt_eq_nil]

theorem head?_windowSpans {start : Nat} {text : List Char}
    (h : (windowSpans ((start, text) :: slices)).head? = some span) : span.1 = start := by
  cases slices with
  | nil => exact head?_spansAt h
  | cons slice slices =>
    have hne : spansAt start (text ++ ['\n']) ≠ [] := by
      rw [Ne, spansAt_eq_nil]
      simp
    rw [windowSpans_cons_cons, List.head?_append_of_ne_nil _ hne] at h
    exact head?_spansAt h

theorem length_stripEol_lt (h : Terminated raw) :
    (utf8 (stripEol raw)).length < (utf8 raw).length := by
  obtain ⟨l, -, rfl⟩ := h
  rw [stripEol_concat, length_newline]
  cases hstrip : stripSuffix '\r' l with
  | none =>
    rw [Option.getD_none]
    omega
  | some m =>
    rw [stripSuffix_eq_some.mp hstrip, Option.getD_some, utf8_append, List.length_append]
    omega

theorem windowSpans_prefix_iff (hterm : ∀ raw ∈ raws.dropLast, Terminated raw)
    (hraws : ∀ raw ∈ raws, Terminated raw ∨ '\n' ∉ raw) (offset : Nat)
    (after : List (Nat × List Char)) :
    windowSpans (lineSlices offset raws) <+: contentSpans offset raws ++ after ↔
      keepsBreaks (raws.map stripEol) := by
  induction raws generalizing offset with
  | nil => simp [lineSlices, windowSpans, keepsBreaks]
  | cons raw raws ih =>
    cases raws with
    | nil =>
      have hkeeps : keepsBreaks ([raw].map stripEol) := ⟨fun _ => rfl, trivial⟩
      refine iff_of_true ?_ hkeeps
      have hstarts : spansAt offset (stripEol raw) <+: spansAt offset raw := by
        rcases hraws raw (by simp) with hraw | hraw
        · rw [spansAt_terminated hraw]
          exact (spansAt_dropNewline _ _).trans (List.prefix_append _ _)
        · simp only [stripEol_of_not_mem hraw, List.prefix_rfl]
      simp only [lineSlices, windowSpans, contentSpans, List.append_nil]
      exact hstarts.trans (List.prefix_append _ _)
    | cons raw' raws =>
      have hraw := hterm raw (by simp)
      have htail := ih (fun r hr => hterm r (by simp [hr])) (fun r hr => hraws r (by simp [hr]))
        (offset + (utf8 raw).length)
      have hslices : windowSpans (lineSlices offset (raw :: raw' :: raws)) =
          spansAt offset (stripEol raw ++ ['\n']) ++
            windowSpans (lineSlices (offset + (utf8 raw).length) (raw' :: raws)) := rfl
      rw [hslices, contentSpans, spansAt_terminated hraw, List.map_cons, keepsBreaks]
      by_cases hlast : (stripEol raw).getLast? = some '\r'
      · have hempty : windowSpans (lineSlices (offset + (utf8 raw).length) (raw' :: raws)) = [] ↔
            joinLines ((raw' :: raws).map stripEol) = [] := by
          rw [windowSpans_eq_nil, map_snd_lineSlices]
        rw [if_pos hlast, List.append_assoc, List.append_assoc, List.prefix_append_right_inj]
        constructor
        · intro hstarts
          have hnil : windowSpans (lineSlices (offset + (utf8 raw).length) (raw' :: raws)) = [] := by
            cases hspans : windowSpans (lineSlices (offset + (utf8 raw).length) (raw' :: raws)) with
            | nil => rfl
            | cons span spans =>
              rw [hspans] at hstarts
              have hstart : span.1 = offset + (utf8 raw).length :=
                head?_windowSpans (by
                  rw [lineSlices] at hspans
                  rw [hspans, List.head?_cons])
              obtain ⟨heq, -⟩ := List.cons_prefix_cons.mp hstarts
              have hlt := length_stripEol_lt hraw
              rw [heq] at hstart
              omega
          exact ⟨fun _ => hempty.mp hnil, keepsBreaks_of_empty (hempty.mp hnil)⟩
        · grind
      · rw [if_neg hlast, List.append_nil, List.append_assoc, List.prefix_append_right_inj, htail]
        exact ⟨fun h => ⟨fun habs => absurd habs hlast, h⟩, And.right⟩

end

end SwissArmyHammer.Edit
