import SwissArmyHammer.Review.ReplyReads

/-! When the findings that a reply holds are all read. -/

namespace SwissArmyHammer.Review

open JsonText Text

section

variable {ε : Type} {serde : SerdeJson ε} {reply pre suf x body t r a b : List Char}
  {finding : Finding} {findings fs : List Finding} {c : Char}

theorem newline_not_mem_quoted (s : String) : '\n' ∉ quoted s := by
  rw [quoted, List.mem_cons, List.mem_append]
  rintro (heq | hmem | heq)
  · exact absurd heq (by decide)
  · obtain ⟨d, -, hd⟩ := List.mem_flatMap.mp hmem
    exact (escape_of_mem (.inr rfl) hd).2.2 rfl
  · exact absurd heq (by decide)

theorem newline_not_mem_member (m : String × Scalar) : '\n' ∉ memberText m := by
  rw [memberText, List.mem_append, List.mem_cons]
  rintro (hmem | heq | hmem)
  · exact newline_not_mem_quoted m.1 hmem
  · exact absurd heq (by decide)
  · cases hv : m.2 with
    | string s =>
      rw [hv] at hmem
      exact newline_not_mem_quoted s hmem
    | number n =>
      rw [hv] at hmem
      exact (not_mark_of_isDigit (isDigit_of_mem_number hmem)).2.2.2.1 rfl

theorem newline_not_mem_membersRest (ms : List (String × Scalar)) : '\n' ∉ membersRest ms := by
  induction ms with
  | nil => decide
  | cons m ms ih =>
    rw [membersRest, List.mem_cons, List.mem_append]
    rintro (heq | hmem | hmem)
    · exact absurd heq (by decide)
    · exact newline_not_mem_member m hmem
    · exact ih hmem

theorem newline_not_mem_json (finding : Finding) : '\n' ∉ finding.json := by
  have hobject : ∀ ms : List (String × Scalar), '\n' ∉ objectText ms := by
    intro ms
    cases ms with
    | nil => decide
    | cons m ms =>
      rw [objectText, List.mem_cons, List.mem_append]
      rintro (heq | hmem | hmem)
      · exact absurd heq (by decide)
      · exact newline_not_mem_member m hmem
      · exact newline_not_mem_membersRest ms hmem
  exact hobject _

theorem newline_not_mem_elementsRest (findings : List Finding) :
    '\n' ∉ elementsRest (findings.map Finding.json) := by
  induction findings with
  | nil => decide
  | cons finding findings ih =>
    rw [List.map_cons, elementsRest, List.mem_cons, List.mem_append]
    rintro (heq | hmem | hmem)
    · exact absurd heq (by decide)
    · exact newline_not_mem_json finding hmem
    · exact ih hmem

theorem newline_not_mem_findingsJson (findings : List Finding) : '\n' ∉ findingsJson findings := by
  cases findings with
  | nil => decide
  | cons finding findings =>
    rw [findingsJson, List.map_cons, arrayText, List.mem_cons, List.mem_append]
    rintro (heq | hmem | hmem)
    · exact absurd heq (by decide)
    · exact newline_not_mem_json finding hmem
    · exact newline_not_mem_elementsRest findings hmem

theorem inside_of_tick (hpre : Prose pre) (hsuf : Closing suf)
    (h : pre ++ (findingsJson findings ++ suf) = x ++ Char.ofNat 96 :: r) : Inside r := by
  rcases split_or h with ⟨p, hp, -⟩ | ⟨x', -, hx'⟩
  · exact absurd rfl (hpre.plain _ (hp ▸ List.mem_append_right x List.mem_cons_self)).2.2.2
  · rcases split_findingsJson (.inr (.inr rfl)) (by decide) hsuf.outside hx' with
      ⟨-, heq⟩ | hin | ⟨z, hz⟩
    · exact absurd heq (by decide)
    · exact hin
    · exact absurd (.inr (.inr rfl))
        (hsuf _ (hz ▸ List.mem_append_right z List.mem_cons_self)).2.1

theorem inside_of_fenced (hpre : Prose pre) (hsuf : Closing suf)
    (h : Fenced '\x7b' '\x7d' (pre ++ (findingsJson findings ++ suf))) :
    ∃ r, (extractJsonValue (pre ++ (findingsJson findings ++ suf)) '\x7b' '\x7d').tail =
      '\x7b' :: r ∧ Inside r := by
  obtain ⟨-, r, htail, -, -, hfenced⟩ := extract_of_fenced h
  refine ⟨r, htail, ?_⟩
  have hcode : codeFence = Char.ofNat 96 :: codeFence.tail := by decide
  obtain ⟨-, a, b, hplace, hcases⟩ := fencedValue_place hfenced
  rw [htail] at hplace
  obtain ⟨w, hw, -⟩ := trimmed_tail (pre ++ (findingsJson findings ++ suf))
  have hreply : pre ++ (findingsJson findings ++ suf) =
      (w ++ a) ++ Char.ofNat 96 :: (codeFence.tail ++ (b ++ '\x7b' :: r)) := by
    conv_lhs => rw [hw, hplace, hcode]
    simp
  have hin := inside_of_tick hpre hsuf hreply
  rcases hcases with ⟨lang, blanks, rfl, hlang, hblanks⟩ | ⟨u, y, htext, hy⟩
  · have hticks : ∀ c ∈ codeFence.tail, c ≠ '"' ∧ c ≠ '\\' := no_quote (by decide)
    have hletters : ∀ c ∈ lang, c ≠ '"' ∧ c ≠ '\\' := by
      rcases hlang with rfl | rfl <;> exact no_quote (by decide)
    have hopen : Inside ('\x7b' :: r) := by
      rw [List.append_assoc] at hin
      exact ((hin.drop hticks).drop hletters).drop fun c hc =>
        ⟨(isWhitespace_ne (hblanks c hc)).1, (isWhitespace_ne (hblanks c hc)).2.1⟩
    exact hopen.tail (by decide) (by decide)
  · -- the only newlines are in the prose, and behind the array no other fence follows
    exfalso
    obtain ⟨v, z, hsplit, -, -⟩ := trimmed_split (pre ++ (findingsJson findings ++ suf))
    have hline : pre ++ (findingsJson findings ++ suf) =
        (v ++ (a ++ (codeFence ++ u))) ++ '\n' :: (y ++ z) := by
      conv_lhs => rw [hsplit, htext]
      simp
    have hmem : Char.ofNat 96 ∈ codeFence := by decide
    rcases split_or hline with ⟨p, hp, -⟩ | ⟨x', -, hx'⟩
    · have htick : Char.ofNat 96 ∈ pre := by
        rw [hp]
        simp [hmem]
      exact (hpre.plain _ htick).2.2.2 rfl
    · obtain ⟨x'', -, hsuf'⟩ := split_after hx' (newline_not_mem_findingsJson findings)
      have htick : Char.ofNat 96 ∈ suf := by
        rw [hsuf']
        simp [hy.subset hmem]
      exact (hsuf _ htick).2.1 (.inr (.inr rfl))

/-- When an unfenced array is read: nothing is before its bracket, or it is empty, or what is before
it is no empty array and the search for objects finds the one finding, or fails inside a string. -/
def ArrayClear (pre : List Char) (findings : List Finding) (suf : List Char) : Prop :=
  findings = [] ∨
    '[' ∉ pre ∧ ¬ Fenced '[' ']' (pre ++ (findingsJson findings ++ suf)) ∨
    ¬ TakesEmpty (pre ++ (findingsJson findings ++ suf)) ∧
      (findings.length = 1 ∨ Fenced '\x7b' '\x7d' (pre ++ (findingsJson findings ++ suf)))

theorem findingsJson_nil_read (hserde : serde.Reads) (hpre : Prose pre) (hsuf : Closing suf)
    (hread : serde.readFindings (findingsJson []) = .ok []) :
    parseFindingsRepaired serde (pre ++ (findingsJson [] ++ suf)) = .ok [] := by
  have hjson : findingsJson [] = ['[', ']'] := rfl
  have hquiet : Quiet serde (pre ++ (findingsJson [] ++ suf)) fun _ => True := by
    intro x body t fs hreply _ ht hread
    by_cases hx : x = pre
    · subst hx
      rcases hserde.bracket hread with hempty | ⟨bracket, rest, hopen, hbracket, -⟩
      · exact hempty
      · have hbody := (List.cons.inj (List.append_cancel_left hreply)).2
        cases t with
        | nil => simp at hopen
        | cons d t =>
          rw [← hbody] at ht
          obtain ⟨rfl, -⟩ := List.cons_prefix_cons.mp ht
          obtain ⟨rfl, -⟩ := List.cons.inj hopen
          rcases hbracket with heq | heq <;> exact absurd heq (by decide)
    · exact quiet_findingsJson hserde hpre hsuf x body t fs hreply hx ht hread
  rcases hquiet.cases hserde with ⟨-, hparse⟩ | ⟨-, e, herror⟩
  · exact hparse
  · have hbrace : '\x7b' ∉ pre ++ (findingsJson [] ++ suf) := by
      rw [hjson, List.mem_append, List.mem_append]
      rintro (hmem | hmem | hmem)
      · exact (hpre.plain _ hmem).2.1 rfl
      · exact absurd hmem (by decide)
      · exact (hsuf _ hmem).2.1 (.inr (.inl rfl))
    have hbare : bareObjects serde (trimStart
        (extractJsonValue (pre ++ (findingsJson [] ++ suf)) '\x7b' '\x7d').tail) = [] := by
      refine bareObjects_stop fun hhead => hbrace ?_
      obtain ⟨z, hz⟩ := extractJsonValue_suffix (pre ++ (findingsJson [] ++ suf)) '\x7b' '\x7d'
      rw [hz]
      exact List.mem_append_right _
        ((List.dropWhile_sublist _).subset (List.mem_of_mem_head? hhead))
    rw [parseFindings_of_repair herror hbare, repairFindingsArray_eq hserde hpre hsuf hread,
      Option.elim_some]

theorem extract_findingsJson (hbracket : '[' ∉ pre)
    (hfenced : ¬ Fenced '[' ']' (pre ++ (findingsJson findings ++ suf))) :
    (extractJsonValue (pre ++ (findingsJson findings ++ suf)) '[' ']').text =
      findingsJson findings := by
  obtain ⟨d, rest, hjson, -⟩ := findingsJson_eq_cons findings
  have htext : (trimmed (pre ++ (findingsJson findings ++ suf))).text =
      trimStart pre ++ (findingsJson findings ++ trimEnd suf) := by
    rw [trimmed, (solid_findingsJson findings).text_trim]
  have hstart : findFirst ['['] (trimmed (pre ++ (findingsJson findings ++ suf))).text =
      some (trimStart pre).length := by
    rw [htext, hjson]
    exact findFirst_singleton (not_mem_trimStart hbracket)
  have hlength : (findingsJson findings).length - 1 + 1 = (findingsJson findings).length := by
    rw [hjson]
    rfl
  rw [extractJsonValue_eq, not_not.mp hfenced, Option.none_or, balancedValue, hstart,
    Option.bind_some, htext, List.drop_left, matchingDelimiter_findingsJson, Option.map_some,
    Option.some_or, Option.getD_some, Slice.text_take, Slice.text_drop, htext, List.drop_left,
    hlength, List.take_left]

theorem bareObjects_findingsJson (hpre : Prose pre)
    (hfenced : ¬ Fenced '\x7b' '\x7d' (pre ++ (findingsJson (finding :: findings) ++ suf)))
    (hread : serde.readFinding finding.json = .ok finding) :
    bareObjects serde (trimStart (extractJsonValue
      (pre ++ (findingsJson (finding :: findings) ++ suf)) '\x7b' '\x7d').tail) = [finding] := by
  have hsolid := solid_findingsJson (finding :: findings)
  obtain ⟨inner, hinner⟩ := json_eq_cons finding
  have hjson : findingsJson (finding :: findings) =
      '[' :: (finding.json ++ elementsRest (findings.map Finding.json)) := rfl
  have htext : (trimmed (pre ++ (findingsJson (finding :: findings) ++ suf))).text =
      (trimStart pre ++ ['[']) ++ '\x7b' ::
        (inner ++ (elementsRest (findings.map Finding.json) ++ trimEnd suf)) := by
    rw [trimmed, hsolid.text_trim, hjson, hinner]
    simp
  have hbrace : '\x7b' ∉ trimStart pre ++ ['['] := by
    rw [List.mem_append, List.mem_singleton]
    rintro (hmem | heq)
    · exact not_mem_trimStart (fun hmem => (hpre.plain _ hmem).2.1 rfl) hmem
    · exact absurd heq (by decide)
  have hmatch : matchingDelimiter ('\x7b' ::
      (inner ++ (elementsRest (findings.map Finding.json) ++ trimEnd suf))) '\x7b' '\x7d' =
        some (finding.json.length - 1) := by
    rw [← List.cons_append, ← hinner, matchingDelimiter_json]
  have htail : (extractJsonValue (pre ++ (findingsJson (finding :: findings) ++ suf))
      '\x7b' '\x7d').tail =
        finding.json ++ (elementsRest (findings.map Finding.json) ++ suf) := by
    rw [extract_of_first hfenced htext hbrace hmatch, trimmed, hsolid.tail_trim, hjson]
    simp [List.drop_append]
  have hstop : (trimStart (elementsRest (findings.map Finding.json) ++ suf)).head? ≠
      some '\x7b' := by
    cases findings with
    | nil =>
      have hclose : trimStart (elementsRest ([].map Finding.json) ++ suf) = ']' :: suf :=
        List.dropWhile_cons_of_neg (by decide)
      rw [hclose, List.head?_cons]
      decide
    | cons next findings =>
      have hcomma : ∀ l : List Char, trimStart (',' :: l) = ',' :: l := fun l =>
        List.dropWhile_cons_of_neg (by decide)
      rw [List.map_cons, elementsRest, List.cons_append, hcomma, List.head?_cons]
      decide
  have hbegins : trimStart (finding.json ++ (elementsRest (findings.map Finding.json) ++ suf)) =
      finding.json ++ (elementsRest (findings.map Finding.json) ++ suf) := by
    rw [hinner, List.cons_append, trimStart_brace]
  rw [htail, hbegins, bareObjects_json hread, bareObjects_stop hstop]

theorem findingsJson_read_iff (hserde : serde.Reads) (hpre : Prose pre) (hsuf : Closing suf)
    (hread : serde.readFindings (findingsJson findings) = .ok findings)
    (hobjects : ∀ f ∈ findings, serde.readFinding f.json = .ok f) :
    parseFindingsRepaired serde (pre ++ (findingsJson findings ++ suf)) = .ok findings ↔
      ArrayClear pre findings suf := by
  cases findings with
  | nil => exact iff_of_true (findingsJson_nil_read hserde hpre hsuf hread) (.inl rfl)
  | cons finding findings =>
    by_cases hclear : '[' ∉ pre ∧
        ¬ Fenced '[' ']' (pre ++ (findingsJson (finding :: findings) ++ suf))
    · refine iff_of_true (parseFindings_of_read ?_) (.inr (.inl hclear))
      rw [extract_findingsJson hclear.1 hclear.2, hread]
    have hreads : ∀ fs, serde.readFindings (extractJsonValue
        (pre ++ (findingsJson (finding :: findings) ++ suf)) '[' ']').text = .ok fs →
          TakesEmpty (pre ++ (findingsJson (finding :: findings) ++ suf)) := by
      intro fs h
      obtain ⟨x, body, hreply, htext, hplace⟩ := reads_extract hserde h
      have hx : x ≠ pre := by
        rintro rfl
        rcases hplace with ⟨-, htick⟩ | ⟨hnone, hbracket⟩
        · exact (hpre.plain _ htick).2.2.2 rfl
        · exact hclear ⟨hbracket, fun hfenced => hfenced hnone⟩
      obtain ⟨z, hz⟩ := Slice.text_prefix (s := extractJsonValue
        (pre ++ (findingsJson (finding :: findings) ++ suf)) '[' ']')
      rw [htext] at hz
      refine takesEmpty_of_reads hserde h ?_
      rw [htext] at h ⊢
      exact quiet_findingsJson hserde hpre hsuf x (body ++ z) body fs
        (by rw [← List.cons_append, hz]; exact hreply) hx (List.prefix_append _ _) h
    by_cases htakes : TakesEmpty (pre ++ (findingsJson (finding :: findings) ++ suf))
    · rw [parseFindings_of_read (reads_of_takesEmpty hserde htakes)]
      refine iff_of_false (fun heq => ?_) ?_
      · cases heq
      · rintro (heq | hfirst | ⟨hnot, -⟩)
        · cases heq
        · exact hclear hfirst
        · exact hnot htakes
    cases herror : serde.readFindings (extractJsonValue
        (pre ++ (findingsJson (finding :: findings) ++ suf)) '[' ']').text with
    | ok fs => exact absurd (hreads fs herror) htakes
    | error e =>
      by_cases hfenced : Fenced '\x7b' '\x7d' (pre ++ (findingsJson (finding :: findings) ++ suf))
      · refine iff_of_true ?_ (.inr (.inr ⟨htakes, .inr hfenced⟩))
        obtain ⟨r, htail, hin⟩ := inside_of_fenced hpre hsuf hfenced
        have hbare : bareObjects serde (trimStart (extractJsonValue
            (pre ++ (findingsJson (finding :: findings) ++ suf)) '\x7b' '\x7d').tail) = [] := by
          rw [htail, trimStart_brace, bareObjects_inside hserde hin]
        rw [parseFindings_of_repair herror hbare, repairFindingsArray_eq hserde hpre hsuf hread,
          Option.elim_some]
      · have hbare := bareObjects_findingsJson hpre hfenced (hobjects finding List.mem_cons_self)
        rw [parseFindings_of_bare herror hbare (by simp)]
        constructor
        · intro heq
          have hsame := (List.cons.inj (Except.ok.inj heq)).2
          exact .inr (.inr ⟨htakes, .inl (by rw [← hsame]; rfl)⟩)
        · rintro (heq | hfirst | ⟨-, hone | hobject⟩)
          · cases heq
          · exact absurd hfirst hclear
          · rw [List.length_cons, Nat.succ_inj, List.length_eq_zero_iff] at hone
            rw [hone]
          · exact absurd hobject hfenced

end

section

variable {ε : Type} {pre suf t : List Char} {findings : List Finding}

/-- An array in a `json` fence of its own is always read. An array in prose is read when it is
clear, and objects one after another are when the reply offers no empty array first and, in prose,
no fence holds an object. -/
theorem parseFindingsRepaired_read_iff (serde : SerdeJson ε) (hserde : serde.Reads)
    (hpre : Prose pre) (hsuf : Closing suf)
    (hread : serde.readFindings (findingsJson findings) = .ok findings)
    (hobjects : ∀ f ∈ findings, serde.readFinding f.json = .ok f) :
    (parseFindingsRepaired serde (pre ++ (findingsJson findings ++ suf)) = .ok findings ↔
      ArrayClear pre findings suf) ∧
    (¬ codeFence <:+: findingsJson findings →
      parseFindingsRepaired serde (pre ++ (fenced (findingsJson findings) ++ suf)) =
        .ok findings) ∧
    ∀ (finding : Finding) (more : List (List Char × Finding)),
      findings = finding :: more.map Prod.snd → Gaps more →
      (parseFindingsRepaired serde (pre ++ (spacedJson finding more ++ suf)) = .ok findings ↔
        ¬ TakesEmpty (pre ++ (spacedJson finding more ++ suf)) ∧
          ¬ Fenced '\x7b' '\x7d' (pre ++ (spacedJson finding more ++ suf))) ∧
      (¬ codeFence <:+: spacedJson finding more →
        (parseFindingsRepaired serde (pre ++ (fenced (spacedJson finding more) ++ suf)) =
            .ok findings ↔
          ¬ TakesEmpty (pre ++ (fenced (spacedJson finding more) ++ suf)))) := by
  refine ⟨findingsJson_read_iff hserde hpre hsuf hread hobjects,
    fun hfence => fencedFindings_read hpre hfence hread, ?_⟩
  rintro finding more rfl hgaps
  exact ⟨spacedJson_read_iff hserde hpre hsuf hgaps hobjects,
    fun hfence => fencedSpacedJson_read_iff hserde hpre hsuf hgaps hfence hobjects⟩

def readerOf (findings : List Finding) : SerdeJson Unit where
  readFindings t :=
    if isEmptyArray t then .ok []
    else if t = findingsJson findings then .ok findings
    else .error ()
  readFinding t :=
    match findings.find? fun f => f.json = t with
    | some f => .ok f
    | none => .error ()

theorem opensRecord_json (finding : Finding) (t : List Char) : OpensRecord (finding.json ++ t) := by
  have hkey : quoted "file" = '"' :: ['f', 'i', 'l', 'e', '"'] := by decide
  obtain ⟨rest, hrest⟩ : ∃ rest, finding.json ++ t =
      '\x7b' :: '"' :: 'f' :: 'i' :: 'l' :: 'e' :: '"' :: ':' :: rest := by
    have hmembers : ∃ ms, finding.members = ("file", .string finding.file) :: ms := ⟨_, rfl⟩
    obtain ⟨ms, hms⟩ := hmembers
    rw [Finding.json, hms, objectText, memberText, hkey]
    exact ⟨_, rfl⟩
  rw [hrest]
  refine ⟨'\x7b', _, List.dropWhile_cons_of_neg (by decide), .inr rfl, _, ':' :: rest,
    List.dropWhile_cons_of_neg (by decide), ?_, .inl ?_⟩
  · simp [afterString]
  · rfl

theorem reads_readerOf (findings : List Finding) : (readerOf findings).Reads where
  array_empty t h := by
    simp only [readerOf]
    rw [if_pos (isEmptyArray_iff.mpr h)]
  array_opens t fs h := by
    simp only [readerOf] at h
    split_ifs at h with hempty heq
    · exact .inl (isEmptyArray_iff.mp hempty)
    · subst heq
      cases findings with
      | nil => exact .inl ⟨[], [], [], rfl, by simp, by simp, by simp⟩
      | cons finding findings =>
        exact .inr ⟨_, List.dropWhile_cons_of_neg (by decide), opensRecord_json finding _⟩
  array_closes t fs h hhead := by
    simp only [readerOf] at h
    split_ifs at h with hempty heq
    · cases t with
      | nil => simp at hhead
      | cons c t =>
        rw [List.head?_cons, Option.some.injEq] at hhead
        subst hhead
        obtain ⟨b, c, rfl, hb, -⟩ := emptyArray_bracket (isEmptyArray_iff.mp hempty)
        rw [matchingDelimiter_inner (.inl ⟨rfl, rfl⟩) (.plains fun d hd => ?_)]
        · simp
        · obtain ⟨hquote, -, hmarker, hbracket⟩ := isBlank_ne (hb d hd)
          exact ⟨hquote, fun heq => hmarker (.inl heq), hbracket⟩
    · have hmatch := matchingDelimiter_findingsJson findings []
      rw [List.append_nil, ← heq] at hmatch
      rw [hmatch]
      simp
  object_opens t f h := by
    simp only [readerOf] at h
    split at h
    · rename_i found hfound
      have heq : found.json = t := by simpa using List.find?_some hfound
      rw [← heq, ← List.append_nil found.json]
      exact opensRecord_json found []
    · cases h

theorem not_fenced_of_no_tick {opening closing : Char} {reply : List Char}
    (h : Char.ofNat 96 ∉ reply) : ¬ Fenced opening closing reply := by
  intro hfenced
  obtain ⟨piece, hpiece⟩ := Option.ne_none_iff_exists'.mp hfenced
  obtain ⟨-, a, b, htail, -⟩ := fencedValue_place hpiece
  obtain ⟨w, hw, -⟩ := trimmed_tail reply
  have htick : Char.ofNat 96 ∈ codeFence := by decide
  refine h ?_
  rw [hw, htail]
  simp [htick]

theorem prose_of_all
    (h : (pre.all fun c => c != '"' && (c != '\x7b' && (c != '\x7d' && c != Char.ofNat 96))) = true)
    (hasides : pre.count '[' < maxRepairArrayStarts) : Prose pre :=
  ⟨by simpa using h, hasides⟩

def twoFindings : List Finding :=
  [⟨"a.rs", 1, "v", none, "c", "e", none⟩, ⟨"b.rs", 2, "v", none, "d", "e", none⟩]

theorem readerOf_twoFindings :
    (readerOf twoFindings).readFindings (findingsJson twoFindings) = .ok twoFindings ∧
      ∀ f ∈ twoFindings, (readerOf twoFindings).readFinding f.json = .ok f := by
  decide

theorem no_tick_twoFindings : Char.ofNat 96 ∉ findingsJson twoFindings := by
  decide

theorem closing_nil : Closing [] := fun _ h => absurd h List.not_mem_nil

theorem parseFindingsRepaired_read_iff_two :
    parseFindingsRepaired (readerOf twoFindings)
      ("Found: ".toList ++ (findingsJson twoFindings ++ [])) = .ok twoFindings := by
  have hpre : Prose "Found: ".toList := prose_of_all (by decide) (by decide)
  have htick : Char.ofNat 96 ∉ "Found: ".toList ++ (findingsJson twoFindings ++ []) := by
    rw [List.append_nil, List.mem_append]
    exact fun hmem => hmem.elim (by decide) no_tick_twoFindings
  exact (parseFindingsRepaired_read_iff (readerOf twoFindings) (reads_readerOf _) hpre closing_nil
    readerOf_twoFindings.1 readerOf_twoFindings.2).1.mpr
      (.inr (.inl ⟨by decide, not_fenced_of_no_tick htick⟩))

theorem aside_hides_findings : ∃ (serde : SerdeJson Unit) (pre suf : List Char)
    (findings : List Finding), serde.Reads ∧ Prose pre ∧ Closing suf ∧
      serde.readFindings (findingsJson findings) = .ok findings ∧
      (∀ f ∈ findings, serde.readFinding f.json = .ok f) ∧
      parseFindingsRepaired serde (pre ++ (findingsJson findings ++ suf)) ≠ .ok findings := by
  have hpre : Prose "Of [src/lib.rs]: ".toList := prose_of_all (by decide) (by decide)
  have htick : Char.ofNat 96 ∉ "Of [src/lib.rs]: ".toList ++ (findingsJson twoFindings ++ []) := by
    rw [List.append_nil, List.mem_append]
    exact fun hmem => hmem.elim (by decide) no_tick_twoFindings
  refine ⟨readerOf twoFindings, "Of [src/lib.rs]: ".toList, [], twoFindings, reads_readerOf _, hpre,
    closing_nil, readerOf_twoFindings.1, readerOf_twoFindings.2, fun hparse => ?_⟩
  rcases (findingsJson_read_iff (reads_readerOf _) hpre closing_nil readerOf_twoFindings.1
    readerOf_twoFindings.2).mp hparse with heq | ⟨hbracket, -⟩ | ⟨-, hone | hfenced⟩
  · cases heq
  · exact hbracket (by decide)
  · cases hone
  · exact not_fenced_of_no_tick htick hfenced

end

end SwissArmyHammer.Review
