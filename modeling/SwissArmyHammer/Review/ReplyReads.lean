import SwissArmyHammer.Review.ReplySearch

/-! What is read after the search: objects one after another, the repair of a reply, and JSON in a
fence of its own. -/

namespace SwissArmyHammer.Review

open JsonText Text

section

variable {ε : Type} {serde : SerdeJson ε} {reply pre suf x body t r a b : List Char}
  {finding : Finding} {findings fs : List Finding} {more : List (List Char × Finding)} {c : Char}

theorem bareObjects_stop (h : t.head? ≠ some '\x7b') : bareObjects serde t = [] := by
  rw [bareObjects, if_neg h]

theorem bareObjects_json (hread : serde.readFinding finding.json = .ok finding) :
    bareObjects serde (finding.json ++ t) = finding :: bareObjects serde (trimStart t) := by
  obtain ⟨inner, hinner⟩ := json_eq_cons finding
  have hhead : (finding.json ++ t).head? = some '\x7b' := by
    rw [hinner]
    rfl
  have hlength : finding.json.length - 1 + 1 = finding.json.length := by
    rw [hinner]
    rfl
  rw [bareObjects, if_pos hhead, matchingDelimiter_json]
  simp only [hlength, List.take_left', List.drop_left', hread]

theorem bareObjects_spacedJson (hgaps : Gaps more)
    (hread : ∀ f ∈ finding :: more.map Prod.snd, serde.readFinding f.json = .ok f)
    (hstop : (trimStart t).head? ≠ some '\x7b') :
    bareObjects serde (spacedJson finding more ++ t) = finding :: more.map Prod.snd := by
  induction more generalizing finding with
  | nil =>
    rw [spacedJson, bareObjects_json (hread finding List.mem_cons_self), bareObjects_stop hstop]
    rfl
  | cons gap more ih =>
    obtain ⟨gap, next⟩ := gap
    obtain ⟨inner, hinner⟩ := spacedJson_eq_cons next more
    have htrim : trimStart (gap ++ (spacedJson next more ++ t)) = spacedJson next more ++ t := by
      rw [trimStart, List.dropWhile_append_of_pos fun c hc => hgaps _ List.mem_cons_self c hc,
        hinner, List.cons_append, List.dropWhile_cons_of_neg (by decide)]
    rw [spacedJson, List.append_assoc, List.append_assoc,
      bareObjects_json (hread finding List.mem_cons_self), htrim,
      ih (fun g hg => hgaps g (List.mem_cons_of_mem _ hg)) fun f hf =>
        hread f (List.mem_cons_of_mem _ hf)]
    rfl

theorem bareObjects_inside (hserde : serde.Reads) (h : Inside r) :
    bareObjects serde ('\x7b' :: r) = [] := by
  rw [bareObjects, if_pos List.head?_cons]
  cases hmatch : matchingDelimiter ('\x7b' :: r) '\x7b' '\x7d' with
  | none => rfl
  | some stop =>
    cases hread : serde.readFinding (('\x7b' :: r).take (stop + 1)) with
    | error e => simp only [hread]
    | ok f =>
      exfalso
      obtain ⟨bracket, rest, hopen, -, hkey⟩ := hserde.object_opens _ _ hread
      obtain ⟨-, rfl⟩ := List.cons.inj hopen
      exact h.not_opensKey (List.take_prefix _ _) hkey

theorem extractJsonValue_suffix (reply : List Char) (opening closing : Char) :
    ∃ x, reply = x ++ (extractJsonValue reply opening closing).tail := by
  obtain ⟨w, hw, -⟩ := trimmed_tail reply
  have hdrop : ∀ n, ∃ x, reply = x ++ (trimmed reply).tail.drop n := fun n =>
    ⟨w ++ (trimmed reply).tail.take n, by
      rw [List.append_assoc, List.take_append_drop]
      exact hw⟩
  rw [extractJsonValue_eq]
  cases hfenced : fencedValue (trimmed reply) opening closing with
  | some piece =>
    obtain ⟨-, a, b, htail, -⟩ := fencedValue_place hfenced
    refine ⟨w ++ (a ++ (codeFence ++ b)), ?_⟩
    conv_lhs => rw [hw, htail]
    simp
  | none =>
    cases hbalanced : balancedValue (trimmed reply) opening closing with
    | some piece =>
      obtain ⟨start, -, hpiece⟩ := Option.bind_eq_some_iff.mp hbalanced
      obtain ⟨stop, -, rfl⟩ := Option.map_eq_some_iff.mp hpiece
      exact hdrop start
    | none =>
      cases hspanning : spanningValue (trimmed reply) opening closing with
      | some piece =>
        obtain ⟨start, -, hpiece⟩ := Option.bind_eq_some_iff.mp hspanning
        obtain ⟨stop, -, hpiece⟩ := Option.bind_eq_some_iff.mp hpiece
        obtain ⟨-, hpiece⟩ := Option.ite_none_right_eq_some.mp hpiece
        obtain rfl := Option.some.inj hpiece
        exact hdrop start
      | none => exact ⟨w, hw⟩

def Fenced (opening closing : Char) (reply : List Char) : Prop :=
  fencedValue (trimmed reply) opening closing ≠ none

theorem extract_of_fenced (h : Fenced '\x7b' '\x7d' reply) :
    ∃ x r, (extractJsonValue reply '\x7b' '\x7d').tail = '\x7b' :: r ∧
      reply = x ++ '\x7b' :: r ∧ Char.ofNat 96 ∈ x ∧
      fencedValue (trimmed reply) '\x7b' '\x7d' = some (extractJsonValue reply '\x7b' '\x7d') := by
  obtain ⟨piece, hpiece⟩ := Option.ne_none_iff_exists'.mp h
  have hextract : extractJsonValue reply '\x7b' '\x7d' = piece := by
    rw [extractJsonValue_eq, hpiece]
    rfl
  obtain ⟨w, hw, -⟩ := trimmed_tail reply
  obtain ⟨hhead, a, b, htail, -⟩ := fencedValue_place hpiece
  obtain ⟨z, hz⟩ := Slice.text_prefix (s := piece)
  obtain ⟨r, hr⟩ : ∃ r, piece.tail = '\x7b' :: r := by
    cases htext : piece.text with
    | nil => simp [htext] at hhead
    | cons c text =>
      rw [htext, List.head?_cons, Option.some.injEq] at hhead
      exact ⟨text ++ z, by rw [← hz, htext, hhead]; rfl⟩
  refine ⟨w ++ (a ++ (codeFence ++ b)), r, by rw [hextract, hr], ?_, ?_, by rw [hextract, hpiece]⟩
  · rw [← hr]
    conv_lhs => rw [hw, htail]
    simp
  · have hfence : Char.ofNat 96 ∈ codeFence := by decide
    simp [hfence]

theorem extract_of_first {n : Nat} (hfenced : ¬ Fenced '\x7b' '\x7d' reply)
    (htext : (trimmed reply).text = a ++ '\x7b' :: b) (ha : '\x7b' ∉ a)
    (hmatch : matchingDelimiter ('\x7b' :: b) '\x7b' '\x7d' = some n) :
    (extractJsonValue reply '\x7b' '\x7d').tail = (trimmed reply).tail.drop a.length := by
  have hbalanced : balancedValue (trimmed reply) '\x7b' '\x7d' =
      some (((trimmed reply).drop a.length).take (n + 1)) := by
    rw [balancedValue, htext, findFirst_singleton ha, Option.bind_some, List.drop_left, hmatch]
    rfl
  rw [extractJsonValue_eq, not_not.mp hfenced, hbalanced]
  rfl

theorem solid_of_ends {body inner : List Char} {first last : Char}
    (h : body = first :: (inner ++ [last])) (hfirst : isWhitespace first = false)
    (hlast : isWhitespace last = false) : Solid body := by
  subst h
  refine ⟨fun c hc => ?_, fun c hc => ?_, by simp⟩
  · rw [List.head?_cons, Option.some.injEq] at hc
    rwa [← hc]
  · rw [← List.cons_append, List.getLast?_concat, Option.some.injEq] at hc
    rwa [← hc]

theorem solid_findingsJson (findings : List Finding) : Solid (findingsJson findings) := by
  obtain ⟨inner, hinner, -⟩ := arrayText_inner (scans_json findings)
  exact solid_of_ends hinner (by decide) (by decide)

theorem spacedJson_ends (finding : Finding) (more : List (List Char × Finding)) :
    ∃ inner, spacedJson finding more = '\x7b' :: (inner ++ ['\x7d']) := by
  induction more generalizing finding with
  | nil =>
    obtain ⟨inner, hinner, -⟩ := objectText_inner finding.members
    exact ⟨inner, hinner⟩
  | cons gap more ih =>
    obtain ⟨gap, next⟩ := gap
    obtain ⟨inner, hinner⟩ := ih next
    obtain ⟨start, hstart⟩ := json_eq_cons finding
    refine ⟨start ++ (gap ++ '\x7b' :: inner), ?_⟩
    rw [spacedJson, hinner, hstart]
    simp

theorem solid_spacedJson (finding : Finding) (more : List (List Char × Finding)) :
    Solid (spacedJson finding more) := by
  obtain ⟨inner, hinner⟩ := spacedJson_ends finding more
  exact solid_of_ends hinner (by decide) (by decide)

theorem solid_fenced (json : List Char) : Solid (fenced json) := by
  have hopen : jsonCodeFence = Char.ofNat 96 :: jsonCodeFence.tail := by decide
  have hclose : codeFence = codeFence.dropLast ++ [Char.ofNat 96] := by decide
  refine @solid_of_ends _ (jsonCodeFence.tail ++ ('\n' :: (json ++ '\n' :: codeFence.dropLast)))
    (Char.ofNat 96) (Char.ofNat 96) ?_ (by decide) (by decide)
  conv_lhs => rw [fenced, hopen, hclose]
  simp

theorem not_mem_trimStart (h : c ∉ pre) : c ∉ trimStart pre := fun hmem =>
  h ((List.dropWhile_sublist _).subset hmem)

end

section

variable {ε : Type} {serde : SerdeJson ε} {reply pre suf x body t r a b : List Char}
  {finding : Finding} {findings fs : List Finding} {more : List (List Char × Finding)} {c : Char}

theorem matchIndices_append : matchIndices c (a ++ b) =
    matchIndices c a ++ (matchIndices c b).map (a.length + ·) := by
  rw [matchIndices, matchIndices, List.length_append, List.range_add,
    List.filter_append, List.filter_map]
  congr 1
  · refine List.filter_congr fun i hi => ?_
    rw [List.getElem?_append_left (List.mem_range.mp hi)]
  · congr 1
    refine List.filter_congr fun i hi => ?_
    simp [List.getElem?_append_right]

theorem mem_matchIndices {i : Nat} (h : i ∈ matchIndices c a) :
    i < a.length ∧ ∃ p, a = a.take i ++ c :: p := by
  obtain ⟨hi, hc⟩ := List.mem_filter.mp h
  have hget : a[i]? = some c := by simpa using hc
  refine ⟨List.mem_range.mp hi, a.drop (i + 1), ?_⟩
  obtain ⟨hlt, hget⟩ := List.getElem?_eq_some_iff.mp hget
  rw [← hget, List.getElem_cons_drop, List.take_append_drop]

theorem length_matchIndices : (matchIndices c a).length = a.count c := by
  induction a using List.reverseRecOn with
  | nil => rfl
  | append_singleton a d ih =>
    rw [matchIndices_append, List.length_append, ih, List.count_append]
    by_cases hd : d = c
    · subst hd
      simp [matchIndices]
    · simp [matchIndices, hd]

theorem findLast_eq (h : c ∉ b) : findLast c (a ++ c :: b) = some a.length := by
  have hreverse : (a ++ c :: b).reverse = b.reverse ++ c :: a.reverse := by simp
  have hlast : c ∉ b.reverse := by rwa [List.mem_reverse]
  rw [findLast, hreverse, findFirst_singleton hlast, Option.map_some, List.length_append,
    List.length_cons, List.length_reverse]
  congr 1
  omega

theorem repairFindingsArray_eq (hserde : serde.Reads) (hpre : Prose pre) (hsuf : Closing suf)
    (hread : serde.readFindings (findingsJson findings) = .ok findings) :
    repairFindingsArray serde (pre ++ (findingsJson findings ++ suf)) = some findings := by
  obtain ⟨inner, hinner, -⟩ := arrayText_inner (scans_json findings)
  have hjson : findingsJson findings = '[' :: (inner ++ [']']) := hinner
  have hreply : pre ++ (findingsJson findings ++ suf) = (pre ++ '[' :: inner) ++ ']' :: suf := by
    rw [hjson]
    simp
  have hlast : findLast ']' (pre ++ (findingsJson findings ++ suf)) =
      some (pre.length + (inner.length + 1)) := by
    rw [hreply, findLast_eq fun hmem => (hsuf _ hmem).2.2.2 rfl, List.length_append,
      List.length_cons]
  obtain ⟨later, hlater⟩ : ∃ later, matchIndices '[' (findingsJson findings ++ suf) =
      0 :: later := by
    have happend : findingsJson findings ++ suf = ['['] ++ (inner ++ ']' :: suf) := by
      rw [hjson]
      simp
    have hone : matchIndices '[' ['['] = [0] := by decide
    rw [happend, matchIndices_append]
    exact ⟨_, rfl⟩
  have hindices : matchIndices '[' (pre ++ (findingsJson findings ++ suf)) =
      matchIndices '[' pre ++ (pre.length :: later.map (pre.length + ·)) := by
    rw [matchIndices_append, hlater]
    rfl
  have hbefore : ∀ i ∈ matchIndices '[' pre,
      decide (i < pre.length + (inner.length + 1)) = true := by
    intro i hi
    have hlt := (mem_matchIndices hi).1
    exact decide_eq_true (by omega)
  have hcount : (matchIndices '[' pre).length < maxRepairArrayStarts := by
    rw [length_matchIndices]
    exact hpre.asides
  -- no aside is an array of findings up to the last bracket
  have hnone : ∀ i ∈ matchIndices '[' pre,
      (serde.readFindings (((pre ++ (findingsJson findings ++ suf)).drop i).take
        (pre.length + (inner.length + 1) - i + 1))).toOption = none := by
    intro i hi
    obtain ⟨hlt, p, hp⟩ := mem_matchIndices hi
    have hlength : (pre.take i).length = i := by
      rw [List.length_take]
      omega
    have hpre' : pre.length = i + (p.length + 1) := by
      conv_lhs => rw [hp]
      rw [List.length_append, hlength, List.length_cons]
    have hdrop : (pre ++ (findingsJson findings ++ suf)).drop i =
        '[' :: (p ++ (findingsJson findings ++ suf)) := by
      conv_lhs => rw [hp, List.append_assoc]
      rw [List.drop_left' hlength, List.cons_append]
    have htake : ('[' :: (p ++ (findingsJson findings ++ suf))).take
        (pre.length + (inner.length + 1) - i + 1) = '[' :: (p ++ findingsJson findings) := by
      have hfull : ('[' :: (p ++ findingsJson findings)).length =
          pre.length + (inner.length + 1) - i + 1 := by
        rw [List.length_cons, List.length_append, hjson, List.length_cons, List.length_append,
          List.length_singleton]
        omega
      have happend : '[' :: (p ++ (findingsJson findings ++ suf)) =
          ('[' :: (p ++ findingsJson findings)) ++ suf := by simp
      rw [happend, ← hfull, List.take_left]
    rw [hdrop, htake]
    cases hread : serde.readFindings ('[' :: (p ++ findingsJson findings)) with
    | error e => rfl
    | ok fs =>
      exfalso
      have hne : pre.take i ≠ pre := fun heq => by
        rw [heq] at hlength
        omega
      have hsplit : pre ++ (findingsJson findings ++ suf) =
          pre.take i ++ '[' :: (p ++ (findingsJson findings ++ suf)) := by
        conv_lhs => rw [hp, List.append_assoc, List.cons_append]
      have hprefix : p ++ findingsJson findings <+: p ++ (findingsJson findings ++ suf) :=
        ⟨suf, List.append_assoc _ _ _⟩
      have hempty := quiet_findingsJson hserde hpre hsuf _ _ _ fs hsplit hne hprefix hread
      obtain ⟨b, c, heq, hb, hc⟩ := emptyArray_bracket hempty
      have hmem : '[' ∈ b ++ ']' :: c := by
        rw [← heq, hjson]
        simp
      rcases List.mem_append.mp hmem with hmem | hmem
      · exact (isBlank_ne (hb _ hmem)).2.2.1 (.inl rfl)
      · rcases List.mem_cons.mp hmem with heq | hmem
        · exact absurd heq (by decide)
        · exact (isBlank_ne (hc _ hmem)).2.2.1 (.inl rfl)
  have hhere : (serde.readFindings (((pre ++ (findingsJson findings ++ suf)).drop pre.length).take
      (pre.length + (inner.length + 1) - pre.length + 1))).toOption = some findings := by
    have hfull : (findingsJson findings).length = inner.length + 1 + 1 := by
      rw [hjson]
      simp
    rw [List.drop_left, Nat.add_sub_cancel_left, ← hfull, List.take_left, hread]
    rfl
  obtain ⟨n, hn⟩ := Nat.exists_eq_add_of_lt hcount
  have hleft : maxRepairArrayStarts - (matchIndices '[' pre).length = n + 1 := by omega
  have hstop : decide (pre.length < pre.length + (inner.length + 1)) = true :=
    decide_eq_true (by omega)
  rw [repairFindingsArray, hlast, Option.bind_some, hindices,
    List.takeWhile_append_of_pos hbefore, List.takeWhile_cons, if_pos hstop, List.take_append,
    List.findSome?_append, List.take_of_length_le hcount.le,
    List.findSome?_eq_none_iff.mpr hnone, Option.none_or, hleft, List.take_succ_cons,
    List.findSome?_cons, hhere]

theorem repairFindingsArray_quiet (hserde : serde.Reads) (hquiet : Quiet serde reply fun _ => True)
    (h : repairFindingsArray serde reply = some fs) : fs = [] := by
  obtain ⟨stop, -, h⟩ := Option.bind_eq_some_iff.mp h
  obtain ⟨start, hstart, h⟩ := List.exists_of_findSome?_eq_some h
  have hmem : start ∈ matchIndices '[' reply :=
    (List.takeWhile_sublist _).subset ((List.take_sublist _ _).subset hstart)
  obtain ⟨hlt, p, hp⟩ := mem_matchIndices hmem
  have hlength : (reply.take start).length = start := by
    rw [List.length_take]
    omega
  have hdrop : reply.drop start = '[' :: p := by
    conv_lhs => rw [hp]
    exact List.drop_left' hlength
  rw [hdrop, List.take_succ_cons] at h
  cases hread : serde.readFindings ('[' :: p.take (stop - start)) with
  | error e =>
    rw [hread] at h
    cases h
  | ok found =>
    rw [hread] at h
    obtain rfl : found = fs := Option.some.inj h
    have hempty := hserde.array_empty _
      (hquiet _ p _ found hp trivial (List.take_prefix _ _) hread)
    rw [hread] at hempty
    exact Except.ok.inj hempty

end

section

variable {ε : Type} {serde : SerdeJson ε} {reply pre suf x body t r a b : List Char}
  {finding : Finding} {findings fs : List Finding} {more : List (List Char × Finding)} {c : Char}

theorem parseFindings_of_read
    (h : serde.readFindings (extractJsonValue reply '[' ']').text = .ok fs) :
    parseFindingsRepaired serde reply = .ok fs := by
  rw [parseFindingsRepaired, parseFindings, h]

theorem parseFindings_of_bare {e : ε}
    (h : serde.readFindings (extractJsonValue reply '[' ']').text = .error e)
    (hbare : bareObjects serde (trimStart (extractJsonValue reply '\x7b' '\x7d').tail) = fs)
    (hne : fs ≠ []) : parseFindingsRepaired serde reply = .ok fs := by
  rw [parseFindingsRepaired, parseFindings, h]
  simp only [parseBareObjectFindings, hbare, if_neg hne]

theorem parseFindings_of_repair {e : ε}
    (h : serde.readFindings (extractJsonValue reply '[' ']').text = .error e)
    (hbare : bareObjects serde (trimStart (extractJsonValue reply '\x7b' '\x7d').tail) = []) :
    parseFindingsRepaired serde reply =
      (repairFindingsArray serde reply).elim (.error e) .ok := by
  rw [parseFindingsRepaired, parseFindings, h]
  simp only [parseBareObjectFindings, hbare, if_pos]
  cases repairFindingsArray serde reply <;> rfl

theorem trimStart_brace : trimStart ('\x7b' :: r) = '\x7b' :: r :=
  List.dropWhile_cons_of_neg (by decide)

theorem Closing.no_brace (h : Closing suf) : (trimStart suf).head? ≠ some '\x7b' := by
  intro hhead
  have hmem : '\x7b' ∈ trimStart suf := List.mem_of_mem_head? hhead
  exact (h _ ((List.dropWhile_sublist _).subset hmem)).2.1 (.inr (.inl rfl))

theorem Quiet.cases (hserde : serde.Reads) (h : Quiet serde reply fun _ => True) :
    (TakesEmpty reply ∧ parseFindingsRepaired serde reply = .ok []) ∨
      ¬ TakesEmpty reply ∧
        ∃ e, serde.readFindings (extractJsonValue reply '[' ']').text = .error e := by
  by_cases htakes : TakesEmpty reply
  · exact .inl ⟨htakes, parseFindings_of_read (reads_of_takesEmpty hserde htakes)⟩
  · refine .inr ⟨htakes, ?_⟩
    cases hread : serde.readFindings (extractJsonValue reply '[' ']').text with
    | error e => exact ⟨e, rfl⟩
    | ok fs =>
      obtain ⟨x, body, hreply, htext, -⟩ := reads_extract hserde hread
      obtain ⟨z, hz⟩ := Slice.text_prefix (s := extractJsonValue reply '[' ']')
      rw [htext] at hz
      refine absurd (takesEmpty_of_reads hserde hread ?_) htakes
      rw [htext] at hread ⊢
      have hsplit : reply = x ++ '[' :: (body ++ z) := by
        rw [← List.cons_append, hz]
        exact hreply
      exact h x (body ++ z) body fs hsplit trivial (List.prefix_append _ _) hread

theorem spacedJson_read_iff (hserde : serde.Reads) (hpre : Prose pre) (hsuf : Closing suf)
    (hgaps : Gaps more)
    (hread : ∀ f ∈ finding :: more.map Prod.snd, serde.readFinding f.json = .ok f) :
    parseFindingsRepaired serde (pre ++ (spacedJson finding more ++ suf)) =
        .ok (finding :: more.map Prod.snd) ↔
      ¬ TakesEmpty (pre ++ (spacedJson finding more ++ suf)) ∧
        ¬ Fenced '\x7b' '\x7d' (pre ++ (spacedJson finding more ++ suf)) := by
  have hquiet : Quiet serde (pre ++ (spacedJson finding more ++ suf)) fun _ => True :=
    quiet_spacedJson hserde hpre hsuf hgaps
  have hsolid := solid_spacedJson finding more
  obtain ⟨inner, hinner⟩ := spacedJson_eq_cons finding more
  rcases hquiet.cases hserde with ⟨htakes, hparse⟩ | ⟨htakes, e, herror⟩
  · grind
  by_cases hfenced : Fenced '\x7b' '\x7d' (pre ++ (spacedJson finding more ++ suf))
  · refine iff_of_false (fun hparse => ?_) fun h => h.2 hfenced
    obtain ⟨x, r, htail, hreply, htick, -⟩ := extract_of_fenced hfenced
    rcases split_or hreply with ⟨p, hp, -⟩ | ⟨x', hx, hx'⟩
    · exact (hpre.plain _ (hp ▸ List.mem_append_right x List.mem_cons_self)).2.1 rfl
    · rcases split_spacedJson hgaps (.inr (.inl rfl)) hsuf.outside hx' with
        ⟨rfl, -⟩ | hin | ⟨next, later, heq, hlength, hsuffix, first, hfirst⟩ | ⟨z, -, hz⟩
      · rw [hx, List.append_nil] at htick
        exact (hpre.plain _ htick).2.2.2 rfl
      · have hbare : bareObjects serde (trimStart (extractJsonValue
            (pre ++ (spacedJson finding more ++ suf)) '\x7b' '\x7d').tail) = [] := by
          rw [htail, trimStart_brace, bareObjects_inside hserde hin]
        rw [parseFindings_of_repair herror hbare] at hparse
        cases hrepair : repairFindingsArray serde (pre ++ (spacedJson finding more ++ suf)) with
        | none =>
          rw [hrepair] at hparse
          cases hparse
        | some fs =>
          rw [hrepair, repairFindingsArray_quiet hserde hquiet hrepair] at hparse
          cases hparse
      · have hlater : Gaps later := fun g hg => hgaps g (hsuffix.subset hg)
        have hbare : bareObjects serde (trimStart
            (extractJsonValue (pre ++ (spacedJson finding more ++ suf)) '\x7b' '\x7d').tail) =
              next :: later.map Prod.snd := by
          rw [htail, trimStart_brace, heq]
          refine bareObjects_spacedJson hlater (fun f hf => hread f ?_) hsuf.no_brace
          rw [hfirst]
          exact List.mem_append_right _ hf
        rw [parseFindings_of_bare herror hbare (by simp)] at hparse
        have hsame := congrArg List.length (Except.ok.inj hparse)
        simp at hsame
        omega
      · exact (hsuf _ (hz ▸ List.mem_append_right z List.mem_cons_self)).2.1 (.inr (.inl rfl))
  · refine iff_of_true ?_ ⟨htakes, hfenced⟩
    obtain ⟨json, hjson⟩ : ∃ rest, spacedJson finding more = finding.json ++ rest := by
      cases more with
      | nil => exact ⟨[], (List.append_nil _).symm⟩
      | cons gap more => exact ⟨_, rfl⟩
    have hmatch : matchingDelimiter (spacedJson finding more ++ trimEnd suf) '\x7b' '\x7d' =
        some (finding.json.length - 1) := by
      rw [hjson, List.append_assoc, matchingDelimiter_json]
    have hbrace : '\x7b' ∉ trimStart pre :=
      not_mem_trimStart fun hmem => (hpre.plain _ hmem).2.1 rfl
    have htail : (extractJsonValue (pre ++ (spacedJson finding more ++ suf)) '\x7b' '\x7d').tail =
        spacedJson finding more ++ suf := by
      have htext : (trimmed (pre ++ (spacedJson finding more ++ suf))).text =
          trimStart pre ++ '\x7b' :: (inner ++ trimEnd suf) := by
        rw [trimmed, hsolid.text_trim, hinner]
        rfl
      rw [extract_of_first hfenced htext hbrace (by rw [← hmatch, hinner]; rfl), trimmed,
        hsolid.tail_trim, List.drop_left]
    refine parseFindings_of_bare herror ?_ (by simp)
    rw [htail, hinner, List.cons_append, trimStart_brace, ← List.cons_append, ← hinner]
    exact bareObjects_spacedJson hgaps hread hsuf.no_brace

/-! A value in a `json` fence. -/

theorem findFirst_needle {d : Char} {needle : List Char} (h : d ∉ a) :
    findFirst (d :: needle) (a ++ (d :: needle ++ b)) = some a.length := by
  induction a with
  | nil =>
    rw [List.nil_append, List.cons_append, findFirst, if_pos]
    · rfl
    · rw [List.isPrefixOf_iff_prefix]
      exact List.prefix_append (d :: needle) b
  | cons e a ih =>
    have hne : d ≠ e := fun heq => h (heq ▸ List.mem_cons_self)
    have hnot : ¬ (d :: needle).isPrefixOf (e :: (a ++ (d :: needle ++ b))) = true := by
      simp [hne]
    rw [List.cons_append, findFirst, if_neg hnot, ih fun hmem => h (List.mem_cons_of_mem _ hmem)]
    rfl

theorem getElem?_codeFence {i : Nat} (h : i < codeFence.length) :
    codeFence[i]? = some (Char.ofNat 96) := by
  have hall : ∀ i < 3, codeFence[i]? = some (Char.ofNat 96) := by decide
  exact hall i h

theorem findFirst_codeFence {json : List Char} (h : ¬ codeFence <:+: json) :
    findFirst codeFence ('\n' :: (json ++ '\n' :: (codeFence ++ b))) = some (json.length + 2) := by
  have hlength : codeFence.length = 3 := rfl
  have hdrop : ('\n' :: (json ++ '\n' :: (codeFence ++ b))).drop (json.length + 2) =
      codeFence ++ b := by
    rw [List.drop_succ_cons, ← List.drop_drop, List.drop_left]
    rfl
  have hlast : Occurs codeFence ('\n' :: (json ++ '\n' :: (codeFence ++ b))) (json.length + 2) := by
    rw [Occurs, hdrop]
    exact List.prefix_append _ _
  cases hfind : findFirst codeFence ('\n' :: (json ++ '\n' :: (codeFence ++ b))) with
  | none => exact absurd hlast (findFirst_eq_none hfind _)
  | some q =>
    obtain ⟨hq, hfirst⟩ := findFirst_eq_some hfind
    rcases Nat.lt_trichotomy q (json.length + 2) with hlt | rfl | hgt
    · exfalso
      -- no fence holds a newline, so this one is in the content
      have hline : ∀ i, q ≤ i → i < q + 3 →
          ('\n' :: (json ++ '\n' :: (codeFence ++ b)))[i]? ≠ some '\n' := by
        intro i hle hi heq
        rw [hq.getElem? hle hi, getElem?_codeFence (by omega)] at heq
        exact absurd heq (by decide)
      have hzero : q ≠ 0 := by
        rintro rfl
        exact hline 0 (Nat.le_refl _) (by omega) rfl
      have hend : ¬ json.length + 1 < q + 3 := by
        intro hi
        refine hline (json.length + 1) (by omega) hi ?_
        rw [List.getElem?_cons_succ, List.getElem?_append_right (Nat.le_refl _), Nat.sub_self]
        rfl
      obtain ⟨p, rfl⟩ := Nat.exists_eq_succ_of_ne_zero hzero
      rw [Occurs, List.drop_succ_cons, List.drop_append_of_le_length (by omega)] at hq
      have hprefix : codeFence <+: json.drop p :=
        List.prefix_of_prefix_length_le hq (List.prefix_append _ _) (by
          rw [List.length_drop]
          omega)
      exact h <| List.IsInfix.trans hprefix.isInfix (List.drop_suffix p json).isInfix
    · rfl
    · exact absurd hlast (hfirst _ hgt)

theorem jsonFencedValue_fenced {json : List Char} {opening closing : Char} (hjson : Solid json)
    (hopening : json.head? = some opening) (hclosing : json.getLast? = some closing)
    (hfence : ¬ codeFence <:+: json) (hpre : Char.ofNat 96 ∉ pre) :
    ∃ piece, jsonFencedValue (trimmed (pre ++ (fenced json ++ suf))) opening closing = some piece ∧
      piece.text = json ∧ piece.tail = json ++ '\n' :: (codeFence ++ suf) := by
  have htext : (trimmed (pre ++ (fenced json ++ suf))).text =
      trimStart pre ++ (jsonCodeFence ++ '\n' :: (json ++ '\n' :: (codeFence ++ trimEnd suf))) := by
    rw [trimmed, (solid_fenced json).text_trim]
    simp [fenced]
  have htail : (trimmed (pre ++ (fenced json ++ suf))).tail =
      trimStart pre ++ (jsonCodeFence ++ '\n' :: (json ++ '\n' :: (codeFence ++ suf))) := by
    rw [trimmed, (solid_fenced json).tail_trim]
    simp [fenced]
  obtain ⟨hdropTail, hdropText⟩ := drop_fence htext
  rw [htail] at hdropTail
  have hbodyTail := (List.append_cancel_left (List.append_cancel_left hdropTail)).symm
  have hmarker : findFirst jsonCodeFence (trimmed (pre ++ (fenced json ++ suf))).text =
      some (trimStart pre).length := by
    have hcons : jsonCodeFence = Char.ofNat 96 :: jsonCodeFence.tail := by decide
    rw [htext, hcons]
    exact findFirst_needle (not_mem_trimStart hpre)
  have htake : ('\n' :: (json ++ '\n' :: (codeFence ++ trimEnd suf))).take (json.length + 2) =
      ['\n'] ++ (json ++ ['\n']) := by
    have happend : '\n' :: (json ++ '\n' :: (codeFence ++ trimEnd suf)) =
        (['\n'] ++ (json ++ ['\n'])) ++ (codeFence ++ trimEnd suf) := by simp
    have hlength : (['\n'] ++ (json ++ ['\n'])).length = json.length + 2 := by simp
    rw [happend, ← hlength, List.take_left]
  have hblank : trimStart ['\n'] = [] ∧ trimEnd ['\n'] = [] := by decide
  have hcontent : Text.trim (['\n'] ++ (json ++ ['\n'])) = json := by
    have h := @Solid.text_trim ['\n'] json ['\n'] hjson
    rwa [Slice.text_trim, Slice.text_whole, hblank.1, hblank.2, List.nil_append,
      List.append_nil] at h
  have hfirst : ((['\n'] ++ (json ++ ['\n'])).takeWhile isWhitespace).length = 1 := by
    obtain ⟨c, rest, rfl⟩ := List.exists_cons_of_ne_nil hjson.ne
    have hc : isWhitespace c = false := hjson.first c rfl
    have hline : isWhitespace '\n' = true := by decide
    rw [List.singleton_append, List.takeWhile_cons_of_pos hline, List.cons_append,
      List.takeWhile_cons_of_neg (by simp [hc])]
    rfl
  have hpieceText : (((trimmed (pre ++ (fenced json ++ suf))).drop
      ((trimStart pre).length + jsonCodeFence.length)).take (json.length + 2)).text =
        ['\n'] ++ (json ++ ['\n']) := by
    rw [Slice.text_take, hdropText, htake]
  refine ⟨(((trimmed (pre ++ (fenced json ++ suf))).drop
    ((trimStart pre).length + jsonCodeFence.length)).take (json.length + 2)).trim, ?_, ?_, ?_⟩
  · have hvalue : delimitedValue (((trimmed (pre ++ (fenced json ++ suf))).drop
        ((trimStart pre).length + jsonCodeFence.length)).take (json.length + 2)) opening closing =
          some (((trimmed (pre ++ (fenced json ++ suf))).drop
            ((trimStart pre).length + jsonCodeFence.length)).take (json.length + 2)).trim := by
      simp only [delimitedValue]
      rw [Slice.text_trim, hpieceText, hcontent, if_pos ⟨hopening, hclosing⟩]
    rw [jsonFencedValue, hmarker]
    simp only [hdropText, findFirst_codeFence hfence, Option.bind_some, hvalue]
  · rw [Slice.text_trim, hpieceText, hcontent]
  · rw [Slice.trim, hpieceText, hfirst]
    simp only [Slice.tail_take, hbodyTail, List.drop_succ_cons, List.drop_zero]

theorem fencedFindings_read (hpre : Prose pre) (hfence : ¬ codeFence <:+: findingsJson findings)
    (hread : serde.readFindings (findingsJson findings) = .ok findings) :
    parseFindingsRepaired serde (pre ++ (fenced (findingsJson findings) ++ suf)) =
      .ok findings := by
  obtain ⟨inner, hinner, -⟩ := arrayText_inner (scans_json findings)
  have hjson : findingsJson findings = '[' :: (inner ++ [']']) := hinner
  obtain ⟨piece, hpiece, htext, -⟩ := @jsonFencedValue_fenced pre suf _ '[' ']'
    (solid_findingsJson findings) (by rw [hjson]; rfl)
    (by rw [hjson, ← List.cons_append, List.getLast?_concat]) hfence
    fun hmem => (hpre.plain _ hmem).2.2.2 rfl
  refine parseFindings_of_read ?_
  rw [extractJsonValue_eq, fencedValue, hpiece, Option.some_or, Option.some_or, Option.some_or,
    Option.getD_some, htext, hread]

theorem fencedSpacedJson_read_iff (hserde : serde.Reads) (hpre : Prose pre) (hsuf : Closing suf)
    (hgaps : Gaps more) (hfence : ¬ codeFence <:+: spacedJson finding more)
    (hread : ∀ f ∈ finding :: more.map Prod.snd, serde.readFinding f.json = .ok f) :
    parseFindingsRepaired serde (pre ++ (fenced (spacedJson finding more) ++ suf)) =
        .ok (finding :: more.map Prod.snd) ↔
      ¬ TakesEmpty (pre ++ (fenced (spacedJson finding more) ++ suf)) := by
  have hquiet : Quiet serde (pre ++ (fenced (spacedJson finding more) ++ suf)) fun _ => True :=
    quiet_fenced hserde hpre hsuf hgaps
  rcases hquiet.cases hserde with ⟨htakes, hparse⟩ | ⟨htakes, e, herror⟩
  · grind
  · refine iff_of_true ?_ htakes
    obtain ⟨inner, hinner⟩ := spacedJson_ends finding more
    obtain ⟨piece, hpiece, -, htail⟩ := @jsonFencedValue_fenced pre suf _ '\x7b' '\x7d'
      (solid_spacedJson finding more)
      (by rw [hinner]; rfl) (by rw [hinner, ← List.cons_append, List.getLast?_concat]) hfence
      fun hmem => (hpre.plain _ hmem).2.2.2 rfl
    refine parseFindings_of_bare herror ?_ (by simp)
    rw [extractJsonValue_eq, fencedValue, hpiece, Option.some_or, Option.some_or, Option.some_or,
      Option.getD_some, htail]
    have hbrace : trimStart (spacedJson finding more ++ '\n' :: (codeFence ++ suf)) =
        spacedJson finding more ++ '\n' :: (codeFence ++ suf) := by
      rw [hinner, List.cons_append, trimStart_brace]
    rw [hbrace]
    refine bareObjects_spacedJson hgaps hread ?_
    have hstop : trimStart ('\n' :: (codeFence ++ suf)) = codeFence ++ suf := by
      have hcons : codeFence = Char.ofNat 96 :: codeFence.tail := by decide
      rw [hcons, trimStart, List.dropWhile_cons_of_pos (by decide), List.cons_append,
        List.dropWhile_cons_of_neg (by decide)]
    have hhead : (codeFence ++ suf).head? = some (Char.ofNat 96) := rfl
    rw [hstop, hhead]
    decide

end

end SwissArmyHammer.Review
