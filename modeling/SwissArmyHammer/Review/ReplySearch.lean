import SwissArmyHammer.Review.Reply

/-! What the search for an array of findings takes out of a reply, and where the brackets, braces
and fences of the JSON in it are. -/

namespace SwissArmyHammer.Review

open JsonText Text

section

variable {ε : Type} {serde : SerdeJson ε} {reply x body t : List Char} {fs : List Finding}

/-- What `serde_json` documents of the two calls, by the grammar of JSON: nothing is read as
findings but an array that is empty or opens a first record, whose brackets match outside strings;
a record is a map with a key, or a sequence with its first string. -/
structure SerdeJson.Reads (serde : SerdeJson ε) : Prop where
  array_empty : ∀ t, EmptyArray t → serde.readFindings t = .ok []
  array_opens : ∀ t fs, serde.readFindings t = .ok fs →
    EmptyArray t ∨ ∃ body, t.dropWhile isBlank = '[' :: body ∧ OpensRecord body
  array_closes : ∀ t fs, serde.readFindings t = .ok fs → t.head? = some '[' →
    matchingDelimiter t '[' ']' ≠ none
  object_opens : ∀ t f, serde.readFinding t = .ok f → OpensRecord t

theorem isWhitespace_of_isBlank {c : Char} (h : isBlank c = true) : isWhitespace c = true := by
  simp only [isBlank, Bool.or_eq_true, decide_eq_true_eq] at h
  rcases h with ((rfl | rfl) | rfl) | rfl <;> decide

theorem isWhitespace_ne {c : Char} (h : isWhitespace c = true) :
    c ≠ '"' ∧ c ≠ '\\' ∧ ¬ Marker c ∧ c ≠ ']' ∧ c ≠ '\x7d' :=
  ⟨ne_of_class h (by decide), ne_of_class h (by decide), not_marker_of_class h (by decide),
    ne_of_class h (by decide), ne_of_class h (by decide)⟩

theorem matchingFrom_append {opening closing : Char} {a b : List Char} {d n : Nat} {q e : Bool}
    (h : matchingFrom opening closing d q e a = some n) :
    matchingFrom opening closing d q e (a ++ b) = some n := by
  induction a generalizing d q e n with
  | nil => simp [matchingFrom] at h
  | cons c a ih =>
    have hmap : ∀ {d q e n}, (matchingFrom opening closing d q e a).map Nat.succ = some n →
        (matchingFrom opening closing d q e (a ++ b)).map Nat.succ = some n := by
      intro d q e n hn
      obtain ⟨m, hm, rfl⟩ := Option.map_eq_some_iff.mp hn
      rw [ih hm, Option.map_some]
    cases e with
    | true => exact hmap h
    | false =>
      rw [List.cons_append, matchingFrom]
      rw [matchingFrom] at h
      split_ifs at h ⊢
      all_goals first | exact h | exact hmap h

theorem matchingDelimiter_of_prefix {opening closing : Char} {s : List Char} (ht : t <+: s)
    (h : matchingDelimiter t opening closing ≠ none) :
    matchingDelimiter s opening closing ≠ none := by
  obtain ⟨more, rfl⟩ := ht
  obtain ⟨n, hn⟩ := Option.ne_none_iff_exists'.mp h
  rw [matchingDelimiter, matchingFrom_append hn]
  simp

def trimmed (reply : List Char) : Slice := (Slice.whole reply).trim

theorem trimmed_tail (reply : List Char) :
    ∃ a, reply = a ++ (trimmed reply).tail ∧ ∀ c ∈ a, isWhitespace c = true :=
  Slice.tail_trim (s := Slice.whole reply)

theorem head_trimmed {c : Char} (h : (trimmed reply).text.head? = some c) :
    isWhitespace c = false := by
  rw [trimmed, Slice.text_trim] at h
  obtain ⟨more, hmore⟩ := Slice.isPrefix_trim reply
  have hhead : (reply.dropWhile isWhitespace).head? = some c := by
    rw [← hmore]
    cases htrim : Text.trim reply with
    | nil => simp [htrim] at h
    | cons d l => simpa [htrim] using h
  have hnot := List.head?_dropWhile_not isWhitespace reply
  rw [hhead] at hnot
  simpa using hnot

theorem extractJsonValue_eq (reply : List Char) (opening closing : Char) :
    extractJsonValue reply opening closing =
      (((fencedValue (trimmed reply) opening closing).or
        (balancedValue (trimmed reply) opening closing)).or
          (spanningValue (trimmed reply) opening closing)).getD (trimmed reply) := rfl

theorem SerdeJson.Reads.head (hserde : serde.Reads) (h : serde.readFindings t = .ok fs)
    (hhead : ∀ c, t.head? = some c → isBlank c = false) : t.head? = some '[' := by
  have hdrop : t.dropWhile isBlank = t := by
    cases t with
    | nil => rfl
    | cons c t => exact List.dropWhile_cons_of_neg (by simp [hhead c rfl])
  rcases hserde.array_opens t fs h with ⟨a, b, c, rfl, ha, -⟩ | ⟨body, hbody, -⟩
  · cases a with
    | nil => rfl
    | cons d a =>
      grind
  · rw [hdrop] at hbody
    rw [hbody]
    rfl

theorem reads_extract (hserde : serde.Reads)
    (h : serde.readFindings (extractJsonValue reply '[' ']').text = .ok fs) :
    ∃ x body, reply = x ++ (extractJsonValue reply '[' ']').tail ∧
      (extractJsonValue reply '[' ']').text = '[' :: body ∧
      ((fencedValue (trimmed reply) '[' ']' = some (extractJsonValue reply '[' ']') ∧
          Char.ofNat 96 ∈ x) ∨
        fencedValue (trimmed reply) '[' ']' = none ∧ '[' ∉ x) := by
  obtain ⟨w, hw, hblank⟩ := trimmed_tail reply
  have hplain : '[' ∉ w := fun hmem => (isWhitespace_ne (hblank _ hmem)).2.2.1 (.inl rfl)
  rw [extractJsonValue_eq] at h ⊢
  cases hfenced : fencedValue (trimmed reply) '[' ']' with
  | some piece =>
    simp only [hfenced, Option.some_or, Option.getD_some] at h ⊢
    obtain ⟨hhead, a, b, htail, -⟩ := fencedValue_place hfenced
    obtain ⟨body, hbody⟩ : ∃ body, piece.text = '[' :: body := by
      cases htext : piece.text with
      | nil => simp [htext] at hhead
      | cons c body =>
        rw [htext, List.head?_cons, Option.some.injEq] at hhead
        exact ⟨body, by rw [hhead]⟩
    refine ⟨w ++ (a ++ (codeFence ++ b)), body, ?_, hbody, .inl ⟨trivial, ?_⟩⟩
    · rw [hw, htail]
      simp
    · have hfence : Char.ofNat 96 ∈ codeFence := by decide
      simp [hfence]
  | none =>
    simp only [hfenced, Option.none_or] at h ⊢
    cases hbalanced : balancedValue (trimmed reply) '[' ']' with
    | some piece =>
      simp only [hbalanced, Option.some_or, Option.getD_some] at h ⊢
      obtain ⟨start, hstart, hpiece⟩ := Option.bind_eq_some_iff.mp hbalanced
      obtain ⟨stop, -, rfl⟩ := Option.map_eq_some_iff.mp hpiece
      obtain ⟨a, b, htext, ha, rfl⟩ := findFirst_singleton_eq_some hstart
      obtain ⟨more, hmore⟩ := Slice.text_prefix (s := trimmed reply)
      refine ⟨w ++ a, b.take stop, ?_, ?_, .inr ⟨trivial, ?_⟩⟩
      · rw [Slice.tail_take, Slice.tail_drop, ← hmore, htext]
        conv_lhs => rw [hw, ← hmore, htext]
        simp
      · rw [Slice.text_take, Slice.text_drop, htext, List.drop_left, List.take_succ_cons]
      · rw [List.mem_append]
        exact fun hmem => hmem.elim hplain ha
    | none =>
      exfalso
      simp only [hbalanced, Option.none_or] at h
      -- what begins with the first bracket, or is the whole reply, does not balance
      have hnone : ∀ a b, (trimmed reply).text = a ++ '[' :: b → '[' ∉ a → ∀ t,
          t <+: '[' :: b → t.head? = some '[' → serde.readFindings t ≠ .ok fs := by
        intro a b htext ha t ht hhead hread
        have hsome := matchingDelimiter_of_prefix ht (hserde.array_closes t fs hread hhead)
        obtain ⟨stop, hstop⟩ := Option.ne_none_iff_exists'.mp hsome
        rw [balancedValue, htext, findFirst_singleton ha, Option.bind_some, List.drop_left,
          hstop] at hbalanced
        cases hbalanced
      cases hspanning : spanningValue (trimmed reply) '[' ']' with
      | some piece =>
        simp only [hspanning, Option.getD_some] at h
        obtain ⟨start, hstart, hpiece⟩ := Option.bind_eq_some_iff.mp hspanning
        obtain ⟨stop, -, hpiece⟩ := Option.bind_eq_some_iff.mp hpiece
        obtain ⟨-, hpiece⟩ := Option.ite_none_right_eq_some.mp hpiece
        obtain rfl := Option.some.inj hpiece
        obtain ⟨a, b, htext, ha, rfl⟩ := findFirst_singleton_eq_some hstart
        rw [Slice.text_take, Slice.text_drop, htext, List.drop_left] at h
        exact hnone a b htext ha _ (List.take_prefix _ _) rfl h
      | none =>
        simp only [hspanning, Option.getD_none] at h
        have hhead : (trimmed reply).text.head? = some '[' := hserde.head h fun c hc => by
          by_contra hne
          rw [Bool.not_eq_false] at hne
          have hwhite := head_trimmed hc
          rw [isWhitespace_of_isBlank hne] at hwhite
          cases hwhite
        obtain ⟨b, hb⟩ : ∃ b, (trimmed reply).text = '[' :: b := by
          cases htext : (trimmed reply).text with
          | nil => simp [htext] at hhead
          | cons c b =>
            rw [htext, List.head?_cons, Option.some.injEq] at hhead
            exact ⟨b, by rw [hhead]⟩
        exact hnone [] b hb List.not_mem_nil _ (hb ▸ List.prefix_refl _) hhead h

def OpensEmpty (text : List Char) : Prop :=
  ∃ x b y, text = x ++ '[' :: (b ++ ']' :: y) ∧ '[' ∉ x ∧ ∀ c ∈ b, isBlank c = true

/-- What the reply offers first as an array is an empty one: the array of a fence, and without one
what the first bracket opens. -/
def TakesEmpty (reply : List Char) : Prop :=
  match fencedValue (trimmed reply) '[' ']' with
  | some piece => EmptyArray piece.text
  | none => OpensEmpty reply

theorem emptyArray_bracket (h : EmptyArray ('[' :: body)) :
    ∃ b c, body = b ++ ']' :: c ∧ (∀ d ∈ b, isBlank d = true) ∧ ∀ d ∈ c, isBlank d = true := by
  obtain ⟨a, b, c, heq, ha, hb, hc⟩ := h
  cases a with
  | nil => exact ⟨b, c, (List.cons.inj heq).2, hb, hc⟩
  | cons d a =>
    grind

theorem takesEmpty_of_reads (hserde : serde.Reads)
    (h : serde.readFindings (extractJsonValue reply '[' ']').text = .ok fs)
    (hempty : EmptyArray (extractJsonValue reply '[' ']').text) : TakesEmpty reply := by
  obtain ⟨x, body, hreply, htext, ⟨hfenced, -⟩ | ⟨hfenced, hx⟩⟩ := reads_extract hserde h
  · rw [TakesEmpty, hfenced]
    exact hempty
  · rw [TakesEmpty, hfenced]
    rw [htext] at hempty
    obtain ⟨b, c, rfl, hb, -⟩ := emptyArray_bracket hempty
    obtain ⟨more, hmore⟩ := Slice.text_prefix (s := extractJsonValue reply '[' ']')
    rw [htext] at hmore
    refine ⟨x, b, c ++ more, ?_, hx, hb⟩
    conv_lhs => rw [hreply, ← hmore]
    simp

theorem trimmed_split (reply : List Char) : ∃ a b, reply = a ++ ((trimmed reply).text ++ b) ∧
    (∀ c ∈ a, isWhitespace c = true) ∧ ∀ c ∈ b, isWhitespace c = true := by
  refine ⟨reply.takeWhile isWhitespace, (reply.dropWhile isWhitespace).rtakeWhile isWhitespace, ?_,
    fun c hc => List.mem_takeWhile_imp hc, fun c hc => ?_⟩
  · rw [trimmed, Slice.text_trim, Slice.text_whole]
    have htrim : Text.trim reply = (reply.dropWhile isWhitespace).rdropWhile isWhitespace := rfl
    rw [htrim, List.rdropWhile_append_rtakeWhile, List.takeWhile_append_dropWhile]
  · exact List.mem_takeWhile_imp (List.mem_reverse.mp (by simpa [List.rtakeWhile] using hc))

theorem reads_of_takesEmpty (hserde : serde.Reads) (h : TakesEmpty reply) :
    serde.readFindings (extractJsonValue reply '[' ']').text = .ok [] := by
  refine hserde.array_empty _ ?_
  rw [extractJsonValue_eq]
  rw [TakesEmpty] at h
  cases hfenced : fencedValue (trimmed reply) '[' ']' with
  | some piece =>
    rw [hfenced] at h
    exact h
  | none =>
    rw [hfenced] at h
    obtain ⟨x, b, y, hreply, hx, hb⟩ := h
    obtain ⟨v, w, hsplit, hv, hw⟩ := trimmed_split reply
    obtain ⟨x', rfl, htext⟩ := split_after (hsplit.symm.trans hreply) fun hmem =>
      (isWhitespace_ne (hv _ hmem)).2.2.1 (.inl rfl)
    obtain ⟨y', hy⟩ : ∃ y', (trimmed reply).text = x' ++ '[' :: (b ++ ']' :: y') := by
      have hclose : ']' ∉ w := fun hmem => (isWhitespace_ne (hw _ hmem)).2.2.2.1 rfl
      have hassoc : (trimmed reply).text ++ w = (x' ++ '[' :: b) ++ ']' :: y := by
        rw [htext]
        simp
      rcases List.append_eq_append_iff.mp hassoc with ⟨z, hz, hzw⟩ | ⟨z, hz, hzw⟩
      · exact absurd (hzw ▸ List.mem_append_right z List.mem_cons_self) hclose
      · cases z with
        | nil =>
          rw [List.nil_append] at hzw
          exact absurd (hzw ▸ List.mem_cons_self) hclose
        | cons d z =>
          obtain ⟨rfl, -⟩ := List.cons.inj hzw
          exact ⟨z, by rw [hz]; simp⟩
    have hscans : Scans '[' ']' b 1 1 := .plains fun c hc => by
      obtain ⟨hquote, -, hmarker, hbracket⟩ := isBlank_ne (hb c hc)
      exact ⟨hquote, fun heq => hmarker (.inl heq), hbracket⟩
    have hx' : '[' ∉ x' := fun hmem => hx (List.mem_append_right _ hmem)
    have hbalanced : balancedValue (trimmed reply) '[' ']' =
        some (((trimmed reply).drop x'.length).take (b.length + 1 + 1)) := by
      rw [balancedValue, hy, findFirst_singleton hx', Option.bind_some, List.drop_left,
        matchingDelimiter_inner (.inl ⟨rfl, rfl⟩) hscans]
      rfl
    rw [hbalanced, Option.none_or, Option.some_or, Option.getD_some, Slice.text_take,
      Slice.text_drop, hy, List.drop_left]
    refine ⟨[], b, [], ?_, by simp, hb, by simp⟩
    simp [List.take_append]

end

section

variable {ε : Type} {serde : SerdeJson ε} {reply pre suf x body t r : List Char}
  {finding : Finding} {findings fs : List Finding} {more : List (List Char × Finding)} {c : Char}

theorem word_members (finding : Finding) : ∀ m ∈ finding.members, Word m.1 := by
  have hkeys : ∀ key ∈ ["file", "line", "validator", "rule", "claim", "evidence", "suggestion"],
      Word key := by decide
  have hsub : ∀ m ∈ finding.members,
      m.1 ∈ ["file", "line", "validator", "rule", "claim", "evidence", "suggestion"] := by
    intro m hm
    simp only [Finding.members, List.mem_append, List.mem_cons, List.mem_map, Option.mem_toList,
      List.not_mem_nil, or_false] at hm
    rcases hm with (((rfl | rfl | rfl) | ⟨rule, -, rfl⟩) | rfl | rfl) | ⟨suggestion, -, rfl⟩ <;>
      simp
  exact fun m hm => hkeys _ (hsub m hm)

theorem json_eq_cons (finding : Finding) : ∃ inner, finding.json = '\x7b' :: inner := by
  obtain ⟨inner, hinner, -⟩ := objectText_inner finding.members
  exact ⟨inner ++ ['\x7d'], hinner⟩

def Gaps (more : List (List Char × Finding)) : Prop :=
  ∀ gap ∈ more, ∀ c ∈ gap.1, isWhitespace c = true

theorem outside_spacedJson (hgaps : Gaps more) (ht : Outside t) :
    Outside (spacedJson finding more ++ t) := by
  induction more generalizing finding with
  | nil => exact ht.objectText (word_members finding)
  | cons gap more ih =>
    rw [spacedJson, List.append_assoc, List.append_assoc]
    refine Outside.objectText (word_members finding) (.append (fun c hc => ?_)
      (ih fun g hg => hgaps g (List.mem_cons_of_mem _ hg)))
    obtain ⟨hquote, hslash, -⟩ := isWhitespace_ne (hgaps _ List.mem_cons_self c hc)
    exact ⟨hquote, hslash⟩

theorem split_spacedJson (hgaps : Gaps more) (hc : Marker c) (ht : Outside t)
    (h : spacedJson finding more ++ t = x ++ c :: r) :
    (x = [] ∧ c = '\x7b') ∨ Inside r ∨
      (∃ next later, c :: r = spacedJson next later ++ t ∧ later.length < more.length ∧
        later <:+ more ∧
          ∃ first, finding :: more.map Prod.snd = first ++ next :: later.map Prod.snd) ∨
      ∃ x', x = spacedJson finding more ++ x' ∧ t = x' ++ c :: r := by
  induction more generalizing finding x with
  | nil =>
    rcases split_object (word_members finding) hc h ht with hfirst | hin | hafter
    · exact .inl hfirst
    · exact .inr (.inl hin)
    · exact .inr (.inr (.inr hafter))
  | cons gap more ih =>
    obtain ⟨gap, next⟩ := gap
    have hrest : Gaps more := fun g hg => hgaps g (List.mem_cons_of_mem _ hg)
    have hgap : ∀ c ∈ gap, isWhitespace c = true := hgaps _ List.mem_cons_self
    rw [spacedJson, List.append_assoc, List.append_assoc] at h
    have htail : Outside (gap ++ (spacedJson next more ++ t)) :=
      .append (fun c hc => ⟨(isWhitespace_ne (hgap c hc)).1, (isWhitespace_ne (hgap c hc)).2.1⟩)
        (outside_spacedJson hrest ht)
    rcases split_object (word_members finding) hc h htail with hfirst | hin | ⟨x₁, rfl, h₁⟩
    · exact .inl hfirst
    · exact .inr (.inl hin)
    · obtain ⟨x₂, rfl, h₂⟩ := split_after h₁ fun hmem => (isWhitespace_ne (hgap _ hmem)).2.2.1 hc
      rcases ih hrest h₂ with ⟨rfl, -⟩ | hin | ⟨n, later, heq, hlen, hsuffix, first, hfirst⟩ |
        ⟨x₃, rfl, h₃⟩
      · exact .inr (.inr (.inl
          ⟨next, more, h₂.symm, by simp, List.suffix_cons _ _, [finding], rfl⟩))
      · exact .inr (.inl hin)
      · grind
      · exact .inr (.inr (.inr ⟨x₃, by simp [spacedJson, Finding.json], h₃⟩))

theorem outside_elementsRest (ht : Outside t) :
    Outside (elementsRest (findings.map Finding.json) ++ t) := by
  induction findings with
  | nil => exact .cons (by decide) (by decide) ht
  | cons finding findings ih =>
    rw [List.map_cons, elementsRest, List.cons_append, List.append_assoc]
    exact .cons (by decide) (by decide) (ih.objectText (word_members finding))

theorem split_elementsRest (hc : Marker c) (hbrace : c ≠ '\x7b') (ht : Outside t)
    (h : elementsRest (findings.map Finding.json) ++ t = x ++ c :: r) :
    Inside r ∨ ∃ x', t = x' ++ c :: r := by
  induction findings generalizing x with
  | nil =>
    obtain ⟨x₁, -, h₁⟩ := split_after (a := [']']) h (hc.not_mem (by decide))
    exact .inr ⟨x₁, h₁⟩
  | cons finding findings ih =>
    rw [List.map_cons, elementsRest, List.cons_append, List.append_assoc] at h
    obtain ⟨x₁, -, h₁⟩ := split_after (a := [',']) h (hc.not_mem (by decide))
    rcases split_object (word_members finding) hc h₁ (outside_elementsRest ht) with
      ⟨-, heq⟩ | hin | ⟨x₂, -, h₂⟩
    · exact absurd heq hbrace
    · exact .inl hin
    · exact ih h₂

theorem split_findingsJson (hc : Marker c) (hbrace : c ≠ '\x7b') (ht : Outside t)
    (h : findingsJson findings ++ t = x ++ c :: r) :
    (x = [] ∧ c = '[') ∨ Inside r ∨ ∃ x', t = x' ++ c :: r := by
  cases x with
  | nil =>
    left
    refine ⟨rfl, ?_⟩
    cases findings <;> exact (List.cons.inj h).1.symm
  | cons d x =>
    right
    cases findings with
    | nil =>
      obtain ⟨x₁, -, h₁⟩ := split_after (a := [']']) (List.cons.inj h).2 (hc.not_mem (by decide))
      exact .inr ⟨x₁, h₁⟩
    | cons finding findings =>
      have hinner : finding.json ++ (elementsRest (findings.map Finding.json) ++ t) =
          x ++ c :: r := by
        rw [← List.append_assoc]
        exact (List.cons.inj h).2
      rcases split_object (word_members finding) hc hinner (outside_elementsRest ht) with
        ⟨-, heq⟩ | hin | ⟨x₂, -, h₂⟩
      · exact absurd heq hbrace
      · exact .inl hin
      · exact split_elementsRest hc hbrace ht h₂

end

section

variable {ε : Type} {serde : SerdeJson ε} {reply pre suf x body t r a b : List Char}
  {finding : Finding} {findings fs : List Finding} {more : List (List Char × Finding)} {c : Char}

/-- Prose before the JSON of a reply: bracketed asides, but no braces, quotes or backticks. -/
structure Prose (pre : List Char) : Prop where
  plain : ∀ c ∈ pre, c ≠ '"' ∧ c ≠ '\x7b' ∧ c ≠ '\x7d' ∧ c ≠ Char.ofNat 96
  asides : pre.count '[' < maxRepairArrayStarts

def Closing (suf : List Char) : Prop :=
  ∀ c ∈ suf, c ≠ '"' ∧ ¬ Marker c ∧ c ≠ '\x7d' ∧ c ≠ ']'

theorem split_or (h : a ++ b = x ++ c :: r) :
    (∃ p, a = x ++ c :: p ∧ r = p ++ b) ∨ ∃ x', x = a ++ x' ∧ b = x' ++ c :: r := by
  rcases List.append_eq_append_iff.mp h with ⟨x', rfl, hb⟩ | ⟨p, rfl, hp⟩
  · exact .inr ⟨x', rfl, hb⟩
  · cases p with
    | nil => exact .inr ⟨[], by simp, hp.symm⟩
    | cons d p =>
      obtain ⟨rfl, hr⟩ := List.cons.inj hp
      exact .inl ⟨p, rfl, hr⟩

theorem nonblank_of_opensRecord (h : OpensRecord t) (ht : t <+: a ++ b) (ha : '"' ∉ a) :
    ∃ bracket, (bracket = '[' ∨ bracket = '\x7b') ∧
      a.filter (fun c => !isBlank c) <+: [bracket] := by
  obtain ⟨bracket, rest, hopen, hbracket, key, -, hkey, -⟩ := h
  obtain ⟨z, hz⟩ := ht
  have hblank : isBlank bracket = false := by
    rcases hbracket with rfl | rfl <;> decide
  have heq : a ++ b = (t.takeWhile isBlank ++ bracket :: rest.takeWhile isBlank) ++
      '"' :: (key ++ z) := by
    rw [← hz]
    conv_lhs => rw [← List.takeWhile_append_dropWhile (p := isBlank) (l := t), hopen,
      ← List.takeWhile_append_dropWhile (p := isBlank) (l := rest), hkey]
    simp
  obtain ⟨x', hx', -⟩ := split_after heq ha
  have hprefix : a <+: t.takeWhile isBlank ++ bracket :: rest.takeWhile isBlank := ⟨x', hx'.symm⟩
  have hnil : ∀ l : List Char, (l.takeWhile isBlank).filter (fun c => !isBlank c) = [] := by
    intro l
    refine List.filter_eq_nil_iff.mpr fun c hc => ?_
    simp [List.mem_takeWhile_imp hc]
  refine ⟨bracket, hbracket, ?_⟩
  have hfilter := hprefix.filter fun c => !isBlank c
  rwa [List.filter_append, hnil, List.filter_cons_of_pos (by simp [hblank]), hnil] at hfilter

theorem SerdeJson.Reads.bracket (hserde : serde.Reads)
    (h : serde.readFindings ('[' :: t) = .ok fs) : EmptyArray ('[' :: t) ∨ OpensRecord t := by
  rcases hserde.array_opens _ _ h with hempty | ⟨rest, hrest, hopens⟩
  · exact .inl hempty
  · exact .inr ((List.cons.inj hrest).2 ▸ hopens)

def Quiet (serde : SerdeJson ε) (reply : List Char) (P : List Char → Prop) : Prop :=
  ∀ x body t fs, reply = x ++ '[' :: body → P x → t <+: body →
    serde.readFindings ('[' :: t) = .ok fs → EmptyArray ('[' :: t)

theorem spacedJson_eq_cons (finding : Finding) (more : List (List Char × Finding)) :
    ∃ inner, spacedJson finding more = '\x7b' :: inner := by
  obtain ⟨inner, hinner⟩ := json_eq_cons finding
  cases more with
  | nil => exact ⟨inner, hinner⟩
  | cons gap more =>
    exact ⟨_, rfl⟩

theorem scans_spacedJson {d : Nat} (hgaps : Gaps more) :
    Scans '[' ']' (spacedJson finding more) d d := by
  induction more generalizing finding with
  | nil => exact Scans.object finding.members
  | cons gap more ih =>
    refine (Scans.object finding.members).append (Scans.append (e := d) (.plains fun c hc => ?_)
      (ih fun g hg => hgaps g (List.mem_cons_of_mem _ hg)))
    obtain ⟨hquote, -, hmarker, hbracket, -⟩ := isWhitespace_ne (hgaps _ List.mem_cons_self c hc)
    exact ⟨hquote, fun heq => hmarker (.inl heq), hbracket⟩

theorem matchingDelimiter_unclosed (h : Scans '[' ']' a 1 1) :
    matchingDelimiter ('[' :: a) '[' ']' = none := by
  have hend := h []
  rw [List.append_nil] at hend
  rw [matchingDelimiter, matchingFrom, if_neg (by simp), if_neg (by decide), Nat.zero_add, hend]
  rfl

theorem Closing.outside (h : Closing suf) : Outside suf :=
  .done fun hmem => (h _ hmem).1 rfl

theorem Closing.scans {d : Nat} (h : Closing suf) : Scans '[' ']' suf d d :=
  .plains fun c hc => ⟨(h c hc).1, fun heq => (h c hc).2.1 (.inl heq), (h c hc).2.2.2⟩

theorem inside_of_bracket (hgaps : Gaps more) (ht : Outside t) (hbracket : '[' ∉ t)
    (h : spacedJson finding more ++ t = x ++ '[' :: r) : Inside r := by
  rcases split_spacedJson hgaps (.inl rfl) ht h with ⟨-, heq⟩ | hin | ⟨next, later, heq, -⟩ |
    ⟨x', -, hx'⟩
  · exact absurd heq (by decide)
  · exact hin
  · obtain ⟨inner, hinner⟩ := spacedJson_eq_cons next later
    rw [hinner] at heq
    exact absurd (List.cons.inj heq).1 (by decide)
  · exact absurd (hx' ▸ List.mem_append_right x' List.mem_cons_self) hbracket

theorem quiet_spacedJson (hserde : serde.Reads) (hpre : Prose pre) (hsuf : Closing suf)
    (hgaps : Gaps more) :
    Quiet serde (pre ++ (spacedJson finding more ++ suf)) fun _ => True := by
  intro x body t fs hreply _ ht hread
  rcases hserde.bracket hread with hempty | hopens
  · exact hempty
  exfalso
  rcases split_or hreply with ⟨p, hp, rfl⟩ | ⟨x', -, hx'⟩
  · obtain ⟨inner, hinner⟩ := spacedJson_eq_cons finding more
    have hplain : ∀ c ∈ p, c ≠ '"' ∧ c ≠ '\x7b' ∧ c ≠ '\x7d' ∧ c ≠ Char.ofNat 96 := fun c hc =>
      hpre.plain c (hp ▸ List.mem_append_right x (List.mem_cons_of_mem _ hc))
    have hquote : '"' ∉ p ++ ['\x7b'] := by
      rw [List.mem_append, List.mem_singleton]
      exact fun hmem => hmem.elim (fun hmem => (hplain _ hmem).1 rfl) (by decide)
    have ht' : t <+: (p ++ ['\x7b']) ++ (inner ++ suf) := by
      rw [hinner] at ht
      simpa using ht
    obtain ⟨bracket, -, hfilter⟩ := nonblank_of_opensRecord hopens ht' hquote
    have hlength := hfilter.length_le
    rw [List.filter_append, List.filter_cons_of_pos (by decide)] at hlength
    have hnil : p.filter (fun c => !isBlank c) = [] := by
      refine List.length_eq_zero_iff.mp ?_
      simp at hlength
      simpa using hlength
    have hscans : Scans '[' ']' (p ++ (spacedJson finding more ++ suf)) 1 1 := by
      refine Scans.append (e := 1) (.plains fun c hc => ?_)
        ((scans_spacedJson hgaps).append hsuf.scans)
      have hblank : isBlank c = true := by simpa using List.filter_eq_nil_iff.mp hnil c hc
      obtain ⟨hquote, -, hmarker, hbracket⟩ := isBlank_ne hblank
      exact ⟨hquote, fun heq => hmarker (.inl heq), hbracket⟩
    have hprefix : '[' :: t <+: '[' :: (p ++ (spacedJson finding more ++ suf)) :=
      List.cons_prefix_cons.mpr ⟨rfl, ht⟩
    exact matchingDelimiter_of_prefix hprefix (hserde.array_closes _ _ hread rfl)
      (matchingDelimiter_unclosed hscans)
  · have hbracket : '[' ∉ suf := fun hmem => (hsuf _ hmem).2.1 (.inl rfl)
    exact (inside_of_bracket hgaps hsuf.outside hbracket hx').not_opensRecord ht hopens

def fenced (json : List Char) : List Char := jsonCodeFence ++ ('\n' :: (json ++ '\n' :: codeFence))

theorem quiet_fenced (hserde : serde.Reads) (hpre : Prose pre) (hsuf : Closing suf)
    (hgaps : Gaps more) :
    Quiet serde (pre ++ (fenced (spacedJson finding more) ++ suf)) fun _ => True := by
  intro x body t fs hreply _ ht hread
  rcases hserde.bracket hread with hempty | hopens
  · exact hempty
  exfalso
  have hassoc : fenced (spacedJson finding more) ++ suf =
      (jsonCodeFence ++ ['\n']) ++ (spacedJson finding more ++ ('\n' :: (codeFence ++ suf))) := by
    simp [fenced]
  have htick : Char.ofNat 96 ≠ '"' ∧ isBlank (Char.ofNat 96) = false := by decide
  rcases split_or hreply with ⟨p, hp, rfl⟩ | ⟨x', -, hx'⟩
  · have hquote : '"' ∉ p ++ [Char.ofNat 96] := by
      rw [List.mem_append, List.mem_singleton]
      refine fun hmem => hmem.elim (fun hmem => ?_) fun heq => htick.1 heq.symm
      exact (hpre.plain _ (hp ▸ List.mem_append_right x (List.mem_cons_of_mem _ hmem))).1 rfl
    have hfence : ∃ rest, fenced (spacedJson finding more) ++ suf = Char.ofNat 96 :: rest := by
      have hcons : jsonCodeFence = Char.ofNat 96 :: jsonCodeFence.tail := by decide
      rw [hassoc, hcons]
      exact ⟨_, rfl⟩
    obtain ⟨rest, hrest⟩ := hfence
    rw [hrest] at ht
    have ht' : t <+: (p ++ [Char.ofNat 96]) ++ rest := by simpa using ht
    obtain ⟨bracket, hbracket, hfilter⟩ := nonblank_of_opensRecord hopens ht' hquote
    rw [List.filter_append] at hfilter
    have hmem := hfilter.subset (List.mem_append_right _ List.mem_cons_self)
    rcases hbracket with rfl | rfl <;> exact absurd hmem (by decide)
  · rw [hassoc] at hx'
    obtain ⟨x'', -, h⟩ := split_after hx' (by decide)
    have hafter : '"' ∉ '\n' :: (codeFence ++ suf) ∧ '[' ∉ '\n' :: (codeFence ++ suf) := by
      have hcode : '"' ∉ '\n' :: codeFence ∧ '[' ∉ '\n' :: codeFence := by decide
      constructor
      · rw [← List.cons_append, List.mem_append]
        exact fun hmem => hmem.elim hcode.1 fun hmem => (hsuf _ hmem).1 rfl
      · rw [← List.cons_append, List.mem_append]
        exact fun hmem => hmem.elim hcode.2 fun hmem => (hsuf _ hmem).2.1 (.inl rfl)
    exact (inside_of_bracket hgaps (.done hafter.1) hafter.2 h).not_opensRecord ht hopens

theorem findingsJson_eq_cons (findings : List Finding) :
    ∃ d rest, findingsJson findings = '[' :: d :: rest ∧ (d = '\x7b' ∨ d = ']') := by
  cases findings with
  | nil => exact ⟨']', [], rfl, .inr rfl⟩
  | cons finding findings =>
    obtain ⟨inner, hinner⟩ := json_eq_cons finding
    refine ⟨'\x7b', inner ++ elementsRest (findings.map Finding.json), ?_, .inl rfl⟩
    rw [findingsJson, List.map_cons, hinner]
    rfl

theorem quiet_findingsJson (hserde : serde.Reads) (hpre : Prose pre) (hsuf : Closing suf) :
    Quiet serde (pre ++ (findingsJson findings ++ suf)) fun x => x ≠ pre := by
  intro x body t fs hreply hx ht hread
  rcases hserde.bracket hread with hempty | hopens
  · exact hempty
  exfalso
  rcases split_or hreply with ⟨p, hp, rfl⟩ | ⟨x', hpx, hx'⟩
  · obtain ⟨d, rest, hjson, hd⟩ := findingsJson_eq_cons findings
    have hplain : d ≠ '"' ∧ isBlank d = false := by
      rcases hd with rfl | rfl <;> decide
    have hquote : '"' ∉ p ++ ['[', d] := by
      rw [List.mem_append]
      refine fun hmem => hmem.elim (fun hmem => ?_) fun hmem => ?_
      · exact (hpre.plain _ (hp ▸ List.mem_append_right x (List.mem_cons_of_mem _ hmem))).1 rfl
      · grind
    have ht' : t <+: (p ++ ['[', d]) ++ (rest ++ suf) := by
      rw [hjson] at ht
      simpa using ht
    obtain ⟨bracket, -, hfilter⟩ := nonblank_of_opensRecord hopens ht' hquote
    have hlength := hfilter.length_le
    rw [List.filter_append, List.filter_cons_of_pos (by decide),
      List.filter_cons_of_pos (by simp [hplain.2])] at hlength
    simp at hlength
  · rcases split_findingsJson (.inl rfl) (by decide) hsuf.outside hx' with ⟨rfl, -⟩ | hin |
      ⟨z, hz⟩
    · exact hx (by simpa using hpx)
    · exact hin.not_opensRecord ht hopens
    · exact (hsuf _ (hz ▸ List.mem_append_right z List.mem_cons_self)).2.1 (.inl rfl)

end

end SwissArmyHammer.Review
