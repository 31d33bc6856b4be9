import Mathlib.Algebra.Ring.Parity
import SwissArmyHammer.Kanban.TagRename
import SwissArmyHammer.Kanban.TagRemoval

/-! A tag appended to a text: it is read back when the code blocks of the text are closed, and
removing it gives the text again. -/

namespace SwissArmyHammer.Kanban

open Text

def fenceLines (text : List Char) : Nat :=
  (markdownLines text).countP fun line => isFenceLine (trimStart line.content)

structure AppendedBack (text : List Char) (slug : Slug) : Prop where
  tags : Even (fenceLines text) →
    parseTags (appendTag text slug) = (insert slug (parseTags text).toFinset).sort
  again : Even (fenceLines text) → appendTag (appendTag text slug) slug = appendTag text slug
  undone : Even (fenceLines text) → slug ∉ parseTags text →
    ¬ text.getLast?.any isWhitespace = true → removeTag (appendTag text slug) slug = text
  missing : slug ∉ parseTags (appendTag text slug) → Odd (fenceLines text)

section

variable {before : Option Char} {line : List Char} {ps qs : List Piece} {slug : Slug}

def ClosedPieces (ps : List Piece) : Prop :=
  ∀ body, ps.getLast? = some (.code (tick :: body)) → tick ∈ body

theorem skipInlineCode_body {body r : List Char}
    (h : skipInlineCode tick (body ++ []) = (body, [])) (htick : tick ∈ body) :
    skipInlineCode tick (body ++ r) = (body, r) := by
  rw [List.append_nil] at h
  rw [skipInlineCode_closed htick, h, List.nil_append]

theorem ClosedPieces.tail {p : Piece} (h : ClosedPieces (p :: ps)) : ClosedPieces ps := by
  intro body hlast
  apply h body
  rw [List.getLast?_cons, hlast]
  rfl

theorem Scanned.append (h : Scanned before ps) (hclosed : ClosedPieces ps)
    (hq : Scanned (lastOr before ps) qs) (hhead : (render qs).head?.any slugChar = false) :
    Scanned before (ps ++ qs) := by
  induction ps generalizing before with
  | nil => exact hq
  | cons p ps ih =>
    have hne := h.text_ne_nil (p := p) (by simp)
    rw [lastOr_cons hne] at hq
    rw [List.cons_append]
    have hnext : (render ps = [] → (render (ps ++ qs)).head?.any slugChar = false) ∧
        (render ps ≠ [] → (render (ps ++ qs)).head? = (render ps).head?) := by
      rw [render_append]
      constructor
      · intro hnil
        rw [hnil, List.nil_append, hhead]
      · intro hne
        rw [List.head?_append_of_ne_nil _ hne]
    cases p with
    | code span =>
      obtain ⟨⟨body, rfl, hskip⟩, hps⟩ := h
      refine ⟨⟨body, rfl, ?_⟩, ih hps hclosed.tail hq⟩
      by_cases hrest : render ps = []
      · have hps : ps = [] := by
          cases ps with
          | nil => rfl
          | cons p ps =>
            have hp := hps.text_ne_nil (p := p) (by simp)
            rw [render_cons, List.append_eq_nil_iff] at hrest
            exact absurd hrest.1 hp
        subst hps
        exact skipInlineCode_body hskip (hclosed body rfl)
      · exact skipInlineCode_congr hrest hskip
    | marker found =>
      obtain ⟨hfound, hps⟩ := h
      rw [getLast?_text_marker hfound] at hq
      refine ⟨?_, ih hps hclosed.tail hq⟩
      rw [markerAt_append] at hfound ⊢
      refine ⟨hfound.1, hfound.2.1, hfound.2.2.1, ?_⟩
      by_cases hrest : render ps = []
      · exact hnext.1 hrest
      · rw [hnext.2 hrest]
        exact hfound.2.2.2
    | char c =>
      obtain ⟨hc, hnone, hps⟩ := h
      refine ⟨hc, ?_, ih hps hclosed.tail hq⟩
      by_cases hhash : c = '#'
      · subst hhash
        have hsome : (markerAt before ('#' :: render ps)).isSome = false := by
          rw [hnone]
          rfl
        rw [← Option.not_isSome_iff_eq_none, Bool.not_eq_true]
        rw [isSome_markerAt] at hsome ⊢
        by_cases hrest : render ps = []
        · have hnot := hnext.1 hrest
          cases hr : (render (ps ++ qs)).head? with
          | none => simp
          | some d =>
            rw [hr, Option.any_some, slugChar, Bool.or_eq_false_iff] at hnot
            rw [Option.any_some, hnot.1, Bool.and_false]
        · rw [hnext.2 hrest]
          exact hsome
      · exact markerAt_of_ne hhash _ _

theorem Scanned.extend {body r : List Char} (h : Scanned before (ps ++ [.code (tick :: body)]))
    (hopen : tick ∉ body) (hr : tick ∉ r) : Scanned before (ps ++ [.code (tick :: (body ++ r))]) := by
  induction ps generalizing before with
  | nil =>
    refine ⟨⟨body ++ r, rfl, ?_⟩, trivial⟩
    rw [render_nil, List.append_nil]
    apply skipInlineCode_open
    rw [List.mem_append, not_or]
    exact ⟨hopen, hr⟩
  | cons p ps ih =>
    have hhead : (render (ps ++ [.code (tick :: (body ++ r))])).head? =
        (render (ps ++ [.code (tick :: body)])).head? := by
      rw [render_append, render_append, List.head?_append, List.head?_append]
      rfl
    have hne : render (ps ++ [.code (tick :: body)]) ≠ [] := by
      rw [render_append]
      exact List.append_ne_nil_of_right_ne_nil _ (by simp [Piece.text])
    cases p with
    | code span =>
      obtain ⟨⟨inner, rfl, hskip⟩, hps⟩ := h
      exact ⟨⟨inner, rfl, skipInlineCode_congr hne hskip⟩, ih hps⟩
    | marker found =>
      obtain ⟨hfound, hps⟩ := h
      refine ⟨?_, ih hps⟩
      change markerAt before ('#' :: (found ++ render (ps ++ [.code (tick :: (body ++ r))]))) = _
      rw [markerAt_append] at hfound ⊢
      rw [hhead]
      exact hfound
    | char c =>
      obtain ⟨hc, hnone, hps⟩ := h
      refine ⟨hc, ?_, ih hps⟩
      by_cases hhash : c = '#'
      · subst hhash
        change markerAt before ('#' :: render (ps ++ [.code (tick :: (body ++ r))])) = none
        rw [← Option.not_isSome_iff_eq_none] at hnone ⊢
        rw [isSome_markerAt] at hnone ⊢
        rwa [hhead]
      · exact markerAt_of_ne hhash _ _

theorem lastOr_pieces (line : List Char) : lastOr none (pieces none line) = line.getLast? := by
  rw [lastOr, render_pieces, Option.or_none]

theorem pieces_append_marker (hslug : NormalSlug slug) {space : List Char}
    (hspace : space = [' '] ∨ space = [] ∧ glued line.getLast? = false) :
    pieces none (line ++ space ++ '#' :: slug) =
        pieces none line ++ (space.map Piece.char ++ [.marker slug]) ∨
      slugs (pieces none (line ++ space ++ '#' :: slug)) = slugs (pieces none line) := by
  have hmarker : ∀ before, glued before = false → Scanned before [.marker slug] := by
    intro before hglued
    exact ⟨markerAt_append.mpr ⟨hglued, hslug.head, hslug.chars, rfl⟩, trivial⟩
  by_cases hclosed : ClosedPieces (pieces none line)
  · left
    have hq : Scanned line.getLast? (space.map Piece.char ++ [.marker slug]) ∧
        (render (space.map Piece.char ++ [.marker slug])).head?.any slugChar = false := by
      rcases hspace with rfl | ⟨rfl, hglued⟩
      · exact ⟨⟨by decide, markerAt_of_ne (by decide) _ _, hmarker _ rfl⟩, rfl⟩
      · exact ⟨hmarker _ hglued, rfl⟩
    have hscan := (scanned_pieces none line).append hclosed (by rw [lastOr_pieces]; exact hq.1) hq.2
    have hrender : render (pieces none line ++ (space.map Piece.char ++ [.marker slug])) =
        line ++ space ++ '#' :: slug := by
      rcases hspace with rfl | ⟨rfl, -⟩
      · simp [Piece.text]
      · simp [Piece.text]
    rw [← hrender, pieces_render hscan]
  · rw [ClosedPieces] at hclosed
    push Not at hclosed
    obtain ⟨body, hlast, hopen⟩ := hclosed
    obtain ⟨ps, hps⟩ := List.getLast?_eq_some_iff.mp hlast
    have hscan := scanned_pieces none line
    rw [hps] at hscan
    have htick : tick ∉ space ++ '#' :: slug := by
      intro hmem
      rcases List.mem_append.mp hmem with hmem | hmem
      · rcases hspace with rfl | ⟨rfl, -⟩
        · exact absurd hmem (by decide)
        · cases hmem
      · rcases List.mem_cons.mp hmem with heq | hmem
        · exact absurd heq (by decide)
        · exact absurd (hslug.chars _ hmem) (by decide)
    have hlonger := pieces_render (hscan.extend hopen htick)
    have hline : line = render ps ++ tick :: body := by
      have hrender := render_pieces none line
      rw [hps] at hrender
      simpa [Piece.text] using hrender.symm
    have hrender : render (ps ++ [.code (tick :: (body ++ (space ++ '#' :: slug)))]) =
        line ++ space ++ '#' :: slug := by
      rw [hline]
      simp [Piece.text]
    rw [hrender] at hlonger
    rw [hlonger, hps]
    simp

theorem removePieces_last {kept : List Piece} (h : slug ∉ slugs ps) :
    removePieces slug kept (ps ++ [.marker slug]) =
      if (kept ++ ps).getLast? = some (.char ' ') then (kept ++ ps).dropLast else kept ++ ps := by
  induction ps generalizing kept with
  | nil =>
    rw [List.nil_append, removePieces, if_pos rfl, removeStep_of_ne (by simp), removePieces,
      List.append_nil]
  | cons p ps ih =>
    have hne : p ≠ .marker slug := by
      rintro rfl
      rw [slugs_marker] at h
      exact h List.mem_cons_self
    have hrest : slug ∉ slugs ps := by
      intro hmem
      apply h
      rw [← List.singleton_append, slugs_append]
      exact List.mem_append_right _ hmem
    rw [List.cons_append, removePieces, if_neg hne, ih hrest, List.append_assoc,
      List.singleton_append]

end

section

variable {slug : Slug} {line tail : List Char} {raw text : List Char} {raws more : List (List Char)}
  {inFencedBlock : Bool}

def lineTags (inFencedBlock : Bool) (raw : List Char) : List Slug :=
  (markdownLinesFrom inFencedBlock [raw]).flatMap MarkdownLine.tags

def fenceAfter (inFencedBlock : Bool) : List (List Char) → Bool
  | [] => inFencedBlock
  | raw :: raws =>
    if isFenceLine (trimStart (splitLineTerminator raw).1) then fenceAfter (!inFencedBlock) raws
    else fenceAfter inFencedBlock raws

theorem markdownLinesFrom_append (inFencedBlock : Bool) (raws more : List (List Char)) :
    markdownLinesFrom inFencedBlock (raws ++ more) = markdownLinesFrom inFencedBlock raws ++
      markdownLinesFrom (fenceAfter inFencedBlock raws) more := by
  induction raws generalizing inFencedBlock with
  | nil => rfl
  | cons raw raws ih =>
    rw [List.cons_append, fenceAfter]
    cases hfence : isFenceLine (trimStart (splitLineTerminator raw).1) with
    | true =>
      rw [markdownLinesFrom_cons_fence hfence, markdownLinesFrom_cons_fence hfence, if_pos rfl, ih,
        List.cons_append]
    | false =>
      rw [markdownLinesFrom_cons hfence, markdownLinesFrom_cons hfence,
        if_neg Bool.false_ne_true, ih, List.cons_append]

theorem fenceAfter_append (inFencedBlock : Bool) (raws more : List (List Char)) :
    fenceAfter inFencedBlock (raws ++ more) = fenceAfter (fenceAfter inFencedBlock raws) more := by
  induction raws generalizing inFencedBlock with
  | nil => rfl
  | cons raw raws ih =>
    rw [List.cons_append, fenceAfter, fenceAfter]
    split
    · exact ih _
    · exact ih _

theorem fenceAfter_iff (inFencedBlock : Bool) (raws : List (List Char)) :
    fenceAfter inFencedBlock raws = true ↔
      Odd (inFencedBlock.toNat + (markdownLinesFrom inFencedBlock raws).countP fun line =>
        isFenceLine (trimStart line.content)) := by
  induction raws generalizing inFencedBlock with
  | nil => cases inFencedBlock <;> decide
  | cons raw raws ih =>
    rw [fenceAfter]
    cases hfence : isFenceLine (trimStart (splitLineTerminator raw).1) with
    | true =>
      rw [if_pos rfl, ih, markdownLinesFrom_cons_fence hfence, List.countP_cons, if_pos hfence,
        Nat.odd_iff, Nat.odd_iff]
      cases inFencedBlock with
      | true =>
        rw [Bool.not_true, Bool.toNat_false, Bool.toNat_true]
        omega
      | false =>
        rw [Bool.not_false, Bool.toNat_false, Bool.toNat_true]
        omega
    | false =>
      have hneg : ¬ isFenceLine (trimStart (splitLineTerminator raw).1) = true := by
        rw [hfence]
        exact Bool.false_ne_true
      rw [if_neg Bool.false_ne_true, ih, markdownLinesFrom_cons hfence, List.countP_cons,
        if_neg hneg, Nat.add_zero]

theorem splitLineTerminator_of_not_mem (h : '\n' ∉ raw) : splitLineTerminator raw = (raw, []) := by
  rw [splitLineTerminator, stripSuffix_of_not_mem h]

theorem markdownLinesFrom_single (h : '\n' ∉ raw)
    (hfence : isFenceLine (trimStart raw) = false) : markdownLinesFrom inFencedBlock [raw] =
      [⟨raw, [], !inFencedBlock && !isHeadingLine raw⟩] := by
  have hsplit := splitLineTerminator_of_not_mem h
  rw [markdownLinesFrom_cons (by rw [hsplit]; exact hfence), hsplit]
  rfl

theorem lineTags_fence (hfence : isFenceLine (trimStart (splitLineTerminator raw).1) = true) :
    lineTags inFencedBlock raw = [] := by
  rw [lineTags, markdownLinesFrom_cons_fence hfence]
  rfl

theorem lineTags_of_not_fence
    (hfence : isFenceLine (trimStart (splitLineTerminator raw).1) = false) :
    lineTags inFencedBlock raw =
      if !inFencedBlock && !isHeadingLine (splitLineTerminator raw).1 then
        slugs (pieces none (splitLineTerminator raw).1)
      else [] := by
  rw [lineTags, markdownLinesFrom_cons hfence]
  change [_].flatMap MarkdownLine.tags = _
  rw [List.flatMap_singleton, tags_eq]

theorem isFenceLine_append {c : Char} (htick : c ≠ tick) (htilde : c ≠ '~') (v x : List Char) :
    isFenceLine (v ++ c :: x) = isFenceLine v := by
  have htick' : tick ≠ c := Ne.symm htick
  have htilde' : '~' ≠ c := Ne.symm htilde
  match v with
  | [] => simp [isFenceLine, List.replicate, List.isPrefixOf, htick', htilde']
  | [_] => simp [isFenceLine, List.replicate, List.isPrefixOf, htick', htilde']
  | [_, _] => simp [isFenceLine, List.replicate, List.isPrefixOf, htick', htilde']
  | _ :: _ :: _ :: _ => simp [isFenceLine, List.replicate, List.isPrefixOf]

theorem trimStart_concat {c : Char} (hlast : line.getLast?.any isWhitespace = false)
    (hne : line ≠ []) (x : List Char) :
    trimStart (line ++ c :: x) = trimStart line ++ c :: x ∧ trimStart line ≠ [] := by
  induction line with
  | nil => exact absurd rfl hne
  | cons d line ih =>
    by_cases hd : isWhitespace d = true
    · have hrest : line ≠ [] := by
        rintro rfl
        rw [List.getLast?_singleton, Option.any_some, hd] at hlast
        cases hlast
      rw [List.getLast?_cons, List.getLast?_eq_some_getLast hrest] at hlast
      have hih := ih (by rw [List.getLast?_eq_some_getLast hrest]; exact hlast) hrest
      rw [List.cons_append, trimStart, List.dropWhile_cons_of_pos hd, trimStart,
        List.dropWhile_cons_of_pos hd]
      exact hih
    · rw [List.cons_append, trimStart, List.dropWhile_cons_of_neg hd, trimStart,
        List.dropWhile_cons_of_neg hd]
      exact ⟨rfl, List.cons_ne_nil _ _⟩

structure SpaceBefore (line space : List Char) : Prop where
  blank : space = [' '] ∨ space = []
  single : space = [' '] → line ≠ [] ∧ line.getLast?.any isWhitespace = false
  none : space = [] → line = [] ∨ line.getLast?.any isWhitespace = true

theorem isFenceLine_appended {space : List Char} (h : SpaceBefore line space) (slug : Slug) :
    isFenceLine (trimStart (line ++ space ++ '#' :: slug)) = isFenceLine (trimStart line) := by
  rcases h.blank with rfl | rfl
  · obtain ⟨hne, hlast⟩ := h.single rfl
    rw [List.append_assoc, List.singleton_append, (trimStart_concat hlast hne _).1]
    exact isFenceLine_append (by decide) (by decide) _ _
  · rw [List.append_nil, trimStart_append_hash]
    exact isFenceLine_append (by decide) (by decide) _ _

theorem mem_trimStart {c : Char} (h : c ∈ trimStart line) : c ∈ line :=
  (List.dropWhile_suffix isWhitespace).subset h

theorem isHeadingLine_appended {space : List Char} (h : SpaceBefore line space)
    (hslug : NormalSlug slug) :
    isHeadingLine (line ++ space ++ '#' :: slug) = isHeadingLine line := by
  rcases h.blank with rfl | rfl
  · obtain ⟨hne, hlast⟩ := h.single rfl
    obtain ⟨htrim, hnil⟩ := trimStart_concat (c := ' ') hlast hne ('#' :: slug)
    rw [isHeadingLine, isHeadingLine, List.append_assoc, List.singleton_append, htrim]
    cases hv : trimStart line with
    | nil => exact absurd hv hnil
    | cons c v =>
      by_cases hc : c = '#'
      · rw [hc]
        cases v with
        | nil => rfl
        | cons d v => rfl
      · grind
  · obtain ⟨c, slug, rfl⟩ := List.exists_cons_of_ne_nil hslug.ne_nil
    have hc : c.isAlphanum = true := hslug.head
    have hhash : c ≠ '#' := by
      rintro rfl
      exact absurd hc (by decide)
    have hspace : c ≠ ' ' := by
      rintro rfl
      exact absurd hc (by decide)
    rw [isHeadingLine, isHeadingLine, List.append_nil, trimStart_append_hash]
    cases hv : trimStart line with
    | nil => simp [hhash, hspace]
    | cons d v =>
      by_cases hd : d = '#'
      · cases v with
        | nil =>
          have hmem : d ∈ line := mem_trimStart (hv ▸ List.mem_cons_self)
          rcases h.none rfl with rfl | hlast
          · cases hmem
          · have htrimmed : (trimStart line).getLast? = line.getLast? := by
              obtain ⟨pre, hpre⟩ := List.dropWhile_suffix (l := line) isWhitespace
              have hpre' : pre ++ trimStart line = line := hpre
              conv_rhs => rw [← hpre']
              rw [List.getLast?_append_of_ne_nil _ (by rw [hv]; exact List.cons_ne_nil _ _)]
            rw [← htrimmed, hv, hd] at hlast
            exact absurd hlast (by decide)
        | cons e v =>
          rw [hd]
          rfl
      · grind

theorem not_mem_appended {space : List Char} (h : SpaceBefore line space) (hline : '\n' ∉ line)
    (hslug : NormalSlug slug) : '\n' ∉ line ++ space ++ '#' :: slug := by
  intro hmem
  rcases List.mem_append.mp hmem with hmem | hmem
  · rcases List.mem_append.mp hmem with hmem | hmem
    · exact hline hmem
    · rcases h.blank with rfl | rfl
      · exact absurd hmem (by decide)
      · cases hmem
  · rcases List.mem_cons.mp hmem with heq | hmem
    · exact absurd heq (by decide)
    · exact absurd (hslug.chars _ hmem) (by decide)

theorem lineTags_appended (inFencedBlock : Bool) {space : List Char} (h : SpaceBefore line space)
    (hline : '\n' ∉ line) (hslug : NormalSlug slug) :
    lineTags inFencedBlock (line ++ space ++ '#' :: slug) = lineTags inFencedBlock line ∨
      (lineTags inFencedBlock (line ++ space ++ '#' :: slug) =
          lineTags inFencedBlock line ++ [slug] ∧
        lineTags inFencedBlock line = slugs (pieces none line) ∧
        markdownLinesFrom inFencedBlock [line ++ space ++ '#' :: slug] =
          [⟨line ++ space ++ '#' :: slug, [], true⟩] ∧
        pieces none (line ++ space ++ '#' :: slug) =
          pieces none line ++ (space.map Piece.char ++ [.marker slug])) := by
  have hnot := not_mem_appended h hline hslug
  have hsplit := splitLineTerminator_of_not_mem hline
  have hsplit' := splitLineTerminator_of_not_mem hnot
  have hfence := isFenceLine_appended h slug
  have hheading := isHeadingLine_appended h hslug
  cases hkind : isFenceLine (trimStart line) with
  | true =>
    left
    rw [lineTags_fence (by rw [hsplit', hfence, hkind]), lineTags_fence (by rw [hsplit, hkind])]
  | false =>
    rw [hkind] at hfence
    rw [lineTags_of_not_fence (by rw [hsplit', hfence]), lineTags_of_not_fence (by rw [hsplit, hkind]),
      hsplit, hsplit', markdownLinesFrom_single hnot hfence, hheading]
    cases hbear : !inFencedBlock && !isHeadingLine line with
    | false => exact .inl rfl
    | true =>
      have hspace : space = [' '] ∨ space = [] ∧ glued line.getLast? = false := by
        rcases h.blank with heq | heq
        · exact .inl heq
        · refine .inr ⟨heq, ?_⟩
          rcases h.none heq with rfl | hlast
          · rfl
          · cases hw : line.getLast? with
            | none => rfl
            | some w =>
              have hwhite : isWhitespace w = true := by
                rw [hw] at hlast
                exact hlast
              have hnot := (isWhitespace_not_slug hwhite).1
              rw [slugChar, Bool.or_eq_false_iff] at hnot
              have hunder : w ≠ '_' := by
                rintro rfl
                exact absurd hwhite (by decide)
              rw [glued, Option.any_some, hnot.1]
              exact decide_eq_false hunder
      rcases pieces_append_marker hslug hspace with hpieces | hopen
      · refine .inr ⟨?_, rfl, rfl, hpieces⟩
        rw [if_pos rfl, hpieces, slugs_append, slugs_append]
        have hblank : slugs (space.map Piece.char) = [] := by
          rcases h.blank with rfl | rfl
          · rfl
          · rfl
        rw [hblank]
        rfl
      · refine .inl ?_
        rw [if_pos rfl, if_pos rfl, hopen]

theorem spaceBefore_nil : SpaceBefore [] [] where
  blank := .inr rfl
  single h := absurd h (List.cons_ne_nil _ _).symm
  none _ := .inl rfl

theorem not_mem_own (hslug : NormalSlug slug) : '\n' ∉ '#' :: slug :=
  not_mem_appended spaceBefore_nil List.not_mem_nil hslug

theorem markdownLinesFrom_own (hslug : NormalSlug slug) :
    markdownLinesFrom false ['#' :: slug] = [⟨'#' :: slug, [], true⟩] := by
  have hfence : isFenceLine (trimStart ('#' :: slug)) = false :=
    isFenceLine_appended spaceBefore_nil slug
  have hheading : isHeadingLine ('#' :: slug) = false :=
    isHeadingLine_appended spaceBefore_nil hslug
  rw [markdownLinesFrom_single (not_mem_own hslug) hfence, hheading]
  rfl

theorem pieces_own (hslug : NormalSlug slug) : pieces none ('#' :: slug) = [.marker slug] := by
  have hscan : Scanned none [.marker slug] :=
    ⟨markerAt_append.mpr ⟨rfl, hslug.head, hslug.chars, rfl⟩, trivial⟩
  have hpieces := pieces_render hscan
  rwa [render_cons, render_nil, List.append_nil, Piece.text] at hpieces

theorem lineTags_own (hslug : NormalSlug slug) : lineTags false ('#' :: slug) = [slug] := by
  rw [lineTags, markdownLinesFrom_own hslug, List.flatMap_singleton, tags_eq, pieces_own hslug]
  rfl

theorem lineTags_nil (inFencedBlock : Bool) : lineTags inFencedBlock [] = [] := by
  rw [lineTags_of_not_fence rfl]
  change (if _ then slugs (pieces none []) else []) = []
  rw [pieces_nil, slugs_nil, ite_self]

theorem exists_alphanum (before : Option Char) (line : List Char) :
    ∀ slug ∈ slugs (pieces before line), ∃ c ∈ line, c.isAlphanum = true := by
  induction before, line using pieces_induction with
  | nil before =>
    intro slug hmem
    rw [pieces_nil] at hmem
    cases hmem
  | code before rest ih =>
    intro slug hmem
    rw [pieces_code] at hmem
    obtain ⟨c, hc, halnum⟩ := ih slug hmem
    refine ⟨c, List.mem_cons_of_mem _ ?_, halnum⟩
    rw [← skipInlineCode_append tick rest]
    exact List.mem_append_right _ hc
  | marker before rest found hfound ih =>
    intro slug _
    obtain ⟨_, -, -, -, c, hhead, halnum⟩ := markerAt_eq_some hfound
    refine ⟨c, List.mem_cons_of_mem _ ?_, halnum⟩
    rw [← slug_append_drop hfound]
    exact List.mem_append_left _ (List.mem_of_head? hhead)
  | char before c rest hc hnone ih =>
    intro slug hmem
    rw [pieces_char hc hnone] at hmem
    obtain ⟨d, hd, halnum⟩ := ih slug hmem
    exact ⟨d, List.mem_cons_of_mem _ hd, halnum⟩

theorem slugs_of_hash (h : trimStart line = ['#']) : slugs (pieces none line) = [] := by
  rw [List.eq_nil_iff_forall_not_mem]
  intro slug hmem
  obtain ⟨c, hc, halnum⟩ := exists_alphanum none line slug hmem
  rw [← List.takeWhile_append_dropWhile (p := isWhitespace) (l := line)] at hc
  rcases List.mem_append.mp hc with hc | hc
  · have hnot := (isWhitespace_not_slug (List.mem_takeWhile_imp hc)).1
    rw [slugChar, halnum] at hnot
    cases hnot
  · change c ∈ trimStart line at hc
    rw [h, List.mem_singleton] at hc
    rw [hc] at halnum
    exact absurd halnum (by decide)

theorem trimStart_concat_space {w : Char} (hw : isWhitespace w = true) (line : List Char) :
    (trimStart (line ++ [w]) = [] ∧ trimStart line = []) ∨
      trimStart (line ++ [w]) = trimStart line ++ [w] := by
  induction line with
  | nil =>
    left
    rw [List.nil_append, trimStart, List.dropWhile_cons_of_pos hw]
    exact ⟨rfl, rfl⟩
  | cons c line ih =>
    by_cases hc : isWhitespace c = true
    · rw [List.cons_append, trimStart, List.dropWhile_cons_of_pos hc, trimStart,
        List.dropWhile_cons_of_pos hc]
      exact ih
    · right
      rw [List.cons_append, trimStart, List.dropWhile_cons_of_neg hc, trimStart,
        List.dropWhile_cons_of_neg hc, List.cons_append]

theorem lineKind_concat_space {w : Char} (hw : isWhitespace w = true) (line : List Char) :
    isFenceLine (trimStart (line ++ [w])) = isFenceLine (trimStart line) ∧
      (isHeadingLine (line ++ [w]) = isHeadingLine line ∨ trimStart line = ['#']) := by
  obtain ⟨hslug, hhash, htick⟩ := isWhitespace_not_slug hw
  have htilde : w ≠ '~' := by
    rintro rfl
    exact absurd hw (by decide)
  rw [isHeadingLine, isHeadingLine]
  rcases trimStart_concat_space hw line with ⟨htrim, htrim'⟩ | htrim
  · rw [htrim, htrim']
    exact ⟨rfl, .inl rfl⟩
  · rw [htrim]
    refine ⟨isFenceLine_append htick htilde _ [], ?_⟩
    cases hv : trimStart line with
    | nil =>
      simp [hhash]
    | cons c v =>
      by_cases hc : c = '#'
      · cases v with
        | nil =>
          right
          rw [hc]
        | cons d v =>
          left
          rw [hc]
          rfl
      · cases v with
        | nil => simp [hc]
        | cons d v => simp [hc]

theorem line_newline (inFencedBlock : Bool) (hline : '\n' ∉ line) :
    lineTags inFencedBlock (line ++ ['\n']) = lineTags inFencedBlock line ∧
      fenceAfter inFencedBlock [line ++ ['\n']] = fenceAfter inFencedBlock [line] := by
  have hsplit := splitLineTerminator_of_not_mem hline
  have hcontent := splitLineTerminator_newline line
  have hsame : isFenceLine (trimStart (splitLineTerminator (line ++ ['\n'])).1) =
      isFenceLine (trimStart line) ∧
      (isHeadingLine (splitLineTerminator (line ++ ['\n'])).1 = isHeadingLine line ∨
        slugs (pieces none line) = []) ∧
      slugs (pieces none (splitLineTerminator (line ++ ['\n'])).1) = slugs (pieces none line) := by
    rw [hcontent]
    cases hcr : stripSuffix '\r' line with
    | none => exact ⟨rfl, .inl rfl, rfl⟩
    | some content =>
      rw [stripSuffix_eq_some] at hcr
      have hwhite : isWhitespace '\r' = true := by decide
      obtain ⟨hfence, hheading⟩ := lineKind_concat_space hwhite content
      have hslugs := slugs_concat_space hwhite none content
      rw [hcr, hslugs, hfence]
      refine ⟨rfl, ?_, rfl⟩
      rcases hheading with heq | hhash
      · exact .inl heq.symm
      · exact .inr (slugs_of_hash hhash)
  obtain ⟨hfence, hheading, hslugs⟩ := hsame
  constructor
  · cases hkind : isFenceLine (trimStart line) with
    | true =>
      rw [lineTags_fence (by rw [hfence, hkind]), lineTags_fence (by rw [hsplit, hkind])]
    | false =>
      rw [lineTags_of_not_fence (by rw [hfence, hkind]),
        lineTags_of_not_fence (by rw [hsplit, hkind]), hsplit, hslugs]
      rcases hheading with heq | hnil
      · rw [heq]
      · rw [hnil, ite_self, ite_self]
  · have hstep : ∀ raw, fenceAfter inFencedBlock [raw] =
        if isFenceLine (trimStart (splitLineTerminator raw).1) then !inFencedBlock
        else inFencedBlock := fun raw => rfl
    rw [hstep, hstep, hfence, hsplit]

end

section

variable {slug : Slug} {text tail last result : List Char} {raws : List (List Char)}

theorem exists_tail (text : List Char) :
    ∃ (raws : List (List Char)) (tail : List Char), (∀ raw ∈ raws, Terminated raw) ∧
      '\n' ∉ tail ∧ text = raws.flatten ++ tail := by
  obtain ⟨raws, tail, hraws, htail, hs⟩ := exists_lines text
  refine ⟨raws, tail, hraws, htail, ?_⟩
  rw [← flatten_splitInclusive text, hs]
  by_cases hnil : tail = []
  · rw [hnil]
    simp
  · rw [if_neg hnil]
    simp

theorem getLast?_flatten (hraws : ∀ raw ∈ raws, Terminated raw) (hne : raws.flatten ≠ []) :
    raws.flatten.getLast? = some '\n' := by
  rcases List.eq_nil_or_concat raws with rfl | ⟨raws, raw, rfl⟩
  · exact absurd rfl hne
  · obtain ⟨l, -, rfl⟩ := hraws raw (by simp)
    have hflat : (raws.concat (l ++ ['\n'])).flatten = raws.flatten ++ l ++ ['\n'] := by simp
    rw [hflat, List.getLast?_concat]

theorem markdownLines_tail (hraws : ∀ raw ∈ raws, Terminated raw) (htail : '\n' ∉ tail)
    (hne : tail ≠ []) : markdownLines (raws.flatten ++ tail) = markdownLinesFrom false raws ++
      markdownLinesFrom (fenceAfter false raws) [tail] := by
  rw [markdownLines, splitInclusive_flatten_append hraws, splitInclusive_of_not_mem htail hne,
    markdownLinesFrom_append]

theorem markdownLines_flatten (hraws : ∀ raw ∈ raws, Terminated raw) :
    markdownLines raws.flatten = markdownLinesFrom false raws := by
  have hsplit := splitInclusive_flatten_append hraws []
  rw [List.append_nil, splitInclusive_nil, List.append_nil] at hsplit
  rw [markdownLines, hsplit]

theorem tags_tail (hraws : ∀ raw ∈ raws, Terminated raw) (htail : '\n' ∉ tail) :
    (markdownLines (raws.flatten ++ tail)).flatMap MarkdownLine.tags =
      (markdownLinesFrom false raws).flatMap MarkdownLine.tags ++
        lineTags (fenceAfter false raws) tail := by
  by_cases hne : tail = []
  · rw [hne, List.append_nil, markdownLines_flatten hraws, lineTags_nil, List.append_nil]
  · rw [markdownLines_tail hraws htail hne, List.flatMap_append]
    rfl

theorem odd_fenceLines (hraws : ∀ raw ∈ raws, Terminated raw) (htail : '\n' ∉ tail) :
    Odd (fenceLines (raws.flatten ++ tail)) ↔
      fenceAfter (fenceAfter false raws) [tail] = true := by
  have hiff := fenceAfter_iff false (raws ++ [tail])
  rw [fenceAfter_append, Bool.toNat_false, Nat.zero_add] at hiff
  rw [hiff, fenceLines]
  by_cases hne : tail = []
  · rw [hne, List.append_nil, markdownLines_flatten hraws, markdownLinesFrom_append,
      List.countP_append]
    have hnil : ∀ inFencedBlock, (markdownLinesFrom inFencedBlock [[]]).countP
        (fun line => isFenceLine (trimStart line.content)) = 0 := fun _ => rfl
    rw [hnil, Nat.add_zero]
  · rw [markdownLines_tail hraws htail hne, markdownLinesFrom_append]

theorem getLast?_of_tail_nil (hraws : ∀ raw ∈ raws, Terminated raw)
    (htext : text = raws.flatten ++ tail) (hnil : tail = []) (hne : text ≠ []) :
    text.getLast? = some '\n' := by
  rw [hnil, List.append_nil] at htext
  have hlast := getLast?_flatten hraws (htext ▸ hne)
  rwa [← htext] at hlast

theorem spaceBefore (hraws : ∀ raw ∈ raws, Terminated raw) (htext : text = raws.flatten ++ tail) :
    SpaceBefore tail (if text ≠ [] ∧ ¬ text.getLast?.any isWhitespace then [' '] else []) := by
  have hlast : tail ≠ [] → text.getLast? = tail.getLast? := by
    intro hne
    rw [htext, List.getLast?_append_of_ne_nil _ hne]
  constructor
  · split
    · exact .inl rfl
    · exact .inr rfl
  · intro hspace
    split at hspace
    · rename_i hcond
      have hne : tail ≠ [] := by
        intro hnil
        rw [getLast?_of_tail_nil hraws htext hnil hcond.1] at hcond
        exact hcond.2 rfl
      rw [hlast hne] at hcond
      exact ⟨hne, Bool.eq_false_iff.mpr hcond.2⟩
    · cases hspace
  · grind

theorem appendTag_cases (hslug : NormalSlug slug) (heven : Even (fenceLines text))
    (hnot : slug ∉ parseTags text) :
    (∃ (raws : List (List Char)) (tail space : List Char), (∀ raw ∈ raws, Terminated raw) ∧ '\n' ∉ tail ∧
      text = raws.flatten ++ tail ∧ SpaceBefore tail space ∧
      appendTag text slug = raws.flatten ++ (tail ++ space ++ '#' :: slug) ∧
      lineTags (fenceAfter false raws) (tail ++ space ++ '#' :: slug) =
        lineTags (fenceAfter false raws) tail ++ [slug] ∧
      lineTags (fenceAfter false raws) tail = slugs (pieces none tail) ∧
      markdownLinesFrom (fenceAfter false raws) [tail ++ space ++ '#' :: slug] =
        [⟨tail ++ space ++ '#' :: slug, [], true⟩] ∧
      pieces none (tail ++ space ++ '#' :: slug) =
        pieces none tail ++ (space.map Piece.char ++ [.marker slug])) ∨
    ∃ raws : List (List Char), (∀ raw ∈ raws, Terminated raw) ∧
      (raws.flatten = text ∧ (text = [] ∨ text.getLast? = some '\n') ∨
        raws.flatten = text ++ ['\n']) ∧
      appendTag text slug = raws.flatten ++ '#' :: slug ∧ fenceAfter false raws = false ∧
      (markdownLinesFrom false raws).flatMap MarkdownLine.tags =
        (markdownLines text).flatMap MarkdownLine.tags := by
  obtain ⟨raws, tail, hraws, htail, htext⟩ := exists_tail text
  have hspace := spaceBefore hraws htext
  have hclosed : fenceAfter (fenceAfter false raws) [tail] = false := by
    rw [htext] at heven
    rw [← Bool.not_eq_true, ← odd_fenceLines hraws htail, Nat.not_odd_iff_even]
    exact heven
  have htags := tags_tail hraws htail
  rw [← htext] at htags
  rw [appendTag, if_neg hnot]
  dsimp only
  generalize (if text ≠ [] ∧ ¬ text.getLast?.any isWhitespace then [' '] else []) = space at hspace ⊢
  have hinline : text ++ space ++ '#' :: slug = raws.flatten ++ (tail ++ space ++ '#' :: slug) := by
    rw [htext]
    simp only [List.append_assoc]
  have htags' := tags_tail hraws (not_mem_appended hspace htail hslug)
  split
  · rename_i hread
    left
    rcases lineTags_appended (fenceAfter false raws) hspace htail hslug with
      hsame | happended
    · rw [hinline, mem_parseTags] at hread
      rw [hsame, ← htags] at htags'
      exfalso
      apply hnot
      rw [mem_parseTags]
      rw [← List.mem_flatMap] at hread ⊢
      rwa [htags'] at hread
    · exact ⟨raws, tail, space, hraws, htail, htext, hspace, hinline, happended⟩
  · right
    by_cases hlf : text ≠ [] ∧ text.getLast? ≠ some '\n'
    · obtain ⟨hline, hfence⟩ := line_newline (fenceAfter false raws) htail
      have hflat : (raws ++ [tail ++ ['\n']]).flatten = text ++ ['\n'] := by
        rw [htext]
        simp
      refine ⟨raws ++ [tail ++ ['\n']], ?_, .inr hflat, ?_, ?_, ?_⟩
      · intro raw hraw
        rcases List.mem_append.mp hraw with hraw | hraw
        · exact hraws raw hraw
        · rw [List.mem_singleton.mp hraw]
          exact ⟨tail, htail, rfl⟩
      · rw [if_pos hlf, hflat]
      · rw [fenceAfter_append, hfence, hclosed]
      · rw [markdownLinesFrom_append, List.flatMap_append, htags, ← hline]
        rfl
    · have hnil : tail = [] := by
        by_contra hne
        apply hlf
        constructor
        · rw [htext]
          exact List.append_ne_nil_of_right_ne_nil _ hne
        · intro hlast
          rw [htext, List.getLast?_append_of_ne_nil _ hne] at hlast
          exact htail (List.mem_of_getLast? hlast)
      have hflat : raws.flatten = text := by rw [htext, hnil, List.append_nil]
      rw [hnil] at hclosed htags
      refine ⟨raws, hraws, .inl ⟨hflat, ?_⟩, ?_, hclosed, ?_⟩
      · by_contra hnone
        rw [not_or] at hnone
        exact hlf hnone
      · rw [if_neg hlf, hflat, List.append_nil]
      · rw [htags, lineTags_nil, List.append_nil]

theorem tags_appendTag (hslug : NormalSlug slug) (heven : Even (fenceLines text))
    (hnot : slug ∉ parseTags text) :
    (markdownLines (appendTag text slug)).flatMap MarkdownLine.tags =
      (markdownLines text).flatMap MarkdownLine.tags ++ [slug] := by
  rcases appendTag_cases hslug heven hnot with
    ⟨raws, tail, space, hraws, htail, htext, hspace, happend, htags, -⟩ |
      ⟨raws, hraws, -, happend, hclosed, htags⟩
  · have hbefore := tags_tail hraws htail
    rw [← htext] at hbefore
    rw [happend, tags_tail hraws (not_mem_appended hspace htail hslug), htags, hbefore,
      List.append_assoc]
  · rw [happend, tags_tail hraws (not_mem_own hslug), hclosed, lineTags_own hslug, htags]

theorem foldl_editTagLine_absent {replacement : Option (List Char)} {lines : List MarkdownLine}
    (result : List Char) (h : slug ∉ lines.flatMap MarkdownLine.tags) :
    lines.foldl (editTagLine slug replacement) result =
      result ++ (lines.map MarkdownLine.raw).flatten := by
  induction lines generalizing result with
  | nil => simp
  | cons line lines ih =>
    rw [List.flatMap_cons, List.mem_append, not_or] at h
    rw [List.foldl_cons, editTagLine_absent result h.1, ih _ h.2, List.map_cons, List.flatten_cons,
      List.append_assoc]

theorem editTagLine_last (hmarker : slug ∈ slugs (pieces none last)) :
    editTagLine slug none result ⟨last, [], true⟩ =
      if trimEnd (render (removePieces slug [] (pieces none last))) = [] then
        dropLastLineTerminator result
      else result ++ trimEnd (render (removePieces slug [] (pieces none last))) := by
  simp only [editTagLine, editLineMarkers_none, tidyRemovedLine, hmarker]
  by_cases hempty : trimEnd (render (removePieces slug [] (pieces none last))) = []
  · simp [hempty]
  · simp [hempty]

theorem removeTag_last (hraws : ∀ raw ∈ raws, Terminated raw) (hlast : '\n' ∉ last)
    (hne : last ≠ []) (habsent : slug ∉ (markdownLinesFrom false raws).flatMap MarkdownLine.tags)
    (hline : markdownLinesFrom (fenceAfter false raws) [last] = [⟨last, [], true⟩]) :
    removeTag (raws.flatten ++ last) slug =
      editTagLine slug none raws.flatten ⟨last, [], true⟩ := by
  rw [removeTag, editTagMarkers, markdownLines_tail hraws hlast hne, List.foldl_append, hline,
    foldl_editTagLine_absent [] habsent, map_raw]
  rfl

theorem trimEnd_eq_self (h : tail.getLast?.any isWhitespace = false) : trimEnd tail = tail := by
  rw [trimEnd, List.rdropWhile_eq_self_iff]
  intro hne
  rw [List.getLast?_eq_some_getLast hne] at h
  exact Bool.eq_false_iff.mp h

theorem render_removePieces_inline (hspace : SpaceBefore tail space)
    (habsent : slug ∉ slugs (pieces none tail))
    (hend : tail.getLast?.any isWhitespace = false)
    (hpieces : pieces none (tail ++ space ++ '#' :: slug) =
      pieces none tail ++ (space.map Piece.char ++ [.marker slug])) :
    render (removePieces slug [] (pieces none (tail ++ space ++ '#' :: slug))) = tail := by
  have hslugs : slug ∉ slugs (pieces none tail ++ space.map Piece.char) := by
    have hblank : slugs (space.map Piece.char) = [] := by
      rcases hspace.blank with rfl | rfl
      · rfl
      · rfl
    rw [slugs_append, hblank, List.append_nil]
    exact habsent
  rw [hpieces, ← List.append_assoc, removePieces_last hslugs, List.nil_append]
  rcases hspace.blank with rfl | rfl
  · rw [List.map_singleton, if_pos List.getLast?_concat, List.dropLast_concat, render_pieces]
  · have hnil : tail = [] := by
      rcases hspace.none rfl with hnil | hwhite
      · exact hnil
      · rw [hwhite] at hend
        cases hend
    rw [hnil, pieces_nil]
    rfl

theorem removeTag_own (hslug : NormalSlug slug) (hraws : ∀ raw ∈ raws, Terminated raw)
    (hclosed : fenceAfter false raws = false)
    (habsent : slug ∉ (markdownLinesFrom false raws).flatMap MarkdownLine.tags) :
    removeTag (raws.flatten ++ '#' :: slug) slug = dropLastLineTerminator raws.flatten := by
  have hmarker : slug ∈ slugs (pieces none ('#' :: slug)) := by
    rw [pieces_own hslug]
    exact List.mem_cons_self
  have hkept : render (removePieces slug [] (pieces none ('#' :: slug))) = [] := by
    rw [pieces_own hslug, removePieces, if_pos rfl, removeStep_of_ne (by simp), removePieces]
    rfl
  have hline : markdownLinesFrom (fenceAfter false raws) ['#' :: slug] =
      [⟨'#' :: slug, [], true⟩] := by
    rw [hclosed]
    exact markdownLinesFrom_own hslug
  rw [removeTag_last hraws (not_mem_own hslug) (List.cons_ne_nil _ _) habsent hline,
    editTagLine_last hmarker, hkept, trimEnd_eq_self rfl, if_pos rfl]

theorem removeTag_appendTag (hslug : NormalSlug slug) (heven : Even (fenceLines text))
    (hnot : slug ∉ parseTags text) (hend : text.getLast?.any isWhitespace = false) :
    removeTag (appendTag text slug) slug = text := by
  have habsent : slug ∉ (markdownLines text).flatMap MarkdownLine.tags := by
    rw [List.mem_flatMap]
    rwa [mem_parseTags] at hnot
  rcases appendTag_cases hslug heven hnot with
    ⟨raws, tail, space, hraws, htail, htext, hspace, happend, htags, htail', hline, hpieces⟩ |
      ⟨raws, hraws, htext, happend, hclosed, htags⟩
  · have hbefore := tags_tail hraws htail
    rw [← htext] at hbefore
    rw [hbefore, List.mem_append, not_or, htail'] at habsent
    have hempty : tail = [] → text = [] := by
      intro hnil
      by_contra hne
      rw [getLast?_of_tail_nil hraws htext hnil hne] at hend
      exact absurd hend (by decide)
    have hmarker : slug ∈ slugs (pieces none (tail ++ space ++ '#' :: slug)) := by
      rw [hpieces, slugs_append, slugs_append]
      exact List.mem_append_right _ (List.mem_append_right _ List.mem_cons_self)
    have hne : tail ++ space ++ '#' :: slug ≠ [] :=
      List.append_ne_nil_of_right_ne_nil _ (List.cons_ne_nil _ _)
    have hwhite : tail.getLast?.any isWhitespace = false := by
      by_cases hnil : tail = []
      · rw [hnil]
        rfl
      · rwa [htext, List.getLast?_append_of_ne_nil _ hnil] at hend
    rw [happend, removeTag_last hraws (not_mem_appended hspace htail hslug) hne habsent.1 hline,
      editTagLine_last hmarker, render_removePieces_inline hspace habsent.2 hwhite hpieces]
    by_cases hnil : tail = []
    · have hflat : raws.flatten = [] := by
        have htext' := hempty hnil
        rw [htext, hnil, List.append_nil] at htext'
        exact htext'
      rw [hnil, hempty hnil, hflat]
      rfl
    · rw [trimEnd_eq_self hwhite, if_neg hnil, htext]
  · rw [happend, removeTag_own hslug hraws hclosed (htags ▸ habsent)]
    rcases htext with ⟨hflat, hnil | hlf⟩ | hflat
    · rw [hflat, hnil]
      rfl
    · rw [hlf] at hend
      exact absurd hend (by decide)
    · have hcr : stripSuffix '\r' text = none := by
        rw [stripSuffix_eq_none]
        rintro l rfl
        rw [List.getLast?_concat] at hend
        exact absurd hend (by decide)
      rw [hflat, dropLastLineTerminator, stripSuffix_concat, if_pos rfl]
      dsimp only
      rw [hcr, Option.getD_none]

theorem normalSlug_normalized {r : List Char} (hne : normalizeSlug r ≠ []) :
    NormalSlug (normalizeSlug r) :=
  normalSlug_of_normalized (normalizeSlug_idem r) hne

theorem parseTags_appendTag (hslug : NormalSlug slug) (heven : Even (fenceLines text)) :
    parseTags (appendTag text slug) = (insert slug (parseTags text).toFinset).sort := by
  by_cases hmem : slug ∈ parseTags text
  · rw [appendTag, if_pos hmem, Finset.insert_eq_of_mem (List.mem_toFinset.mpr hmem), parseTags,
      Finset.sort_toFinset]
  · rw [parseTags, tags_appendTag hslug heven hmem, parseTags, Finset.sort_toFinset,
      List.toFinset_append, Finset.union_comm]
    rfl

/-- A slug is appended so that it is read back and can be removed again, unless a code block is left
open; normalizing is idempotent, and what it gives is read as it is. -/
theorem append_read_back (text r : List Char) :
    normalizeSlug (normalizeSlug r) = normalizeSlug r ∧
      (normalizeSlug r ≠ [] → AppendedBack text (normalizeSlug r) ∧
        parseTags ('#' :: normalizeSlug r) = [normalizeSlug r]) := by
  refine ⟨normalizeSlug_idem r, fun hne => ?_⟩
  have hslug := normalSlug_normalized hne
  have hback : ∀ {text}, Even (fenceLines text) →
      normalizeSlug r ∈ parseTags (appendTag text (normalizeSlug r)) := by
    intro text heven
    rw [parseTags_appendTag hslug heven, Finset.mem_sort]
    exact Finset.mem_insert_self _ _
  refine ⟨⟨parseTags_appendTag hslug, fun heven => ?_, fun heven hnot hend => ?_, fun hnot => ?_⟩, ?_⟩
  · conv_lhs => rw [appendTag]
    rw [if_pos (hback heven)]
  · exact removeTag_appendTag hslug heven hnot (Bool.eq_false_iff.mpr hend)
  · rw [← Nat.not_even_iff_odd]
    exact fun heven => hnot (hback heven)
  · rw [parseTags, markdownLines, splitInclusive_of_not_mem (not_mem_own hslug) (List.cons_ne_nil _ _),
      markdownLinesFrom_own hslug, List.flatMap_singleton, tags_eq, if_pos rfl, pieces_own hslug]
    exact Finset.sort_singleton _ _

theorem append_read_back_bug_fix :
    AppendedBack "# Notes".toList "Bug-Fix".toList ∧
      parseTags ('#' :: "Bug-Fix".toList) = ["Bug-Fix".toList] := by
  have hslug : normalizeSlug "Bug Fix!".toList = "Bug-Fix".toList := by decide
  have hback := append_read_back "# Notes".toList "Bug Fix!".toList
  rw [hslug] at hback
  exact hback.2 (by decide)

end

end SwissArmyHammer.Kanban
