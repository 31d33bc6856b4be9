import SwissArmyHammer.Kanban.BoardStore
import SwissArmyHammer.Kanban.TagLines

/-! Renaming a tag. The markers of the new name stand where those of the old name stood, since
both begin and end with a letter or a digit. -/

namespace SwissArmyHammer.Kanban

open Text

section

structure NormalSlug (slug : Slug) : Prop where
  chars : ∀ c ∈ slug, slugChar c = true
  head : slug.head?.any Char.isAlphanum = true
  last : slug.getLast?.any Char.isAlphanum = true

variable {out raw : List Char} {slug : Slug} {lastWasHyphen : Bool} {c : Char}

theorem NormalSlug.ne_nil (h : NormalSlug slug) : slug ≠ [] := by
  rintro rfl
  simpa using h.head

theorem normalSlug_singleton (h : c.isAlphanum = true) : NormalSlug [c] :=
  ⟨by simp [slugChar, h], by simp [h], by simp [h]⟩

theorem NormalSlug.append {w : List Char} (h : NormalSlug slug) (hw : ∀ c ∈ w, slugChar c = true)
    (hlast : w.getLast?.any Char.isAlphanum = true) : NormalSlug (slug ++ w) := by
  have hne : w ≠ [] := by
    rintro rfl
    simp at hlast
  refine ⟨?_, ?_, ?_⟩
  · intro c hc
    rcases List.mem_append.mp hc with hc | hc
    · exact h.chars c hc
    · exact hw c hc
  · rw [List.head?_append_of_ne_nil _ h.ne_nil]
    exact h.head
  · rwa [List.getLast?_append_of_ne_nil _ hne]

def SlugSoFar (out : List Char) (lastWasHyphen : Bool) : Prop :=
  (out = [] ∧ lastWasHyphen = true) ∨ (NormalSlug out ∧ lastWasHyphen = false) ∨
    ∃ slug, NormalSlug slug ∧ out = slug ++ ['-'] ∧ lastWasHyphen = true

theorem SlugSoFar.alphanum (h : SlugSoFar out lastWasHyphen) (hc : c.isAlphanum = true) :
    SlugSoFar (out ++ [c]) false := by
  have hs : slugChar c = true := by simp [slugChar, hc]
  rcases h with ⟨rfl, -⟩ | ⟨h, -⟩ | ⟨slug, h, rfl, -⟩
  · exact .inr (.inl ⟨normalSlug_singleton hc, rfl⟩)
  · exact .inr (.inl ⟨h.append (by simp [hs]) (by simp [hc]), rfl⟩)
  · refine .inr (.inl ⟨?_, rfl⟩)
    rw [List.append_assoc]
    exact h.append (by simp [hs]; decide) (by simp [hc])

theorem SlugSoFar.finish (h : SlugSoFar out lastWasHyphen) :
    normalizeSlugFrom out lastWasHyphen [] = [] ∨
      NormalSlug (normalizeSlugFrom out lastWasHyphen []) := by
  rcases h with ⟨rfl, -⟩ | ⟨h, -⟩ | ⟨slug, h, rfl, -⟩
  · exact .inl rfl
  · have hnone : stripSuffix '-' out = none := by
      rw [stripSuffix_eq_none]
      rintro l rfl
      have hlast := h.last
      rw [List.getLast?_append_of_ne_nil _ (by simp)] at hlast
      exact absurd hlast (by decide)
    rw [normalizeSlugFrom, hnone]
    exact .inr h
  · rw [normalizeSlugFrom, stripSuffix_concat]
    exact .inr h

theorem normalizeSlugFrom_spec (h : SlugSoFar out lastWasHyphen) (raw : List Char) :
    normalizeSlugFrom out lastWasHyphen raw = [] ∨
      NormalSlug (normalizeSlugFrom out lastWasHyphen raw) := by
  induction raw generalizing out lastWasHyphen with
  | nil => exact h.finish
  | cons ch raw ih =>
    rw [normalizeSlugFrom]
    split
    · rename_i hch
      exact ih (h.alphanum hch)
    · split
      · rename_i hlast
        rcases h with ⟨-, rfl⟩ | ⟨h, -⟩ | ⟨_, -, -, rfl⟩
        · simp at hlast
        · exact ih (.inr (.inr ⟨out, h, rfl, rfl⟩))
        · simp at hlast
      · exact ih h

theorem normalSlug_of_normalized (h : normalizeSlug slug = slug) (hne : slug ≠ []) :
    NormalSlug slug := by
  have hspec := normalizeSlugFrom_spec (.inl ⟨rfl, rfl⟩) slug
  change normalizeSlug slug = [] ∨ NormalSlug (normalizeSlug slug) at hspec
  rw [h] at hspec
  exact hspec.resolve_left hne

end

section

variable {before before' : Option Char} {line out : List Char} {ps : List Piece}
  {oldSlug newSlug : Slug} {edited : Bool}

def Piece.rename (oldSlug newSlug : Slug) : Piece → Piece
  | .marker slug => .marker (if slug = oldSlug then newSlug else slug)
  | p => p

theorem editLineMarkers_rename (oldSlug newSlug : Slug) (before : Option Char)
    (line out : List Char) (edited : Bool) :
    editLineMarkers oldSlug (some ('#' :: newSlug)) before line out edited =
      (out ++ render ((pieces before line).map (Piece.rename oldSlug newSlug)),
        edited || decide (oldSlug ∈ slugs (pieces before line))) := by
  induction before, line using pieces_induction generalizing out edited with
  | nil before => simp [editLineMarkers]
  | code before rest ih =>
    rw [editLineMarkers, ih, pieces_code]
    simp [Piece.rename, Piece.text]
    rfl
  | marker before rest slug hslug ih =>
    rw [pieces_marker hslug]
    by_cases h : slug = oldSlug
    · subst h
      rw [editLineMarkers, if_neg (by decide), found_eq, hslug, Option.filter_some,
        if_pos (by simp)]
      simp only [Option.map_some, rewriteMarker]
      rw [length_utf8_ascii (markerAt_ascii hslug), ih]
      simp [Piece.rename, Piece.text]
    · rw [editLineMarkers_other hslug h, ih]
      simp [Piece.rename, Piece.text, h, Ne.symm h]
  | char before c rest hc hnone ih =>
    rw [editLineMarkers, if_neg hc, found_eq, hnone, pieces_char hc hnone]
    rw [ih]
    simp [Piece.rename, Piece.text]
    rfl

theorem head?_render_rename (h : Scanned before ps) :
    (render (ps.map (Piece.rename oldSlug newSlug))).head? = (render ps).head? := by
  cases ps with
  | nil => rfl
  | cons p ps =>
    cases p with
    | code span =>
      obtain ⟨⟨body, rfl, -⟩, -⟩ := h
      rfl
    | marker slug => rfl
    | char c => rfl

theorem slugs_rename (ps : List Piece) : slugs (ps.map (Piece.rename oldSlug newSlug)) =
    (slugs ps).map fun slug => if slug = oldSlug then newSlug else slug := by
  induction ps with
  | nil => rfl
  | cons p ps ih => cases p <;> simp [Piece.rename, ih]

theorem glued_last (h : NormalSlug oldSlug) : glued oldSlug.getLast? = true := by
  have hlast := h.last
  cases hl : oldSlug.getLast? with
  | none => simp [hl] at hlast
  | some c =>
    rw [hl, Option.any_some] at hlast
    simp [glued, hlast]

theorem scanned_rename (hold : NormalSlug oldSlug) (hnew : NormalSlug newSlug)
    (h : Scanned before ps) (hglued : glued before' = glued before) :
    Scanned before' (ps.map (Piece.rename oldSlug newSlug)) := by
  induction ps generalizing before before' with
  | nil => exact trivial
  | cons p ps ih =>
    cases p with
    | code span =>
      obtain ⟨⟨body, rfl, hskip⟩, hps⟩ := h
      refine ⟨⟨body, rfl, ?_⟩, ih hps rfl⟩
      by_cases hnil : render ps = []
      · have hps' : ps = [] := by
          cases ps with
          | nil => rfl
          | cons q ps =>
            have hq := hps.text_ne_nil List.mem_cons_self
            simp [hq] at hnil
        subst hps'
        exact hskip
      · exact skipInlineCode_congr hnil hskip
    | marker slug =>
      obtain ⟨hslug, hps⟩ := h
      rw [markerAt_append] at hslug
      by_cases hs : slug = oldSlug
      · subst hs
        rw [List.map_cons, Piece.rename, if_pos rfl]
        refine ⟨?_, ih hps ?_⟩
        · rw [markerAt_append, hglued, head?_render_rename hps]
          exact ⟨hslug.1, hnew.head, hnew.chars, hslug.2.2.2⟩
        · rw [glued_last hnew, glued_last hold]
      · rw [List.map_cons, Piece.rename, if_neg hs]
        refine ⟨?_, ih hps rfl⟩
        rw [markerAt_append, hglued, head?_render_rename hps]
        exact hslug
    | char c =>
      obtain ⟨hc, hnone, hps⟩ := h
      refine ⟨hc, ?_, ih hps rfl⟩
      by_cases hhash : c = '#'
      · subst hhash
        have hsome : (markerAt before ('#' :: render ps)).isSome = false := by rw [hnone]; rfl
        rw [isSome_markerAt] at hsome
        rw [← Option.not_isSome_iff_eq_none, isSome_markerAt, hglued, head?_render_rename hps, hsome]
        simp
      · exact markerAt_of_ne hhash _ _

theorem rename_eq_self (h : oldSlug ∉ slugs ps) : ps.map (Piece.rename oldSlug newSlug) = ps := by
  induction ps with
  | nil => rfl
  | cons p ps ih =>
    cases p with
    | code span => simp [Piece.rename, ih h]
    | marker slug =>
      rw [slugs_marker, List.mem_cons, not_or] at h
      simp [Piece.rename, ih h.2, Ne.symm h.1]
    | char c => simp [Piece.rename, ih h]

theorem exists_first_marker (h : oldSlug ∈ slugs ps) :
    ∃ qs rs, ps = qs ++ .marker oldSlug :: rs ∧ oldSlug ∉ slugs qs := by
  induction ps with
  | nil => simp at h
  | cons p ps ih =>
    by_cases hp : p = .marker oldSlug
    · exact ⟨[], ps, by simp [hp], by simp⟩
    · have hps : oldSlug ∈ slugs ps := by
        cases p with
        | code span => exact h
        | marker slug =>
          rw [slugs_marker, List.mem_cons] at h
          exact h.resolve_left fun heq => hp (by rw [heq])
        | char c => exact h
      obtain ⟨qs, rs, rfl, hqs⟩ := ih hps
      refine ⟨p :: qs, rs, rfl, ?_⟩
      cases p with
      | code span => exact hqs
      | marker slug =>
        rw [slugs_marker, List.mem_cons, not_or]
        exact ⟨fun heq => hp (by rw [heq]), hqs⟩
      | char c => exact hqs

theorem exists_render_rename (hold : NormalSlug oldSlug) (hnew : NormalSlug newSlug)
    (h : oldSlug ∈ slugs ps) : ∃ (u : List Char) (a b : Char) (x y : List Char),
    a.isAlphanum = true ∧ b.isAlphanum = true ∧ render ps = u ++ '#' :: a :: x ∧
      render (ps.map (Piece.rename oldSlug newSlug)) = u ++ '#' :: b :: y := by
  obtain ⟨qs, rs, rfl, hqs⟩ := exists_first_marker h
  have hcons : ∀ {slug : Slug}, NormalSlug slug → ∃ c w, slug = c :: w ∧ c.isAlphanum = true := by
    intro slug hslug
    cases slug with
    | nil => exact absurd rfl hslug.ne_nil
    | cons c w => exact ⟨c, w, rfl, by simpa using hslug.head⟩
  obtain ⟨a, x, rfl, ha⟩ := hcons hold
  obtain ⟨b, y, rfl, hb⟩ := hcons hnew
  refine ⟨render qs, a, b, x ++ render rs,
    y ++ render (rs.map (Piece.rename (a :: x) (b :: y))), ha, hb, ?_, ?_⟩
  · simp [Piece.text]
  · simp [rename_eq_self hqs, Piece.rename, Piece.text]

end

section

variable {oldSlug newSlug : Slug} {line : MarkdownLine} {text : List Char}

theorem trimStart_append_hash (u x : List Char) :
    trimStart (u ++ '#' :: x) = trimStart u ++ '#' :: x := by
  induction u with
  | nil => rfl
  | cons c u ih =>
    by_cases hc : isWhitespace c = true
    · simpa [trimStart, hc] using ih
    · simp [trimStart, hc]

theorem isFenceLine_append_hash (v x y : List Char) :
    isFenceLine (v ++ '#' :: x) = isFenceLine (v ++ '#' :: y) := by
  match v with
  | [] => rfl
  | [_] => simp [isFenceLine, List.replicate, List.isPrefixOf, tick]
  | [_, _] => simp [isFenceLine, List.replicate, List.isPrefixOf, tick]
  | _ :: _ :: _ :: _ => simp [isFenceLine, List.replicate, List.isPrefixOf]

theorem isHeadingLine_append_hash {a b : Char} (ha : a.isAlphanum = true) (hb : b.isAlphanum = true)
    (u x y : List Char) :
    isHeadingLine (u ++ '#' :: a :: x) = isHeadingLine (u ++ '#' :: b :: y) := by
  have halnum : ∀ {c : Char}, c.isAlphanum = true → c ≠ '#' ∧ c ≠ ' ' := by
    intro c hc
    constructor
    · rintro rfl
      exact absurd hc (by decide)
    · rintro rfl
      exact absurd hc (by decide)
  simp only [isHeadingLine, trimStart_append_hash]
  match trimStart u with
  | [] => simp [halnum ha, halnum hb]
  | [c] =>
    by_cases hc : c = '#'
    · simp [hc]
    · simp [hc]
  | c :: d :: v =>
    by_cases hc : c = '#'
    · simp [hc]
    · simp [hc]

def renameContent (oldSlug newSlug : Slug) (content : List Char) : List Char :=
  render ((pieces none content).map (Piece.rename oldSlug newSlug))

theorem pieces_renameContent (hold : NormalSlug oldSlug) (hnew : NormalSlug newSlug)
    (content : List Char) : pieces none (renameContent oldSlug newSlug content) =
      (pieces none content).map (Piece.rename oldSlug newSlug) :=
  pieces_render (scanned_rename hold hnew (scanned_pieces none content) rfl)

theorem renameContent_eq_self {content : List Char} (h : oldSlug ∉ slugs (pieces none content)) :
    renameContent oldSlug newSlug content = content := by
  rw [renameContent, rename_eq_self h, render_pieces]

theorem mem_renameContent (hnew : NormalSlug newSlug) {content : List Char} {c : Char}
    (h : c ∈ renameContent oldSlug newSlug content) : c ∈ content ∨ slugChar c = true := by
  rw [renameContent, render, List.mem_flatMap] at h
  obtain ⟨p', hp', hc⟩ := h
  obtain ⟨p, hp, rfl⟩ := List.mem_map.mp hp'
  have hkept : c ∈ p.text → c ∈ content := by
    intro hmem
    rw [← render_pieces none content, render, List.mem_flatMap]
    exact ⟨p, hp, hmem⟩
  cases p with
  | code span => exact .inl (hkept hc)
  | marker slug =>
    rw [Piece.rename, Piece.text, List.mem_cons] at hc
    split at hc
    · rcases hc with rfl | hc
      · exact .inl (hkept List.mem_cons_self)
      · exact .inr (hnew.chars c hc)
    · exact .inl (hkept (by simpa [Piece.text] using hc))
  | char d => exact .inl (hkept hc)

theorem getLast?_renameContent (oldSlug : Slug) (hnew : NormalSlug newSlug) (content : List Char) :
    (renameContent oldSlug newSlug content).getLast? = content.getLast? ∨
      (renameContent oldSlug newSlug content).getLast?.all slugChar = true := by
  have hscan := scanned_pieces none content
  have hrender := render_pieces none content
  rw [renameContent]
  rcases List.eq_nil_or_concat (pieces none content) with hnil | ⟨ps, p, hps⟩
  · exact .inr (by simp [hnil])
  · rw [List.concat_eq_append] at hps
    have hp := hscan.text_ne_nil (p := p) (by simp [hps])
    have hcontent : content = render (ps ++ [p]) := by rw [← hps, hrender]
    rw [hps, hcontent, List.map_append, List.map_singleton, render_append, render_append,
      render_cons, render_cons, render_nil, List.append_nil, List.append_nil,
      List.getLast?_append_of_ne_nil _ hp]
    cases p with
    | code span => exact .inl (List.getLast?_append_of_ne_nil _ hp)
    | marker slug =>
      rw [Piece.rename]
      by_cases hs : slug = oldSlug
      · rw [if_pos hs, Piece.text, List.getLast?_append_of_ne_nil _ (by simp)]
        have hne := hnew.ne_nil
        rw [List.getLast?_cons, List.getLast?_eq_some_getLast hne]
        simp [hnew.chars _ (List.getLast_mem hne)]
      · rw [if_neg hs]
        exact .inl (List.getLast?_append_of_ne_nil _ hp)
    | char c => exact .inl (List.getLast?_append_of_ne_nil _ hp)

theorem kind_renameContent (hold : NormalSlug oldSlug) (hnew : NormalSlug newSlug)
    (content : List Char) :
    isFenceLine (trimStart (renameContent oldSlug newSlug content)) =
        isFenceLine (trimStart content) ∧
      isHeadingLine (renameContent oldSlug newSlug content) = isHeadingLine content := by
  by_cases hmem : oldSlug ∈ slugs (pieces none content)
  · obtain ⟨u, a, b, x, y, ha, hb, hold', hnew'⟩ := exists_render_rename hold hnew hmem
    rw [render_pieces] at hold'
    rw [renameContent, hnew', hold', trimStart_append_hash, trimStart_append_hash]
    exact ⟨isFenceLine_append_hash _ _ _, isHeadingLine_append_hash hb ha _ _ _⟩
  · rw [renameContent_eq_self hmem]
    exact ⟨rfl, rfl⟩

theorem keepsLine_rename (hold : NormalSlug oldSlug) (hnew : NormalSlug newSlug)
    (h : line ∈ markdownLines text) : KeepsLine (renameContent oldSlug newSlug) line := by
  intro hbear
  obtain ⟨hlf, hcr⟩ := fits_line h
  have hkind := kind_renameContent hold hnew line.content
  refine ⟨⟨?_, ?_⟩, by rw [hkind.1, (kind_line h hbear).1]⟩
  · intro hmem
    rcases mem_renameContent hnew hmem with hmem | hmem
    · exact hlf hmem
    · exact absurd hmem (by decide)
  · intro hterm hlast
    rcases getLast?_renameContent oldSlug hnew line.content with heq | hall
    · exact hcr hterm (heq ▸ hlast)
    · rw [hlast] at hall
      exact absurd hall (by decide)

theorem rewriteLine_rename (hold : NormalSlug oldSlug) (hnew : NormalSlug newSlug)
    (h : line ∈ markdownLines text) :
    rewriteLine (renameContent oldSlug newSlug) line =
      if line.tagBearing then { line with content := renameContent oldSlug newSlug line.content }
      else line := by
  unfold rewriteLine
  split
  · rename_i hbear
    have hkind := kind_renameContent hold hnew line.content
    rw [hkind.2, (kind_line h hbear).2, hbear]
    rfl
  · rfl

theorem renameTag_eq (text : List Char) (oldSlug newSlug : Slug) :
    renameTag text oldSlug newSlug = rewriteText (renameContent oldSlug newSlug) text := by
  have hline : ∀ (result : List Char) (line : MarkdownLine),
      editTagLine oldSlug (some ('#' :: newSlug)) result line =
        result ++ (rewriteLine (renameContent oldSlug newSlug) line).raw := by
    intro result line
    cases hbear : line.tagBearing with
    | false => simp [editTagLine, hbear, rewriteLine, MarkdownLine.raw]
    | true =>
      simp [editTagLine, hbear, rewriteLine, MarkdownLine.raw, editLineMarkers_rename,
        renameContent]
  have hfold : ∀ (lines : List MarkdownLine) (result : List Char),
      lines.foldl (editTagLine oldSlug (some ('#' :: newSlug))) result =
        result ++ lines.flatMap fun line =>
          (rewriteLine (renameContent oldSlug newSlug) line).raw := by
    intro lines
    induction lines with
    | nil => simp
    | cons line lines ih =>
      intro result
      rw [List.foldl_cons, hline, ih, List.flatMap_cons, List.append_assoc]
  rw [renameTag, editTagMarkers, hfold, List.nil_append, rewriteText]

theorem tags_rename (hold : NormalSlug oldSlug) (hnew : NormalSlug newSlug)
    (h : line ∈ markdownLines text) :
    (rewriteLine (renameContent oldSlug newSlug) line).tags =
      line.tags.map fun slug => if slug = oldSlug then newSlug else slug := by
  rw [rewriteLine_rename hold hnew h]
  cases hbear : line.tagBearing with
  | false => simp [tags_eq, hbear]
  | true =>
    simp only [if_true, tags_eq, hbear]
    rw [pieces_renameContent hold hnew, slugs_rename]

theorem raw_rename (hmem : oldSlug ∉ line.tags) :
    (rewriteLine (renameContent oldSlug newSlug) line).raw = line.raw := by
  unfold rewriteLine
  split
  · rename_i hbear
    rw [tags_eq, if_pos hbear] at hmem
    rw [renameContent_eq_self hmem]
    rfl
  · rfl

theorem parseTags_rename (hold : NormalSlug oldSlug) (hnew : NormalSlug newSlug)
    (text : List Char) : (parseTags (renameTag text oldSlug newSlug)).toFinset =
      (parseTags text).toFinset.image fun slug => if slug = oldSlug then newSlug else slug := by
  have hkeeps : ∀ line ∈ markdownLines text, KeepsLine (renameContent oldSlug newSlug) line :=
    fun line hline => keepsLine_rename hold hnew hline
  have htags : ((markdownLines text).flatMap fun line =>
      (rewriteLine (renameContent oldSlug newSlug) line).tags) =
        ((markdownLines text).flatMap MarkdownLine.tags).map
          fun slug => if slug = oldSlug then newSlug else slug := by
    rw [List.map_flatMap]
    exact List.flatMap_congr fun line hline => tags_rename hold hnew hline
  rw [parseTags, parseTags, renameTag_eq, tags_rewriteText hkeeps, htags, Finset.sort_toFinset]
  ext slug
  simp

theorem splitInclusive_renameTag (hold : NormalSlug oldSlug) (hnew : NormalSlug newSlug)
    (text : List Char) : splitInclusive (renameTag text oldSlug newSlug) =
      (markdownLines text).map fun line =>
        (rewriteLine (renameContent oldSlug newSlug) line).raw := by
  have hkeeps : ∀ line ∈ markdownLines text, KeepsLine (renameContent oldSlug newSlug) line :=
    fun line hline => keepsLine_rename hold hnew hline
  have hne : ∀ raw ∈ (markdownLines text).map fun line =>
      (rewriteLine (renameContent oldSlug newSlug) line).raw, raw ≠ [] := by
    intro raw hraw
    obtain ⟨line, hline, rfl⟩ := List.mem_map.mp hraw
    have hline_ne := raw_ne_nil hline
    by_cases hmem : oldSlug ∈ line.tags
    · rw [tags_eq] at hmem
      split at hmem
      · rename_i hbear
        obtain ⟨u, _, b, _, y, -, -, -, hrename⟩ := exists_render_rename hold hnew hmem
        rw [rewriteLine_of_bearing hbear, MarkdownLine.raw, renameContent, hrename]
        simp
      · simp at hmem
    · rwa [raw_rename hmem]
  rw [renameTag_eq, splitInclusive_rewriteText hkeeps]
  simpa using hne

/-- Renaming replaces the tag in the set of tags, leaves every line without a marker for it as
it was, and like removal does nothing to a text that does not have the tag. -/
theorem renameTag_exact (text : List Char) (oldSlug newSlug : Slug)
    (hold : normalizeSlug oldSlug = oldSlug) (hnew : normalizeSlug newSlug = newSlug)
    (hold_ne : oldSlug ≠ []) (hnew_ne : newSlug ≠ []) :
    (parseTags (renameTag text oldSlug newSlug)).toFinset =
        (parseTags text).toFinset.image (fun slug => if slug = oldSlug then newSlug else slug) ∧
      (splitInclusive (renameTag text oldSlug newSlug)).length = (splitInclusive text).length ∧
      (∀ (i : Nat) (line : MarkdownLine) (raw : List Char), (markdownLines text)[i]? = some line →
        (splitInclusive text)[i]? = some raw → oldSlug ∉ line.tags →
          (splitInclusive (renameTag text oldSlug newSlug))[i]? = some raw) ∧
      (oldSlug ∉ parseTags text →
        renameTag text oldSlug newSlug = text ∧ removeTag text oldSlug = text) := by
  have hold' := normalSlug_of_normalized hold hold_ne
  have hnew' := normalSlug_of_normalized hnew hnew_ne
  have hsplit := splitInclusive_renameTag hold' hnew' text
  have hraws := map_raw false (splitInclusive text)
  refine ⟨parseTags_rename hold' hnew' text, ?_, ?_, ?_⟩
  · rw [hsplit, List.length_map, ← hraws, List.length_map]
    rfl
  · intro i line raw hline hraw hmem
    rw [← hraws, List.getElem?_map, show (markdownLinesFrom false (splitInclusive text))[i]? =
      some line from hline, Option.map_some, Option.some.injEq] at hraw
    rw [hsplit, List.getElem?_map, hline, Option.map_some, raw_rename hmem, hraw]
  · intro hmem
    exact ⟨editTagMarkers_absent _ hmem, editTagMarkers_absent _ hmem⟩

theorem renameTag_exact_bug : normalizeSlug ['b', 'u', 'g'] = ['b', 'u', 'g'] ∧
    (parseTags (renameTag ['#', 'b', 'u', 'g', ','] ['b', 'u', 'g'] ['f'])).toFinset =
      (parseTags ['#', 'b', 'u', 'g', ',']).toFinset.image
        (fun slug => if slug = ['b', 'u', 'g'] then ['f'] else slug) :=
  ⟨by decide, (renameTag_exact ['#', 'b', 'u', 'g', ','] ['b', 'u', 'g'] ['f'] (by decide)
    (by decide) (by decide) (by decide)).1⟩

end

end SwissArmyHammer.Kanban

/-! The names under which tags are stored: a slug is stored as it is, and normalizing a name twice
is normalizing it once. -/

namespace SwissArmyHammer.Kanban

open Entities Text

section

variable {out raw : List Char} {state : List Char × Bool}

def slugStep (state : List Char × Bool) (ch : Char) : List Char × Bool :=
  if ch.isAlphanum then (state.1 ++ [ch], false)
  else if !state.2 then (state.1 ++ ['-'], true)
  else state

theorem normalizeSlugFrom_eq (out : List Char) (lastWasHyphen : Bool) (raw : List Char) :
    normalizeSlugFrom out lastWasHyphen raw =
      (stripSuffix '-' (raw.foldl slugStep (out, lastWasHyphen)).1).getD
        (raw.foldl slugStep (out, lastWasHyphen)).1 := by
  induction raw generalizing out lastWasHyphen with
  | nil => rfl
  | cons ch raw ih =>
    rw [normalizeSlugFrom, List.foldl_cons, slugStep]
    split
    · exact ih _ _
    · split
      · exact ih _ _
      · exact ih _ _

theorem length_slugStep (state : List Char × Bool) (raw : List Char) :
    (raw.foldl slugStep state).1.length ≤ state.1.length + raw.length := by
  induction raw generalizing state with
  | nil => exact le_rfl
  | cons ch raw ih =>
    have hrest := ih (slugStep state ch)
    have hone : (slugStep state ch).1.length ≤ state.1.length + 1 := by
      unfold slugStep
      split
      · simp
      · split
        · simp
        · omega
    rw [List.foldl_cons, List.length_cons]
    omega

structure ReadsBack (state : List Char × Bool) : Prop where
  same : state.1.foldl slugStep ([], true) = state
  last : state.2 = false → ∀ l, state.1 ≠ l ++ ['-']

theorem ReadsBack.step (h : ReadsBack state) (ch : Char) : ReadsBack (slugStep state ch) := by
  unfold slugStep
  split
  · rename_i hch
    refine ⟨?_, fun _ l hl => ?_⟩
    · rw [List.foldl_append, h.same, List.foldl_cons, List.foldl_nil, slugStep, if_pos hch]
    · have hlast := congrArg List.getLast? hl
      rw [List.getLast?_concat, List.getLast?_concat] at hlast
      rw [Option.some.inj hlast] at hch
      exact absurd hch (by decide)
  · split
    · rename_i hhyphen
      refine ⟨?_, fun hfalse => ?_⟩
      · rw [List.foldl_append, h.same, List.foldl_cons, List.foldl_nil, slugStep,
          if_neg (by decide), if_pos hhyphen]
      · cases hfalse
    · exact h

theorem ReadsBack.foldl (h : ReadsBack state) (raw : List Char) :
    ReadsBack (raw.foldl slugStep state) := by
  induction raw generalizing state with
  | nil => exact h
  | cons ch raw ih => exact ih (h.step ch)

theorem normalizeSlug_idem (raw : List Char) :
    normalizeSlug (normalizeSlug raw) = normalizeSlug raw := by
  have hstart : ReadsBack ([], true) := ⟨rfl, fun h => by cases h⟩
  have hend := hstart.foldl raw
  rw [normalizeSlug, normalizeSlug, normalizeSlugFrom_eq [] true raw]
  generalize raw.foldl slugStep ([], true) = state at hend ⊢
  obtain ⟨out, hyphen⟩ := state
  have hsame : out.foldl slugStep ([], true) = (out, hyphen) := hend.same
  rw [normalizeSlugFrom_eq]
  cases hstrip : stripSuffix '-' out with
  | none =>
    rw [Option.getD_none, hsame, hstrip]
    rfl
  | some l =>
    have hout : out = l ++ ['-'] := stripSuffix_eq_some.mp hstrip
    rw [Option.getD_some]
    have hrun : slugStep (l.foldl slugStep ([], true)) '-' = (l ++ ['-'], hyphen) := by
      have hsplit := hsame
      rw [hout, List.foldl_append] at hsplit
      exact hsplit
    have hlength := length_slugStep ([], true) l
    have hback := hstart.foldl l
    generalize l.foldl slugStep ([], true) = state at hrun hlength hback ⊢
    obtain ⟨written, after⟩ := state
    cases after with
    | true =>
      have hwritten : written = l ++ ['-'] := (Prod.mk.inj hrun).1
      rw [hwritten] at hlength
      simp at hlength
    | false =>
      have hwritten : written ++ ['-'] = l ++ ['-'] := (Prod.mk.inj hrun).1
      have heq : written = l := List.append_cancel_right hwritten
      have hnone : stripSuffix '-' written = none :=
        stripSuffix_eq_none.mpr (hback.last rfl)
      rw [hnone, Option.getD_none, heq]

theorem normalizeSlug_chars (raw : List Char) : ∀ c ∈ normalizeSlug raw, slugChar c = true := by
  rcases normalizeSlugFrom_spec (.inl ⟨rfl, rfl⟩) raw with hnil | hslug
  · change normalizeSlug raw = [] at hnil
    rw [hnil]
    exact fun c hc => absurd hc List.not_mem_nil
  · exact hslug.chars

end

section

variable {slug text : List Char} {c : Char}

theorem not_isJsWhitespace (h : slugChar c = true) : isJsWhitespace c = false := by
  have hall : ∀ n < 128, slugChar (Char.ofNat n) = true → isJsWhitespace (Char.ofNat n) = false := by
    decide
  have hc := hall c.toNat (slugChar_ascii h)
  rw [Char.ofNat_toNat] at hc
  exact hc h

theorem replaceSpaces_eq (inRun : Bool) (h : ' ' ∉ slug) : replaceSpaces inRun slug = slug := by
  induction slug generalizing inRun with
  | nil => rfl
  | cons c slug ih =>
    rw [List.mem_cons, not_or] at h
    rw [replaceSpaces, if_neg (Ne.symm h.1), ih false h.2]

theorem jsTrim_eq (h : ∀ c ∈ slug, slugChar c = true) : jsTrim slug = slug := by
  have hwhite : ∀ c ∈ slug, isJsWhitespace c = false := fun c hc => not_isJsWhitespace (h c hc)
  have hdrop : slug.dropWhile isJsWhitespace = slug := by
    cases slug with
    | nil => rfl
    | cons c slug => rw [List.dropWhile_cons, hwhite c List.mem_cons_self, if_neg Bool.false_ne_true]
  rw [jsTrim, hdrop, List.rdropWhile_eq_self_iff]
  intro hne
  rw [hwhite _ (List.getLast_mem hne)]
  exact Bool.false_ne_true

theorem validateTagName_slug (hne : slug ≠ []) (h : ∀ c ∈ slug, slugChar c = true) :
    validateTagName (.string (String.ofList slug)) = .ok (.string (String.ofList slug)) := by
  have hspace : ' ' ∉ slug := fun hmem => absurd (h _ hmem) (by decide)
  have hnul : slug.filter (· ≠ Char.ofNat 0) = slug := by
    rw [List.filter_eq_self]
    intro c hc
    apply decide_eq_true
    rintro rfl
    exact absurd (h _ hc) (by decide)
  simp only [validateTagName, String.toList_ofList, jsTrim_eq h, replaceSpaces_eq false hspace,
    hnul, if_neg hne]

theorem validateTagName_string {value stored : Json} (h : validateTagName value = .ok stored) :
    ∃ s t, value = .string s ∧ stored = .string t := by
  unfold validateTagName at h
  split at h
  · grind
  · cases h

theorem slugs_pieces (before : Option Char) (line : List Char) :
    ∀ slug ∈ slugs (pieces before line), slug ≠ [] ∧ ∀ c ∈ slug, slugChar c = true := by
  induction before, line using pieces_induction with
  | nil before =>
    simp
  | code before rest ih =>
    intro slug hslug
    rw [pieces_code] at hslug
    exact ih slug hslug
  | marker before rest found hfound ih =>
    intro slug hslug
    rw [pieces_marker hfound] at hslug
    rcases List.mem_cons.mp hslug with rfl | hslug
    · obtain ⟨rest, -, hslug, -, c, hhead, -⟩ := markerAt_eq_some hfound
      refine ⟨?_, ?_⟩
      · rintro rfl
        cases hhead
      · rw [hslug]
        exact fun c hc => List.mem_takeWhile_imp hc
    · exact ih slug hslug
  | char before c rest hc hnone ih =>
    intro slug hslug
    rw [pieces_char hc hnone] at hslug
    exact ih slug hslug

theorem parseTags_slug (h : slug ∈ parseTags text) : slug ≠ [] ∧ ∀ c ∈ slug, slugChar c = true := by
  obtain ⟨line, -, hline⟩ := mem_parseTags.mp h
  rw [tags_eq] at hline
  split at hline
  · exact slugs_pieces _ _ slug hline
  · exact absurd hline List.not_mem_nil

end

end SwissArmyHammer.Kanban
