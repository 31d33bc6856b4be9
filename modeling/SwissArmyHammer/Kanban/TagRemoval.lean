import SwissArmyHammer.Kanban.TagLines

/-! Removing a tag. A marker goes together with a space beside it, and what stood left and
right of it meets; the other markers of the line stay as they are when nothing new can be read
where the two meet. -/

namespace SwissArmyHammer.Kanban

open Text

section

variable {before : Option Char} {line out : List Char} {kept ps qs : List Piece} {p : Piece}
  {slug : Slug} {edited : Bool} {c : Char}

def removeStep (slug : Slug) (kept ps : List Piece) : Option Char × List Piece × List Piece :=
  if ps.head? = some (.char ' ') then (some ' ', ps.tail, kept)
  else (slug.getLast?, ps, if kept.getLast? = some (.char ' ') then kept.dropLast else kept)

theorem length_removeStep (slug : Slug) (kept ps : List Piece) :
    (removeStep slug kept ps).2.1.length ≤ ps.length := by
  unfold removeStep
  split <;> simp

theorem removeStep_of_ne (h : ps.head? ≠ some (.char ' ')) : removeStep slug kept ps =
    (slug.getLast?, ps, if kept.getLast? = some (.char ' ') then kept.dropLast else kept) := by
  rw [removeStep, if_neg h]

def removePieces (slug : Slug) (kept ps : List Piece) : List Piece :=
  match ps with
  | [] => kept
  | p :: ps =>
    if p = .marker slug then
      removePieces slug (removeStep slug kept ps).2.2 (removeStep slug kept ps).2.1
    else removePieces slug (kept ++ [p]) ps
termination_by ps.length
decreasing_by
  · have := length_removeStep slug kept ps
    simp only [List.length_cons]
    omega
  · simp

/-- Nothing is read differently where `kept` and `rest` meet: a marker or a `#` at the end of
`kept` does not go on in `rest`, and a `#` at the start of `rest` is as glued to what is now
before it as it was to `last`. -/
structure Apart (kept : List Piece) (last : Option Char) (rest : List Piece) : Prop where
  marker : ∀ slug, kept.getLast? = some (.marker slug) → (render rest).head?.any slugChar = false
  hash : kept.getLast? = some (.char '#') →
    (markerAt (render kept.dropLast).getLast? ('#' :: render rest)).isSome = false
  glue : (markerAt (render kept).getLast? (render rest)).isSome =
    (markerAt last (render rest)).isSome

def Seams (slug : Slug) (kept ps : List Piece) : Prop :=
  match ps with
  | [] => True
  | p :: ps =>
    if p = .marker slug then
      Apart (removeStep slug kept ps).2.2 (removeStep slug kept ps).1 (removeStep slug kept ps).2.1 ∧
        Seams slug (removeStep slug kept ps).2.2 (removeStep slug kept ps).2.1
    else Seams slug (kept ++ [p]) ps
termination_by ps.length
decreasing_by
  · have := length_removeStep slug kept ps
    simp only [List.length_cons]
    omega
  · simp

def Spaced (kept : List Piece) : Prop :=
  ∀ p ∈ kept, p.text ≠ [] ∧ (p.text.getLast? = some ' ' → p = .char ' ')

theorem Spaced.concat (h : Spaced kept) (hne : p.text ≠ [])
    (hp : p.text.getLast? = some ' ' → p = .char ' ') : Spaced (kept ++ [p]) := by
  intro q hq
  rcases List.mem_append.mp hq with hq | hq
  · exact h q hq
  · rw [List.mem_singleton] at hq
    subst hq
    exact ⟨hne, hp⟩

theorem getLast?_render_concat (h : p.text ≠ []) (ps : List Piece) :
    (render (ps ++ [p])).getLast? = p.text.getLast? := by
  rw [render_append, render_cons, render_nil, List.append_nil, List.getLast?_append_of_ne_nil _ h]

theorem Spaced.stripSuffix (h : Spaced kept) : (stripSuffix ' ' (render kept)).getD (render kept) =
    render (if kept.getLast? = some (.char ' ') then kept.dropLast else kept) := by
  rcases List.eq_nil_or_concat kept with rfl | ⟨ps, p, rfl⟩
  · rfl
  · rw [List.concat_eq_append] at h ⊢
    obtain ⟨hne, hp⟩ := h p (by simp)
    by_cases hspace : p = .char ' '
    · subst hspace
      simp [Piece.text]
    · have hlast : p.text.getLast? ≠ some ' ' := fun h => hspace (hp h)
      rw [if_neg (by simpa using hspace)]
      have hnone : Text.stripSuffix ' ' (render (ps ++ [p])) = none := by
        simp only [Text.stripSuffix, getLast?_render_concat hne, if_neg hlast]
      rw [hnone]
      rfl

theorem rewriteMarker_render (h : Spaced kept) (slug : Slug) (ps : List Piece)
    (hps : Scanned slug.getLast? ps) :
    rewriteMarker slug.getLast? (render ps) none (render kept) =
      ((removeStep slug kept ps).1, render (removeStep slug kept ps).2.1,
        render (removeStep slug kept ps).2.2) := by
  have hother : (render ps).head? ≠ some ' ' → ps.head? ≠ some (.char ' ') →
      rewriteMarker slug.getLast? (render ps) none (render kept) =
        ((removeStep slug kept ps).1, render (removeStep slug kept ps).2.1,
          render (removeStep slug kept ps).2.2) := by
    intro hhead hps
    rw [removeStep_of_ne hps, ← h.stripSuffix]
    unfold rewriteMarker
    simp only
    split
    · rename_i heq
      simp [heq] at hhead
    · rfl
  cases ps with
  | nil => exact hother (by simp) (by simp)
  | cons p ps =>
    cases p with
    | code span =>
      obtain ⟨⟨body, rfl, -⟩, -⟩ := hps
      exact hother (by simp [Piece.text]; decide) (by simp)
    | marker found => exact hother (by simp [Piece.text]) (by simp)
    | char c =>
      by_cases hc : c = ' '
      · subst hc
        rfl
      · exact hother (by simpa [Piece.text] using hc) (by simpa using hc)

theorem getLast?_code {body r : List Char} (hr : r ≠ [])
    (h : skipInlineCode tick (body ++ r) = (body, r)) : (tick :: body).getLast? = some tick := by
  induction body with
  | nil => rfl
  | cons c body ih =>
    rw [List.cons_append, skipInlineCode] at h
    split at h
    · grind
    · rw [Prod.mk.injEq, List.cons.injEq] at h
      have hlast := ih (Prod.ext h.1.2 h.2)
      cases body with
      | nil =>
        cases r with
        | nil => exact absurd rfl hr
        | cons d r =>
          have hskip := h.1.2
          rw [List.nil_append, skipInlineCode] at hskip
          split at hskip <;> simp at hskip
      | cons d body => simpa using hlast

theorem Scanned.removeStep (h : Scanned slug.getLast? ps) (kept : List Piece) :
    Scanned (removeStep slug kept ps).1 (removeStep slug kept ps).2.1 := by
  unfold Kanban.removeStep
  split
  · rename_i hhead
    cases ps with
    | nil => simp at hhead
    | cons p ps =>
      obtain rfl : p = .char ' ' := by simpa using hhead
      exact h.2.2
  · exact h

theorem Spaced.removeStep (h : Spaced kept) (slug : Slug) (ps : List Piece) :
    Spaced (removeStep slug kept ps).2.2 := by
  unfold Kanban.removeStep
  split
  · exact h
  · split
    · exact fun p hp => h p (List.mem_of_mem_dropLast hp)
    · exact h

theorem getLast?_marker (h : ∀ c ∈ slug, slugChar c = true) :
    (Piece.marker slug).text.getLast? ≠ some ' ' := by
  intro hlast
  rcases List.mem_cons.mp (List.mem_of_getLast? hlast) with heq | hmem
  · exact absurd heq (by decide)
  · exact absurd (h ' ' hmem) (by decide)

theorem editLineMarkers_remove (hkept : Spaced kept) (h : Scanned before ps) (edited : Bool) :
    editLineMarkers slug none before (render ps) (render kept) edited =
      (render (removePieces slug kept ps), edited || decide (slug ∈ slugs ps)) := by
  induction kept, ps using removePieces.induct slug generalizing before edited with
  | case1 kept => simp [editLineMarkers, removePieces]
  | case2 kept ps ih =>
    obtain ⟨hslug, hps⟩ := h
    have hascii := markerAt_ascii hslug
    rw [render_cons, Piece.text, List.cons_append, editLineMarkers, if_neg (by decide), found_eq,
      hslug, Option.filter_some, if_pos (by simp)]
    simp only [Option.map_some]
    rw [length_utf8_ascii hascii, List.drop_left, rewriteMarker_render hkept slug ps hps,
      ih (hkept.removeStep slug ps) (hps.removeStep kept) true, removePieces]
    simp
  | case3 kept p ps hp ih =>
    rw [removePieces, if_neg hp]
    cases p with
    | code span =>
      obtain ⟨⟨body, rfl, hskip⟩, hps⟩ := h
      rw [render_cons, Piece.text, List.cons_append, editLineMarkers, hskip, slugs_code]
      by_cases hnil : ps = []
      · subst hnil
        simp [editLineMarkers, removePieces, Piece.text]
      · have hrest : render ps ≠ [] := by
          cases ps with
          | nil => exact absurd rfl hnil
          | cons q ps =>
            have hq := hps.text_ne_nil List.mem_cons_self
            simp [hq]
        have hlast := getLast?_code hrest hskip
        have hspaced := hkept.concat (p := .code (tick :: body)) (by simp [Piece.text]) (by
          rw [Piece.text, hlast]
          exact fun h => absurd h (by decide))
        rw [← ih hspaced hps]
        simp [Piece.text]
    | marker found =>
      obtain ⟨hfound, hps⟩ := h
      have hchars := (markerAt_append.mp hfound).2.2.1
      have hne : found ≠ slug := fun heq => hp (by rw [heq])
      have hspaced := hkept.concat (p := .marker found) (by simp [Piece.text])
        fun h => absurd h (getLast?_marker hchars)
      have hedit := ih hspaced hps edited
      rw [render_cons, Piece.text, List.cons_append, editLineMarkers_other hfound hne]
      simpa [Piece.text, Ne.symm hne] using hedit
    | char c =>
      obtain ⟨hc, hnone, hps⟩ := h
      have hspaced := hkept.concat (p := .char c) (by simp [Piece.text]) (by simp [Piece.text])
      have hedit := ih hspaced hps edited
      rw [render_cons, Piece.text, List.singleton_append, editLineMarkers, if_neg hc, found_eq, hnone,
        slugs_char]
      simpa [Piece.text] using hedit

def lastOr (before : Option Char) (ps : List Piece) : Option Char := (render ps).getLast?.or before

theorem lastOr_cons (h : p.text ≠ []) (before : Option Char) (ps : List Piece) :
    lastOr before (p :: ps) = lastOr p.text.getLast? ps := by
  rw [lastOr, lastOr, render_cons, List.getLast?_append]
  cases (render ps).getLast? with
  | none => simp [List.getLast?_eq_some_getLast h]
  | some c => simp

theorem getLast?_text_marker {found : Slug} {r : List Char}
    (h : markerAt before ('#' :: (found ++ r)) = some found) :
    (Piece.marker found).text.getLast? = found.getLast? := by
  have hne : found ≠ [] := by
    rintro rfl
    simpa using (markerAt_append.mp h).2.1
  rw [Piece.text, List.getLast?_cons, List.getLast?_eq_some_getLast hne]
  rfl

theorem Scanned.drop (h : Scanned before (ps ++ qs)) : Scanned (lastOr before ps) qs := by
  induction ps generalizing before with
  | nil => exact h
  | cons p ps ih =>
    have hne := h.text_ne_nil (p := p) (by simp)
    rw [lastOr_cons hne]
    cases p with
    | code span => exact ih h.2
    | marker found =>
      rw [getLast?_text_marker h.1]
      exact ih h.2
    | char c => exact ih h.2.2

theorem Scanned.cut {rs : List Piece} (h : Scanned before (ps ++ qs ++ rs)) (hqs : render qs ≠ [])
    (hmarker : ∀ slug, ps.getLast? = some (.marker slug) → (render rs).head?.any slugChar = false)
    (hhash : ps.getLast? = some (.char '#') →
      (markerAt (lastOr before ps.dropLast) ('#' :: render rs)).isSome = false)
    (hglue : (markerAt (lastOr before ps) (render rs)).isSome =
      (markerAt (lastOr before (ps ++ qs)) (render rs)).isSome) :
    Scanned before (ps ++ rs) := by
  induction ps generalizing before with
  | nil => exact (Scanned.drop h).change_before hglue
  | cons p ps ih =>
    have hne := h.text_ne_nil (p := p) (by simp)
    have hhead : ps ≠ [] → (render (ps ++ rs)).head? = (render (ps ++ qs ++ rs)).head? := by
      intro hps
      cases ps with
      | nil => exact absurd rfl hps
      | cons q ps =>
        have hq := h.text_ne_nil (p := q) (by simp)
        simp [List.head?_append_of_ne_nil _ hq]
    have hrest : Scanned p.text.getLast? (ps ++ qs ++ rs) → Scanned p.text.getLast? (ps ++ rs) := by
      intro hscan
      refine ih hscan ?_ ?_ ?_
      · grind
      · intro hlast
        have hps : ps ≠ [] := by
          rintro rfl
          simp at hlast
        have hcons := hhash (by rw [List.getLast?_cons, hlast]; rfl)
        rwa [List.dropLast_cons_of_ne_nil hps, lastOr_cons hne] at hcons
      · rwa [List.cons_append, lastOr_cons hne, lastOr_cons hne] at hglue
    rw [List.cons_append, List.cons_append] at h
    rw [List.cons_append]
    cases p with
    | code span =>
      obtain ⟨⟨body, rfl, hskip⟩, hps⟩ := h
      have hnil : render (ps ++ qs ++ rs) ≠ [] := by simp [hqs]
      exact ⟨⟨body, rfl, skipInlineCode_congr hnil hskip⟩, hrest hps⟩
    | marker found =>
      obtain ⟨hfound, hps⟩ := h
      rw [getLast?_text_marker hfound] at hrest
      refine ⟨?_, hrest hps⟩
      rw [markerAt_append] at hfound ⊢
      refine ⟨hfound.1, hfound.2.1, hfound.2.2.1, ?_⟩
      by_cases hnil : ps = []
      · subst hnil
        exact hmarker found rfl
      · rw [hhead hnil]
        exact hfound.2.2.2
    | char c =>
      obtain ⟨hc, hnone, hps⟩ := h
      refine ⟨hc, ?_, hrest hps⟩
      by_cases hh : c = '#'
      · subst hh
        rw [← Option.not_isSome_iff_eq_none, Bool.not_eq_true]
        by_cases hnil : ps = []
        · subst hnil
          exact hhash rfl
        · have hsome : (markerAt before ('#' :: render (ps ++ qs ++ rs))).isSome = false := by
            rw [hnone]
            rfl
          rw [isSome_markerAt] at hsome ⊢
          rwa [hhead hnil]
      · exact markerAt_of_ne hh _ _

theorem lastOr_append (hqs : render qs ≠ []) (before : Option Char) (ps : List Piece) :
    lastOr before (ps ++ qs) = (render qs).getLast? := by
  rw [lastOr, render_append, List.getLast?_append_of_ne_nil _ hqs,
    List.getLast?_eq_some_getLast hqs]
  rfl

theorem exists_removed (slug : Slug) (hne : slug ≠ []) (kept ps : List Piece) :
    ∃ qs, kept ++ .marker slug :: ps =
        (removeStep slug kept ps).2.2 ++ qs ++ (removeStep slug kept ps).2.1 ∧
      render qs ≠ [] ∧ (render qs).getLast? = (removeStep slug kept ps).1 ∧
      slugs (removeStep slug kept ps).2.2 = slugs kept ∧
      slugs (removeStep slug kept ps).2.1 = slugs ps := by
  have hlast : (render [.marker slug]).getLast? = slug.getLast? := by
    rw [render_cons, render_nil, List.append_nil, Piece.text, List.getLast?_cons,
      List.getLast?_eq_some_getLast hne]
    rfl
  by_cases hhead : ps.head? = some (.char ' ')
  · obtain ⟨ps, rfl⟩ : ∃ rest, ps = .char ' ' :: rest := by
      cases ps with
      | nil => simp at hhead
      | cons p ps => exact ⟨ps, by simpa using hhead⟩
    exact ⟨[.marker slug, .char ' '], by simp [removeStep], by simp [Piece.text],
      by simp [removeStep, Piece.text, List.getLast?_cons], rfl, rfl⟩
  · rw [removeStep_of_ne hhead]
    by_cases hspace : kept.getLast? = some (.char ' ')
    · obtain ⟨kept, rfl⟩ := List.getLast?_eq_some_iff.mp hspace
      refine ⟨[.char ' ', .marker slug], by simp, by simp [Piece.text], ?_, by simp, rfl⟩
      rw [show [Piece.char ' ', .marker slug] = [.char ' '] ++ [.marker slug] from rfl,
        render_append, List.getLast?_append_of_ne_nil _ (by simp [Piece.text]), hlast]
    · rw [if_neg hspace]
      exact ⟨[.marker slug], by simp, by simp [Piece.text], hlast, rfl, rfl⟩

theorem removePieces_spec (h : Scanned none (kept ++ ps)) (hseams : Seams slug kept ps) :
    Scanned none (removePieces slug kept ps) ∧
      slugs (removePieces slug kept ps) = slugs kept ++ (slugs ps).filter (· ≠ slug) := by
  induction kept, ps using removePieces.induct slug with
  | case1 kept =>
    rw [List.append_nil] at h
    simp [removePieces, h]
  | case2 kept ps ih =>
    rw [Seams, if_pos rfl] at hseams
    obtain ⟨⟨hmarker, hhash, hglue⟩, hrest⟩ := hseams
    have hne : slug ≠ [] := by
      rintro rfl
      simpa using (markerAt_append.mp h.drop.1).2.1
    obtain ⟨qs, hsplit, hqs, hlast, hkept, hps⟩ := exists_removed slug hne kept ps
    have hnone : ∀ l : List Piece, lastOr none l = (render l).getLast? := fun l => by simp [lastOr]
    rw [hsplit] at h
    have hcut := h.cut hqs hmarker (by rwa [hnone])
      (by rw [hnone, lastOr_append hqs, hlast, hglue])
    obtain ⟨hscan, hslugs⟩ := ih hcut hrest
    rw [removePieces, if_pos rfl, hslugs, hkept, hps]
    exact ⟨hscan, by simp⟩
  | case3 kept p ps hp ih =>
    rw [Seams, if_neg hp] at hseams
    obtain ⟨hscan, hslugs⟩ := ih (by simpa using h) hseams
    rw [removePieces, if_neg hp, hslugs]
    refine ⟨hscan, ?_⟩
    cases p with
    | code span => simp
    | marker found =>
      have hne : found ≠ slug := fun heq => hp (by rw [heq])
      simp [hne]
    | char c => simp

end

section

variable {slug : Slug} {line : MarkdownLine} {text content : List Char} {before : Option Char}

theorem isWhitespace_not_slug {w : Char} (h : isWhitespace w = true) :
    slugChar w = false ∧ w ≠ '#' ∧ w ≠ tick := by
  have hn : w.toNat ≤ 32 ∨ 128 ≤ w.toNat := by
    simp only [isWhitespace, Bool.or_eq_true, Bool.and_eq_true, decide_eq_true_eq] at h
    omega
  refine ⟨?_, ?_, ?_⟩
  · by_contra hs
    have hall : ∀ n ≤ 32, slugChar (Char.ofNat n) = false := by decide
    rw [Bool.not_eq_false] at hs
    rcases hn with hn | hn
    · have := hall w.toNat hn
      rw [Char.ofNat_toNat, hs] at this
      exact Bool.noConfusion this
    · have := slugChar_ascii hs
      omega
  · rintro rfl
    exact absurd hn (by decide)
  · rintro rfl
    exact absurd hn (by decide)

theorem skipInlineCode_closed {rest : List Char} (h : tick ∈ rest) (r : List Char) :
    skipInlineCode tick (rest ++ r) =
      ((skipInlineCode tick rest).1, (skipInlineCode tick rest).2 ++ r) := by
  induction rest with
  | nil => simp at h
  | cons c rest ih =>
    rw [List.cons_append, skipInlineCode, skipInlineCode]
    by_cases hc : c = tick
    · simp [hc]
    · rw [if_neg hc, if_neg hc, ih (by simpa [Ne.symm hc] using h)]

theorem skipInlineCode_open {rest : List Char} (h : tick ∉ rest) :
    skipInlineCode tick rest = (rest, []) := by
  induction rest with
  | nil => rfl
  | cons c rest ih =>
    rw [List.mem_cons, not_or] at h
    rw [skipInlineCode, if_neg (Ne.symm h.1), ih h.2]

theorem slugs_concat_space {w : Char} (hw : isWhitespace w = true) (before : Option Char)
    (line : List Char) : slugs (pieces before (line ++ [w])) = slugs (pieces before line) := by
  obtain ⟨hslug, hhash, htick⟩ := isWhitespace_not_slug hw
  induction before, line using pieces_induction with
  | nil before =>
    rw [List.nil_append, pieces_char htick (markerAt_of_ne hhash _ _)]
    simp
  | code before rest ih =>
    rw [List.cons_append, pieces_code, pieces_code, slugs_code, slugs_code]
    by_cases hmem : tick ∈ rest
    · rw [skipInlineCode_closed hmem, ih]
    · have hmem' : tick ∉ rest ++ [w] := by simp [hmem, Ne.symm htick]
      rw [skipInlineCode_open hmem, skipInlineCode_open hmem']
      simp
  | marker before rest found hfound ih =>
    have hrest := slug_append_drop hfound
    have hlonger : markerAt before ('#' :: (rest ++ [w])) = some found := by
      rw [← hrest, markerAt_append] at hfound
      rw [← hrest, List.append_assoc, markerAt_append]
      refine ⟨hfound.1, hfound.2.1, hfound.2.2.1, ?_⟩
      cases hdrop : rest.drop found.length with
      | nil => simpa using hslug
      | cons d r => simpa [hdrop] using hfound.2.2.2
    have hlen : found.length ≤ rest.length := by
      conv_rhs => rw [← hrest]
      simp
    rw [List.cons_append, pieces_marker hlonger, pieces_marker hfound, slugs_marker, slugs_marker,
      List.drop_append_of_le_length hlen, ih]
  | char before c rest hc hnone ih =>
    have hlonger : markerAt before (c :: (rest ++ [w])) = none := by
      by_cases hh : c = '#'
      · subst hh
        have hsome : (markerAt before ('#' :: rest)).isSome = false := by rw [hnone]; rfl
        rw [← Option.not_isSome_iff_eq_none, Bool.not_eq_true]
        rw [isSome_markerAt] at hsome ⊢
        cases rest with
        | nil =>
          have halnum : w.isAlphanum = false := by
            rw [slugChar, Bool.or_eq_false_iff] at hslug
            exact hslug.1
          simp [halnum]
        | cons d r => exact hsome
      · exact markerAt_of_ne hh _ _
    rw [List.cons_append, pieces_char hc hlonger, pieces_char hc hnone, slugs_char]
    exact ih

theorem slugs_trimEnd (before : Option Char) (line : List Char) :
    slugs (pieces before (trimEnd line)) = slugs (pieces before line) := by
  induction line using List.reverseRecOn with
  | nil => rfl
  | append_singleton line w ih =>
    by_cases hw : isWhitespace w = true
    · rw [trimEnd, List.rdropWhile_concat_pos _ _ _ hw, slugs_concat_space hw]
      exact ih
    · rw [trimEnd, List.rdropWhile_concat_neg _ _ _ hw]

def removeContent (slug : Slug) (content : List Char) : List Char :=
  if slug ∈ slugs (pieces none content) then
    trimEnd (render (removePieces slug [] (pieces none content)))
  else content

/-- What a removal has to leave alone in a line it edits: nothing new is read where a marker
stood, and the line does not become a fence, nor a heading that has tags. -/
structure CleanRemoval (slug : Slug) (content : List Char) : Prop where
  seams : Seams slug [] (pieces none content)
  fence : isFenceLine (trimStart (removeContent slug content)) = false
  heading : isHeadingLine (removeContent slug content) = true →
    ∀ other ∈ slugs (pieces none content), other = slug

theorem editLineMarkers_none (slug : Slug) (content : List Char) :
    editLineMarkers slug none none content [] false =
      (render (removePieces slug [] (pieces none content)),
        decide (slug ∈ slugs (pieces none content))) := by
  have hspaced : Spaced [] := fun _ h => by simp at h
  have hedit : editLineMarkers slug none none (render (pieces none content)) (render []) false = _ :=
    editLineMarkers_remove hspaced (scanned_pieces none content) false
  rwa [render_pieces, Bool.false_or] at hedit

theorem removeContent_absent (h : slug ∉ slugs (pieces none content)) :
    removeContent slug content = content := by
  rw [removeContent, if_neg h]

theorem slugs_removeContent (h : slug ∈ slugs (pieces none content) → CleanRemoval slug content) :
    slugs (pieces none (removeContent slug content)) =
      (slugs (pieces none content)).filter (· ≠ slug) := by
  by_cases hmem : slug ∈ slugs (pieces none content)
  · have hline : Scanned none ([] ++ pieces none content) := scanned_pieces none content
    obtain ⟨hscan, hslugs⟩ := removePieces_spec hline (h hmem).seams
    rw [removeContent, if_pos hmem, slugs_trimEnd, pieces_render hscan, hslugs]
    rfl
  · rw [removeContent_absent hmem, List.filter_eq_self.mpr]
    intro other hother
    simpa using fun heq : other = slug => hmem (heq ▸ hother)

/-- Every tag-bearing line that the removal of `slug` edits is left with its other tags. -/
def RemovesCleanly (text : List Char) (slug : Slug) : Prop :=
  ∀ line ∈ markdownLines text, slug ∈ line.tags → CleanRemoval slug line.content

theorem mem_removePieces {kept ps : List Piece} {p : Piece} (h : p ∈ removePieces slug kept ps) :
    p ∈ kept ∨ p ∈ ps := by
  induction kept, ps using removePieces.induct slug with
  | case1 kept =>
    rw [removePieces] at h
    exact .inl h
  | case2 kept ps ih =>
    rw [removePieces, if_pos rfl] at h
    rcases ih h with hmem | hmem
    · left
      unfold removeStep at hmem
      split at hmem
      · exact hmem
      · split at hmem
        · exact List.mem_of_mem_dropLast hmem
        · exact hmem
    · right
      unfold removeStep at hmem
      split at hmem
      · exact List.mem_cons_of_mem _ (List.mem_of_mem_tail hmem)
      · exact List.mem_cons_of_mem _ hmem
  | case3 kept p ps hp ih =>
    rw [removePieces, if_neg hp] at h
    rcases ih h with hmem | hmem
    · grind
    · exact .inr (List.mem_cons_of_mem _ hmem)

theorem mem_removeContent {c : Char} (h : c ∈ removeContent slug content) : c ∈ content := by
  unfold removeContent at h
  split at h
  · have hmem := (List.rdropWhile_prefix _ _).subset h
    rw [render, List.mem_flatMap] at hmem
    obtain ⟨p, hp, hc⟩ := hmem
    rw [← render_pieces none content, render, List.mem_flatMap]
    exact ⟨p, (mem_removePieces hp).resolve_left (by simp), hc⟩
  · exact h

theorem getLast?_trimEnd {c : Char} (h : (trimEnd content).getLast? = some c) :
    isWhitespace c = false := by
  have hne : trimEnd content ≠ [] := by
    intro hnil
    simp [hnil] at h
  have hlast := List.rdropWhile_last_not isWhitespace content hne
  change ¬ isWhitespace ((trimEnd content).getLast hne) = true at hlast
  rw [List.getLast?_eq_some_getLast hne, Option.some.injEq] at h
  simpa [h] using hlast

theorem keepsLine_remove (hclean : RemovesCleanly text slug) (h : line ∈ markdownLines text) :
    KeepsLine (removeContent slug) line := by
  intro hbear
  obtain ⟨hlf, hcr⟩ := fits_line h
  by_cases hmem : slug ∈ slugs (pieces none line.content)
  · have hline := hclean line h (by rw [tags_eq, if_pos hbear]; exact hmem)
    refine ⟨⟨fun hmem => hlf (mem_removeContent hmem), ?_⟩, hline.fence⟩
    intro _ hlast
    rw [removeContent, if_pos hmem] at hlast
    exact absurd (getLast?_trimEnd hlast) (by decide)
  · rw [removeContent_absent hmem]
    exact ⟨⟨hlf, hcr⟩, (kind_line h hbear).1⟩

theorem tags_remove (hclean : RemovesCleanly text slug) (h : line ∈ markdownLines text) :
    (rewriteLine (removeContent slug) line).tags = line.tags.filter (· ≠ slug) := by
  cases hbear : line.tagBearing with
  | false =>
    rw [rewriteLine_of_not_bearing hbear]
    simp [tags_eq, hbear]
  | true =>
    have hline : slug ∈ slugs (pieces none line.content) → CleanRemoval slug line.content := by
      intro hmem
      exact hclean line h (by rw [tags_eq, if_pos hbear]; exact hmem)
    rw [rewriteLine_of_bearing hbear, tags_eq, tags_eq, if_pos hbear]
    cases hheading : isHeadingLine (removeContent slug line.content) with
    | false => simpa using slugs_removeContent hline
    | true =>
      have hnil : (slugs (pieces none line.content)).filter (· ≠ slug) = [] := by
        rw [List.filter_eq_nil_iff]
        intro other hother
        by_cases hmem : slug ∈ slugs (pieces none line.content)
        · simpa using (hline hmem).heading hheading other hother
        · rw [removeContent_absent hmem, (kind_line h hbear).2] at hheading
          exact Bool.noConfusion hheading
      rw [hnil]
      rfl

end

section

variable {slug : Slug} {text result : List Char} {line : MarkdownLine}
  {raws : List (List Char)} {inFencedBlock : Bool}

theorem editTagLine_remove (slug : Slug) (result : List Char) (line : MarkdownLine) :
    editTagLine slug none result line = result ++ (rewriteLine (removeContent slug) line).raw ∨
      (line.terminator = [] ∧ editTagLine slug none result line =
        dropLastLineTerminator (result ++ (rewriteLine (removeContent slug) line).raw)) := by
  cases hbear : line.tagBearing with
  | false => simp [editTagLine, hbear, rewriteLine, MarkdownLine.raw]
  | true =>
    rw [rewriteLine_of_bearing hbear]
    simp only [editTagLine, hbear, editLineMarkers_none, tidyRemovedLine, MarkdownLine.raw]
    by_cases hmem : slug ∈ slugs (pieces none line.content)
    · simp only [removeContent, hmem]
      by_cases hempty : trimEnd (render (removePieces slug [] (pieces none line.content))) = [] ∧
          line.terminator = []
      · simp [hempty]
      · simp [hempty]
    · have hsame : editLineMarkers slug none none line.content [] false =
          ([] ++ line.content, false) := editLineMarkers_absent hmem
      rw [editLineMarkers_none] at hsame
      simp [removeContent, hmem, (Prod.mk.inj hsame).1]

theorem terminator_dropLast (inFencedBlock : Bool) (hraws : LineList raws) :
    ∀ line ∈ (markdownLinesFrom inFencedBlock raws).dropLast, line.terminator ≠ [] := by
  induction raws generalizing inFencedBlock with
  | nil => simp [markdownLinesFrom]
  | cons raw raws ih =>
    obtain ⟨tagBearing, inFencedBlock', heq⟩ := exists_markdownLinesFrom_cons inFencedBlock raw raws
    rw [heq]
    cases raws with
    | nil => simp [markdownLinesFrom]
    | cons r rs =>
      obtain ⟨_, _, hr⟩ := exists_markdownLinesFrom_cons inFencedBlock' r rs
      have hrest := ih inFencedBlock' hraws.2
      rw [List.dropLast_cons_of_ne_nil (by simp [hr])]
      intro line hline
      rcases List.mem_cons.mp hline with rfl | hline
      · exact terminator_ne_nil hraws.1
      · exact hrest line hline

theorem removeTag_eq (text : List Char) (slug : Slug) :
    removeTag text slug = rewriteText (removeContent slug) text ∨
      removeTag text slug = dropLastLineTerminator (rewriteText (removeContent slug) text) := by
  have hfold : ∀ (lines : List MarkdownLine) (result : List Char),
      (∀ line ∈ lines.dropLast, line.terminator ≠ []) →
        let rewritten := result ++ lines.flatMap fun line => (rewriteLine (removeContent slug) line).raw
        lines.foldl (editTagLine slug none) result = rewritten ∨
          lines.foldl (editTagLine slug none) result = dropLastLineTerminator rewritten := by
    intro lines
    induction lines with
    | nil => simp
    | cons line lines ih =>
      intro result hterm
      have hstep := editTagLine_remove slug result line
      cases lines with
      | nil => simpa using hstep.imp_right And.right
      | cons l ls =>
        have hline := hterm line (by simp)
        have hrest := ih (editTagLine slug none result line) fun l hl => hterm l (by simp [hl])
        rw [List.flatMap_cons, ← List.append_assoc,
          ← hstep.resolve_right fun h => hline h.1]
        exact hrest
  have hlines := terminator_dropLast false (lineList_splitInclusive text)
  simpa [removeTag, editTagMarkers, rewriteText] using hfold (markdownLines text) [] hlines

theorem flatMap_tags_append (inFencedBlock : Bool) (raws : List (List Char)) (last : List Char) :
    ∃ inFencedBlock', ∀ last' : List Char,
      (splitLineTerminator last').1 = (splitLineTerminator last).1 →
        (markdownLinesFrom inFencedBlock (raws ++ [last'])).flatMap MarkdownLine.tags =
          (markdownLinesFrom inFencedBlock raws).flatMap MarkdownLine.tags ++
            (markdownLinesFrom inFencedBlock' [last]).flatMap MarkdownLine.tags := by
  induction raws generalizing inFencedBlock with
  | nil =>
    refine ⟨inFencedBlock, fun last' h => ?_⟩
    cases hfence : isFenceLine (trimStart (splitLineTerminator last).1) with
    | true =>
      rw [List.nil_append, markdownLinesFrom_cons_fence hfence,
        markdownLinesFrom_cons_fence (by rw [h, hfence])]
      simp [markdownLinesFrom, MarkdownLine.tags]
    | false =>
      rw [List.nil_append, markdownLinesFrom_cons hfence, markdownLinesFrom_cons (by rw [h, hfence])]
      simp [markdownLinesFrom, MarkdownLine.tags, h]
  | cons raw raws ih =>
    obtain ⟨tagBearing, next, hraw⟩ : ∃ tagBearing next, ∀ rest,
        markdownLinesFrom inFencedBlock (raw :: rest) =
          ⟨(splitLineTerminator raw).1, (splitLineTerminator raw).2, tagBearing⟩ ::
            markdownLinesFrom next rest := by
      cases hfence : isFenceLine (trimStart (splitLineTerminator raw).1) with
      | true => exact ⟨_, _, fun rest => markdownLinesFrom_cons_fence hfence⟩
      | false => exact ⟨_, _, fun rest => markdownLinesFrom_cons hfence⟩
    obtain ⟨inFencedBlock', hrest⟩ := ih next
    refine ⟨inFencedBlock', fun last' h => ?_⟩
    rw [List.cons_append, hraw, hraw, List.flatMap_cons, List.flatMap_cons, hrest last' h,
      List.append_assoc]

theorem tags_dropLastLineTerminator (text : List Char) :
    (markdownLines (dropLastLineTerminator text)).flatMap MarkdownLine.tags =
      (markdownLines text).flatMap MarkdownLine.tags := by
  unfold dropLastLineTerminator
  cases hlf : stripSuffix '\n' text with
  | none => rfl
  | some body =>
    rw [stripSuffix_eq_some] at hlf
    obtain ⟨raws, tail, hraws, htail, hs⟩ := exists_lines body
    have hflat := flatten_splitInclusive body
    have hbody : body = raws.flatten ++ tail := by
      rw [← hflat, hs]
      by_cases ht : tail = [] <;> simp [ht]
    have hfull : splitInclusive text = raws ++ [tail ++ ['\n']] := by
      have hline := splitInclusive_line htail []
      rw [hlf, hbody, List.append_assoc, splitInclusive_flatten_append hraws, hline]
      rfl
    obtain ⟨inFencedBlock', htags⟩ := flatMap_tags_append false raws (tail ++ ['\n'])
    have hkept : '\n' ∉ (stripSuffix '\r' tail).getD tail :=
      fun hmem => htail (mem_of_mem_getD_stripSuffix hmem)
    have hcontent := splitLineTerminator_newline tail
    have hdrop := getD_stripSuffix_flatten hraws tail
    rw [← hbody] at hdrop
    simp only
    rw [hdrop]
    generalize (stripSuffix '\r' tail).getD tail = kept at hkept hcontent
    have hnone : (splitLineTerminator kept).1 = kept := by
      simp [splitLineTerminator, stripSuffix_of_not_mem hkept]
    rw [markdownLines, splitInclusive_flatten_append hraws, markdownLines, hfull,
      htags _ rfl, ← htags kept (by rw [hnone, hcontent])]
    by_cases hnil : kept = []
    · have hempty := tags_filter_ne_nil false (raws ++ [kept])
      rw [List.filter_append, List.filter_eq_self.mpr] at hempty
      · simpa [hnil] using hempty
      · intro raw hraw
        obtain ⟨l, -, rfl⟩ := hraws raw hraw
        simp
    · rw [splitInclusive_of_not_mem hkept hnil]

theorem flatMap_tags_removeTag (h : RemovesCleanly text slug) :
    (markdownLines (removeTag text slug)).flatMap MarkdownLine.tags =
      ((markdownLines text).flatMap MarkdownLine.tags).filter (· ≠ slug) := by
  have hkeeps : ∀ line ∈ markdownLines text, KeepsLine (removeContent slug) line :=
    fun line hline => keepsLine_remove h hline
  have htags : (markdownLines (rewriteText (removeContent slug) text)).flatMap MarkdownLine.tags =
      ((markdownLines text).flatMap MarkdownLine.tags).filter (· ≠ slug) := by
    rw [tags_rewriteText hkeeps, List.filter_flatMap]
    exact List.flatMap_congr fun line hline => tags_remove h hline
  rcases removeTag_eq text slug with heq | heq
  · rw [heq, htags]
  · rw [heq, tags_dropLastLineTerminator, htags]

theorem parseTags_removeTag (h : RemovesCleanly text slug) :
    parseTags (removeTag text slug) = (parseTags text).filter (· ≠ slug) := by
  have hsorted : ∀ tags : Finset Slug, tags.sort.Pairwise (· < ·) :=
    fun tags => (Finset.sortedLT_sort tags).pairwise
  refine List.Pairwise.eq_of_mem_iff (hsorted _) ((hsorted _).filter _) fun other => ?_
  rw [List.mem_filter, parseTags, parseTags, Finset.mem_sort, Finset.mem_sort,
    flatMap_tags_removeTag h, List.mem_toFinset, List.mem_toFinset, List.mem_filter]

end

end SwissArmyHammer.Kanban
