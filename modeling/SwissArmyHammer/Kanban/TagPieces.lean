import SwissArmyHammer.Kanban.TagParser

/-! A line as its pieces: inline code, markers and single characters. The reader and the
writer both go through the pieces of a line, one by bytes and the other by characters. -/

namespace SwissArmyHammer.Kanban

open Text

def slugChar (c : Char) : Bool := c.isAlphanum || c = '-'

def glued (before : Option Char) : Bool := before.any fun c => c.isAlphanum || c = '_'

def markerAt (before : Option Char) (line : List Char) : Option Slug :=
  match line with
  | '#' :: c :: rest =>
    if glued before || !c.isAlphanum then none else some ((c :: rest).takeWhile slugChar)
  | _ => none

inductive Piece where
  | code (span : List Char)
  | marker (slug : Slug)
  | char (c : Char)
  deriving DecidableEq

def Piece.text : Piece → List Char
  | .code span => span
  | .marker slug => '#' :: slug
  | .char c => [c]

def Piece.slug : Piece → Option Slug
  | .marker slug => some slug
  | _ => none

def render (ps : List Piece) : List Char := ps.flatMap Piece.text

def slugs (ps : List Piece) : List Slug := ps.filterMap Piece.slug

def pieces (before : Option Char) (line : List Char) : List Piece :=
  match line with
  | [] => []
  | c :: rest =>
    if c = tick then
      .code (c :: (skipInlineCode tick rest).1) ::
        pieces (c :: (skipInlineCode tick rest).1).getLast? (skipInlineCode tick rest).2
    else
      match markerAt before (c :: rest) with
      | some slug => .marker slug :: pieces slug.getLast? (rest.drop slug.length)
      | none => .char c :: pieces (some c) rest
termination_by line.length
decreasing_by
  · have := length_skipInlineCode tick rest
    simp only [List.length_cons]
    omega
  · simp only [List.length_drop, List.length_cons]
    omega
  · simp

section

variable {p : Piece} {ps qs : List Piece}

@[simp] theorem render_nil : render [] = [] := rfl

@[simp] theorem render_cons (p : Piece) (ps : List Piece) : render (p :: ps) = p.text ++ render ps := by
  simp [render]

@[simp] theorem render_append (ps qs : List Piece) : render (ps ++ qs) = render ps ++ render qs := by
  simp [render]

@[simp] theorem slugs_nil : slugs [] = [] := rfl

@[simp] theorem slugs_marker (slug : Slug) (ps : List Piece) :
    slugs (.marker slug :: ps) = slug :: slugs ps := rfl

@[simp] theorem slugs_char (c : Char) (ps : List Piece) : slugs (.char c :: ps) = slugs ps := rfl

@[simp] theorem slugs_code (span : List Char) (ps : List Piece) :
    slugs (.code span :: ps) = slugs ps := rfl

@[simp] theorem slugs_append (ps qs : List Piece) : slugs (ps ++ qs) = slugs ps ++ slugs qs := by
  simp [slugs]

end

section

variable {c : Char} {before : Option Char} {line rest : List Char}

theorem isAsciiAlphanumeric_byte (h : c.toNat < 128) :
    isAsciiAlphanumeric (byte c) = c.isAlphanum := by
  have hall : ∀ n < 128, isAsciiAlphanumeric (byte (Char.ofNat n)) = (Char.ofNat n).isAlphanum := by
    decide
  simpa using hall c.toNat h

theorem isAlphanum_ascii (h : c.isAlphanum = true) : c.toNat < 128 := by
  change ((decide (65 ≤ c.val ∧ c.val ≤ 90) || (97 ≤ c.val && c.val ≤ 122)) ||
    (48 ≤ c.val && c.val ≤ 57)) = true at h
  simp only [Bool.or_eq_true, Bool.and_eq_true, decide_eq_true_eq, UInt32.le_iff_toNat_le] at h
  simp at h
  omega

theorem slugChar_ascii (h : slugChar c = true) : c.toNat < 128 := by
  rw [slugChar, Bool.or_eq_true, decide_eq_true_eq] at h
  rcases h with h | rfl
  · exact isAlphanum_ascii h
  · decide

theorem byte_inj {d : Char} (hc : c.toNat < 128) (hd : d.toNat < 128) :
    byte c = byte d ↔ c = d := by
  constructor
  · intro h
    have hn := congrArg UInt8.toNat h
    rw [byte, byte, toNat_ofNat_ascii hc, toNat_ofNat_ascii hd] at hn
    exact Char.toNat_inj.mp hn
  · rintro rfl
    rfl

theorem high_byte {b : UInt8} (h : 128 ≤ b.toNat) :
    isAsciiAlphanumeric b = false ∧ ∀ d : Char, d.toNat < 128 → b ≠ byte d := by
  constructor
  · have hle : ∀ d : Char, d.toNat < 128 → ¬ b ≤ byte d := by
      intro d hd hb
      rw [UInt8.le_iff_toNat_le, byte, toNat_ofNat_ascii hd] at hb
      omega
    simp [isAsciiAlphanumeric, hle '9' (by decide), hle 'Z' (by decide), hle 'z' (by decide)]
  · rintro d hd rfl
    rw [byte, toNat_ofNat_ascii hd] at h
    omega

theorem not_ascii (h : ¬ c.toNat < 128) : c.isAlphanum = false ∧ ∀ d : Char, d.toNat < 128 → c ≠ d := by
  constructor
  · by_contra hc
    exact h (isAlphanum_ascii (by simpa using hc))
  · rintro d hd rfl
    exact h hd

theorem utf8EncodeChar_cases (c : Char) :
    (c.toNat < 128 ∧ String.utf8EncodeChar c = [byte c]) ∨
      (¬ c.toNat < 128 ∧ ∃ b bs, String.utf8EncodeChar c = b :: bs ∧ ∀ x ∈ b :: bs, 128 ≤ x.toNat) := by
  by_cases h : c.toNat < 128
  · exact .inl ⟨h, utf8EncodeChar_ascii h⟩
  · refine .inr ⟨h, ?_⟩
    have hbytes := byte_of_not_ascii (show 128 ≤ c.toNat by omega)
    cases hc : String.utf8EncodeChar c with
    | nil => exact absurd hc String.utf8EncodeChar_ne_nil
    | cons b bs => exact ⟨b, bs, rfl, hc ▸ hbytes⟩

theorem getLast?_utf8 (s : List Char) : (utf8 s).getLast? = lastByte s.getLast? := by
  rcases List.eq_nil_or_concat s with rfl | ⟨s, c, rfl⟩
  · rfl
  · have hne : String.utf8EncodeChar c ≠ [] := String.utf8EncodeChar_ne_nil
    simp [lastByte, utf8_cons, List.getLast?_append_of_ne_nil _ hne]

theorem gluedToAWord_lastByte (before : Option Char) :
    gluedToAWord (lastByte before) = glued before := by
  cases before with
  | none => rfl
  | some c =>
    rcases utf8EncodeChar_cases c with ⟨hc, hbytes⟩ | ⟨hc, b, bs, hbytes, hhigh⟩
    · have hunder : byte c = byte '_' ↔ c = '_' := byte_inj hc (by decide)
      simp [lastByte, hbytes, gluedToAWord, glued, isAsciiAlphanumeric_byte hc, hunder]
    · have hlast := high_byte (hhigh ((b :: bs).getLast (by simp)) (List.getLast_mem _))
      have hchar := not_ascii hc
      simp [lastByte, hbytes, gluedToAWord, glued, List.getLast?_eq_some_getLast, hlast.1, hchar.1,
        hlast.2 '_' (by decide), hchar.2 '_' (by decide)]

theorem takeWhile_utf8 (line : List Char) :
    (utf8 line).takeWhile (fun b => isAsciiAlphanumeric b || b = byte '-') =
      utf8 (line.takeWhile slugChar) := by
  induction line with
  | nil => rfl
  | cons c rest ih =>
    rcases utf8EncodeChar_cases c with ⟨hc, hbytes⟩ | ⟨hc, b, bs, hbytes, hhigh⟩
    · have hhyphen : byte c = byte '-' ↔ c = '-' := byte_inj hc (by decide)
      rw [utf8_cons, hbytes, List.singleton_append, List.takeWhile_cons, List.takeWhile_cons, ih,
        isAsciiAlphanumeric_byte hc]
      by_cases hs : slugChar c = true
      · have hs' := hs
        rw [slugChar, ← decide_eq_decide.mpr hhyphen] at hs'
        rw [if_pos hs', if_pos hs, utf8_cons, hbytes]
        rfl
      · have hs' := hs
        rw [slugChar, ← decide_eq_decide.mpr hhyphen] at hs'
        rw [if_neg hs', if_neg hs, utf8_nil]
    · have hb := high_byte (hhigh b (by simp))
      have hchar := not_ascii hc
      have hs : slugChar c = false := by simp [slugChar, hchar.1, hchar.2 '-' (by decide)]
      rw [utf8_cons, hbytes, List.cons_append, List.takeWhile_cons, List.takeWhile_cons, hs]
      simp [hb.1, hb.2 '-' (by decide)]

theorem tagSlugAt_utf8 (before : Option Char) (line : List Char) :
    tagSlugAt (lastByte before) (utf8 line) = (markerAt before line).map utf8 := by
  cases line with
  | nil => rfl
  | cons c rest =>
    have hnone : c ≠ '#' → markerAt before (c :: rest) = none := by
      intro hc
      unfold markerAt
      split
      · rename_i h
        exact absurd (List.cons.inj h).1 hc
      · rfl
    rcases utf8EncodeChar_cases c with ⟨hc, hbytes⟩ | ⟨hc, b, bs, hbytes, hhigh⟩
    · by_cases hhash : c = '#'
      · subst hhash
        rw [utf8_cons, hbytes, List.singleton_append]
        cases rest with
        | nil => rfl
        | cons d rest =>
          rcases utf8EncodeChar_cases d with ⟨hd, hdbytes⟩ | ⟨hd, b, bs, hdbytes, hhigh⟩
          · have htake := takeWhile_utf8 (d :: rest)
            rw [utf8_cons, hdbytes, List.singleton_append] at htake ⊢
            simp only [tagSlugAt, markerAt, gluedToAWord_lastByte, isAsciiAlphanumeric_byte hd, htake]
            cases glued before <;> cases d.isAlphanum <;> simp
          · have hb := high_byte (hhigh b (by simp))
            simp [utf8_cons, hdbytes, tagSlugAt, markerAt, hb.1, (not_ascii hd).1]
      · have hne : byte c ≠ byte '#' := fun h => hhash ((byte_inj hc (by decide)).mp h)
        rw [hnone hhash, utf8_cons, hbytes]
        cases utf8 rest <;> simp [tagSlugAt, hne]
    · have hb := (high_byte (hhigh b (by simp))).2 '#' (by decide)
      rw [hnone ((not_ascii hc).2 '#' (by decide)), utf8_cons, hbytes, List.cons_append]
      cases bs ++ utf8 rest <;> simp [tagSlugAt, hb]

theorem skipInlineCode_utf8 (rest : List Char) :
    skipInlineCode (byte tick) (utf8 rest) =
      (utf8 (skipInlineCode tick rest).1, utf8 (skipInlineCode tick rest).2) := by
  have hhigh_skip : ∀ (bs after : List UInt8), (∀ x ∈ bs, 128 ≤ x.toNat) →
      skipInlineCode (byte tick) (bs ++ after) =
        (bs ++ (skipInlineCode (byte tick) after).1, (skipInlineCode (byte tick) after).2) := by
    intro bs after h
    induction bs with
    | nil => rfl
    | cons b bs ih =>
      have hb := (high_byte (h b (by simp))).2 tick (by decide)
      rw [List.cons_append, skipInlineCode, if_neg hb, ih fun x hx => h x (by simp [hx])]
      rfl
  induction rest with
  | nil => rfl
  | cons c rest ih =>
    rcases utf8EncodeChar_cases c with ⟨hc, hbytes⟩ | ⟨hc, b, bs, hbytes, hhigh⟩
    · have htick : byte c = byte tick ↔ c = tick := byte_inj hc (by decide)
      rw [utf8_cons, hbytes, List.singleton_append, skipInlineCode, skipInlineCode, ih]
      by_cases hct : c = tick
      · rw [if_pos (htick.mpr hct), if_pos hct]
        simp [utf8_cons, hbytes]
      · rw [if_neg fun h => hct (htick.mp h), if_neg hct]
        simp [utf8_cons, hbytes]
    · rw [utf8_cons, hbytes, hhigh_skip _ _ hhigh, ih, skipInlineCode,
        if_neg ((not_ascii hc).2 tick (by decide))]
      simp [utf8_cons, hbytes]

theorem collectLineTags_high (bs after : List UInt8) (b : Option UInt8)
    (h : ∀ x ∈ bs, 128 ≤ x.toNat) :
    collectLineTags b (bs ++ after) = collectLineTags (bs.getLast?.or b) after := by
  induction bs generalizing b with
  | nil => rfl
  | cons x bs ih =>
    have hx := (high_byte (h x (by simp))).2
    have hnone : tagSlugAt b (x :: (bs ++ after)) = none := by
      unfold tagSlugAt
      split
      · grind
      · rfl
    rw [List.cons_append, collectLineTags, if_neg (hx tick (by decide)), hnone]
    rw [ih (some x) fun y hy => h y (by simp [hy]), List.getLast?_cons]
    cases hlast : bs.getLast? <;> simp

end

section

variable {before : Option Char} {line : List Char} {slug : Slug}

theorem markerAt_eq_some (h : markerAt before line = some slug) :
    ∃ rest, line = '#' :: rest ∧ slug = rest.takeWhile slugChar ∧ glued before = false ∧
      ∃ c, slug.head? = some c ∧ c.isAlphanum = true := by
  unfold markerAt at h
  split at h
  · rename_i c rest
    split at h
    · simp at h
    · rename_i hcond
      simp only [Bool.or_eq_true, Bool.not_eq_eq_eq_not, Bool.not_true, not_or,
        Bool.not_eq_true, Bool.not_eq_false] at hcond
      have hc : slugChar c = true := by simp [slugChar, hcond.2]
      rw [Option.some.injEq] at h
      refine ⟨c :: rest, rfl, h.symm, hcond.1, c, ?_, hcond.2⟩
      simp [← h, hc]
  · simp at h

theorem markerAt_ascii (h : markerAt before line = some slug) : Ascii slug := by
  obtain ⟨rest, -, rfl, -⟩ := markerAt_eq_some h
  intro c hc
  exact slugChar_ascii (List.mem_takeWhile_imp hc)

theorem length_utf8_ascii (h : Ascii slug) : (utf8 slug).length = slug.length := by
  simp [utf8_ascii h]

theorem drop_utf8_slug (h : markerAt before ('#' :: line) = some slug) :
    (utf8 line).drop (utf8 slug).length = utf8 (line.drop slug.length) := by
  obtain ⟨rest, hrest, hslug, -⟩ := markerAt_eq_some h
  obtain rfl : line = rest := (List.cons.inj hrest).2
  have hsplit : line = slug ++ line.drop slug.length := by
    conv_lhs => rw [← List.takeWhile_append_dropWhile (p := slugChar) (l := line)]
    rw [← hslug]
    congr 1
    conv_rhs => rw [← List.takeWhile_append_dropWhile (p := slugChar) (l := line)]
    rw [← hslug, List.drop_left]
  conv_lhs => rw [hsplit, utf8_append, List.drop_left]

@[simp] theorem pieces_nil (before : Option Char) : pieces before [] = [] := by simp [pieces]

theorem pieces_code (before : Option Char) (rest : List Char) : pieces before (tick :: rest) =
    .code (tick :: (skipInlineCode tick rest).1) ::
      pieces (tick :: (skipInlineCode tick rest).1).getLast? (skipInlineCode tick rest).2 := by
  rw [pieces, if_pos rfl]

theorem pieces_marker (h : markerAt before ('#' :: line) = some slug) :
    pieces before ('#' :: line) =
      .marker slug :: pieces slug.getLast? (line.drop slug.length) := by
  rw [pieces, if_neg (by decide), h]

theorem pieces_char {c : Char} (hc : c ≠ tick) (h : markerAt before (c :: line) = none) :
    pieces before (c :: line) = .char c :: pieces (some c) line := by
  rw [pieces, if_neg hc, h]

theorem pieces_induction {motive : Option Char → List Char → Prop}
    (nil : ∀ before, motive before [])
    (code : ∀ before rest,
      motive (tick :: (skipInlineCode tick rest).1).getLast? (skipInlineCode tick rest).2 →
        motive before (tick :: rest))
    (marker : ∀ before rest slug, markerAt before ('#' :: rest) = some slug →
      motive slug.getLast? (rest.drop slug.length) → motive before ('#' :: rest))
    (char : ∀ before c rest, c ≠ tick → markerAt before (c :: rest) = none →
      motive (some c) rest → motive before (c :: rest)) (before : Option Char) (line : List Char) :
    motive before line := by
  induction before, line using pieces.induct with
  | case1 before => exact nil before
  | case2 before rest ih => exact code before rest ih
  | case3 before c rest hc slug hslug ih =>
    obtain ⟨_, heq, -⟩ := markerAt_eq_some hslug
    obtain rfl : c = '#' := (List.cons.inj heq).1
    exact marker before rest slug hslug ih
  | case4 before c rest hc hnone ih => exact char before c rest hc hnone ih

theorem collectLineTags_eq (before : Option Char) (line : List Char) :
    collectLineTags (lastByte before) (utf8 line) = slugs (pieces before line) := by
  induction before, line using pieces_induction with
  | nil before => simp [collectLineTags]
  | code before rest ih =>
    have hlast := getLast?_utf8 (tick :: (skipInlineCode tick rest).1)
    rw [utf8_cons_ascii (by decide)] at hlast ⊢
    have htick : UInt8.ofNat tick.toNat = byte tick := rfl
    rw [collectLineTags, if_pos htick, skipInlineCode_utf8, pieces_code, slugs_code, ← ih, ← hlast]
  | marker before rest slug hslug ih =>
    have hfound := tagSlugAt_utf8 before ('#' :: rest)
    rw [hslug, Option.map_some, utf8_cons_ascii (by decide)] at hfound
    rw [pieces_marker hslug, slugs_marker, utf8_cons_ascii (by decide), collectLineTags,
      if_neg (by decide), hfound]
    simp only
    rw [ofAscii_utf8 (markerAt_ascii hslug), drop_utf8_slug hslug, getLast?_utf8, ih]
  | char before c rest hc hnone ih =>
    have hfound := tagSlugAt_utf8 before (c :: rest)
    rw [hnone] at hfound
    rw [pieces_char hc hnone, slugs_char, ← ih]
    rcases utf8EncodeChar_cases c with ⟨hascii, hbytes⟩ | ⟨hascii, b, bs, hbytes, hhigh⟩
    · rw [utf8_cons, hbytes, List.singleton_append] at hfound ⊢
      rw [collectLineTags, if_neg fun h => hc ((byte_inj hascii (by decide)).mp h), hfound]
      simp [lastByte, hbytes]
    · rw [utf8_cons, hbytes, collectLineTags_high _ _ _ hhigh]
      simp [lastByte, hbytes, List.getLast?_eq_some_getLast]

theorem tags_eq (line : MarkdownLine) : line.tags =
    if line.tagBearing then slugs (pieces none line.content) else [] := by
  rw [← collectLineTags_eq none]
  rfl

end

section

variable {before : Option Char} {c : Char} {r s : List Char}

theorem markerAt_of_ne (h : c ≠ '#') (before : Option Char) (r : List Char) :
    markerAt before (c :: r) = none := by
  unfold markerAt
  split
  · rename_i heq
    exact absurd (List.cons.inj heq).1 h
  · rfl

theorem markerAt_append : markerAt before ('#' :: (s ++ r)) = some s ↔
    glued before = false ∧ s.head?.any Char.isAlphanum = true ∧ (∀ c ∈ s, slugChar c = true) ∧
      r.head?.any slugChar = false := by
  constructor
  · intro h
    obtain ⟨rest, heq, hs, hglued, c, hhead, hc⟩ := markerAt_eq_some h
    obtain rfl : s ++ r = rest := (List.cons.inj heq).2
    have hall : ∀ c ∈ s, slugChar c = true := by
      intro c hmem
      rw [hs] at hmem
      exact List.mem_takeWhile_imp hmem
    refine ⟨hglued, by simp [hhead, hc], hall, ?_⟩
    rw [List.takeWhile_append_of_pos hall] at hs
    have hnil : r.takeWhile slugChar = [] := by simpa using hs.symm
    cases r with
    | nil => rfl
    | cons d r =>
      by_contra hd
      simp only [List.head?_cons, Option.any_some, Bool.not_eq_false] at hd
      simp [hd] at hnil
  · rintro ⟨hglued, hhead, hall, hr⟩
    have htake : (s ++ r).takeWhile slugChar = s := by
      rw [List.takeWhile_append_of_pos hall]
      cases r with
      | nil => simp
      | cons d r =>
        simp only [List.head?_cons, Option.any_some] at hr
        simp [hr]
    cases s with
    | nil => simp at hhead
    | cons d s =>
      simp only [List.head?_cons, Option.any_some] at hhead
      rw [List.cons_append] at htake ⊢
      simp [markerAt, hglued, hhead, htake]

theorem isSome_markerAt : (markerAt before ('#' :: r)).isSome =
    (!glued before && r.head?.any Char.isAlphanum) := by
  cases r with
  | nil => simp [markerAt]
  | cons d r =>
    cases hg : glued before <;> cases hd : d.isAlphanum <;> simp [markerAt, hg, hd]

end

section

def Scanned (before : Option Char) : List Piece → Prop
  | [] => True
  | .code span :: ps =>
    (∃ body, span = tick :: body ∧
      skipInlineCode tick (body ++ render ps) = (body, render ps)) ∧ Scanned span.getLast? ps
  | .marker slug :: ps =>
    markerAt before ('#' :: (slug ++ render ps)) = some slug ∧ Scanned slug.getLast? ps
  | .char c :: ps => c ≠ tick ∧ markerAt before (c :: render ps) = none ∧ Scanned (some c) ps

variable {before : Option Char} {line : List Char} {p : Piece} {ps qs : List Piece} {slug : Slug}

theorem pieces_render (h : Scanned before ps) : pieces before (render ps) = ps := by
  induction ps generalizing before with
  | nil => simp
  | cons p ps ih =>
    cases p with
    | code span =>
      obtain ⟨⟨body, rfl, hskip⟩, hps⟩ := h
      rw [render_cons, Piece.text, List.cons_append, pieces_code, hskip, ih hps]
    | marker slug =>
      obtain ⟨hslug, hps⟩ := h
      rw [render_cons, Piece.text, List.cons_append, pieces_marker hslug, List.drop_left, ih hps]
    | char c =>
      obtain ⟨hc, hnone, hps⟩ := h
      rw [render_cons, Piece.text, List.singleton_append, pieces_char hc hnone, ih hps]

theorem skipInlineCode_append (tick : Char) (rest : List Char) :
    (skipInlineCode tick rest).1 ++ (skipInlineCode tick rest).2 = rest := by
  induction rest with
  | nil => rfl
  | cons c rest ih =>
    rw [skipInlineCode]
    split
    · rfl
    · rw [List.cons_append, ih]

theorem skipInlineCode_congr {body r r' : List Char} (hr : r ≠ [])
    (h : skipInlineCode tick (body ++ r) = (body, r)) :
    skipInlineCode tick (body ++ r') = (body, r') := by
  induction body with
  | nil =>
    cases r with
    | nil => exact absurd rfl hr
    | cons c r =>
      rw [List.nil_append, skipInlineCode] at h
      split at h <;> simp at h
  | cons c body ih =>
    rw [List.cons_append, skipInlineCode] at h ⊢
    split
    · grind
    · grind

theorem slug_append_drop (h : markerAt before ('#' :: line) = some slug) :
    slug ++ line.drop slug.length = line := by
  obtain ⟨rest, heq, hslug, -⟩ := markerAt_eq_some h
  obtain rfl : line = rest := (List.cons.inj heq).2
  have hsplit : slug ++ line.dropWhile slugChar = line := by
    rw [hslug, List.takeWhile_append_dropWhile]
  conv_lhs => rw [← hsplit]
  rw [List.drop_left, hsplit]

@[simp] theorem render_pieces (before : Option Char) (line : List Char) :
    render (pieces before line) = line := by
  induction before, line using pieces_induction with
  | nil before => simp
  | code before rest ih =>
    rw [pieces_code, render_cons, ih, Piece.text, List.cons_append, skipInlineCode_append]
  | marker before rest slug hslug ih =>
    rw [pieces_marker hslug, render_cons, ih, Piece.text, List.cons_append,
      slug_append_drop hslug]
  | char before c rest hc hnone ih =>
    rw [pieces_char hc hnone, render_cons, ih, Piece.text, List.singleton_append]

theorem scanned_pieces (before : Option Char) (line : List Char) :
    Scanned before (pieces before line) := by
  induction before, line using pieces_induction with
  | nil before => simp [Scanned]
  | code before rest ih =>
    rw [pieces_code]
    refine ⟨⟨_, rfl, ?_⟩, ih⟩
    rw [render_pieces, skipInlineCode_append]
  | marker before rest slug hslug ih =>
    rw [pieces_marker hslug]
    refine ⟨?_, ih⟩
    rw [render_pieces, slug_append_drop hslug, hslug]
  | char before c rest hc hnone ih =>
    rw [pieces_char hc hnone]
    exact ⟨hc, by rw [render_pieces, hnone], ih⟩

theorem Scanned.text_ne_nil (h : Scanned before ps) (hp : p ∈ ps) : p.text ≠ [] := by
  induction ps generalizing before with
  | nil => simp at hp
  | cons q ps ih =>
    rcases List.mem_cons.mp hp with rfl | hmem
    · cases p with
      | code span =>
        obtain ⟨⟨body, rfl, -⟩, -⟩ := h
        simp [Piece.text]
      | marker slug => simp [Piece.text]
      | char c => simp [Piece.text]
    · cases q with
      | code span => exact ih h.2 hmem
      | marker slug => exact ih h.2 hmem
      | char c => exact ih h.2.2 hmem

theorem Scanned.change_before {before' : Option Char} (h : Scanned before ps)
    (hb : (markerAt before' (render ps)).isSome = (markerAt before (render ps)).isSome) :
    Scanned before' ps := by
  cases ps with
  | nil => exact trivial
  | cons p ps =>
    cases p with
    | code span => exact h
    | marker slug =>
      refine ⟨?_, h.2⟩
      have hm := h.1
      rw [render_cons, Piece.text, List.cons_append, hm, isSome_markerAt] at hb
      rw [markerAt_append] at hm ⊢
      simp only [Option.isSome_some, Bool.and_eq_true, Bool.not_eq_eq_eq_not, Bool.not_true] at hb
      exact ⟨hb.1, hm.2⟩
    | char c =>
      refine ⟨h.1, ?_, h.2.2⟩
      rw [render_cons, Piece.text, List.singleton_append, h.2.1] at hb
      simpa using hb

end

section

variable {before : Option Char} {line rest out : List Char} {edited : Bool} {slug found : Slug}
  {replacement : Option (List Char)}

theorem found_eq (slug : Slug) (before : Option Char) (line : List Char) :
    (tagSlugAt (lastByte before) (utf8 line)).filter (· = utf8 slug) =
      ((markerAt before line).filter (· = slug)).map utf8 := by
  rw [tagSlugAt_utf8]
  cases markerAt before line with
  | none => rfl
  | some found =>
    by_cases h : found = slug
    · simp [Option.filter_some, h]
    · have hne : ¬ utf8 found = utf8 slug := fun heq => h (utf8_injective heq)
      simp [Option.filter_some, h, hne]

theorem editLineMarkers_copy (w : List Char) (h : ∀ c ∈ w, c ≠ tick ∧ c ≠ '#') :
    editLineMarkers slug replacement before (w ++ rest) out edited =
      editLineMarkers slug replacement (w.getLast?.or before) rest (out ++ w) edited := by
  induction w generalizing before out with
  | nil => simp
  | cons c w ih =>
    obtain ⟨htick, hhash⟩ := h c (by simp)
    have hstep : editLineMarkers slug replacement before (c :: (w ++ rest)) out edited =
        editLineMarkers slug replacement (some c) (w ++ rest) (out ++ [c]) edited := by
      rw [editLineMarkers, if_neg htick, found_eq, markerAt_of_ne hhash]
      rfl
    rw [List.cons_append, hstep, ih fun d hd => h d (by simp [hd]), List.getLast?_cons]
    cases w.getLast? <;> simp

theorem editLineMarkers_other (h : markerAt before ('#' :: line) = some found) (hne : found ≠ slug) :
    editLineMarkers slug replacement before ('#' :: line) out edited =
      editLineMarkers slug replacement found.getLast? (line.drop found.length)
        (out ++ '#' :: found) edited := by
  have hsplit := slug_append_drop h
  have hcopy : ∀ c ∈ found, c ≠ tick ∧ c ≠ '#' := by
    obtain ⟨_, -, hfound, -⟩ := markerAt_eq_some h
    intro c hc
    have hs : slugChar c = true := by
      rw [hfound] at hc
      exact List.mem_takeWhile_imp hc
    constructor
    · rintro rfl
      exact absurd hs (by decide)
    · rintro rfl
      exact absurd hs (by decide)
  have hlast : found.getLast?.or (some '#') = found.getLast? := by
    have hne : found ≠ [] := by
      rintro rfl
      obtain ⟨_, -, -, -, c, hc, -⟩ := markerAt_eq_some h
      simp at hc
    simp [List.getLast?_eq_some_getLast hne]
  rw [editLineMarkers, if_neg (by decide), found_eq, h, Option.filter_some, if_neg (by simpa using hne)]
  conv_lhs => rw [← hsplit]
  rw [editLineMarkers_copy found hcopy, hlast]
  simp

theorem editLineMarkers_absent (h : slug ∉ slugs (pieces before line)) :
    editLineMarkers slug replacement before line out edited = (out ++ line, edited) := by
  induction before, line using pieces_induction generalizing out edited with
  | nil before => simp [editLineMarkers]
  | code before rest ih =>
    rw [pieces_code] at h
    rw [editLineMarkers, if_pos rfl, ih h, List.append_assoc, List.cons_append,
      skipInlineCode_append]
  | marker before rest found hfound ih =>
    rw [pieces_marker hfound, slugs_marker, List.mem_cons, not_or] at h
    rw [editLineMarkers_other hfound (Ne.symm h.1), ih h.2, List.append_assoc, List.cons_append,
      slug_append_drop hfound]
  | char before c rest hc hnone ih =>
    rw [pieces_char hc hnone] at h
    rw [editLineMarkers, if_neg hc, found_eq, hnone]
    rw [ih h]
    simp

end

end SwissArmyHammer.Kanban
