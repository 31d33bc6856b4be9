import Mathlib.Data.List.Pairwise
import SwissArmyHammer.Edit.Cascade

/-! What a match says about the text: the occurrences, blocks and lines that it was chosen from,
and when a unique match is the only one. -/

namespace SwissArmyHammer.Edit

open Text

section

variable {haystack needle : List UInt8} {hne : needle ≠ []} {start p q rel : Nat}

theorem byteOffsetsFrom_none (h : findFirst needle (haystack.drop start) = none) :
    byteOffsetsFrom haystack needle hne start = [] := by
  rw [byteOffsetsFrom]
  split
  · rfl
  · simp_all

theorem byteOffsetsFrom_some (h : findFirst needle (haystack.drop start) = some rel) :
    byteOffsetsFrom haystack needle hne start =
      (start + rel) :: byteOffsetsFrom haystack needle hne (start + rel + needle.length) := by
  rw [byteOffsetsFrom]
  split
  · simp_all
  · grind

theorem mem_byteOffsetsFrom (h : p ∈ byteOffsetsFrom haystack needle hne start) :
    start ≤ p ∧ Occurs needle haystack p := by
  induction start using byteOffsetsFrom.induct haystack needle hne with
  | case1 start hnone =>
    rw [byteOffsetsFrom_none hnone] at h
    simp at h
  | case2 start rel hsome ih =>
    rw [byteOffsetsFrom_some hsome] at h
    rcases List.mem_cons.mp h with rfl | h
    · exact ⟨by omega, occurs_drop.mp (findFirst_eq_some hsome).1⟩
    · obtain ⟨hle, hoccurs⟩ := ih h
      exact ⟨by omega, hoccurs⟩

theorem pairwise_byteOffsetsFrom (haystack needle : List UInt8) (hne : needle ≠ []) (start : Nat) :
    (byteOffsetsFrom haystack needle hne start).Pairwise fun p q => p + needle.length ≤ q := by
  induction start using byteOffsetsFrom.induct haystack needle hne with
  | case1 start hnone =>
    rw [byteOffsetsFrom_none hnone]
    exact .nil
  | case2 start rel hsome ih =>
    rw [byteOffsetsFrom_some hsome]
    exact .cons (fun p hp => (mem_byteOffsetsFrom hp).1) ih

theorem covered_byteOffsetsFrom (hne : needle ≠ []) (hle : start ≤ q) (h : Occurs needle haystack q) :
    ∃ p ∈ byteOffsetsFrom haystack needle hne start, p ≤ q ∧ q < p + needle.length := by
  induction start using byteOffsetsFrom.induct haystack needle hne with
  | case1 start hnone =>
    have hnot := findFirst_eq_none hnone (q - start)
    rw [occurs_drop, show start + (q - start) = q by omega] at hnot
    exact absurd h hnot
  | case2 start rel hsome ih =>
    rw [byteOffsetsFrom_some hsome]
    have hfirst : start + rel ≤ q := by
      by_contra hlt
      have hnot := (findFirst_eq_some hsome).2 (q - start) (by omega)
      rw [occurs_drop, show start + (q - start) = q by omega] at hnot
      exact hnot h
    by_cases hnext : start + rel + needle.length ≤ q
    · obtain ⟨p, hp, hcover⟩ := ih hnext
      exact ⟨p, List.mem_cons_of_mem _ hp, hcover⟩
    · exact ⟨start + rel, List.mem_cons_self, hfirst, by omega⟩

end

section

variable {content find : List Char} {p q : Nat}

theorem newline_mem_of_utf8 {s : List Char} (h : 10 ∈ utf8 s) : '\n' ∈ s := by
  obtain ⟨c, hc, hbyte⟩ := List.mem_flatMap.mp h
  by_cases hascii : c.toNat < 128
  · rw [utf8EncodeChar_ascii hascii, List.mem_singleton] at hbyte
    have hnat := congrArg UInt8.toNat hbyte
    rw [toNat_ofNat_ascii hascii] at hnat
    have hnewline : c = '\n' := Char.toNat_inj.mp hnat.symm
    rwa [← hnewline]
  · have hhigh := byte_of_not_ascii (by omega) 10 hbyte
    simp at hhigh

def Occurrence (content find : List Char) (p : Nat) : Prop :=
  Occurs (utf8 find) (utf8 content) p ∧
    ('\n' ∉ find → isLineAligned content p (utf8 find).length = true)

theorem mem_byteOffsetsOf {hne : find ≠ []} (h : Occurrence content find p) (hline : '\n' ∉ find) :
    p ∈ byteOffsetsOf content find hne := by
  obtain ⟨r, hr, hle, hlt⟩ :=
    covered_byteOffsetsFrom (utf8_ne_nil hne) (Nat.zero_le p) h.1
  by_cases heq : r = p
  · rw [← heq]
    exact hr
  · have hbefore : (utf8 content)[p - 1]? = some 10 := by
      have haligned := h.2 hline
      simp only [isLineAligned, Bool.and_eq_true, Bool.or_eq_true, decide_eq_true_eq] at haligned
      rcases haligned.1 with hzero | hbyte
      · omega
      · exact hbyte
    rw [(mem_byteOffsetsFrom hr).2.getElem? (show r ≤ p - 1 by omega) (by omega)] at hbefore
    exact absurd (newline_mem_of_utf8 (List.mem_of_getElem? hbefore)) hline

theorem slice_of_occurs (h : Occurs (utf8 find) (utf8 content) p) :
    slice content (p, p + (utf8 find).length) = find := by
  have hbytes : ((utf8 content).take (p + (utf8 find).length)).drop p = utf8 find := by
    rw [List.drop_take, Nat.add_sub_cancel_left]
    exact occurs_iff_take.mp h
  rw [slice]
  simp only [hbytes]
  rw [decodeUtf8_eq_some.mpr rfl]
  rfl

end

section

variable {bytes : List UInt8} {start idx : Nat} {rest content : List Char} {line : Nat × Nat}
  {lines : List (Nat × Nat)} {first last : Nat} {range : Nat × Nat}

theorem mem_physicalLinesFrom (hle : start ≤ idx) (hlen : idx + (utf8 rest).length = bytes.length)
    (h : line ∈ physicalLinesFrom bytes start idx rest) :
    start ≤ line.1 ∧ line.1 ≤ line.2 ∧ line.2 ≤ bytes.length := by
  induction rest generalizing start idx with
  | nil =>
    rw [physicalLinesFrom] at h
    split_ifs at h with hlt
    · rw [List.mem_singleton.mp h]
      exact ⟨Nat.le_refl _, Nat.le_of_lt hlt, Nat.le_refl _⟩
    · simp at h
  | cons c rest ih =>
    rw [utf8_cons, List.length_append, String.length_utf8EncodeChar] at hlen
    rw [physicalLinesFrom] at h
    split_ifs at h with hc hcr
    · rw [hc, show ('\n' : Char).utf8Size = 1 from rfl] at hlen
      rcases List.mem_cons.mp h with rfl | h
      · exact ⟨Nat.le_refl _, show start ≤ idx - 1 by omega, show idx - 1 ≤ bytes.length by omega⟩
      · have hbounds := ih (Nat.le_refl _) (by omega) h
        exact ⟨by omega, hbounds.2⟩
    · rw [hc, show ('\n' : Char).utf8Size = 1 from rfl] at hlen
      rcases List.mem_cons.mp h with rfl | h
      · exact ⟨Nat.le_refl _, hle, show idx ≤ bytes.length by omega⟩
      · have hbounds := ih (Nat.le_refl _) (by omega) h
        exact ⟨by omega, hbounds.2⟩
    · exact ih (by omega) (by omega) h

theorem pairwise_physicalLinesFrom (hle : start ≤ idx)
    (hlen : idx + (utf8 rest).length = bytes.length) :
    (physicalLinesFrom bytes start idx rest).Pairwise fun a b => a.1 < b.1 := by
  induction rest generalizing start idx with
  | nil =>
    rw [physicalLinesFrom]
    split_ifs
    · exact List.pairwise_singleton _ _
    · exact .nil
  | cons c rest ih =>
    rw [utf8_cons, List.length_append, String.length_utf8EncodeChar] at hlen
    rw [physicalLinesFrom]
    by_cases hc : c = '\n'
    · rw [hc, show ('\n' : Char).utf8Size = 1 from rfl] at hlen
      rw [if_pos hc]
      refine .cons (fun line hline => ?_) (ih (Nat.le_refl _) (by omega))
      have hbounds := mem_physicalLinesFrom (Nat.le_refl _) (by omega) hline
      omega
    · rw [if_neg hc]
      exact ih (by omega) (by omega)

theorem mem_physicalLines (h : line ∈ physicalLines content) :
    line.1 ≤ line.2 ∧ line.2 ≤ (utf8 content).length :=
  (mem_physicalLinesFrom (Nat.le_refl 0) (Nat.zero_add _) h).2

theorem pairwise_physicalLines (content : List Char) :
    (physicalLines content).Pairwise fun a b => a.1 < b.1 :=
  pairwise_physicalLinesFrom (Nat.le_refl 0) (Nat.zero_add _)

theorem nodup_of_starts {ranges : List (Nat × Nat)}
    (h : ranges.Pairwise fun a b => a.1 < b.1) : ranges.Nodup := by
  refine h.imp fun hlt heq => ?_
  rw [heq] at hlt
  exact Nat.lt_irrefl _ hlt

theorem blockRange_eq (hfirst : first < lines.length) (hlast : last < lines.length) :
    blockRange lines first last = some (lines[first].1, lines[last].2) := by
  simp [blockRange, hfirst, hlast]

theorem blockRange_bounds (h : blockRange (physicalLines content) first last = some range)
    (hle : first ≤ last) : range.1 ≤ range.2 ∧ range.2 ≤ (utf8 content).length := by
  obtain ⟨a, ha, hmap⟩ := Option.bind_eq_some_iff.mp h
  obtain ⟨b, hb, rfl⟩ := Option.map_eq_some_iff.mp hmap
  have hbbounds := mem_physicalLines (List.mem_of_getElem? hb)
  refine ⟨?_, hbbounds.2⟩
  rcases Nat.lt_or_eq_of_le hle with hlt | rfl
  · have hpair := pairwise_physicalLines content
    rw [List.pairwise_iff_getElem] at hpair
    obtain ⟨hfirst, rfl⟩ := List.getElem?_eq_some_iff.mp ha
    obtain ⟨hlast, rfl⟩ := List.getElem?_eq_some_iff.mp hb
    have hstart := hpair first last hfirst hlast hlt
    omega
  · rw [ha] at hb
    rw [Option.some.inj hb]
    exact hbbounds.1

theorem blockRange_lt {range' : Nat × Nat} {first' last' : Nat}
    (h : blockRange (physicalLines content) first last = some range)
    (h' : blockRange (physicalLines content) first' last' = some range') (hlt : first < first') :
    range.1 < range'.1 := by
  obtain ⟨a, ha, hmap⟩ := Option.bind_eq_some_iff.mp h
  obtain ⟨b, -, rfl⟩ := Option.map_eq_some_iff.mp hmap
  obtain ⟨a', ha', hmap'⟩ := Option.bind_eq_some_iff.mp h'
  obtain ⟨b', -, rfl⟩ := Option.map_eq_some_iff.mp hmap'
  have hpair := pairwise_physicalLines content
  rw [List.pairwise_iff_getElem] at hpair
  obtain ⟨hfirst, rfl⟩ := List.getElem?_eq_some_iff.mp ha
  obtain ⟨hfirst', rfl⟩ := List.getElem?_eq_some_iff.mp ha'
  exact hpair first first' hfirst hfirst' hlt

@[simp] theorem length_contentNorm (content : List Char) :
    (contentNorm content).length = (physicalLines content).length :=
  List.length_map _

end

section

variable {content s : List Char}

end

section

variable {K : Type} [NatCast K]

def BlockAt (content find : List Char) (i : Nat) : Prop :=
  ((contentNorm content).drop i).take (findNorm find).length = findNorm find

def OnlyLine (content line : List Char) (i : Nat) : Prop :=
  ∀ j, (contentNorm content)[j]? = some line ↔ j = i

def CandidatesHold (content : List Char) (candidates : List Span) : Prop :=
  2 ≤ candidates.length ∧ (candidates.map Span.range).Nodup ∧
    ∀ c ∈ candidates, c.range.1 ≤ c.range.2 ∧ c.range.2 ≤ (utf8 content).length

/-- What is unique is unique in the text, and what is ambiguous has more than one candidate. -/
def OutcomeHolds (content find : List Char) : MatchOutcome K → Prop
  | .unique span .exact _ => slice content span = find ∧
      ∀ p, Occurrence content find p ↔ p = span.1
  | .unique span .normalized _ => ∃ i, (∀ j, BlockAt content find j ↔ j = i) ∧
      blockRange (physicalLines content) i (i + (findNorm find).length - 1) = some span
  | .unique span .anchor _ => ∃ first last i j, (findNorm find).head? = some first ∧
      (findNorm find).getLast? = some last ∧ OnlyLine content first i ∧ OnlyLine content last j ∧
        i < j ∧ blockRange (physicalLines content) i j = some span
  | .unique _ .fuzzy _ => True
  | .ambiguous candidates => CandidatesHold content candidates
  | .noMatch _ => True

/-- Where `find` has a `\n` and its first occurrence is overlapped by another, there is one more
behind it. -/
def OverlapRefused (content find : List Char) : Prop :=
  '\n' ∈ find → ∀ p q, Occurs (utf8 find) (utf8 content) p →
    (∀ r, Occurs (utf8 find) (utf8 content) r → p ≤ r) → Occurs (utf8 find) (utf8 content) q →
      p < q → q < p + (utf8 find).length →
        ∃ r, Occurs (utf8 find) (utf8 content) r ∧ p + (utf8 find).length ≤ r

variable {content find line : List Char} {ranges : List (Nat × Nat)} {outcome : MatchOutcome K}

theorem map_range_spanOf (content : List Char) (ranges : List (Nat × Nat)) :
    (ranges.map (spanOf content)).map Span.range = ranges := by
  rw [List.map_map]
  exact List.map_id _

theorem candidatesHold_spans (hlen : 2 ≤ ranges.length) (hnodup : ranges.Nodup)
    (hbounds : ∀ range ∈ ranges, range.1 ≤ range.2 ∧ range.2 ≤ (utf8 content).length) :
    CandidatesHold content (ranges.map (spanOf content)) := by
  refine ⟨by rwa [List.length_map], by rwa [map_range_spanOf], ?_⟩
  intro c hc
  obtain ⟨range, hrange, rfl⟩ := List.mem_map.mp hc
  exact hbounds range hrange

def exactOffsets (content find : List Char) (hne : find ≠ []) : List Nat :=
  (byteOffsetsOf content find hne).filter fun start =>
    !(!find.contains '\n') || isLineAligned content start (utf8 find).length

theorem pairwise_exactOffsets (content : List Char) (hne : find ≠ []) :
    (exactOffsets content find hne).Pairwise fun p q => p + (utf8 find).length ≤ q :=
  (pairwise_byteOffsetsFrom _ _ _ 0).filter _

theorem occurs_of_exactOffsets (hne : find ≠ []) {p : Nat}
    (h : p ∈ exactOffsets content find hne) :
    Occurs (utf8 find) (utf8 content) p :=
  (mem_byteOffsetsFrom (List.mem_filter.mp h).1).2

theorem mem_exactOffsets (hne : find ≠ []) (hline : '\n' ∉ find) {p : Nat} :
    p ∈ exactOffsets content find hne ↔ Occurrence content find p := by
  constructor
  · intro h
    have haligned := (List.mem_filter.mp h).2
    simp [hline] at haligned
    exact ⟨occurs_of_exactOffsets hne h, fun _ => haligned⟩
  · intro h
    refine List.mem_filter.mpr ⟨mem_byteOffsetsOf h hline, ?_⟩
    simp [h.2 hline]

theorem exactOffsets_lines {hne : find ≠ []} (hline : '\n' ∈ find) :
    exactOffsets content find hne = byteOffsetsOf content find hne := by
  simp [exactOffsets, hline]

theorem candidatesHold_exactOffsets (content : List Char) (hne : find ≠ [])
    (hlen : 2 ≤ (exactOffsets content find hne).length) :
    CandidatesHold content ((exactOffsets content find hne).map fun start =>
      spanOf content (start, start + (utf8 find).length)) := by
  have hstarts : ((exactOffsets content find hne).map fun start =>
      (start, start + (utf8 find).length)).Pairwise fun a b => a.1 < b.1 := by
    rw [List.pairwise_map]
    have hpos := utf8_length_pos hne
    refine (pairwise_exactOffsets content hne).imp fun hle => ?_
    show _ < _
    omega
  have hspans : CandidatesHold content _ := candidatesHold_spans (by rwa [List.length_map])
    (nodup_of_starts hstarts) (by
      intro range hrange
      obtain ⟨start, hstart, rfl⟩ := List.mem_map.mp hrange
      exact ⟨Nat.le_add_right _ _,
        (occurs_of_exactOffsets hne hstart).length_le (utf8_ne_nil hne)⟩)
  rw [List.map_map] at hspans
  exact hspans

theorem tryExact_cases (content : List Char) (hne : find ≠ []) :
    (exactOffsets content find hne = [] ∧ tryExact content find = (none : Option (MatchOutcome K))) ∨
    (∃ p, exactOffsets content find hne = [p] ∧ tryExact content find =
      some (.unique (p, p + (utf8 find).length) .exact (1 : Nat) : MatchOutcome K)) ∨
    (∃ candidates, 2 ≤ (exactOffsets content find hne).length ∧
      CandidatesHold content candidates ∧
        tryExact content find = some (.ambiguous candidates : MatchOutcome K)) := by
  have hambiguous := candidatesHold_exactOffsets content hne
  rw [tryExact, dif_neg hne]
  cases hoffsets : exactOffsets content find hne with
  | nil =>
    unfold exactOffsets at hoffsets
    simp only [hoffsets]
    exact .inl ⟨trivial, trivial⟩
  | cons p rest =>
    cases rest with
    | nil =>
      unfold exactOffsets at hoffsets
      simp only [hoffsets]
      exact .inr (.inl ⟨p, rfl, rfl⟩)
    | cons q rest =>
      rw [hoffsets] at hambiguous
      unfold exactOffsets at hoffsets
      simp only [hoffsets]
      exact .inr (.inr ⟨_, by simp, hambiguous (by simp), rfl⟩)

theorem tryExact_line (hne : find ≠ []) (hline : '\n' ∉ find)
    (h : tryExact content find = some outcome) : OutcomeHolds content find outcome := by
  rcases tryExact_cases (K := K) content hne with ⟨-, heq⟩ | ⟨p, hp, heq⟩ | ⟨candidates, -, hc, heq⟩
  · rw [heq] at h
    simp at h
  · rw [heq, Option.some.injEq] at h
    rw [← h]
    have hmem : ∀ q, Occurrence content find q ↔ q = p := by
      intro q
      rw [← mem_exactOffsets hne hline, hp, List.mem_singleton]
    exact ⟨slice_of_occurs ((hmem p).mpr rfl).1, hmem⟩
  · rw [heq, Option.some.injEq] at h
    rw [← h]
    exact hc

theorem occurrence_lines (hline : '\n' ∈ find) {q : Nat} :
    Occurrence content find q ↔ Occurs (utf8 find) (utf8 content) q :=
  ⟨And.left, fun hq => ⟨hq, fun habs => absurd hline habs⟩⟩

theorem covered_exactOffsets (hne : find ≠ []) (hline : '\n' ∈ find) {q : Nat}
    (hq : Occurs (utf8 find) (utf8 content) q) :
    ∃ p ∈ exactOffsets content find hne, p ≤ q ∧ q < p + (utf8 find).length := by
  rw [exactOffsets_lines hline]
  exact covered_byteOffsetsFrom (utf8_ne_nil hne) (Nat.zero_le q) hq

theorem unique_lines_iff (hne : find ≠ []) (hline : '\n' ∈ find) {p : Nat}
    (hp : exactOffsets content find hne = [p]) :
    (∀ q, Occurrence content find q ↔ q = p) ↔ OverlapRefused content find := by
  have hoccurs : Occurs (utf8 find) (utf8 content) p :=
    occurs_of_exactOffsets hne (by rw [hp]; simp)
  have hover : ∀ q, Occurs (utf8 find) (utf8 content) q → p ≤ q ∧ q < p + (utf8 find).length := by
    intro q hq
    obtain ⟨r, hr, hcover⟩ := covered_exactOffsets hne hline hq
    rw [hp, List.mem_singleton] at hr
    rwa [hr] at hcover
  constructor
  · intro honly _ p' q hp' _ hq hlt _
    have hp'' := (honly p').mp ((occurrence_lines hline).mpr hp')
    have hq'' := (honly q).mp ((occurrence_lines hline).mpr hq)
    omega
  · intro hrefused q
    rw [occurrence_lines hline]
    constructor
    · intro hq
      obtain ⟨hle, hlt⟩ := hover q hq
      by_contra hne'
      have hafter : p < q := Nat.lt_of_le_of_ne hle fun heq => hne' heq.symm
      obtain ⟨r, hr, hbehind⟩ :=
        hrefused hline p q hoccurs (fun r hr => (hover r hr).1) hq hafter hlt
      have hinside := (hover r hr).2
      omega
    · rintro rfl
      exact hoccurs

theorem overlapRefused_of_two (hne : find ≠ []) (hline : '\n' ∈ find)
    (hlen : 2 ≤ (exactOffsets content find hne).length) : OverlapRefused content find := by
  intro _ p q hp hfirst _ _ _
  have hpair := pairwise_exactOffsets content hne
  obtain ⟨r, hr, hle, hlt⟩ := covered_exactOffsets hne hline hp
  match hoffsets : exactOffsets content find hne with
  | [] => simp [hoffsets] at hlen
  | [_] => simp [hoffsets] at hlen
  | first :: second :: rest =>
    rw [hoffsets] at hpair hr
    have hsecond : Occurs (utf8 find) (utf8 content) second :=
      occurs_of_exactOffsets hne (by rw [hoffsets]; simp)
    have hfirstle := hfirst first (occurs_of_exactOffsets hne (by rw [hoffsets]; simp))
    have hnext := (List.pairwise_cons.mp hpair).1
    refine ⟨second, hsecond, ?_⟩
    have hgap := hnext second (by simp)
    omega

theorem tryExact_lines (hne : find ≠ []) (hline : '\n' ∈ find)
    (h : tryExact content find = some outcome) :
    OutcomeHolds content find outcome ↔ OverlapRefused content find := by
  rcases tryExact_cases (K := K) content hne with
    ⟨-, heq⟩ | ⟨p, hp, heq⟩ | ⟨candidates, hlen, hc, heq⟩
  · rw [heq] at h
    simp at h
  · rw [heq, Option.some.injEq] at h
    rw [← h]
    have hoccurs : Occurs (utf8 find) (utf8 content) p :=
      occurs_of_exactOffsets hne (by rw [hp]; simp)
    rw [← unique_lines_iff hne hline hp]
    exact ⟨And.right, fun honly => ⟨slice_of_occurs hoccurs, honly⟩⟩
  · rw [heq, Option.some.injEq] at h
    rw [← h]
    exact iff_of_true hc (overlapRefused_of_two hne hline hlen)

theorem tryExact_none (hne : find ≠ [])
    (h : tryExact content find = (none : Option (MatchOutcome K))) :
    OverlapRefused content find := by
  intro hline p q hp
  rcases tryExact_cases (K := K) content hne with ⟨hnil, -⟩ | ⟨p', -, heq⟩ | ⟨candidates, -, -, heq⟩
  · obtain ⟨r, hr, -⟩ := covered_exactOffsets hne hline hp
    rw [hnil] at hr
    simp at hr
  · rw [heq] at h
    simp at h
  · rw [heq] at h
    simp at h

theorem blockAt_lt {i : Nat} (hne : findNorm find ≠ []) (h : BlockAt content find i) :
    i + (findNorm find).length ≤ (contentNorm content).length := by
  have hlen := congrArg List.length h
  have hpos := List.length_pos_iff.mpr hne
  rw [List.length_take, List.length_drop] at hlen
  omega

theorem finalizeBlockMatches_holds {windows : List Nat} (hwindows : windows.Pairwise (· < ·))
    (hmem : ∀ i, i ∈ windows ↔ BlockAt content find i)
    (hblock : ∀ i ∈ windows, ∃ range, blockRange (physicalLines content) i
      (i + (findNorm find).length - 1) = some range)
    (hpos : 0 < (findNorm find).length)
    (h : finalizeBlockMatches content (windows.filterMap fun i =>
      blockRange (physicalLines content) i (i + (findNorm find).length - 1)) .normalized =
        some outcome) : OutcomeHolds content find outcome := by
  match windows with
  | [] => simp [finalizeBlockMatches] at h
  | [i] =>
    obtain ⟨range, hrange⟩ := hblock i (by simp)
    simp only [List.filterMap_cons, hrange, List.filterMap_nil, finalizeBlockMatches,
      Option.some.injEq] at h
    rw [← h]
    exact ⟨i, fun j => (hmem j).symm.trans List.mem_singleton, hrange⟩
  | i :: j :: rest =>
    have hstarts : ((i :: j :: rest).filterMap fun i => blockRange (physicalLines content) i
        (i + (findNorm find).length - 1)).Pairwise fun a b => a.1 < b.1 := by
      rw [List.pairwise_filterMap]
      exact hwindows.imp fun hlt a ha b hb => blockRange_lt ha hb hlt
    have hbounds : ∀ range ∈ (i :: j :: rest).filterMap fun i => blockRange
        (physicalLines content) i (i + (findNorm find).length - 1),
        range.1 ≤ range.2 ∧ range.2 ≤ (utf8 content).length := by
      intro range hrange
      obtain ⟨k, -, hk⟩ := List.mem_filterMap.mp hrange
      exact blockRange_bounds hk (by omega)
    obtain ⟨range, hrange⟩ := hblock i (by simp)
    obtain ⟨range', hrange'⟩ := hblock j (by simp)
    simp only [List.filterMap_cons, hrange, hrange'] at h hstarts hbounds
    simp only [finalizeBlockMatches, Option.some.injEq] at h
    rw [← h]
    exact candidatesHold_spans (by simp) (nodup_of_starts hstarts) hbounds

theorem tryLineBlock_holds (h : tryLineBlock content find .normalized = some outcome) :
    OutcomeHolds content find outcome := by
  rw [tryLineBlock] at h
  split_ifs at h with hne hlen
  have hpos := List.length_pos_iff.mpr hne
  refine finalizeBlockMatches_holds (List.pairwise_lt_range.filter _) (fun i => ?_)
    (fun i hi => ?_) hpos h
  · simp only [List.mem_filter, List.mem_range, decide_eq_true_eq]
    refine ⟨And.right, fun hblock => ⟨?_, hblock⟩⟩
    have hle := blockAt_lt hne hblock
    omega
  · simp only [List.mem_filter, List.mem_range, decide_eq_true_eq] at hi
    have hle := blockAt_lt hne hi.2
    rw [length_contentNorm] at hle
    exact ⟨_, blockRange_eq (by omega) (by omega)⟩

theorem onlyLine_of_hits {i : Nat} (h : hits (contentNorm content) line = [i]) :
    OnlyLine content line i := by
  intro j
  have hmem : j ∈ hits (contentNorm content) line ↔ j = i := by rw [h, List.mem_singleton]
  rw [← hmem, hits, List.mem_filter, List.mem_range, decide_eq_true_eq]
  exact ⟨fun hj => ⟨(List.getElem?_eq_some_iff.mp hj).1, hj⟩, And.right⟩

theorem tryAnchor_holds (h : tryAnchor content find = some outcome) :
    OutcomeHolds content find outcome := by
  rw [tryAnchor] at h
  cases hfirst : (findNorm find).head? with
  | none => simp [hfirst] at h
  | some first =>
    cases hlast : (findNorm find).getLast? with
    | none => simp [hfirst, hlast] at h
    | some last =>
      simp only [hfirst, hlast] at h
      split_ifs at h with hempty
      split at h
      · rename_i i j hi hj
        split_ifs at h with hle
        obtain ⟨range, hrange, rfl⟩ := Option.map_eq_some_iff.mp h
        exact ⟨first, last, i, j, hfirst, hlast, onlyLine_of_hits hi, onlyLine_of_hits hj,
          by omega, hrange⟩
      · simp at h

section

variable [Sub K] [Div K] [LE K] [DecidableLE K]

theorem perm_scoredLines (content find : List Char) :
    ((scoredLines content find : List (K × (Nat × Nat))).map Prod.snd).Perm
      (physicalLines content) := by
  refine ((List.mergeSort_perm _ _).map Prod.snd).trans ?_
  rw [List.map_map]
  exact List.Perm.of_eq (List.map_id _)

variable [LT K] [DecidableLT K]

theorem tryFuzzy_holds (content find : List Char) :
    OutcomeHolds content find (tryFuzzy content find : MatchOutcome K) := by
  have hperm := perm_scoredLines (K := K) content find
  have hnodup := hperm.nodup_iff.mpr (nodup_of_starts (pairwise_physicalLines content))
  have habove : ∀ above : List (K × (Nat × Nat)), above.Sublist (scoredLines content find) →
      2 ≤ above.length → CandidatesHold content (above.map fun s => spanOf content s.2) := by
    intro above hsub hlen
    have hranges := hsub.map Prod.snd
    have hspans := candidatesHold_spans (by rwa [List.length_map]) (hnodup.sublist hranges)
      fun range hrange => mem_physicalLines (hperm.mem_iff.mp (hranges.subset hrange))
    rw [List.map_map] at hspans
    exact hspans
  rw [tryFuzzy]
  split
  · trivial
  · trivial
  · rename_i best runnerUp rest hfilter
    split_ifs
    · trivial
    · refine habove _ List.filter_sublist ?_
      rw [hfilter]
      simp

end

section

variable [Sub K] [Div K] [LE K] [DecidableLE K] [LT K] [DecidableLT K]

/-- A unique match is the only one, and an ambiguous answer has its candidates, exactly when the
first occurrence of a block of lines is not overlapped by another without one more behind it. -/
theorem findMatch_holds_iff (content : List Char) (hne : find ≠ []) :
    OutcomeHolds content find (findMatch content find : MatchOutcome K) ↔
      OverlapRefused content find := by
  rw [findMatch]
  cases hexact : (tryExact content find : Option (MatchOutcome K)) with
  | some outcome =>
    by_cases hline : '\n' ∈ find
    · exact tryExact_lines hne hline hexact
    · exact iff_of_true (tryExact_line hne hline hexact) fun habs => absurd habs hline
  | none =>
    refine iff_of_true ?_ (tryExact_none hne hexact)
    cases hblock : (tryLineBlock content find .normalized : Option (MatchOutcome K)) with
    | some outcome => exact tryLineBlock_holds hblock
    | none =>
      cases hanchor : (tryAnchor content find : Option (MatchOutcome K)) with
      | some outcome => exact tryAnchor_holds hanchor
      | none => exact tryFuzzy_holds content find

theorem findMatch_holds_iff_line :
    OutcomeHolds ['a', '\n', 'b'] ['b'] (findMatch ['a', '\n', 'b'] ['b'] : MatchOutcome Rat) ↔
      OverlapRefused ['a', '\n', 'b'] ['b'] :=
  findMatch_holds_iff _ (by decide)

theorem findMatch_overlapped :
    findMatch ['a', '\n', 'a', '\n', 'a'] ['a', '\n', 'a'] =
        (.unique (0, 3) .exact 1 : MatchOutcome Rat) ∧
      Occurrence ['a', '\n', 'a', '\n', 'a'] ['a', '\n', 'a'] 2 ∧
      ¬ OutcomeHolds ['a', '\n', 'a', '\n', 'a'] ['a', '\n', 'a']
        (findMatch ['a', '\n', 'a', '\n', 'a'] ['a', '\n', 'a'] : MatchOutcome Rat) := by
  have hmatch : findMatch ['a', '\n', 'a', '\n', 'a'] ['a', '\n', 'a'] =
      (.unique (0, 3) .exact 1 : MatchOutcome Rat) := by decide +kernel
  have hsecond : Occurrence ['a', '\n', 'a', '\n', 'a'] ['a', '\n', 'a'] 2 :=
    ⟨by decide, fun habs => absurd (by simp) habs⟩
  refine ⟨hmatch, hsecond, fun h => ?_⟩
  rw [hmatch] at h
  exact absurd ((h.2 2).mp hsecond) (by decide)

end

end

end SwissArmyHammer.Edit
