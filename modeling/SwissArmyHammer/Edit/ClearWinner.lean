import Mathlib.Algebra.Order.Ring.Rat
import Mathlib.Tactic.Linarith
import SwissArmyHammer.Common.StableSort
import SwissArmyHammer.Edit.UniqueMatch

/-! When the line that a fuzzy match takes is clearly better than all other lines. -/

namespace SwissArmyHammer.Edit

section

variable {α R : Type} [LinearOrder R] {l rest : List α} {a b c : α}

theorem le_second_of_filter {value : α → R} {least : R} {above : α → Bool}
    (hover : ∀ x, above x = true ↔ least ≤ value x)
    (h : l.Pairwise fun x y => value y ≤ value x) (habove : l.filter above = a :: b :: rest)
    (hc : c ∈ l) (hne : c ≠ a) : value c ≤ value b := by
  have hsorted := h.filter above
  rw [habove] at hsorted
  have hb : least ≤ value b := by
    have hmem : b ∈ l.filter above := by simp [habove]
    exact (hover b).mp (List.mem_filter.mp hmem).2
  by_cases hbar : least ≤ value c
  · have hmem : c ∈ l.filter above := List.mem_filter.mpr ⟨hc, (hover c).mpr hbar⟩
    rw [habove] at hmem
    rcases List.mem_cons.mp hmem with rfl | hmem
    · exact absurd rfl hne
    · rcases List.mem_cons.mp hmem with rfl | hmem
      · exact le_refl _
      · exact (List.pairwise_cons.mp (List.pairwise_cons.mp hsorted).2).1 c hmem
  · exact le_trans (le_of_lt (not_le.mp hbar)) hb

end

variable {content find : List Char} {line best : Nat × Nat}

def lineScore (content find : List Char) (line : Nat × Nat) : Rat :=
  similarity Rat (normalizeMultiline find) (normalizeLine (slice content line))

def bar : Rat := fuzzyAcceptThreshold Rat - fuzzyBoundaryEpsilon Rat

def clearance : Rat := fuzzyRunnerUpMargin Rat - fuzzyBoundaryEpsilon Rat

structure ClearWinner (content find : List Char) (line : Nat × Nat) : Prop where
  mem : line ∈ physicalLines content
  accepted : bar ≤ lineScore content find line
  clear : ∀ other ∈ physicalLines content, other ≠ line →
    clearance ≤ lineScore content find line - lineScore content find other

def FuzzyIsClear (content find : List Char) : Prop :=
  ∀ (line : Nat × Nat) (confidence : Rat),
    findMatch content find = .unique line .fuzzy confidence → ClearWinner content find line

def MissesEarlierRungs (content find : List Char) : Prop :=
  (tryExact content find : Option (MatchOutcome Rat)) = none ∧
    (tryLineBlock content find .normalized : Option (MatchOutcome Rat)) = none ∧
    (tryAnchor content find : Option (MatchOutcome Rat)) = none

def AloneAboveBar (content find : List Char) (line : Nat × Nat) : Prop :=
  line ∈ physicalLines content ∧ bar ≤ lineScore content find line ∧
    ∀ other ∈ physicalLines content, other ≠ line → lineScore content find other < bar

theorem mem_scoredLines {s : Rat × (Nat × Nat)} : s ∈ scoredLines content find ↔
    s.2 ∈ physicalLines content ∧ s.1 = lineScore content find s.2 := by
  rw [scoredLines, List.mem_mergeSort, List.mem_map]
  constructor
  · rintro ⟨range, hrange, rfl⟩
    exact ⟨hrange, rfl⟩
  · rintro ⟨hrange, hscore⟩
    exact ⟨s.2, hrange, Prod.ext hscore.symm rfl⟩

theorem pairwise_scoredLines (content find : List Char) :
    (scoredLines content find : List (Rat × (Nat × Nat))).Pairwise fun a b => b.1 ≤ a.1 := by
  have hsorted : (scoredLines content find : List (Rat × (Nat × Nat))).Pairwise fun a b =>
      decide (b.1 ≤ a.1) = true :=
    List.pairwise_mergeSort
      (fun a b c hab hbc => by
        simp only [decide_eq_true_eq] at hab hbc ⊢
        exact le_trans hbc hab)
      (fun a b => by simpa using le_total b.1 a.1) _
  exact hsorted.imp fun h => by simpa using h

theorem nodup_scoredLines (content find : List Char) :
    (scoredLines content find : List (Rat × (Nat × Nat))).Nodup := by
  have hnodup := (perm_scoredLines (K := Rat) content find).nodup_iff.mpr
    (nodup_of_starts (pairwise_physicalLines content))
  exact List.Nodup.of_map _ hnodup

theorem findMatch_eq_fuzzy (h : MissesEarlierRungs content find) :
    (findMatch content find : MatchOutcome Rat) = tryFuzzy content find := by
  obtain ⟨hexact, hblock, hanchor⟩ := h
  simp only [findMatch, hexact, hblock, hanchor]

theorem tryExact_rung {confidence : Rat} {outcome : MatchOutcome Rat}
    (h : tryExact content find = some outcome) : outcome ≠ .unique line .fuzzy confidence := by
  rintro rfl
  rw [tryExact] at h
  split_ifs at h
  simp only at h
  split at h
  · simp at h
  · simp at h
  · simp at h

theorem tryLineBlock_rung {confidence : Rat} {outcome : MatchOutcome Rat}
    (h : tryLineBlock content find .normalized = some outcome) :
    outcome ≠ .unique line .fuzzy confidence := by
  rintro rfl
  rw [tryLineBlock] at h
  simp only at h
  revert h
  generalize List.filterMap _ _ = ranges
  intro h
  rcases ranges with _ | ⟨range, _ | ⟨_, _⟩⟩
  · simp [finalizeBlockMatches] at h
  · simp [finalizeBlockMatches] at h
  · simp [finalizeBlockMatches] at h

theorem tryAnchor_rung {confidence : Rat} {outcome : MatchOutcome Rat}
    (h : tryAnchor content find = some outcome) : outcome ≠ .unique line .fuzzy confidence := by
  rintro rfl
  rw [tryAnchor] at h
  split_ifs at h
  split at h
  · split_ifs at h
    split at h
    · split_ifs at h
      obtain ⟨range, -, hrange⟩ := Option.map_eq_some_iff.mp h
      simp at hrange
    · simp at h
  · simp at h

theorem fuzzy_of_findMatch {confidence : Rat}
    (h : findMatch content find = .unique line .fuzzy confidence) :
    MissesEarlierRungs content find := by
  rw [findMatch] at h
  cases hexact : (tryExact content find : Option (MatchOutcome Rat)) with
  | some outcome =>
    rw [hexact] at h
    exact absurd h (tryExact_rung hexact)
  | none =>
    cases hblock : (tryLineBlock content find .normalized : Option (MatchOutcome Rat)) with
    | some outcome =>
      rw [hexact, hblock] at h
      exact absurd h (tryLineBlock_rung hblock)
    | none =>
      cases hanchor : (tryAnchor content find : Option (MatchOutcome Rat)) with
      | some outcome =>
        rw [hexact, hblock, hanchor] at h
        exact absurd h (tryAnchor_rung hanchor)
      | none => exact ⟨hexact, hblock, hanchor⟩

def aboveBar (content find : List Char) : List (Rat × (Nat × Nat)) :=
  (scoredLines content find).filter fun s => decide (bar ≤ s.1)

theorem mem_aboveBar {s : Rat × (Nat × Nat)} : s ∈ aboveBar content find ↔
    s.2 ∈ physicalLines content ∧ s.1 = lineScore content find s.2 ∧
      bar ≤ lineScore content find s.2 := by
  rw [aboveBar, List.mem_filter, mem_scoredLines, decide_eq_true_eq]
  constructor
  · rintro ⟨⟨hline, hscore⟩, hbar⟩
    exact ⟨hline, hscore, hscore ▸ hbar⟩
  · rintro ⟨hline, hscore, hbar⟩
    exact ⟨⟨hline, hscore⟩, hscore ▸ hbar⟩

theorem tryFuzzy_unique_iff {confidence : Rat} :
    tryFuzzy content find = .unique line .fuzzy confidence ↔
      aboveBar content find = [(confidence, line)] ∨
        ∃ runnerUp rest, aboveBar content find = (confidence, line) :: runnerUp :: rest ∧
          clearance ≤ confidence - runnerUp.1 := by
  rw [tryFuzzy]
  rcases habove : aboveBar content find with _ | ⟨best, _ | ⟨runnerUp, rest⟩⟩
  · unfold aboveBar bar at habove
    simp only [habove]
    simp
  · unfold aboveBar bar at habove
    simp only [habove]
    simp [Prod.ext_iff, and_comm]
  · unfold aboveBar bar at habove
    simp only [habove]
    split_ifs with hclear
    · constructor
      · intro h
        cases h
        exact .inr ⟨runnerUp, rest, rfl, hclear⟩
      · grind
    · constructor
      · intro h
        cases h
      · rintro (h | ⟨_, _, h, h'⟩)
        · cases h
        · cases h
          exact absurd h' hclear

theorem clearWinner_of_two {confidence : Rat} {runnerUp : Rat × (Nat × Nat)}
    {rest : List (Rat × (Nat × Nat))}
    (habove : aboveBar content find = (confidence, line) :: runnerUp :: rest)
    (hclear : clearance ≤ confidence - runnerUp.1) : ClearWinner content find line := by
  have hmem : (confidence, line) ∈ aboveBar content find := by simp [habove]
  obtain ⟨hline, hscore, hbar⟩ := mem_aboveBar.mp hmem
  refine ⟨hline, hbar, fun other hother hne => ?_⟩
  have hmem : (lineScore content find other, other) ∈
      (scoredLines content find : List (Rat × (Nat × Nat))) := mem_scoredLines.mpr ⟨hother, rfl⟩
  have hover : ∀ s : Rat × (Nat × Nat), decide (bar ≤ s.1) = true ↔ bar ≤ s.1 := fun s =>
    decide_eq_true_iff
  have hother : (lineScore content find other, other) ≠ (confidence, line) := fun heq =>
    hne (congrArg Prod.snd heq)
  have hle := le_second_of_filter hover (pairwise_scoredLines content find) habove hmem hother
  rw [← hscore]
  exact le_trans hclear (sub_le_sub_left hle confidence)

theorem aboveBar_of_alone (h : AloneAboveBar content find best) :
    aboveBar content find = [(lineScore content find best, best)] := by
  obtain ⟨hline, hbar, hothers⟩ := h
  have hmem : (lineScore content find best, best) ∈ aboveBar content find :=
    mem_aboveBar.mpr ⟨hline, rfl, hbar⟩
  have hall : ∀ s ∈ aboveBar content find, s = (lineScore content find best, best) := by
    intro s hs
    obtain ⟨hs, hscore, hsbar⟩ := mem_aboveBar.mp hs
    have heq : s.2 = best := by
      by_contra hne
      exact absurd (hothers s.2 hs hne) (not_lt.mpr hsbar)
    exact Prod.ext (by rw [hscore, heq]) heq
  have hnodup : (aboveBar content find).Nodup := (nodup_scoredLines content find).filter _
  obtain ⟨n, hn⟩ : ∃ n, aboveBar content find =
      List.replicate n (lineScore content find best, best) :=
    ⟨_, List.eq_replicate_of_mem hall⟩
  rw [hn] at hnodup hmem ⊢
  have hle := List.nodup_replicate.mp hnodup
  have hpos : n ≠ 0 := by
    rintro rfl
    simp at hmem
  obtain rfl : n = 1 := by omega
  rfl

theorem alone_of_aboveBar {confidence : Rat}
    (habove : aboveBar content find = [(confidence, line)]) : AloneAboveBar content find line := by
  have hmem : (confidence, line) ∈ aboveBar content find := by simp [habove]
  obtain ⟨hline, hscore, hbar⟩ := mem_aboveBar.mp hmem
  refine ⟨hline, hbar, fun other hother hne => ?_⟩
  by_contra hover
  have hmem : (lineScore content find other, other) ∈ aboveBar content find :=
    mem_aboveBar.mpr ⟨hother, rfl, not_lt.mp hover⟩
  rw [habove, List.mem_singleton] at hmem
  exact hne (congrArg Prod.snd hmem)

/-- The fuzzy rung keeps its contract if and only if a line that is alone over the bar has no line
close below it. -/
theorem fuzzyIsClear_iff (content find : List Char) : FuzzyIsClear content find ↔
    (MissesEarlierRungs content find → ∀ best, AloneAboveBar content find best →
      ∀ other ∈ physicalLines content, other ≠ best →
        lineScore content find other ≤ lineScore content find best - clearance) := by
  constructor
  · intro hclear hmisses best hbest other hother hne
    have hfound : tryFuzzy content find =
        .unique best .fuzzy (lineScore content find best) :=
      tryFuzzy_unique_iff.mpr (.inl (aboveBar_of_alone hbest))
    rw [← findMatch_eq_fuzzy hmisses] at hfound
    have hgap := (hclear best _ hfound).clear other hother hne
    linarith
  · intro hgap line confidence hfound
    have hmisses := fuzzy_of_findMatch hfound
    rw [findMatch_eq_fuzzy hmisses] at hfound
    rcases tryFuzzy_unique_iff.mp hfound with habove | ⟨runnerUp, rest, habove, hclear⟩
    · have hbest := alone_of_aboveBar habove
      refine ⟨hbest.1, hbest.2.1, fun other hother hne => ?_⟩
      have hbelow := hgap hmisses line hbest other hother hne
      linarith
    · exact clearWinner_of_two habove hclear

def rivals : List Char := "abcdefghijX\nabcdefghiXY".toList

theorem rivals_lines : physicalLines rivals = [(0, 11), (12, 23)] := by decide

theorem rivals_scores : lineScore rivals "abcdefghijk".toList (0, 11) = 10 / 11 ∧
    lineScore rivals "abcdefghijk".toList (12, 23) = 9 / 11 := by decide +kernel

theorem rival_below_bar :
    findMatch rivals "abcdefghijk".toList = .unique (0, 11) .fuzzy (10 / 11 : Rat) ∧
      ¬ ∀ content find, FuzzyIsClear content find := by
  have hmisses : MissesEarlierRungs rivals "abcdefghijk".toList :=
    ⟨by decide +kernel, by decide +kernel, by decide +kernel⟩
  obtain ⟨hfirst, hsecond⟩ := rivals_scores
  have halone : AloneAboveBar rivals "abcdefghijk".toList (0, 11) := by
    refine ⟨by simp [rivals_lines], by rw [hfirst]; decide +kernel, fun other hother hne => ?_⟩
    rw [rivals_lines] at hother
    rcases List.mem_pair.mp hother with rfl | rfl
    · exact absurd rfl hne
    · rw [hsecond]
      decide +kernel
  have hfound : findMatch rivals "abcdefghijk".toList = .unique (0, 11) .fuzzy (10 / 11 : Rat) := by
    rw [findMatch_eq_fuzzy hmisses, tryFuzzy_unique_iff, aboveBar_of_alone halone, hfirst]
    exact .inl rfl
  refine ⟨hfound, fun h => ?_⟩
  have hclear := (h _ _ _ _ hfound).clear (12, 23) (by simp [rivals_lines]) (by decide)
  rw [hfirst, hsecond] at hclear
  revert hclear
  decide +kernel

end SwissArmyHammer.Edit
