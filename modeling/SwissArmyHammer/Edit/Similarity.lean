import Mathlib.Algebra.Order.Field.Basic
import Mathlib.Algebra.Order.Field.Rat
import SwissArmyHammer.Common.EditDistance
import SwissArmyHammer.Edit.Cascade

/-! The distance behind the similarity of two texts. -/

namespace SwissArmyHammer.Edit

def fillRow (ca : Char) (prev : List Nat) : Nat → List Nat → List Char → List Nat
  | _, curr, [] => curr
  | j, curr, cb :: b =>
    let cost := if ca ≠ cb then 1 else 0
    let cell := min (min ((prev[j + 1]?).getD 0 + 1) ((curr[j]?).getD 0 + 1))
      ((prev[j]?).getD 0 + cost)
    fillRow ca prev (j + 1) (curr.set (j + 1) cell) b

def nextRows (b : List Char) (rows : List Nat × List Nat) (step : Char × Nat) :
    List Nat × List Nat :=
  (fillRow step.1 rows.1 0 (rows.2.set 0 (step.2 + 1)) b, rows.1)

def levenshteinTwoRows (a b : List Char) : Nat :=
  if a = [] then b.length
  else if b = [] then a.length
  else
    let rows := a.zipIdx.foldl (nextRows b)
      (List.range (b.length + 1), List.replicate (b.length + 1) 0)
    (rows.1[b.length]?).getD 0

section

variable {ca : Char} {left : Nat} {done prev stale : List Nat} {a b : List Char}

@[simp] theorem length_levenshteinRow (h : prev.length = b.length + 1) :
    (levenshteinRow ca left prev b).length = b.length := by
  induction b generalizing left prev with
  | nil => simp [levenshteinRow]
  | cons cb b ih =>
    match prev with
    | [] => simp at h
    | [_] => simp at h
    | diag :: up :: prev =>
      have hrest : (up :: prev).length = b.length + 1 := by simpa using h
      simp [levenshteinRow, ih hrest]

theorem fillRow_stale (hprev : (prev.drop done.length).length = b.length + 1)
    (hstale : stale.length = b.length) :
    fillRow ca prev done.length (done ++ left :: stale) b =
      done ++ left :: levenshteinRow ca left (prev.drop done.length) b := by
  induction b generalizing done left stale with
  | nil =>
    obtain rfl := List.length_eq_zero_iff.mp hstale
    simp [fillRow, levenshteinRow]
  | cons cb b ih =>
    cases stale with
    | nil => simp at hstale
    | cons old stale =>
      match hdrop : prev.drop done.length, hprev with
      | diag :: up :: rest, hprev =>
        have hdiag : prev[done.length]? = some diag := by
          have hget := congrArg (fun l => l[0]?) hdrop
          simpa using hget
        have hup : prev[done.length + 1]? = some up := by
          have hget := congrArg (fun l => l[1]?) hdrop
          simpa using hget
        have htail : prev.drop (done.length + 1) = up :: rest := by
          rw [← List.drop_drop, hdrop]
          rfl
        have hleft : (done ++ left :: old :: stale)[done.length]? = some left := by simp
        have hlen : (done ++ [left]).length = done.length + 1 := by simp
        have hnext := @ih (min (min (up + 1) (left + 1)) (diag + if ca ≠ cb then 1 else 0))
          (done ++ [left]) stale (by rw [hlen, htail]; simpa using hprev) (by simpa using hstale)
        rw [hlen, htail] at hnext
        rw [fillRow, hdiag, hup]
        simpa [levenshteinRow] using hnext

theorem fst_foldl_nextRows (steps : List (Char × Nat)) (hprev : prev.length = b.length + 1)
    (hcurr : stale.length = b.length + 1) :
    (steps.foldl (nextRows b) (prev, stale)).1 =
      steps.foldl (fun prev (ca, i) => (i + 1) :: levenshteinRow ca (i + 1) prev b) prev := by
  induction steps generalizing prev stale with
  | nil => rfl
  | cons step steps ih =>
    obtain ⟨ca, i⟩ := step
    cases stale with
    | nil => simp at hcurr
    | cons _ stale =>
      have hfill : fillRow ca prev ([] : List Nat).length ([] ++ (i + 1) :: stale) b = _ :=
        fillRow_stale (by simpa using hprev) (by simpa using hcurr)
      simp only [List.length_nil, List.nil_append, List.drop_zero] at hfill
      have hlen : ((i + 1) :: levenshteinRow ca (i + 1) prev b).length = b.length + 1 := by
        rw [List.length_cons, length_levenshteinRow hprev]
      rw [List.foldl_cons, nextRows, List.set_cons_zero, hfill]
      exact ih hlen hprev

theorem levenshteinTwoRows_eq (a b : List Char) : levenshteinTwoRows a b = levenshtein a b := by
  have hrows : (a.zipIdx.foldl (nextRows b)
      (List.range (b.length + 1), List.replicate (b.length + 1) 0)).1 = _ :=
    fst_foldl_nextRows a.zipIdx (by simp) (by simp)
  simp only [levenshteinTwoRows, levenshtein, hrows]

end

section

variable {ca : Char} {left : Nat} {cell : Nat} {row : List Nat} {a b done seen : List Char}

def Row (seen : List Char) : List Char → List Char → List Nat → Prop
  | _, [], [] => True
  | done, cb :: b, cell :: row => IsDistance seen (cb :: done) cell ∧ Row seen (cb :: done) b row
  | _, _, _ => False

theorem Row.levenshteinRow {diag : Nat} (h : Row seen done b row)
    (hdiag : IsDistance seen done diag) (hleft : IsDistance (ca :: seen) done left) :
    Row (ca :: seen) done b (levenshteinRow ca left (diag :: row) b) := by
  induction b generalizing done left diag row with
  | nil =>
    cases row with
    | nil => trivial
    | cons _ _ => exact absurd h id
  | cons cb b ih =>
    cases row with
    | nil => exact absurd h id
    | cons up row =>
      obtain ⟨hup, hrest⟩ := h
      have hcell := IsDistance.cons hup hleft hdiag
      exact ⟨hcell, ih hrest hup hcell⟩

theorem Row.getElem?_last (h : Row seen done b row) (hcell : IsDistance seen done cell) :
    ∃ n, (cell :: row)[b.length]? = some n ∧ IsDistance seen (b.reverse ++ done) n := by
  induction b generalizing done row cell with
  | nil => exact ⟨cell, rfl, hcell⟩
  | cons cb b ih =>
    cases row with
    | nil => exact absurd h id
    | cons next row =>
      obtain ⟨n, hn, hdist⟩ := ih h.2 h.1
      refine ⟨n, by simpa using hn, ?_⟩
      simpa using hdist

theorem row_range (done b : List Char) : Row [] done b (List.range' (done.length + 1) b.length) := by
  induction b generalizing done with
  | nil => trivial
  | cons cb b ih => exact ⟨isDistance_nil_left (cb :: done), ih (cb :: done)⟩

theorem row_foldl (a : List Char) (h : Row seen [] b row) :
    ∃ row', (a.zipIdx seen.length).foldl
        (fun prev (ca, i) => (i + 1) :: levenshteinRow ca (i + 1) prev b) (seen.length :: row) =
          (a.reverse ++ seen).length :: row' ∧ Row (a.reverse ++ seen) [] b row' := by
  induction a generalizing seen row with
  | nil => exact ⟨row, rfl, h⟩
  | cons ca a ih =>
    have hnext := h.levenshteinRow (isDistance_nil_right seen) (isDistance_nil_right (ca :: seen))
    obtain ⟨row', hfold, hrow⟩ := ih hnext
    refine ⟨row', ?_, ?_⟩
    · simpa using hfold
    · simpa using hrow

theorem levenshtein_isDistance (a b : List Char) : IsDistance a b (levenshtein a b) := by
  by_cases ha : a = []
  · rw [levenshtein, ha]
    exact isDistance_nil_left b
  · by_cases hb : b = []
    · rw [levenshtein, if_neg ha, hb]
      exact isDistance_nil_right a
    · have hstart : List.range (b.length + 1) = 0 :: List.range' 1 b.length := by
        rw [List.range_eq_range', List.range'_succ]
      obtain ⟨row, hfold, hrow⟩ := row_foldl a (row_range [] b)
      obtain ⟨n, hn, hdist⟩ := hrow.getElem?_last (isDistance_nil_right _)
      have hvalue : levenshtein a b = n := by
        simp only [List.length_nil, List.append_nil] at hfold hn
        simp only [levenshtein, if_neg ha, if_neg hb, hstart, hfold, hn, Option.getD_some]
      rw [hvalue]
      simpa using hdist.reverse

end

section

variable {a b : List Char}

theorem similarity_eq (h : max a.length b.length ≠ 0) :
    similarity Rat a b = 1 - (levenshtein a b : Rat) / (max a.length b.length : Nat) := by
  rw [similarity, if_neg h]
  simp

theorem similarity_of_empty (h : max a.length b.length = 0) : similarity Rat a b = 1 := by
  rw [similarity, if_pos h]
  simp

theorem similarity_bounds (a b : List Char) :
    0 ≤ similarity Rat a b ∧ similarity Rat a b ≤ 1 := by
  by_cases h : max a.length b.length = 0
  · rw [similarity_of_empty h]
    simp
  · have hpos : (0 : Rat) < (max a.length b.length : Nat) := by
      exact_mod_cast Nat.pos_of_ne_zero h
    have hle : (levenshtein a b : Rat) ≤ (max a.length b.length : Nat) := by
      exact_mod_cast (levenshtein_isDistance a b).le_max
    have hratio : (levenshtein a b : Rat) / (max a.length b.length : Nat) ≤ 1 :=
      (div_le_one hpos).mpr hle
    have hnonneg : (0 : Rat) ≤ (levenshtein a b : Rat) / (max a.length b.length : Nat) :=
      div_nonneg (Nat.cast_nonneg _) hpos.le
    rw [similarity_eq h]
    exact ⟨sub_nonneg.mpr hratio, sub_le_self 1 hnonneg⟩

theorem similarity_eq_one_iff (a b : List Char) : similarity Rat a b = 1 ↔ a = b := by
  rw [← (levenshtein_isDistance a b).eq_zero_iff]
  by_cases h : max a.length b.length = 0
  · have hzero := (levenshtein_isDistance a b).le_max
    rw [similarity_of_empty h]
    simp only [true_iff]
    omega
  · have hne : ((max a.length b.length : Nat) : Rat) ≠ 0 := by exact_mod_cast h
    rw [similarity_eq h, sub_eq_self, div_eq_zero_iff, Nat.cast_eq_zero]
    simp only [hne, or_false]

/-- The two rows give the least number of edits, which is a metric, and the similarity made of it
tells equal texts. -/
theorem levenshtein_minimal (a b : List Char) :
    levenshteinTwoRows a b = levenshtein a b ∧
      IsLeast {n | Edits n a b} (levenshteinTwoRows a b) ∧
      levenshteinTwoRows a b = levenshteinTwoRows b a ∧
      (levenshteinTwoRows a b = 0 ↔ a = b) ∧
      (∀ c, levenshteinTwoRows a c ≤ levenshteinTwoRows a b + levenshteinTwoRows b c) ∧
      (0 ≤ similarity Rat a b ∧ similarity Rat a b ≤ 1) ∧
      (similarity Rat a b = 1 ↔ a = b) := by
  have hdist : ∀ a b, IsDistance a b (levenshteinTwoRows a b) := by
    intro a b
    rw [levenshteinTwoRows_eq]
    exact levenshtein_isDistance a b
  have htriangle : ∀ c, levenshteinTwoRows a c ≤ levenshteinTwoRows a b + levenshteinTwoRows b c :=
    fun c => (hdist a b).triangle (hdist b c) (hdist a c)
  exact ⟨levenshteinTwoRows_eq a b, hdist a b, (hdist a b).unique (hdist b a).symm,
    (hdist a b).eq_zero_iff, htriangle, similarity_bounds a b, similarity_eq_one_iff a b⟩

end

end SwissArmyHammer.Edit
