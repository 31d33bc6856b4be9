import Mathlib

/-! The longest subsequence that two lists share, by a table of which two rows are kept, and the
cheaper bound on it by what two sorted lists share. -/

namespace SwissArmyHammer

variable {α : Type} {xs ys zs : List α} {x y : α} {m n : Nat}

structure IsLcs (xs ys : List α) (n : Nat) : Prop where
  exists_common : ∃ s : List α, s.Sublist xs ∧ s.Sublist ys ∧ s.length = n
  le : ∀ s : List α, s.Sublist xs → s.Sublist ys → s.length ≤ n

theorem IsLcs.unique (h : IsLcs xs ys m) (h' : IsLcs xs ys n) : m = n := by
  obtain ⟨s, hx, hy, rfl⟩ := h.exists_common
  obtain ⟨t, hx', hy', rfl⟩ := h'.exists_common
  exact Nat.le_antisymm (h'.le s hx hy) (h.le t hx' hy')

theorem IsLcs.symm (h : IsLcs xs ys n) : IsLcs ys xs n := by
  obtain ⟨s, hx, hy, hn⟩ := h.exists_common
  exact ⟨⟨s, hy, hx, hn⟩, fun t hy hx => h.le t hx hy⟩

theorem IsLcs.le_left (h : IsLcs xs ys n) : n ≤ xs.length := by
  obtain ⟨s, hx, -, rfl⟩ := h.exists_common
  exact hx.length_le

theorem isLcs_self (xs : List α) : IsLcs xs xs xs.length :=
  ⟨⟨xs, .refl xs, .refl xs, rfl⟩, fun _ hx _ => hx.length_le⟩

theorem isLcs_nil_left (ys : List α) : IsLcs [] ys 0 :=
  ⟨⟨[], .slnil, List.nil_sublist ys, rfl⟩, fun _ hx _ => hx.length_le⟩

theorem isLcs_nil_right (xs : List α) : IsLcs xs [] 0 := (isLcs_nil_left xs).symm

theorem sublist_concat {s : List α} (h : s.Sublist (xs ++ [x])) :
    s.Sublist xs ∨ ∃ t : List α, s = t ++ [x] ∧ t.Sublist xs := by
  obtain ⟨t, last, rfl, ht, hlast⟩ := List.sublist_append_iff.mp h
  cases hlast with
  | cons _ hnil =>
    rw [List.sublist_nil.mp hnil, List.append_nil]
    exact .inl ht
  | cons_cons _ hnil =>
    rw [List.sublist_nil.mp hnil]
    exact .inr ⟨t, rfl, ht⟩

theorem IsLcs.concat_same (h : IsLcs xs ys n) : IsLcs (xs ++ [x]) (ys ++ [x]) (n + 1) := by
  obtain ⟨s, hx, hy, rfl⟩ := h.exists_common
  refine ⟨⟨s ++ [x], hx.append (.refl _), hy.append (.refl _), List.length_append⟩,
    fun t htx hty => ?_⟩
  rcases sublist_concat htx with htx | ⟨u, rfl, hux⟩
  · rcases sublist_concat hty with hty | ⟨u, rfl, huy⟩
    · exact Nat.le_succ_of_le (h.le t htx hty)
    · have hle := h.le u ((List.sublist_append_left u [x]).trans htx) huy
      rw [List.length_append]
      exact Nat.succ_le_succ hle
  · rcases sublist_concat hty with hty | ⟨v, heq, hvy⟩
    · have hle := h.le u hux ((List.sublist_append_left u [x]).trans hty)
      rw [List.length_append]
      exact Nat.succ_le_succ hle
    · obtain ⟨rfl, -⟩ := List.append_inj' heq rfl
      rw [List.length_append]
      exact Nat.succ_le_succ (h.le u hux hvy)

theorem IsLcs.concat_other (hne : x ≠ y) (hx : IsLcs xs (ys ++ [y]) m)
    (hy : IsLcs (xs ++ [x]) ys n) : IsLcs (xs ++ [x]) (ys ++ [y]) (max n m) := by
  constructor
  · rcases Nat.le_total n m with hle | hle
    · obtain ⟨s, hsx, hsy, hs⟩ := hx.exists_common
      exact ⟨s, hsx.trans (List.sublist_append_left xs [x]), hsy, by rw [hs, max_eq_right hle]⟩
    · obtain ⟨s, hsx, hsy, hs⟩ := hy.exists_common
      exact ⟨s, hsx, hsy.trans (List.sublist_append_left ys [y]), by rw [hs, max_eq_left hle]⟩
  · intro s hsx hsy
    rcases sublist_concat hsx with hsx' | ⟨t, rfl, -⟩
    · exact (hx.le s hsx' hsy).trans (le_max_right n m)
    · rcases sublist_concat hsy with hsy' | ⟨u, heq, -⟩
      · exact (hy.le _ hsx hsy').trans (le_max_left n m)
      · obtain ⟨-, hlast⟩ := List.append_inj' heq rfl
        exact absurd (List.head_eq_of_cons_eq hlast) hne

section

variable {diag cur : Nat} {row : List Nat}

def RowFor (xs : List α) : List α → List α → List Nat → Prop
  | _, [], [] => True
  | done, y :: ys, cell :: row => IsLcs xs (done ++ [y]) cell ∧ RowFor xs (done ++ [y]) ys row
  | _, _, _ => False

theorem RowFor.getLastD {done : List α} (h : RowFor xs done ys row) (hcur : IsLcs xs done cur) :
    IsLcs xs (done ++ ys) ((cur :: row).getLastD 0) := by
  induction ys generalizing done row cur with
  | nil =>
    cases row with
    | nil => simpa using hcur
    | cons _ _ => exact absurd h id
  | cons y ys ih =>
    cases row with
    | nil => exact absurd h id
    | cons cell row =>
      have hrest := ih h.2 h.1
      rwa [List.append_assoc, List.singleton_append] at hrest

theorem rowFor_replicate (done ys : List α) : RowFor [] done ys (List.replicate ys.length 0) := by
  induction ys generalizing done with
  | nil => trivial
  | cons y ys ih => exact ⟨isLcs_nil_left _, ih (done ++ [y])⟩

variable [DecidableEq α]

/-- A row after its first cell. `diag` is the cell of the row before left of the one above, and
`cur` the last cell that was filled. -/
def rowTail (x : α) (diag cur : Nat) : List α → List Nat → List Nat
  | y :: ys, up :: previous =>
    let cell := if x = y then diag + 1 else max cur up
    cell :: rowTail x up cell ys previous
  | _, _ => []

def nextRow (ys : List α) (previous : List Nat) (x : α) : List Nat :=
  0 :: rowTail x (previous.headD 0) 0 ys previous.tail

def longestCommonSubsequence (xs ys : List α) : Nat :=
  (xs.foldl (nextRow ys) (List.replicate (ys.length + 1) 0)).getLastD 0

theorem RowFor.rowTail {done : List α} (h : RowFor xs done ys row) (hdiag : IsLcs xs done diag)
    (hcur : IsLcs (xs ++ [x]) done cur) :
    RowFor (xs ++ [x]) done ys (rowTail x diag cur ys row) := by
  induction ys generalizing done row diag cur with
  | nil =>
    cases row with
    | nil => trivial
    | cons _ _ => exact absurd h id
  | cons y ys ih =>
    cases row with
    | nil => exact absurd h id
    | cons up row =>
      obtain ⟨hup, hrest⟩ := h
      have hcell : IsLcs (xs ++ [x]) (done ++ [y]) (if x = y then diag + 1 else max cur up) := by
        by_cases hxy : x = y
        · rw [if_pos hxy, hxy]
          exact hdiag.concat_same
        · rw [if_neg hxy]
          exact hup.concat_other hxy hcur
      exact ⟨hcell, ih hrest hup hcell⟩

theorem rowFor_foldl (rest : List α) (h : RowFor xs [] ys row) :
    ∃ row', rest.foldl (nextRow ys) (0 :: row) = 0 :: row' ∧ RowFor (xs ++ rest) [] ys row' := by
  induction rest generalizing xs row with
  | nil => exact ⟨row, rfl, by rwa [List.append_nil]⟩
  | cons x rest ih =>
    obtain ⟨row', hfold, hrow⟩ := ih (h.rowTail (isLcs_nil_right xs) (isLcs_nil_right (xs ++ [x])))
    rw [List.append_assoc] at hrow
    exact ⟨row', hfold, hrow⟩

theorem longestCommonSubsequence_isLcs (xs ys : List α) :
    IsLcs xs ys (longestCommonSubsequence xs ys) := by
  obtain ⟨row, hfold, hrow⟩ := rowFor_foldl xs (rowFor_replicate [] ys)
  have hlast := hrow.getLastD (isLcs_nil_right _)
  rw [longestCommonSubsequence, List.replicate_succ, hfold]
  exact hlast

theorem longestCommonSubsequence_comm (xs ys : List α) :
    longestCommonSubsequence xs ys = longestCommonSubsequence ys xs :=
  (longestCommonSubsequence_isLcs xs ys).unique (longestCommonSubsequence_isLcs ys xs).symm

theorem longestCommonSubsequence_self (xs : List α) :
    longestCommonSubsequence xs xs = xs.length :=
  (longestCommonSubsequence_isLcs xs xs).unique (isLcs_self xs)

theorem longestCommonSubsequence_le_left (xs ys : List α) :
    longestCommonSubsequence xs ys ≤ xs.length :=
  (longestCommonSubsequence_isLcs xs ys).le_left

theorem longestCommonSubsequence_le_right (xs ys : List α) :
    longestCommonSubsequence xs ys ≤ ys.length :=
  (longestCommonSubsequence_isLcs xs ys).symm.le_left

end

section

variable [LinearOrder α]

def sharedTokens : List α → List α → Nat
  | x :: xs, y :: ys =>
    if x < y then sharedTokens xs (y :: ys)
    else if y < x then sharedTokens (x :: xs) ys
    else sharedTokens xs ys + 1
  | _, _ => 0
termination_by xs ys => xs.length + ys.length

theorem card_le_sharedTokens (xs ys : List α) (hxs : xs.Pairwise (· ≤ ·))
    (hys : ys.Pairwise (· ≤ ·)) (s : Multiset α) (hsx : s ≤ xs) (hsy : s ≤ ys) :
    s.card ≤ sharedTokens xs ys := by
  induction xs, ys using sharedTokens.induct generalizing s with
  | case1 x xs y ys hlt ih =>
    have hnot : x ∉ s := fun hx => by
      rcases List.mem_cons.mp (Multiset.mem_of_le hsy hx) with heq | hin
      · exact absurd heq hlt.ne
      · exact absurd ((List.pairwise_cons.mp hys).1 x hin) (not_le_of_gt hlt)
    rw [sharedTokens, if_pos hlt]
    exact ih hxs.tail hys s ((Multiset.le_cons_of_notMem hnot).mp hsx) hsy
  | case2 x xs y ys hnlt hlt ih =>
    have hnot : y ∉ s := fun hy => by
      rcases List.mem_cons.mp (Multiset.mem_of_le hsx hy) with heq | hin
      · exact absurd heq hlt.ne
      · exact absurd ((List.pairwise_cons.mp hxs).1 y hin) (not_le_of_gt hlt)
    rw [sharedTokens, if_neg hnlt, if_pos hlt]
    exact ih hxs hys.tail s hsx ((Multiset.le_cons_of_notMem hnot).mp hsy)
  | case3 x xs y ys hnlt hnlt' ih =>
    obtain rfl := le_antisymm (not_lt.mp hnlt') (not_lt.mp hnlt)
    rw [sharedTokens, if_neg hnlt, if_neg hnlt]
    have hle := ih hxs.tail hys.tail (s.erase x) (Multiset.erase_le_iff_le_cons.mpr hsx)
      (Multiset.erase_le_iff_le_cons.mpr hsy)
    have hcard := Multiset.card_le_card (Multiset.le_cons_erase s x)
    rw [Multiset.card_cons] at hcard
    omega
  | case4 xs ys hnone =>
    cases xs with
    | nil => exact le_trans (Multiset.card_le_card hsx) (Nat.zero_le _)
    | cons x xs =>
      cases ys with
      | nil => exact le_trans (Multiset.card_le_card hsy) (Nat.zero_le _)
      | cons y ys => exact absurd rfl (hnone x xs y ys rfl)

theorem longestCommonSubsequence_le_sharedTokens {sortedXs sortedYs : List α}
    (hxs : sortedXs.Perm xs) (hys : sortedYs.Perm ys) (hsx : sortedXs.Pairwise (· ≤ ·))
    (hsy : sortedYs.Pairwise (· ≤ ·)) :
    longestCommonSubsequence xs ys ≤ sharedTokens sortedXs sortedYs := by
  obtain ⟨s, hx, hy, hlen⟩ := (longestCommonSubsequence_isLcs xs ys).exists_common
  rw [← hlen]
  refine card_le_sharedTokens sortedXs sortedYs hsx hsy (s : Multiset α) ?_ ?_
  · rw [Multiset.coe_eq_coe.mpr hxs]
    exact Multiset.coe_le.mpr hx.subperm
  · rw [Multiset.coe_eq_coe.mpr hys]
    exact Multiset.coe_le.mpr hy.subperm

end

end SwissArmyHammer
