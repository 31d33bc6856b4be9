import Mathlib.Data.List.Count
import Mathlib.Data.List.Sort

/-! Stable sorts by a value. For the descending one: which of two elements comes first, and at
which place an element stands. -/

namespace SwissArmyHammer

variable {α β R : Type} [LinearOrder R] {value : α → R} {l : List α} {a b : α}

def sortDesc (value : α → R) (l : List α) : List α :=
  l.insertionSort fun a b => value b ≤ value a

instance isTrans_desc : IsTrans α fun a b => value b ≤ value a := ⟨fun _ _ _ hab hbc => le_trans hbc hab⟩

instance total_desc : Std.Total fun a b => value b ≤ value a := ⟨fun a b => le_total (value b) (value a)⟩

theorem sortDesc_perm (value : α → R) (l : List α) : (sortDesc value l).Perm l :=
  List.perm_insertionSort _ l

theorem pairwise_sortDesc (value : α → R) (l : List α) :
    (sortDesc value l).Pairwise fun a b => value b ≤ value a :=
  List.pairwise_insertionSort _ l

theorem map_sortDesc (value : β → R) (f : α → β) (l : List α) :
    (sortDesc (fun a => value (f a)) l).map f = sortDesc value (l.map f) :=
  List.map_insertionSort _ _ f l fun _ _ _ _ => Iff.rfl

theorem orderedInsert_of_all {r : α → α → Prop} [DecidableRel r] (h : ∀ b ∈ l, r a b) :
    l.orderedInsert r a = a :: l := by
  cases l with
  | nil => rfl
  | cons b l => rw [List.orderedInsert_cons, if_pos (h b List.mem_cons_self)]

theorem filter_orderedInsert {r : α → α → Prop} [DecidableRel r] [IsTrans α r] (p : α → Bool)
    (h : l.Pairwise r) : (l.orderedInsert r a).filter p =
      if p a then (l.filter p).orderedInsert r a else l.filter p := by
  induction l with
  | nil => simp [List.filter_cons]
  | cons b l ih =>
    obtain ⟨hb, hl⟩ := List.pairwise_cons.mp h
    rw [List.orderedInsert_cons]
    by_cases hab : r a b
    · have hall : ∀ c ∈ (b :: l).filter p, r a c := by
        intro c hc
        rcases List.mem_cons.mp (List.mem_of_mem_filter hc) with rfl | hc
        · exact hab
        · exact trans_of r hab (hb c hc)
      rw [if_pos hab, List.filter_cons, orderedInsert_of_all hall]
    · grind

theorem filter_sortDesc (value : α → R) (p : α → Bool) (l : List α) :
    (sortDesc value l).filter p = sortDesc value (l.filter p) := by
  induction l with
  | nil => rfl
  | cons a l ih =>
    have hinsert := filter_orderedInsert (a := a) p (pairwise_sortDesc value l)
    rw [ih] at hinsert
    rw [sortDesc, List.filter_cons]
    refine hinsert.trans ?_
    split
    · rfl
    · rfl

theorem sortDesc_congr {value' : α → R}
    (h : ∀ a ∈ l, ∀ b ∈ l, value b ≤ value a ↔ value' b ≤ value' a) :
    sortDesc value l = sortDesc value' l := by
  have hmap := List.map_insertionSort (fun a b => value b ≤ value a)
    (fun a b => value' b ≤ value' a) id l h
  rwa [List.map_id, List.map_id] at hmap

theorem pair_sublist_sortDesc (h : [a, b].Sublist l) (hle : value b ≤ value a) :
    [a, b].Sublist (sortDesc value l) :=
  List.pair_sublist_insertionSort hle h

theorem le_of_pair_sublist (h : [a, b].Sublist (sortDesc value l)) : value b ≤ value a := by
  have hpair := (pairwise_sortDesc value l).sublist h
  exact (List.pairwise_cons.mp hpair).1 b List.mem_cons_self

theorem pair_sublist_split {pre post : List α} (hnodup : (pre ++ b :: post).Nodup) :
    [a, b].Sublist (pre ++ b :: post) ↔ a ∈ pre := by
  obtain ⟨-, hright, hdisj⟩ := List.nodup_append.mp hnodup
  have hpost : b ∉ post := (List.nodup_cons.mp hright).1
  constructor
  · intro h
    obtain ⟨l₁, l₂, heq, h₁, h₂⟩ := List.sublist_append_iff.mp h
    cases l₁ with
    | nil =>
      subst heq
      cases h₂ with
      | cons _ h₂ => exact absurd (h₂.subset (by simp)) hpost
      | cons_cons _ h₂ => exact absurd (h₂.subset (by simp)) hpost
    | cons c l₁ =>
      obtain ⟨rfl, -⟩ := List.cons_eq_cons.mp heq
      exact h₁.subset List.mem_cons_self
  · intro h
    exact (List.singleton_sublist.mpr h).append (List.singleton_sublist.mpr List.mem_cons_self)

theorem pair_sublist_asymm (hnodup : l.Nodup) (h : [a, b].Sublist l) :
    ¬ [b, a].Sublist l := by
  obtain ⟨pre, post, rfl⟩ := List.append_of_mem (h.subset (by simp : b ∈ [a, b]))
  have ha := (pair_sublist_split hnodup).mp h
  obtain ⟨pre₁, pre₂, rfl⟩ := List.append_of_mem ha
  intro h'
  rw [List.append_assoc] at hnodup h'
  have hb := (pair_sublist_split hnodup).mp h'
  obtain ⟨-, -, hdisj⟩ := List.nodup_append.mp hnodup
  exact hdisj b hb b (by simp) rfl

theorem pair_sublist_total (hne : a ≠ b) (ha : a ∈ l) (hb : b ∈ l) :
    [a, b].Sublist l ∨ [b, a].Sublist l := by
  obtain ⟨pre, post, rfl⟩ := List.append_of_mem hb
  have hsingle : [b].Sublist (b :: post) := List.singleton_sublist.mpr List.mem_cons_self
  rcases List.mem_append.mp ha with ha | ha
  · exact .inl ((List.singleton_sublist.mpr ha).append hsingle)
  · have ha := (List.mem_cons.mp ha).resolve_left hne
    have hpair : [b, a].Sublist (b :: post) := (List.singleton_sublist.mpr ha).cons_cons b
    exact .inr (hpair.trans (List.sublist_append_right pre _))

theorem idxOf_eq_countP [DecidableEq α] (hnodup : l.Nodup) (ha : a ∈ l) {p : α → Bool}
    (hp : ∀ b ∈ l, p b = true ↔ b ≠ a ∧ [b, a].Sublist l) : l.idxOf a = l.countP p := by
  obtain ⟨pre, post, rfl⟩ := List.append_of_mem ha
  obtain ⟨-, -, hdisj⟩ := List.nodup_append.mp hnodup
  have hnot : a ∉ pre := fun h => hdisj a h a List.mem_cons_self rfl
  have hfront : pre.countP p = pre.length := by
    refine List.countP_eq_length.mpr fun b hb => ?_
    have hne : b ≠ a := fun heq => hnot (heq ▸ hb)
    exact (hp b (List.mem_append_left _ hb)).mpr ⟨hne, (pair_sublist_split hnodup).mpr hb⟩
  have hback : (a :: post).countP p = 0 := by
    refine List.countP_eq_zero.mpr fun b hb hpb => ?_
    have hpre := (pair_sublist_split hnodup).mp ((hp b (List.mem_append_right _ hb)).mp hpb).2
    exact hdisj b hpre b hb rfl
  rw [List.idxOf_append_of_notMem hnot, List.idxOf_cons_self, List.countP_append, hfront, hback]

theorem idxOf_lt_of_sublist [DecidableEq α] (hnodup : l.Nodup) (h : [a, b].Sublist l) :
    l.idxOf a < l.idxOf b := by grind

section

variable {value : Nat → R} {n i j : Nat}

def Before (value : Nat → R) (i j : Nat) : Prop :=
  value j < value i ∨ value i = value j ∧ i < j

instance (value : Nat → R) (i j : Nat) : Decidable (Before value i j) :=
  inferInstanceAs (Decidable (_ ∨ _))

theorem Before.total (hne : i ≠ j) : Before value i j ∨ Before value j i := by
  rcases lt_trichotomy (value i) (value j) with hlt | heq | hlt
  · exact .inr (.inl hlt)
  · rcases Nat.lt_or_gt_of_ne hne with hij | hij
    · exact .inl (.inr ⟨heq, hij⟩)
    · exact .inr (.inr ⟨heq.symm, hij⟩)
  · exact .inl (.inl hlt)

theorem pair_sublist_range (hij : i < j) (hj : j < n) : [i, j].Sublist (List.range n) := by
  obtain ⟨k, rfl⟩ := Nat.exists_eq_add_of_lt hj
  rw [show j + k + 1 = j + (k + 1) by omega, List.range_add]
  have hmem : j ∈ (List.range (k + 1)).map (j + ·) :=
    List.mem_map.mpr ⟨0, List.mem_range.mpr (Nat.succ_pos k), rfl⟩
  exact (List.singleton_sublist.mpr (List.mem_range.mpr hij)).append
    (List.singleton_sublist.mpr hmem)

theorem nodup_sortDesc_range (value : Nat → R) (n : Nat) :
    (sortDesc value (List.range n)).Nodup :=
  (sortDesc_perm value _).nodup_iff.mpr List.nodup_range

theorem mem_sortDesc_range : i ∈ sortDesc value (List.range n) ↔ i < n :=
  (sortDesc_perm value _).mem_iff.trans List.mem_range

theorem Before.sublist (h : Before value i j) (hi : i < n) (hj : j < n) :
    [i, j].Sublist (sortDesc value (List.range n)) := by
  rcases h with hlt | ⟨heq, hij⟩
  · have hne : i ≠ j := by
      rintro rfl
      exact lt_irrefl _ hlt
    refine (pair_sublist_total hne (mem_sortDesc_range.mpr hi)
      (mem_sortDesc_range.mpr hj)).resolve_right fun hback => ?_
    exact absurd hlt (not_lt.mpr (le_of_pair_sublist hback))
  · exact pair_sublist_sortDesc (pair_sublist_range hij hj) heq.symm.le

theorem pair_sublist_iff_before (hne : i ≠ j) (hi : i < n) (hj : j < n) :
    [i, j].Sublist (sortDesc value (List.range n)) ↔ Before value i j := by
  constructor
  · intro h
    refine (Before.total hne).resolve_right fun hback => ?_
    exact pair_sublist_asymm (nodup_sortDesc_range value n) h (hback.sublist hj hi)
  · intro h
    exact h.sublist hi hj

def rank (value : Nat → R) (n i : Nat) : Nat :=
  (List.range n).countP fun j => Before value j i

theorem idxOf_sortDesc_range (hi : i < n) :
    (sortDesc value (List.range n)).idxOf i = rank value n i := by
  rw [idxOf_eq_countP (p := fun j => Before value j i) (nodup_sortDesc_range value n)
    (mem_sortDesc_range.mpr hi), (sortDesc_perm value _).countP_eq, rank]
  intro j hj
  rw [decide_eq_true_eq]
  constructor
  · intro hbefore
    have hne : j ≠ i := by
      rintro rfl
      rcases hbefore with hlt | ⟨-, hlt⟩
      · exact lt_irrefl _ hlt
      · exact lt_irrefl _ hlt
    exact ⟨hne, hbefore.sublist (mem_sortDesc_range.mp hj) hi⟩
  · intro hsub
    exact (pair_sublist_iff_before hsub.1 (mem_sortDesc_range.mp hj) hi).mp hsub.2

theorem rank_lt_of_before (h : Before value i j) (hi : i < n)
    (hj : j < n) : rank value n i < rank value n j := by
  rw [← idxOf_sortDesc_range hi, ← idxOf_sortDesc_range hj]
  exact idxOf_lt_of_sublist (nodup_sortDesc_range value n) (h.sublist hi hj)

end

section

variable (value : α → R)

theorem leValue_trans (a b c : α) (hab : decide (value a ≤ value b) = true)
    (hbc : decide (value b ≤ value c) = true) : decide (value a ≤ value c) = true :=
  decide_eq_true ((of_decide_eq_true hab).trans (of_decide_eq_true hbc))

theorem leValue_total (a b : α) :
    (decide (value a ≤ value b) || decide (value b ≤ value a)) = true := by
  rw [Bool.or_eq_true, decide_eq_true_eq, decide_eq_true_eq]
  exact le_total _ _

theorem pairwise_mergeSort_value (l : List α) :
    (l.mergeSort fun a b => decide (value a ≤ value b)).Pairwise fun a b => value a ≤ value b :=
  (List.pairwise_mergeSort (leValue_trans value) (leValue_total value) l).imp of_decide_eq_true

theorem pair_sublist_mergeSort_value (h : [a, b].Sublist l) (hle : value a ≤ value b) :
    [a, b].Sublist (l.mergeSort fun a b => decide (value a ≤ value b)) :=
  List.pair_sublist_mergeSort (leValue_trans value) (leValue_total value) (decide_eq_true hle) h

end

end SwissArmyHammer
