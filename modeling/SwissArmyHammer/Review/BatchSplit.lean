import Mathlib.Data.List.Perm.Subperm
import SwissArmyHammer.Review.Batches

/-! Splitting a work-list loses and repeats no pair of a validator and a file, keeps the files of a
path together and stays within the budget. -/

namespace SwissArmyHammer.Review

section

variable {α κ : Type} [DecidableEq κ] {key : α → κ}

theorem filter_or_perm (p q : α → Bool) (xs : List α) (h : ∀ x ∈ xs, p x → q x = false) :
    (xs.filter fun x => p x || q x).Perm (xs.filter p ++ xs.filter q) := by
  have hsplit := List.filter_append_perm p (xs.filter fun x => p x || q x)
  rw [List.filter_filter, List.filter_filter] at hsplit
  have hfst : xs.filter (fun x => p x && (p x || q x)) = xs.filter p :=
    List.filter_congr fun x _ => by cases p x <;> rfl
  have hsnd : xs.filter (fun x => !p x && (p x || q x)) = xs.filter q :=
    List.filter_congr fun x hx => by
      cases hp : p x with
      | true => simp [h x hx hp]
      | false => simp
  rw [hfst, hsnd] at hsplit
  exact hsplit.symm

theorem flatMap_filter_perm (xs : List α) (groups : List (List κ)) (h : groups.flatten.Nodup) :
    (groups.flatMap fun group => xs.filter fun x => key x ∈ group).Perm
      (xs.filter fun x => key x ∈ groups.flatten) := by
  induction groups with
  | nil => simp
  | cons group groups ih =>
    rw [List.flatten_cons, List.nodup_append] at h
    have hor := filter_or_perm (fun x => decide (key x ∈ group))
      (fun x => decide (key x ∈ groups.flatten)) xs fun x _ hx => by
        refine decide_eq_false fun hrest => ?_
        exact h.2.2 (key x) (of_decide_eq_true hx) (key x) hrest rfl
    refine ((ih h.2.1).append_left _).trans (hor.symm.trans (List.Perm.of_eq ?_))
    exact List.filter_congr fun x _ => by simp [List.mem_append]

end

structure WorkList.Distinct (work : WorkList) : Prop where
  validators : (work.validators.map ValidatorWork.validatorName).Nodup
  files : ∀ v ∈ work.validators, (v.files.map FileWork.path).Nodup

def pairKey (pair : String × FileWork) : String × String := (pair.1, pair.2.path)

def SkippedFile.key (s : SkippedFile) : String × String := (s.validator, s.path)

def WorkList.largestCost (cost : FileWork → Nat) (work : WorkList) (path : String) : Nat :=
  ((work.pairs.filter fun pair => pair.2.path = path).map fun pair => cost pair.2).foldr max 0

section

variable {budget : BatchBudget} {cost : FileWork → Nat} {work b : WorkList} {v : ValidatorWork}
  {path : String} {pair : String × FileWork}

theorem WorkList.Distinct.nodup_keys (h : work.Distinct) : (work.pairs.map pairKey).Nodup := by
  rw [WorkList.pairs, List.map_flatMap, List.nodup_flatMap]
  refine ⟨fun v hv => ?_, ?_⟩
  · rw [List.map_map]
    have hmap : pairKey ∘ (fun file => (v.validatorName, file)) =
        (fun path => (v.validatorName, path)) ∘ FileWork.path := rfl
    rw [hmap, ← List.map_map]
    exact (h.files v hv).map fun x y hxy => (Prod.mk.inj hxy).2
  · refine (List.pairwise_map.mp h.validators).imp fun hne => ?_
    refine List.disjoint_left.mpr fun x hx hy => ?_
    simp only [List.map_map, List.mem_map, Function.comp_apply, pairKey] at hx hy
    obtain ⟨file, -, rfl⟩ := hx
    obtain ⟨other, -, heq⟩ := hy
    exact hne (congrArg Prod.fst heq).symm

theorem WorkList.Distinct.pair_eq (h : work.Distinct) {p q : String × FileWork}
    (hp : p ∈ work.pairs) (hq : q ∈ work.pairs) (hkey : pairKey p = pairKey q) : p = q :=
  List.inj_on_of_nodup_map h.nodup_keys hp hq hkey

theorem largestCost_le {n : Nat}
    (h : ∀ pair ∈ work.pairs, pair.2.path = path → cost pair.2 ≤ n) :
    work.largestCost cost path ≤ n := by
  have hall : ∀ xs : List Nat, (∀ x ∈ xs, x ≤ n) → xs.foldr max 0 ≤ n := by
    intro xs hxs
    induction xs with
    | nil => exact Nat.zero_le n
    | cons x xs ih =>
      exact max_le (hxs x List.mem_cons_self) (ih fun y hy => hxs y (List.mem_cons_of_mem x hy))
  refine hall _ fun x hx => ?_
  obtain ⟨pair, hpair, rfl⟩ := List.mem_map.mp hx
  obtain ⟨hmem, hpath⟩ := List.mem_filter.mp hpair
  exact h pair hmem (of_decide_eq_true hpath)

theorem skipped_foldl (pairs : List (String × FileWork)) (s : Costed) :
    (pairs.foldl (costPair budget cost) s).skipped = s.skipped ++
      (pairs.filter fun pair => budget.fileCap < cost pair.2).map fun pair =>
        ⟨pair.2.path, pair.1, cost pair.2, budget.fileCap⟩ := by
  induction pairs generalizing s with
  | nil => simp
  | cons pair pairs ih =>
    rw [List.foldl_cons, ih, costPair]
    by_cases hover : budget.fileCap < cost pair.2
    · rw [if_pos hover, List.filter_cons_of_pos (by simpa using hover)]
      simp
    · rw [if_neg hover, List.filter_cons_of_neg (by simpa using hover)]

theorem skipped_costPairs (budget : BatchBudget) (cost : FileWork → Nat) (work : WorkList) :
    (costPairs budget cost work).skipped =
      (work.pairs.filter fun pair => budget.fileCap < cost pair.2).map fun pair =>
        ⟨pair.2.path, pair.1, cost pair.2, budget.fileCap⟩ := by
  rw [costPairs, skipped_foldl, List.nil_append]

theorem kept_of_pathCost (pairs : List (String × FileWork)) (s : Costed) {c : Nat}
    (h : (pairs.foldl (costPair budget cost) s).pathCost.get? path = some c) :
    (∃ d, s.pathCost.get? path = some d) ∨
      ∃ pair ∈ pairs, pair.2.path = path ∧ cost pair.2 ≤ budget.fileCap := by
  induction pairs generalizing s with
  | nil => exact .inl ⟨c, h⟩
  | cons pair pairs ih =>
    rcases ih _ h with hd | hpair
    · obtain ⟨d, hd⟩ := hd
      rw [costPair] at hd
      by_cases hover : budget.fileCap < cost pair.2
      · rw [if_pos hover] at hd
        exact .inl ⟨d, hd⟩
      · rw [if_neg hover] at hd
        by_cases hpath : path = pair.2.path
        · exact .inr ⟨pair, List.mem_cons_self, hpath.symm, Nat.le_of_not_lt hover⟩
        · rw [IndexMap.get?_insert_of_ne hpath] at hd
          exact .inl ⟨d, hd⟩
    · obtain ⟨other, hmem, hother⟩ := hpair
      exact .inr ⟨other, List.mem_cons_of_mem _ hmem, hother⟩

theorem exists_kept_of_mem_charges {x : String × Nat} (h : x ∈ charges budget cost work) :
    ∃ pair ∈ work.pairs, pair.2.path = x.1 ∧ cost pair.2 ≤ budget.fileCap := by
  rcases kept_of_pathCost work.pairs _ (pathCost_of_mem_charges h) with hd | hpair
  · exact absurd hd (by simp [IndexMap.get?, IndexMap.empty, IndexMap.lookup])
  · exact hpair

theorem path_mem_charges (hpair : pair ∈ work.pairs) (hle : cost pair.2 ≤ budget.fileCap) :
    pair.2.path ∈ (charges budget cost work).map Prod.fst := by
  obtain ⟨c, hc, -⟩ := (charged_costPairs budget cost work).paid pair hpair hle
  obtain ⟨v, hv, -, hfile⟩ := mem_pairs.mp hpair
  have hdistinct : pair.2.path ∈ work.distinctFiles.map FileWork.path :=
    key_mem_dedupByKey (List.mem_flatMap.mpr ⟨v, hv, hfile⟩)
  obtain ⟨other, hother, hpath⟩ := List.mem_map.mp hdistinct
  refine List.mem_map.mpr ⟨(pair.2.path, c), List.mem_filterMap.mpr ⟨other, hother, ?_⟩, rfl⟩
  rw [hpath, hc, Option.map_some]

theorem nodup_charges (budget : BatchBudget) (cost : FileWork → Nat) (work : WorkList) :
    ((charges budget cost work).map Prod.fst).Nodup := by
  have hsub : ∀ files : List FileWork, ((files.filterMap fun file =>
      ((costPairs budget cost work).pathCost.get? file.path).map fun size =>
        (file.path, size)).map Prod.fst).Sublist (files.map FileWork.path) := by
    intro files
    induction files with
    | nil => exact List.Sublist.refl []
    | cons file files ih =>
      rw [List.filterMap_cons]
      cases hcost : (costPairs budget cost work).pathCost.get? file.path with
      | none => exact ih.cons _
      | some size => exact ih.cons_cons _
  exact (nodup_dedupByKey _).sublist (hsub work.distinctFiles)

theorem pairs_projectOntoFiles (paths : List String) (affordable : List (String × String)) :
    (projectOntoFiles work paths affordable).pairs =
      work.pairs.filter fun pair => pair.2.path ∈ paths ∧ pairKey pair ∈ affordable := by
  simp only [WorkList.pairs, projectOntoFiles]
  induction work.validators with
  | nil => rfl
  | cons v validators ih =>
    have hfiles : (v.files.map fun file => (v.validatorName, file)).filter (fun pair =>
          pair.2.path ∈ paths ∧ pairKey pair ∈ affordable) =
        (v.files.filter fun file => file.path ∈ paths ∧
          (v.validatorName, file.path) ∈ affordable).map fun file => (v.validatorName, file) :=
      List.filter_map
    rw [List.flatMap_cons, List.filter_append, ← ih, hfiles, List.filterMap_cons]
    by_cases hempty : v.files.filter (fun file =>
        file.path ∈ paths ∧ (v.validatorName, file.path) ∈ affordable) = []
    · rw [hempty]
      rfl
    · rw [if_neg hempty]
      rfl

theorem WorkList.Distinct.affordable_iff (h : work.Distinct) (hpair : pair ∈ work.pairs) :
    pairKey pair ∈ (costPairs budget cost work).affordable ↔ cost pair.2 ≤ budget.fileCap := by
  have hcharged := charged_costPairs budget cost work
  constructor
  · intro hmem
    obtain ⟨other, hother, heq, hle⟩ := hcharged.affordable _ hmem
    exact h.pair_eq hpair hother heq ▸ hle
  · exact hcharged.kept pair hpair

theorem WorkList.Distinct.pairs_batch (h : work.Distinct) (group : List (String × Nat)) :
    (projectOntoFiles work (group.map Prod.fst) (costPairs budget cost work).affordable).pairs =
      (work.pairs.filter fun pair => cost pair.2 ≤ budget.fileCap).filter fun pair =>
        pair.2.path ∈ group.map Prod.fst := by
  rw [pairs_projectOntoFiles, List.filter_filter]
  refine List.filter_congr fun pair hpair => ?_
  have hcap : pairKey pair ∈ (costPairs budget cost work).affordable ↔
      cost pair.2 ≤ budget.fileCap := h.affordable_iff hpair
  rw [decide_eq_decide.mpr (and_congr_right fun _ => hcap), Bool.decide_and]

end

structure Batching (budget : BatchBudget) (cost : FileWork → Nat) (work : WorkList)
    (batches : List WorkList) (skipped : List SkippedFile) : Prop where
  kept : (batches.flatMap WorkList.pairs).Perm
    (work.pairs.filter fun pair => cost pair.2 ≤ budget.fileCap)
  reported : skipped =
    (work.pairs.filter fun pair => budget.fileCap < cost pair.2).map fun pair =>
      ⟨pair.2.path, pair.1, cost pair.2, budget.fileCap⟩
  once : ∀ pair ∈ work.pairs,
    ((batches.flatMap WorkList.pairs).map pairKey).count (pairKey pair) =
        (if cost pair.2 ≤ budget.fileCap then 1 else 0) ∧
      (skipped.map SkippedFile.key).count (pairKey pair) =
        if cost pair.2 ≤ budget.fileCap then 0 else 1
  together : batches.Pairwise fun a b =>
    ∀ p ∈ a.pairs, ∀ q ∈ b.pairs, p.2.path ≠ q.2.path
  bytes : ∀ b ∈ batches,
    (b.distinctFiles.map fun file => b.largestCost cost file.path).sum ≤ budget.batchBytes ∨
      b.distinctFiles.length = 1
  order : ∀ b ∈ batches, (b.validators.map ValidatorWork.validatorName).Sublist
      (work.validators.map ValidatorWork.validatorName) ∧
    ∀ v ∈ b.validators, v.files ≠ [] ∧
      ∃ w ∈ work.validators, v = { w with files := v.files } ∧ v.files.Sublist w.files

section

variable {budget : BatchBudget} {cost : FileWork → Nat} {work b : WorkList}

theorem mem_distinctFiles {file : FileWork} (h : file ∈ b.distinctFiles) :
    ∃ pair ∈ b.pairs, pair.2 = file := by
  obtain ⟨v, hv, hfile⟩ := List.mem_flatMap.mp ((dedupByKey_sublist _).subset h)
  exact ⟨(v.validatorName, file), mem_pairs.mpr ⟨v, hv, rfl, hfile⟩, rfl⟩

theorem path_mem_distinctFiles {pair : String × FileWork} (h : pair ∈ b.pairs) :
    pair.2.path ∈ b.distinctFiles.map FileWork.path := by
  obtain ⟨v, hv, -, hfile⟩ := mem_pairs.mp h
  exact key_mem_dedupByKey (List.mem_flatMap.mpr ⟨v, hv, hfile⟩)

theorem mem_charges_of_mem_pack {group : List (String × Nat)}
    (hgroup : group ∈ pack Prod.snd budget.batchBytes (charges budget cost work)) :
    ∀ x ∈ group, x ∈ charges budget cost work := by
  intro x hx
  rw [← flatten_pack Prod.snd budget.batchBytes (charges budget cost work)]
  exact List.mem_flatten.mpr ⟨group, hgroup, hx⟩

theorem WorkList.Distinct.bytes_batch (h : work.Distinct) {group : List (String × Nat)}
    (hgroup : group ∈ pack Prod.snd budget.batchBytes (charges budget cost work))
    (hb : b = projectOntoFiles work (group.map Prod.fst)
      (costPairs budget cost work).affordable) :
    (b.distinctFiles.map fun file => b.largestCost cost file.path).sum ≤ budget.batchBytes ∨
      b.distinctFiles.length = 1 := by
  have hmem := mem_charges_of_mem_pack hgroup
  have hpairs : ∀ pair, pair ∈ b.pairs ↔ (pair ∈ work.pairs ∧ cost pair.2 ≤ budget.fileCap) ∧
      pair.2.path ∈ group.map Prod.fst := by
    intro pair
    rw [hb, h.pairs_batch, List.mem_filter, List.mem_filter, decide_eq_true_iff,
      decide_eq_true_iff]
  have hcharged : ∀ file ∈ b.distinctFiles,
      ∃ c, (file.path, c) ∈ group ∧ b.largestCost cost file.path ≤ c := by
    intro file hfile
    obtain ⟨pair, hpair, rfl⟩ := mem_distinctFiles hfile
    obtain ⟨x, hx, hpath⟩ := List.mem_map.mp ((hpairs pair).mp hpair).2
    refine ⟨x.2, hpath ▸ hx, largestCost_le fun other hother hsame => ?_⟩
    obtain ⟨hkept, -⟩ := (hpairs other).mp hother
    obtain ⟨c, hc, hle⟩ :=
      (charged_costPairs budget cost work).paid other hkept.1 hkept.2
    rw [hsame, ← hpath, pathCost_of_mem_charges (hmem x hx)] at hc
    exact Option.some.inj hc ▸ hle
  have hnodup : (b.distinctFiles.map FileWork.path).Nodup := nodup_dedupByKey _
  rcases fits_of_mem_pack hgroup with hfits | hsingle
  · exact .inl (le_trans (sum_le_of_charged b.distinctFiles hnodup group hcharged) hfits)
  · obtain ⟨x, rfl⟩ := hsingle
    refine .inr (Nat.le_antisymm ?_ ?_)
    · have hsub : b.distinctFiles.map FileWork.path ⊆ [x.1] := by
        intro path hpath
        obtain ⟨file, hfile, rfl⟩ := List.mem_map.mp hpath
        obtain ⟨c, hc, -⟩ := hcharged file hfile
        exact List.mem_singleton.mpr (congrArg Prod.fst (List.mem_singleton.mp hc))
      simpa using (hnodup.subperm hsub).length_le
    · obtain ⟨pair, hpair, hpath, hle⟩ := exists_kept_of_mem_charges (hmem x List.mem_cons_self)
      have hin := path_mem_distinctFiles
        ((hpairs pair).mpr ⟨⟨hpair, hle⟩, List.mem_map.mpr ⟨x, List.mem_cons_self, hpath.symm⟩⟩)
      have hpos := List.length_pos_of_mem hin
      rwa [List.length_map] at hpos

theorem order_projectOntoFiles {paths : List String} {affordable : List (String × String)}
    (hb : b = projectOntoFiles work paths affordable) :
    (b.validators.map ValidatorWork.validatorName).Sublist
        (work.validators.map ValidatorWork.validatorName) ∧
      ∀ v ∈ b.validators, v.files ≠ [] ∧
        ∃ w ∈ work.validators, v = { w with files := v.files } ∧ v.files.Sublist w.files := by
  subst hb
  refine ⟨names_projectOntoFiles paths affordable work.validators, fun v hv => ?_⟩
  obtain ⟨w, hw, rfl, hne⟩ := mem_projectOntoFiles.mp hv
  exact ⟨hne, w, hw, rfl, List.filter_sublist⟩

theorem WorkList.Distinct.kept_batches (h : work.Distinct) :
    ((batchWorkList budget cost work).1.flatMap WorkList.pairs).Perm
      (work.pairs.filter fun pair => cost pair.2 ≤ budget.fileCap) := by
  have hgroups : ((pack Prod.snd budget.batchBytes (charges budget cost work)).map
      (List.map Prod.fst)).flatten = (charges budget cost work).map Prod.fst := by
    rw [← List.map_flatten, flatten_pack]
  have hperm := @flatMap_filter_perm _ _ _ (fun pair : String × FileWork => pair.2.path)
    (work.pairs.filter fun pair => cost pair.2 ≤ budget.fileCap) _
    (hgroups ▸ nodup_charges budget cost work)
  rw [hgroups, List.flatMap_map] at hperm
  have hall : ((work.pairs.filter fun pair => cost pair.2 ≤ budget.fileCap).filter fun pair =>
      pair.2.path ∈ (charges budget cost work).map Prod.fst) =
      work.pairs.filter fun pair => cost pair.2 ≤ budget.fileCap := by
    refine List.filter_eq_self.mpr fun pair hpair => decide_eq_true ?_
    obtain ⟨hmem, hle⟩ := List.mem_filter.mp hpair
    exact path_mem_charges hmem (of_decide_eq_true hle)
  rw [hall] at hperm
  rw [batchWorkList, List.flatMap_map]
  simp only [h.pairs_batch]
  exact hperm

theorem WorkList.Distinct.together_batches (h : work.Distinct) :
    (batchWorkList budget cost work).1.Pairwise fun a b =>
      ∀ p ∈ a.pairs, ∀ q ∈ b.pairs, p.2.path ≠ q.2.path := by
  have hnodup := nodup_charges budget cost work
  rw [← flatten_pack Prod.snd budget.batchBytes (charges budget cost work), List.map_flatten,
    List.nodup_flatten, List.pairwise_map] at hnodup
  rw [batchWorkList, List.pairwise_map]
  refine hnodup.2.imp fun hdisjoint p hp q hq hpath => ?_
  rw [h.pairs_batch, List.mem_filter, decide_eq_true_iff] at hp hq
  exact hdisjoint hp.2 (hpath ▸ hq.2)

theorem WorkList.Distinct.batching (h : work.Distinct) :
    Batching budget cost work (batchWorkList budget cost work).1
      (batchWorkList budget cost work).2 := by
  have hreported : (batchWorkList budget cost work).2 =
      (work.pairs.filter fun pair => budget.fileCap < cost pair.2).map fun pair =>
        ⟨pair.2.path, pair.1, cost pair.2, budget.fileCap⟩ := skipped_costPairs budget cost work
  have hskipped : (batchWorkList budget cost work).2.map SkippedFile.key =
      (work.pairs.filter fun pair => budget.fileCap < cost pair.2).map pairKey := by
    rw [hreported, List.map_map]
    rfl
  have hcount : ∀ (p : String × FileWork → Bool), ∀ pair ∈ work.pairs,
      ((work.pairs.filter p).map pairKey).count (pairKey pair) = if p pair then 1 else 0 := by
    intro p pair hpair
    have hnodup := h.nodup_keys.sublist ((List.filter_sublist (p := p)).map pairKey)
    by_cases hp : p pair
    · grind
    · rw [if_neg hp, List.count_eq_zero]
      intro hmem
      obtain ⟨other, hother, hkey⟩ := List.mem_map.mp hmem
      obtain ⟨hin, hpo⟩ := List.mem_filter.mp hother
      exact hp (h.pair_eq hin hpair hkey ▸ hpo)
  refine ⟨h.kept_batches, hreported, fun pair hpair => ⟨?_, ?_⟩, h.together_batches,
    fun b hb => ?_, fun b hb => ?_⟩
  · rw [(h.kept_batches.map pairKey).count_eq, hcount _ pair hpair]
    simp only [decide_eq_true_eq]
  · grind
  · obtain ⟨group, hgroup, rfl⟩ := List.mem_map.mp hb
    exact h.bytes_batch hgroup rfl
  · obtain ⟨group, -, rfl⟩ := List.mem_map.mp hb
    exact order_projectOntoFiles rfl

end

end SwissArmyHammer.Review
