import Mathlib.Data.List.Induction
import Mathlib.Data.List.Nodup

/-! Walks in a graph, distances from a set of nodes, and the search that goes level by level. -/

namespace SwissArmyHammer.Walks

variable {α β : Type} {next : α → List α} {s x y : α} {p q : List α} {j k : Nat}

def Walk (next : α → List α) (s : α) : List α → α → Prop
  | [], x => x = s
  | y :: p, x => y ∈ next s ∧ Walk next y p x

theorem walk_append : Walk next s (p ++ q) x ↔ ∃ y, Walk next s p y ∧ Walk next y q x := by
  induction p generalizing s with
  | nil => simp [Walk]
  | cons z p ih =>
    rw [List.cons_append, Walk, ih]
    simp only [Walk, and_assoc, exists_and_left]

theorem walk_snoc : Walk next s (p ++ [y]) x ↔ x = y ∧ ∃ z, Walk next s p z ∧ y ∈ next z := by
  rw [walk_append]
  constructor
  · rintro ⟨z, hz, hy, hx⟩
    exact ⟨hx, z, hz, hy⟩
  · rintro ⟨hx, z, hz, hy⟩
    exact ⟨z, hz, hy, hx⟩

theorem Walk.snoc (h : Walk next s p x) (hy : y ∈ next x) : Walk next s (p ++ [y]) y :=
  walk_snoc.mpr ⟨rfl, x, h, hy⟩

theorem Walk.unique (h : Walk next s p x) (h' : Walk next s p y) : x = y := by
  induction p generalizing s with
  | nil => exact h.trans h'.symm
  | cons z p ih => exact ih h.2 h'.2

section

variable {roots : List α}

def Near (next : α → List α) (roots : List α) (k : Nat) (x : α) : Prop :=
  ∃ r ∈ roots, ∃ p, Walk next r p x ∧ p.length = k

def AtDistance (next : α → List α) (roots : List α) (k : Nat) (x : α) : Prop :=
  Near next roots k x ∧ ∀ j < k, ¬ Near next roots j x

theorem near_zero : Near next roots 0 x ↔ x ∈ roots := by
  constructor
  · rintro ⟨r, hr, p, hp, hlen⟩
    rw [List.eq_nil_of_length_eq_zero hlen] at hp
    exact hp ▸ hr
  · exact fun h => ⟨x, h, [], rfl, rfl⟩

theorem near_succ : Near next roots (k + 1) x ↔ ∃ y, Near next roots k y ∧ x ∈ next y := by
  constructor
  · rintro ⟨r, hr, p, hp, hlen⟩
    cases p using List.reverseRecOn with
    | nil => simp at hlen
    | append_singleton p z =>
      obtain ⟨rfl, y, hy, hstep⟩ := walk_snoc.mp hp
      exact ⟨y, ⟨r, hr, p, hy, by simpa using hlen⟩, hstep⟩
  · rintro ⟨y, ⟨r, hr, p, hp, hlen⟩, hstep⟩
    exact ⟨r, hr, p ++ [x], hp.snoc hstep, by simp [hlen]⟩

theorem atDistance_zero : AtDistance next roots 0 x ↔ x ∈ roots := by
  rw [AtDistance, near_zero]
  simp

theorem AtDistance.unique (h : AtDistance next roots j x) (h' : AtDistance next roots k x) :
    j = k := by
  rcases Nat.lt_trichotomy j k with hlt | heq | hlt
  · exact absurd h.1 (h'.2 j hlt)
  · exact heq
  · exact absurd h'.1 (h.2 k hlt)

theorem Near.atDistance (h : Near next roots k x) : ∃ j ≤ k, AtDistance next roots j x := by
  induction k using Nat.strongRecOn with
  | ind k ih =>
    by_cases hless : ∃ j < k, Near next roots j x
    · grind
    · exact ⟨k, Nat.le_refl k, h, fun j hj hnear => hless ⟨j, hj, hnear⟩⟩

theorem AtDistance.pred (h : AtDistance next roots (k + 1) x) :
    ∃ y, AtDistance next roots k y ∧ x ∈ next y := by
  obtain ⟨y, hy, hstep⟩ := near_succ.mp h.1
  refine ⟨y, ⟨hy, fun j hj hnear => ?_⟩, hstep⟩
  exact h.2 (j + 1) (by omega) (near_succ.mpr ⟨y, hnear, hstep⟩)

theorem not_atDistance_of_le (h : ∀ y, ¬ AtDistance next roots j y) (hle : j ≤ k) :
    ¬ AtDistance next roots k x := by
  induction hle generalizing x with
  | refl => exact h x
  | step _ ih =>
    intro hx
    obtain ⟨y, hy, -⟩ := hx.pred
    exact ih hy

structure Front (next : α → List α) (roots : List α) (k : Nat) (frontier visited : List α) :
    Prop where
  frontier : ∀ x, x ∈ frontier ↔ AtDistance next roots k x
  visited : ∀ x, x ∈ visited ↔ ∃ j ≤ k, AtDistance next roots j x

theorem Front.start : Front next roots 0 roots roots where
  frontier _ := atDistance_zero.symm
  visited x := by
    constructor
    · exact fun h => ⟨0, Nat.le_refl 0, atDistance_zero.mpr h⟩
    · rintro ⟨j, hj, h⟩
      obtain rfl := Nat.le_zero.mp hj
      exact atDistance_zero.mp h

end

section

variable [DecidableEq α]

def newOnes (key : β → α) : List β → List α → List β
  | [], _ => []
  | b :: bs, visited =>
    if key b ∈ visited then newOnes key bs visited
    else b :: newOnes key bs (visited ++ [key b])

def levels (found : α → List β) (key : β → α) : Nat → List α → List α → List (List β)
  | 0, _, _ => []
  | n + 1, frontier, visited =>
    let level := newOnes key (frontier.flatMap found) visited
    if level = [] then []
    else level :: levels found key n (level.map key) (visited ++ level.map key)

variable {key : β → α} {found : α → List β} {b : β} {bs : List β} {visited frontier : List α}
  {n : Nat}

theorem of_mem_newOnes (h : b ∈ newOnes key bs visited) : b ∈ bs ∧ key b ∉ visited := by
  induction bs generalizing visited with
  | nil => simp [newOnes] at h
  | cons c bs ih =>
    rw [newOnes] at h
    split_ifs at h with hold
    · exact ⟨List.mem_cons_of_mem c (ih h).1, (ih h).2⟩
    · grind

theorem mem_map_newOnes :
    x ∈ (newOnes key bs visited).map key ↔ x ∈ bs.map key ∧ x ∉ visited := by
  induction bs generalizing visited with
  | nil => simp [newOnes]
  | cons c bs ih =>
    rw [newOnes, List.map_cons]
    by_cases hold : key c ∈ visited
    · grind
    · grind

theorem newOnes_append (bs cs : List β) (visited : List α) :
    newOnes key (bs ++ cs) visited =
      newOnes key bs visited ++ newOnes key cs (visited ++ (newOnes key bs visited).map key) := by
  induction bs generalizing visited with
  | nil => simp [newOnes]
  | cons b bs ih =>
    rw [List.cons_append, newOnes, newOnes]
    by_cases hold : key b ∈ visited
    · rw [if_pos hold, if_pos hold, ih]
    · rw [if_neg hold, if_neg hold, ih]
      simp

theorem nodup_map_newOnes : ((newOnes key bs visited).map key).Nodup := by
  induction bs generalizing visited with
  | nil => exact List.nodup_nil
  | cons c bs ih =>
    rw [newOnes]
    split
    · exact ih
    · rw [List.map_cons, List.nodup_cons]
      refine ⟨fun hmem => ?_, ih⟩
      have hnew := (mem_map_newOnes.mp hmem).2
      simp at hnew

theorem exists_round {level : List β} (h : level ∈ levels found key n frontier visited) :
    ∃ before seen : List α, visited ⊆ seen ∧ level = newOnes key (before.flatMap found) seen ∧
      level ≠ [] := by
  induction n generalizing frontier visited with
  | zero => simp [levels] at h
  | succ n ih =>
    rw [levels] at h
    split_ifs at h with hempty
    · simp at h
    · grind

theorem levels_ne_nil {level : List β} (h : level ∈ levels found key n frontier visited) :
    level ≠ [] := by
  obtain ⟨-, -, -, -, hne⟩ := exists_round h
  exact hne

theorem length_levels_le : (levels found key n frontier visited).length ≤ n := by
  induction n generalizing frontier visited with
  | zero => simp [levels]
  | succ n ih =>
    rw [levels]
    split
    · simp
    · exact Nat.succ_le_succ ih

theorem levels_initial {m : Nat} (h : m ≤ n) :
    levels found key m frontier visited <+: levels found key n frontier visited := by
  induction m generalizing n frontier visited with
  | zero => exact List.nil_prefix
  | succ m ih =>
    obtain ⟨n, rfl⟩ := Nat.exists_eq_add_of_le' (Nat.lt_of_lt_of_le (Nat.succ_pos m) h)
    rw [levels, levels]
    split
    · exact List.prefix_rfl
    · exact List.cons_prefix_cons.mpr ⟨rfl, ih (by omega)⟩

theorem of_mem_levels {level : List β} (h : level ∈ levels found key n frontier visited)
    (hb : b ∈ level) : ∃ x, b ∈ found x := by
  obtain ⟨before, seen, -, rfl, -⟩ := exists_round h
  obtain ⟨x, -, hx⟩ := List.mem_flatMap.mp (of_mem_newOnes hb).1
  exact ⟨x, hx⟩

theorem not_mem_visited_of_levels {level : List β}
    (h : level ∈ levels found key n frontier visited) (hb : b ∈ level) : key b ∉ visited := by
  obtain ⟨before, seen, hsub, rfl, -⟩ := exists_round h
  exact fun hold => (of_mem_newOnes hb).2 (hsub hold)

theorem nodup_levels : ((levels found key n frontier visited).flatten.map key).Nodup := by
  induction n generalizing frontier visited with
  | zero => simp [levels]
  | succ n ih =>
    rw [levels]
    split
    · simp
    · rw [List.flatten_cons, List.map_append, List.nodup_append]
      refine ⟨nodup_map_newOnes, ih, fun a ha c hc hac => ?_⟩
      obtain ⟨b, hb, rfl⟩ := List.mem_map.mp hc
      obtain ⟨level, hlevel, hb⟩ := List.mem_flatten.mp hb
      have hnew := not_mem_visited_of_levels hlevel hb
      exact hnew (List.mem_append_right _ (hac ▸ ha))

variable {roots : List α}

theorem Front.level (h : Front next roots k frontier visited)
    (hnext : ∀ y, next y = (found y).map key) (x : α) :
    x ∈ (newOnes key (frontier.flatMap found) visited).map key ↔
      AtDistance next roots (k + 1) x := by
  have hstep : x ∈ (frontier.flatMap found).map key ↔ ∃ y ∈ frontier, x ∈ next y := by
    simp only [List.map_flatMap, List.mem_flatMap, hnext]
  rw [mem_map_newOnes, hstep, h.visited]
  constructor
  · rintro ⟨⟨y, hy, hx⟩, hnew⟩
    have hnear : Near next roots (k + 1) x := near_succ.mpr ⟨y, ((h.frontier y).mp hy).1, hx⟩
    refine ⟨hnear, fun j hj hnear => hnew ?_⟩
    obtain ⟨i, hi, hat⟩ := hnear.atDistance
    exact ⟨i, by omega, hat⟩
  · intro hx
    obtain ⟨y, hy, hstep⟩ := hx.pred
    refine ⟨⟨y, (h.frontier y).mpr hy, hstep⟩, ?_⟩
    rintro ⟨j, hj, hat⟩
    have heq := hat.unique hx
    omega

theorem Front.step (h : Front next roots k frontier visited)
    (hnext : ∀ y, next y = (found y).map key) :
    let level := newOnes key (frontier.flatMap found) visited
    Front next roots (k + 1) (level.map key) (visited ++ level.map key) where
  frontier := h.level hnext
  visited x := by
    rw [List.mem_append, h.level hnext, h.visited]
    constructor
    · grind
    · grind

theorem Front.mem_levels (h : Front next roots k frontier visited)
    (hnext : ∀ y, next y = (found y).map key) (i : Nat) (x : α) :
    (∃ level, (levels found key n frontier visited)[i]? = some level ∧ x ∈ level.map key) ↔
      i < n ∧ AtDistance next roots (k + 1 + i) x := by
  induction n generalizing k frontier visited i with
  | zero => simp [levels]
  | succ n ih =>
    have hlevel := h.level hnext
    rw [levels]
    split
    · rename_i hempty
      have hnone : ∀ y, ¬ AtDistance next roots (k + 1) y := by
        intro y hy
        rw [← hlevel, hempty] at hy
        simp at hy
      have hbeyond := not_atDistance_of_le (x := x) hnone (Nat.le_add_right (k + 1) i)
      simp [hbeyond]
    · cases i with
      | zero =>
        rw [Nat.add_zero, ← hlevel]
        simp
      | succ i =>
        rw [List.getElem?_cons_succ, ih (h.step hnext), Nat.add_right_comm (k + 1) 1 i,
          Nat.add_assoc (k + 1) i 1]
        simp

theorem mem_levels (hnext : ∀ y, next y = (found y).map key) (i : Nat) (x : α) :
    (∃ level, (levels found key n roots roots)[i]? = some level ∧ x ∈ level.map key) ↔
      i < n ∧ AtDistance next roots (i + 1) x := by
  have hstart : Front next roots 0 roots roots := Front.start
  have h : (∃ level, (levels found key n roots roots)[i]? = some level ∧ x ∈ level.map key) ↔
      i < n ∧ AtDistance next roots (0 + 1 + i) x := hstart.mem_levels hnext i x
  rwa [Nat.zero_add, Nat.add_comm 1 i] at h

end

end SwissArmyHammer.Walks
