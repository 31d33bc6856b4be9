import Mathlib.Data.List.Induction
import Mathlib.Data.List.Sort
import Mathlib.Order.Defs.LinearOrder

/-! Maps that keep their entries in the order of their keys. -/

namespace SwissArmyHammer

variable {κ ν : Type}

structure SortedMap (κ ν : Type) [LT κ] where
  entries : List (κ × ν)
  sorted : (entries.map Prod.fst).Pairwise (· < ·)

namespace SortedMap

section

variable [LT κ]

def empty : SortedMap κ ν := ⟨[], List.Pairwise.nil⟩

def keys (m : SortedMap κ ν) : List κ := m.entries.map Prod.fst

def values (m : SortedMap κ ν) : List ν := m.entries.map Prod.snd

end

variable [LinearOrder κ]

def insertEntry (k : κ) (v : ν) : List (κ × ν) → List (κ × ν)
  | [] => [(k, v)]
  | e :: es =>
    if k < e.1 then (k, v) :: e :: es
    else if k = e.1 then (k, v) :: es
    else e :: insertEntry k v es

theorem mem_insertEntry {k : κ} {v : ν} {e : κ × ν} {es : List (κ × ν)}
    (h : (es.map Prod.fst).Pairwise (· < ·)) :
    e ∈ insertEntry k v es ↔ e = (k, v) ∨ e ∈ es ∧ e.1 ≠ k := by
  induction es with
  | nil => simp [insertEntry]
  | cons first es ih =>
    obtain ⟨hfirst, hrest⟩ := List.pairwise_cons.mp h
    have hlater : ∀ e ∈ es, first.1 < e.1 := fun e he => hfirst e.1 (List.mem_map_of_mem he)
    have ih := ih hrest
    rw [insertEntry]
    split_ifs with hlt heq
    · grind
    · grind
    · grind

theorem sorted_insertEntry (k : κ) (v : ν) {es : List (κ × ν)}
    (h : (es.map Prod.fst).Pairwise (· < ·)) :
    ((insertEntry k v es).map Prod.fst).Pairwise (· < ·) := by
  induction es with
  | nil => simp [insertEntry]
  | cons first es ih =>
    obtain ⟨hfirst, hrest⟩ := List.pairwise_cons.mp h
    rw [insertEntry]
    split_ifs with hlt heq
    · grind
    · grind
    · refine List.pairwise_cons.mpr ⟨?_, ih hrest⟩
      intro x hx
      obtain ⟨e, he, rfl⟩ := List.mem_map.mp hx
      rcases (mem_insertEntry hrest).mp he with rfl | he
      · exact lt_of_le_of_ne (not_lt.mp hlt) (fun h => heq h.symm)
      · exact hfirst e.1 (List.mem_map_of_mem he.1)

variable {m m' : SortedMap κ ν} {k x : κ} {v w : ν} {e : κ × ν}

def get? (m : SortedMap κ ν) (k : κ) : Option ν :=
  (m.entries.find? fun e => e.1 = k).map Prod.snd

def insert (m : SortedMap κ ν) (k : κ) (v : ν) : SortedMap κ ν :=
  ⟨insertEntry k v m.entries, sorted_insertEntry k v m.sorted⟩

def remove (m : SortedMap κ ν) (k : κ) : SortedMap κ ν :=
  ⟨m.entries.filter fun e => e.1 ≠ k, m.sorted.sublist (List.filter_sublist.map _)⟩

def ofList (entries : List (κ × ν)) : SortedMap κ ν :=
  entries.foldl (fun m e => m.insert e.1 e.2) empty

theorem get?_eq_some_iff : m.get? k = some v ↔ (k, v) ∈ m.entries := by
  have hkeys : m.entries.Pairwise fun a b => a.1 < b.1 := List.pairwise_map.mp m.sorted
  rw [get?]
  generalize m.entries = es at hkeys
  induction es with
  | nil => simp
  | cons first es ih =>
    obtain ⟨hfirst, hrest⟩ := List.pairwise_cons.mp hkeys
    by_cases hk : first.1 = k
    · grind
    · grind

theorem get?_eq_none_iff : m.get? k = none ↔ k ∉ m.keys := by
  constructor
  · intro h hk
    obtain ⟨e, he, rfl⟩ := List.mem_map.mp hk
    have hsome := (get?_eq_some_iff (m := m) (k := e.1) (v := e.2)).mpr he
    rw [h] at hsome
    cases hsome
  · intro h
    refine Option.eq_none_iff_forall_ne_some.mpr fun v hv => h ?_
    exact List.mem_map.mpr ⟨(k, v), get?_eq_some_iff.mp hv, rfl⟩

theorem mem_keys_iff : k ∈ m.keys ↔ ∃ v, m.get? k = some v := by
  rw [← Option.isSome_iff_exists, Option.isSome_iff_ne_none, Ne, get?_eq_none_iff, not_not]

@[simp] theorem get?_empty (k : κ) : (empty : SortedMap κ ν).get? k = none := rfl

theorem get?_insert (m : SortedMap κ ν) (k : κ) (v : ν) (x : κ) :
    (m.insert k v).get? x = if x = k then some v else m.get? x := by
  refine Option.ext fun w => ?_
  rw [get?_eq_some_iff]
  have hmem : (x, w) ∈ (m.insert k v).entries ↔ (x, w) = (k, v) ∨ (x, w) ∈ m.entries ∧ x ≠ k :=
    mem_insertEntry m.sorted
  rw [hmem, ← get?_eq_some_iff]
  by_cases hx : x = k
  · simp [hx, eq_comm]
  · simp [hx]

theorem get?_remove (m : SortedMap κ ν) (k x : κ) :
    (m.remove k).get? x = if x = k then none else m.get? x := by
  refine Option.ext fun w => ?_
  rw [get?_eq_some_iff, remove, List.mem_filter, ← get?_eq_some_iff]
  by_cases hx : x = k
  · simp [hx]
  · simp [hx]

theorem get?_foldl_insert (es : List (κ × ν)) (hnodup : (es.map Prod.fst).Nodup)
    (m : SortedMap κ ν) (x : κ) :
    (es.foldl (fun m e => m.insert e.1 e.2) m).get? x =
      ((es.find? fun e => e.1 = x).map Prod.snd).or (m.get? x) := by
  induction es generalizing m with
  | nil => simp
  | cons e es ih =>
    obtain ⟨hnot, hrest⟩ := List.nodup_cons.mp hnodup
    rw [List.foldl_cons, ih hrest, get?_insert]
    by_cases hx : e.1 = x
    · grind
    · simp [hx, Ne.symm hx]

theorem get?_ofList_eq_some {es : List (κ × ν)} (hnodup : (es.map Prod.fst).Nodup) :
    (ofList es).get? k = some v ↔ (k, v) ∈ es := by
  rw [ofList, get?_foldl_insert es hnodup, get?_empty, Option.or_none]
  constructor
  · intro h
    obtain ⟨e, he, rfl⟩ := Option.map_eq_some_iff.mp h
    have hk : e.1 = k := by simpa using List.find?_some he
    rw [← hk]
    exact List.mem_of_find?_eq_some he
  · intro h
    have hfound : (es.find? fun e => e.1 = k).isSome := by
      rw [List.find?_isSome]
      exact ⟨(k, v), h, decide_eq_true rfl⟩
    obtain ⟨e, he⟩ := Option.isSome_iff_exists.mp hfound
    have hk : e.1 = k := by simpa using List.find?_some he
    have heq : e = (k, v) :=
      List.inj_on_of_nodup_map hnodup (List.mem_of_find?_eq_some he) h hk
    rw [he, heq]
    rfl

theorem sorted_mapValues (f : κ → ν → ν) (m : SortedMap κ ν) :
    ((m.entries.map fun e => (e.1, f e.1 e.2)).map Prod.fst).Pairwise (· < ·) := by
  rw [List.map_map]
  exact m.sorted

def mapValues (f : κ → ν → ν) (m : SortedMap κ ν) : SortedMap κ ν :=
  ⟨m.entries.map fun e => (e.1, f e.1 e.2), sorted_mapValues f m⟩

theorem get?_mapValues (f : κ → ν → ν) (m : SortedMap κ ν) (k : κ) :
    (m.mapValues f).get? k = (m.get? k).map (f k) := by
  refine Option.ext fun v => ?_
  rw [get?_eq_some_iff, mapValues, List.mem_map, Option.map_eq_some_iff]
  constructor
  · rintro ⟨⟨x, w⟩, he, heq⟩
    cases heq
    exact ⟨w, get?_eq_some_iff.mpr he, rfl⟩
  · rintro ⟨w, hw, rfl⟩
    exact ⟨(k, w), get?_eq_some_iff.mp hw, rfl⟩

theorem nodup_keys (m : SortedMap κ ν) : m.keys.Nodup :=
  m.sorted.imp fun hlt => ne_of_lt hlt

def modify (m : SortedMap κ ν) (k : κ) (default : ν) (f : ν → ν) : SortedMap κ ν :=
  m.insert k (f ((m.get? k).getD default))

theorem get?_modify (m : SortedMap κ ν) (k : κ) (default : ν) (f : ν → ν) (x : κ) :
    (m.modify k default f).get? x =
      if x = k then some (f ((m.get? k).getD default)) else m.get? x :=
  get?_insert m k _ x

section

variable {α : Type} {key : α → κ} {xs ys : List α}

def group (key : α → κ) (xs : List α) : SortedMap κ (List α) :=
  xs.foldl (fun m x => m.modify (key x) [] (· ++ [x])) empty

theorem group_append_singleton (key : α → κ) (xs : List α) (x : α) :
    group key (xs ++ [x]) = (group key xs).modify (key x) [] (· ++ [x]) := by
  rw [group, List.foldl_append, List.foldl_cons, List.foldl_nil, group]

theorem get?_group (key : α → κ) (xs : List α) (k : κ) :
    (group key xs).get? k =
      if ∃ x ∈ xs, key x = k then some (xs.filter fun x => key x = k) else none := by
  induction xs using List.reverseRecOn with
  | nil => simp [group]
  | append_singleton xs x ih =>
    rw [group_append_singleton, get?_modify]
    by_cases hx : k = key x
    · subst hx
      have hnone : ¬ (∃ y ∈ xs, key y = key x) → xs.filter (fun y => key y = key x) = [] := by
        intro hnot
        refine List.filter_eq_nil_iff.mpr fun y hy heq => hnot ⟨y, hy, ?_⟩
        exact of_decide_eq_true heq
      rw [if_pos rfl, ih]
      by_cases hxs : ∃ y ∈ xs, key y = key x
      · simp [if_pos hxs]
      · simp [if_neg hxs, hnone hxs]
    · have hiff : (∃ y ∈ xs ++ [x], key y = k) ↔ ∃ y ∈ xs, key y = k := by
        simp only [List.mem_append, List.mem_singleton]
        constructor
        · grind
        · rintro ⟨y, hy, hk⟩
          exact ⟨y, .inl hy, hk⟩
      rw [if_neg hx, ih]
      simp [Ne.symm hx]

theorem mem_entries_group :
    (k, ys) ∈ (group key xs).entries ↔
      (∃ x ∈ xs, key x = k) ∧ ys = xs.filter fun x => key x = k := by
  rw [← get?_eq_some_iff, get?_group]
  by_cases h : ∃ x ∈ xs, key x = k
  · rw [if_pos h, and_iff_right h, Option.some.injEq]
    exact eq_comm
  · simp [h]

end

end SortedMap

end SwissArmyHammer
