import Mathlib.Data.List.Basic
import Mathlib.Data.List.Count
import Mathlib.Data.List.Nodup

/-! Maps that keep their entries in the order in which the keys first came. -/

namespace SwissArmyHammer

variable {κ ν : Type}

structure IndexMap (κ ν : Type) where
  entries : List (κ × ν)
  nodup : (entries.map Prod.fst).Nodup

namespace IndexMap

def empty : IndexMap κ ν := ⟨[], List.nodup_nil⟩

theorem map_fst_mapValues (f : κ → ν → ν) (entries : List (κ × ν)) :
    (entries.map fun e => (e.1, f e.1 e.2)).map Prod.fst = entries.map Prod.fst := by
  rw [List.map_map]
  exact List.map_congr_left fun e _ => rfl

def mapValues (f : κ → ν → ν) (m : IndexMap κ ν) : IndexMap κ ν :=
  ⟨m.entries.map fun e => (e.1, f e.1 e.2), by rw [map_fst_mapValues]; exact m.nodup⟩

def filter (p : κ → ν → Bool) (m : IndexMap κ ν) : IndexMap κ ν :=
  ⟨m.entries.filter fun e => p e.1 e.2, m.nodup.sublist (List.filter_sublist.map _)⟩

variable [DecidableEq κ]

def lookup (k : κ) : List (κ × ν) → Option ν
  | [] => none
  | e :: es => if e.1 = k then some e.2 else lookup k es

def insertEntry (k : κ) (v : ν) : List (κ × ν) → List (κ × ν)
  | [] => [(k, v)]
  | e :: es => if e.1 = k then (k, v) :: es else e :: insertEntry k v es

theorem mem_keys_insertEntry {k x : κ} {v : ν} {entries : List (κ × ν)}
    (h : x ∈ (insertEntry k v entries).map Prod.fst) :
    x = k ∨ x ∈ entries.map Prod.fst := by
  induction entries with
  | nil => simpa [insertEntry] using h
  | cons e es ih =>
    rw [insertEntry] at h
    split at h
    · grind
    · grind

theorem nodup_insertEntry (k : κ) (v : ν) {entries : List (κ × ν)}
    (h : (entries.map Prod.fst).Nodup) : ((insertEntry k v entries).map Prod.fst).Nodup := by
  induction entries with
  | nil => simp [insertEntry]
  | cons e es ih =>
    obtain ⟨hnot, hrest⟩ := List.nodup_cons.mp h
    rw [insertEntry]
    split
    · grind
    · rename_i hkey
      refine List.nodup_cons.mpr ⟨fun hmem => ?_, ih hrest⟩
      rcases mem_keys_insertEntry hmem with hx | hx
      · exact hkey hx
      · exact hnot hx

theorem insertEntry_of_lookup {k : κ} {v : ν} {entries : List (κ × ν)}
    (h : lookup k entries = none) : insertEntry k v entries = entries ++ [(k, v)] := by
  induction entries with
  | nil => rfl
  | cons e es ih =>
    rw [lookup] at h
    split at h
    · cases h
    · rename_i hkey
      rw [insertEntry, if_neg hkey, ih h]
      rfl

def get? (m : IndexMap κ ν) (k : κ) : Option ν := lookup k m.entries

def insert (m : IndexMap κ ν) (k : κ) (v : ν) : IndexMap κ ν :=
  ⟨insertEntry k v m.entries, nodup_insertEntry k v m.nodup⟩

def shiftRemove (m : IndexMap κ ν) (k : κ) : IndexMap κ ν :=
  ⟨m.entries.filter fun e => e.1 ≠ k, m.nodup.sublist (List.filter_sublist.map _)⟩

variable {m : IndexMap κ ν} {k x : κ} {v : ν}

theorem lookup_eq_some_iff {entries : List (κ × ν)} (h : (entries.map Prod.fst).Nodup) :
    lookup k entries = some v ↔ (k, v) ∈ entries := by
  induction entries with
  | nil => simp [lookup]
  | cons e es ih =>
    obtain ⟨hnot, hrest⟩ := List.nodup_cons.mp h
    rw [lookup]
    split
    · grind
    · grind

theorem get?_eq_some_iff : m.get? k = some v ↔ (k, v) ∈ m.entries := lookup_eq_some_iff m.nodup

@[simp] theorem get?_insert_self (m : IndexMap κ ν) (k : κ) (v : ν) :
    (m.insert k v).get? k = some v := by
  show lookup k (insertEntry k v m.entries) = some v
  induction m.entries with
  | nil => simp [insertEntry, lookup]
  | cons e es ih =>
    rw [insertEntry]
    split
    · simp [lookup]
    · rename_i hkey
      simpa [lookup, hkey] using ih

theorem get?_insert_of_ne (h : x ≠ k) (m : IndexMap κ ν) (v : ν) :
    (m.insert k v).get? x = m.get? x := by
  show lookup x (insertEntry k v m.entries) = lookup x m.entries
  induction m.entries with
  | nil => simp [insertEntry, lookup, h.symm]
  | cons e es ih =>
    rw [insertEntry]
    split
    · rename_i hkey
      simp [lookup, hkey, h.symm]
    · simp [lookup, ih]

@[simp] theorem get?_shiftRemove_self (m : IndexMap κ ν) (k : κ) :
    (m.shiftRemove k).get? k = none := by
  refine Option.eq_none_iff_forall_ne_some.mpr fun v hv => ?_
  have hmem := get?_eq_some_iff.mp hv
  simp [shiftRemove] at hmem

theorem get?_shiftRemove_of_ne (h : x ≠ k) (m : IndexMap κ ν) :
    (m.shiftRemove k).get? x = m.get? x := by
  refine Option.ext fun v => ?_
  rw [get?_eq_some_iff, get?_eq_some_iff]
  simp [shiftRemove, h]

theorem filter_insert {p : κ → Bool} (h : p k = false) (m : IndexMap κ ν) (v : ν) :
    (m.insert k v).entries.filter (fun e => p e.1) = m.entries.filter fun e => p e.1 := by
  show (insertEntry k v m.entries).filter _ = m.entries.filter _
  induction m.entries with
  | nil => simp [insertEntry, h]
  | cons e es ih =>
    rw [insertEntry]
    split
    · rename_i hkey
      simp [hkey, h]
    · simp [List.filter_cons, ih]

theorem filter_shiftRemove {p : κ → Bool} (h : p k = false) (m : IndexMap κ ν) :
    (m.shiftRemove k).entries.filter (fun e => p e.1) = m.entries.filter fun e => p e.1 := by
  show (m.entries.filter _).filter _ = m.entries.filter _
  rw [List.filter_filter]
  refine List.filter_congr fun e _ => ?_
  by_cases hkey : e.1 = k
  · simp [hkey, h]
  · simp [hkey]

@[simp] theorem get?_mapValues (f : κ → ν → ν) (m : IndexMap κ ν) (k : κ) :
    (m.mapValues f).get? k = (m.get? k).map (f k) := by
  show lookup k (m.entries.map _) = (lookup k m.entries).map (f k)
  induction m.entries with
  | nil => rfl
  | cons e es ih =>
    rw [List.map_cons, lookup, lookup]
    split
    · rename_i hkey
      simp [← hkey]
    · exact ih

theorem get?_filter_eq_some {p : κ → ν → Bool} :
    (m.filter p).get? k = some v ↔ m.get? k = some v ∧ p k v = true := by
  rw [get?_eq_some_iff, get?_eq_some_iff]
  exact List.mem_filter

theorem isSome_get?_insert (h : (m.get? x).isSome) : ((m.insert k v).get? x).isSome := by
  by_cases hx : x = k
  · rw [hx, get?_insert_self]
    rfl
  · rw [get?_insert_of_ne hx]
    exact h

end IndexMap

end SwissArmyHammer

/-! Maps from keys to lists of values, read as bags of pairs. -/

namespace SwissArmyHammer

namespace IndexMap

variable {κ ν : Type} [DecidableEq κ] {m : IndexMap κ (List ν)} {k x : κ} {v : ν}

def values (m : IndexMap κ (List ν)) (k : κ) : List ν := (m.get? k).getD []

def push (m : IndexMap κ (List ν)) (k : κ) (v : ν) : IndexMap κ (List ν) :=
  m.insert k (m.values k ++ [v])

def modify (m : IndexMap κ (List ν)) (k : κ) (f : List ν → List ν) : IndexMap κ (List ν) :=
  match m.get? k with
  | some vs => m.insert k (f vs)
  | none => m

def pullFrom [DecidableEq ν] (m : IndexMap κ (List ν)) (ks : List κ) (v : ν) :
    IndexMap κ (List ν) :=
  ks.foldl (fun (m : IndexMap κ (List ν)) k => m.modify k (List.filter (· ≠ v))) m

def pairs (m : IndexMap κ (List ν)) : List (κ × ν) :=
  m.entries.flatMap fun e => e.2.map (Prod.mk e.1)

@[simp] theorem values_empty (k : κ) : (empty : IndexMap κ (List ν)).values k = [] := rfl

theorem values_of_get? {vs : List ν} (h : m.get? k = some vs) : m.values k = vs := by
  rw [values, h, Option.getD_some]

theorem values_of_none (h : m.get? k = none) : m.values k = [] := by
  rw [values, h, Option.getD_none]

@[simp] theorem values_push_self (m : IndexMap κ (List ν)) (k : κ) (v : ν) :
    (m.push k v).values k = m.values k ++ [v] := by
  rw [values, push, get?_insert_self, Option.getD_some]

theorem values_push_of_ne (h : x ≠ k) (m : IndexMap κ (List ν)) (v : ν) :
    (m.push k v).values x = m.values x := by
  rw [values, push, get?_insert_of_ne h, values]

@[simp] theorem values_shiftRemove_self (m : IndexMap κ (List ν)) (k : κ) :
    (m.shiftRemove k).values k = [] := values_of_none (get?_shiftRemove_self m k)

theorem values_shiftRemove_of_ne (h : x ≠ k) (m : IndexMap κ (List ν)) :
    (m.shiftRemove k).values x = m.values x := by
  rw [values, get?_shiftRemove_of_ne h, values]

theorem values_modify_self {f : List ν → List ν} (hf : f [] = []) :
    (m.modify k f).values k = f (m.values k) := by
  rw [modify]
  split
  · rename_i vs hget
    rw [values, get?_insert_self, Option.getD_some, values_of_get? hget]
  · rename_i hget
    rw [values_of_none hget, hf]

theorem values_modify_of_ne (h : x ≠ k) (f : List ν → List ν) :
    (m.modify k f).values x = m.values x := by
  rw [modify]
  split
  · rw [values, get?_insert_of_ne h, values]
  · rfl

variable [DecidableEq ν]

theorem values_pullFrom (m : IndexMap κ (List ν)) (ks : List κ) (v : ν) (x : κ) :
    (m.pullFrom ks v).values x =
      if x ∈ ks then (m.values x).filter (· ≠ v) else m.values x := by
  induction ks generalizing m with
  | nil => simp [pullFrom]
  | cons k ks ih =>
    show ((m.modify k (List.filter (· ≠ v))).pullFrom ks v).values x = _
    rw [ih]
    by_cases hk : x = k
    · subst hk
      have hself : (m.modify x (List.filter (· ≠ v))).values x = (m.values x).filter (· ≠ v) :=
        values_modify_self rfl
      rw [hself, if_pos List.mem_cons_self]
      split_ifs
      · rw [List.filter_filter]
        simp only [Bool.and_self]
      · rfl
    · simp [values_modify_of_ne hk, hk]

theorem count_pairs_entry (k x : κ) (v : ν) (vs : List ν) :
    (vs.map (Prod.mk k)).count (x, v) = if k = x then vs.count v else 0 := by
  by_cases hk : k = x
  · subst hk
    rw [if_pos rfl]
    exact List.count_map_of_injective vs (Prod.mk k) (fun _ _ h => congrArg Prod.snd h) v
  · rw [if_neg hk]
    refine List.count_eq_zero.mpr fun hmem => ?_
    obtain ⟨w, -, hw⟩ := List.mem_map.mp hmem
    exact hk (congrArg Prod.fst hw)

theorem count_pairs (m : IndexMap κ (List ν)) (x : κ) (v : ν) :
    m.pairs.count (x, v) = (m.values x).count v := by
  obtain ⟨entries, hnodup⟩ := m
  show (entries.flatMap fun e => e.2.map (Prod.mk e.1)).count (x, v) =
    ((lookup x entries).getD []).count v
  induction entries with
  | nil => rfl
  | cons e es ih =>
    obtain ⟨hnot, hrest⟩ := List.nodup_cons.mp hnodup
    rw [List.flatMap_cons, List.count_append, count_pairs_entry, ih hrest, lookup]
    by_cases hkey : e.1 = x
    · have hnone : lookup x es = none := by
        refine Option.eq_none_iff_forall_ne_some.mpr fun vs hvs => hnot ?_
        have hmem := (lookup_eq_some_iff hrest).mp hvs
        exact hkey ▸ List.mem_map.mpr ⟨_, hmem, rfl⟩
      simp [hkey, hnone]
    · simp [hkey]

end IndexMap

end SwissArmyHammer

/-! The latest value of a key in a log of writes. -/

namespace SwissArmyHammer

variable {κ ν : Type} [DecidableEq κ] {k : κ} {v : ν} {x : κ × ν} {xs ys : List (κ × ν)}

def latest (k : κ) (log : List (κ × ν)) : Option ν :=
  (log.filter fun x => x.1 = k).getLast?.map Prod.snd

@[simp] theorem latest_nil (k : κ) : latest k ([] : List (κ × ν)) = none := rfl

theorem latest_eq_none_iff : latest k xs = none ↔ ∀ x ∈ xs, x.1 ≠ k := by
  rw [latest, Option.map_eq_none_iff, List.getLast?_eq_none_iff]
  simp

theorem latest_append (k : κ) (xs ys : List (κ × ν)) :
    latest k (xs ++ ys) = (latest k ys).or (latest k xs) := by
  rw [latest, latest, List.filter_append, List.getLast?_append]
  cases (ys.filter fun x => x.1 = k).getLast? with
  | none => rfl
  | some x => rfl

theorem latest_singleton (k : κ) (x : κ × ν) : latest k [x] = if x.1 = k then some x.2 else none := by
  by_cases hx : x.1 = k
  · simp [latest, hx]
  · simp [latest, hx]

theorem latest_move (hxs : ∀ y ∈ xs, y.1 ≠ x.1) (k : κ) (ys : List (κ × ν)) :
    latest k (x :: (xs ++ ys)) = latest k (xs ++ x :: ys) := by
  have hfilter : (x :: (xs ++ ys)).filter (fun y => y.1 = k) =
      (xs ++ x :: ys).filter fun y => y.1 = k := by
    rw [List.filter_cons, List.filter_append, List.filter_append, List.filter_cons]
    by_cases hx : x.1 = k
    · have hnone : xs.filter (fun y => y.1 = k) = [] := by
        refine List.filter_eq_nil_iff.mpr fun y hy => ?_
        have hne := hxs y hy
        rw [hx] at hne
        simpa using hne
      simp [hx, hnone]
    · simp [hx]
  rw [latest, latest, hfilter]

end SwissArmyHammer
