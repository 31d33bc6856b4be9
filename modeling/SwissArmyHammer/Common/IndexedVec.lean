import SwissArmyHammer.Common.IndexMap

/-! A list of values with a map from their keys to their positions. A value is removed by putting
the last one in its place. -/

namespace SwissArmyHammer

structure IndexedVec (κ ν : Type) where
  items : List ν
  index : IndexMap κ Nat

namespace IndexedVec

variable {κ ν : Type} {i : Nat}

/-- `Vec::swap_remove`, on a position that is there. -/
def swapRemove (items : List ν) (i : Nat) : List ν :=
  match items.getLast? with
  | some last => (items.set i last).dropLast
  | none => []

theorem swapRemove_last {items : List ν} (hi : i + 1 = items.length) (j : Nat) (y : ν) :
    (swapRemove items i)[j]? = some y ↔ items[j]? = some y ∧ j ≠ i := by
  have hne : items ≠ [] := List.length_pos_iff.mp (by omega)
  rw [swapRemove, List.getLast?_eq_some_getLast hne]
  rw [List.getElem?_dropLast, List.length_set]
  by_cases hj : j < items.length - 1
  · rw [if_pos hj, List.getElem?_set_ne (by omega)]
    exact (and_iff_left (by omega)).symm
  · grind

theorem swapRemove_inner {items : List ν} {last : ν} (hi : i + 1 < items.length)
    (hlast : items[items.length - 1]? = some last) (j : Nat) (y : ν) :
    (swapRemove items i)[j]? = some y ↔
      j = i ∧ y = last ∨ items[j]? = some y ∧ j ≠ i ∧ j ≠ items.length - 1 := by
  rw [swapRemove, List.getLast?_eq_getElem?, hlast]
  rw [List.getElem?_dropLast, List.length_set]
  by_cases hji : j = i
  · rw [hji, if_pos (by omega), List.getElem?_set_self (by omega)]
    simp [eq_comm]
  · grind

variable [DecidableEq κ] {key : ν → κ} {v : IndexedVec κ ν} {x y : ν} {k : κ} {j : Nat}

def empty : IndexedVec κ ν := ⟨[], .empty⟩

def get (v : IndexedVec κ ν) (k : κ) : Option ν := (v.index.get? k).bind (v.items[·]?)

def push (key : ν → κ) (v : IndexedVec κ ν) (x : ν) : IndexedVec κ ν :=
  ⟨v.items ++ [x], v.index.insert (key x) v.items.length⟩

def upsert (key : ν → κ) (v : IndexedVec κ ν) (x : ν) : IndexedVec κ ν :=
  match v.index.get? (key x) with
  | some i => ⟨v.items.set i x, v.index⟩
  | none => v.push key x

def removeAt (key : ν → κ) (v : IndexedVec κ ν) (i : Nat) : IndexedVec κ ν :=
  match v.items[i]? with
  | none => v
  | some removed =>
    let items := swapRemove v.items i
    let index := v.index.shiftRemove (key removed)
    match items[i]? with
    | some moved => ⟨items, index.insert (key moved) i⟩
    | none => ⟨items, index⟩

def Indexed (key : ν → κ) (v : IndexedVec κ ν) : Prop :=
  ∀ k i, v.index.get? k = some i ↔ ∃ x, v.items[i]? = some x ∧ key x = k

theorem indexed_empty : Indexed key (empty : IndexedVec κ ν) := by
  intro k i
  simp [empty, IndexMap.get?, IndexMap.empty, IndexMap.lookup]

theorem Indexed.position_eq (h : v.Indexed key) (hx : v.items[i]? = some x)
    (hy : v.items[j]? = some y) (hkey : key x = key y) : i = j := by
  have hi := (h (key x) i).mpr ⟨x, hx, rfl⟩
  have hj := (h (key x) j).mpr ⟨y, hy, hkey.symm⟩
  exact Option.some.inj (hi.symm.trans hj)

theorem Indexed.get_iff (h : v.Indexed key) : v.get k = some x ↔ x ∈ v.items ∧ key x = k := by
  rw [get, Option.bind_eq_some_iff]
  constructor
  · intro hget
    obtain ⟨i, hi, hx⟩ := hget
    obtain ⟨y, hy, hkey⟩ := (h k i).mp hi
    obtain rfl : y = x := Option.some.inj (hy.symm.trans hx)
    exact ⟨List.mem_of_getElem? hx, hkey⟩
  · intro hmem
    obtain ⟨i, hi⟩ := List.mem_iff_getElem?.mp hmem.1
    exact ⟨i, (h k i).mpr ⟨x, hi, hmem.2⟩, hi⟩

theorem Indexed.key_of_get (h : v.Indexed key) (hget : v.get k = some x) : key x = k :=
  (h.get_iff.mp hget).2

theorem Indexed.index_none (h : v.Indexed key) (hnone : v.index.get? k = none) :
    ∀ y ∈ v.items, key y ≠ k := by
  intro y hy hkey
  obtain ⟨i, hi⟩ := List.mem_iff_getElem?.mp hy
  rw [(h k i).mpr ⟨y, hi, hkey⟩] at hnone
  cases hnone

theorem Indexed.push (h : v.Indexed key) (hnew : ∀ y ∈ v.items, key y ≠ key x) :
    (v.push key x).Indexed key := by
  intro k i
  rw [IndexedVec.push]
  by_cases hi : i = v.items.length
  · subst hi
    by_cases hk : k = key x
    · simp [hk]
    · rw [IndexMap.get?_insert_of_ne hk, h]
      simp [Ne.symm hk]
  · have hitems : (v.items ++ [x])[i]? = v.items[i]? := by
      rcases Nat.lt_or_ge i v.items.length with hlt | hge
      · rw [List.getElem?_append_left hlt]
      · rw [List.getElem?_eq_none (by simp; omega), List.getElem?_eq_none hge]
    rw [hitems]
    by_cases hk : k = key x
    · subst hk
      rw [IndexMap.get?_insert_self]
      constructor
      · intro heq
        exact absurd (Option.some.inj heq).symm hi
      · grind
    · rw [IndexMap.get?_insert_of_ne hk, h]

theorem Indexed.get_push (h : v.Indexed key) (hnew : ∀ y ∈ v.items, key y ≠ key x) (k : κ) :
    (v.push key x).get k = if k = key x then some x else v.get k := by
  refine Option.ext fun z => ?_
  rw [(h.push hnew).get_iff, IndexedVec.push, List.mem_append]
  by_cases hk : k = key x
  · grind
  · rw [if_neg hk, h.get_iff]
    constructor
    · grind
    · intro hz
      exact ⟨.inl hz.1, hz.2⟩

theorem Indexed.upsert (h : v.Indexed key) (x : ν) : (v.upsert key x).Indexed key := by
  rw [IndexedVec.upsert]
  split
  · rename_i i hi
    obtain ⟨y, hy, hkey⟩ := (h _ _).mp hi
    intro k j
    rw [h]
    by_cases hj : j = i
    · grind
    · rw [List.getElem?_set_ne (Ne.symm hj)]
  · rename_i hnone
    exact h.push (h.index_none hnone)

theorem Indexed.get_upsert (h : v.Indexed key) (x : ν) (k : κ) :
    (v.upsert key x).get k = if k = key x then some x else v.get k := by
  rw [IndexedVec.upsert]
  split
  · rename_i i hi
    obtain ⟨y, hy, hkey⟩ := (h _ _).mp hi
    have hlt := (List.getElem?_eq_some_iff.mp hy).1
    show (v.index.get? k).bind ((v.items.set i x)[·]?) = _
    by_cases hk : k = key x
    · rw [if_pos hk, hk, hi, Option.bind_some, List.getElem?_set_self hlt]
    · rw [if_neg hk, get]
      cases hget : v.index.get? k with
      | none => rfl
      | some j =>
        have hne : i ≠ j := by
          rintro rfl
          obtain ⟨z, hz, hkz⟩ := (h _ _).mp hget
          obtain rfl : y = z := Option.some.inj (hy.symm.trans hz)
          exact hk (hkz.symm.trans hkey)
        rw [Option.bind_some, Option.bind_some, List.getElem?_set_ne hne]
  · rename_i hnone
    exact h.get_push (h.index_none hnone) k

theorem Indexed.get?_shiftRemove (h : v.Indexed key) (hx : v.items[i]? = some x) (k : κ)
    (j : Nat) : (v.index.shiftRemove (key x)).get? k = some j ↔
      ∃ y, (v.items[j]? = some y ∧ j ≠ i) ∧ key y = k := by
  by_cases hk : k = key x
  · subst hk
    rw [IndexMap.get?_shiftRemove_self]
    constructor
    · intro hnone
      cases hnone
    · intro hex
      obtain ⟨y, ⟨hy, hne⟩, hkey⟩ := hex
      exact absurd (h.position_eq hy hx hkey) hne
  · rw [IndexMap.get?_shiftRemove_of_ne hk, h]
    refine exists_congr fun y => and_congr_left fun hkey => (and_iff_left_of_imp fun hy => ?_).symm
    rintro rfl
    obtain rfl : x = y := Option.some.inj (hx.symm.trans hy)
    exact hk hkey.symm

theorem Indexed.removeAt (h : v.Indexed key) (hx : v.items[i]? = some x) :
    (v.removeAt key i).Indexed key := by
  have hi := (List.getElem?_eq_some_iff.mp hx).1
  intro k j
  rw [IndexedVec.removeAt, hx]
  simp only
  by_cases hend : i + 1 = v.items.length
  · have hnone : (swapRemove v.items i)[i]? = none :=
      Option.eq_none_iff_forall_ne_some.mpr fun y hy => ((swapRemove_last hend i y).mp hy).2 rfl
    rw [hnone]
    simp only [swapRemove_last hend]
    exact h.get?_shiftRemove hx k j
  · have hlt : i + 1 < v.items.length := by omega
    obtain ⟨last, hlast⟩ : ∃ last, v.items[v.items.length - 1]? = some last :=
      ⟨_, List.getElem?_eq_getElem (by omega)⟩
    have hat : (swapRemove v.items i)[i]? = some last :=
      (swapRemove_inner hlt hlast i last).mpr (.inl ⟨rfl, rfl⟩)
    rw [hat]
    simp only [swapRemove_inner hlt hlast]
    by_cases hk : k = key last
    · subst hk
      rw [IndexMap.get?_insert_self]
      constructor
      · intro heq
        exact ⟨last, .inl ⟨(Option.some.inj heq).symm, rfl⟩, rfl⟩
      · intro hex
        obtain ⟨y, ⟨hj, -⟩ | ⟨hy, -, hne⟩, hkey⟩ := hex
        · rw [hj]
        · exact absurd (h.position_eq hy hlast hkey) hne
    · rw [IndexMap.get?_insert_of_ne hk, h.get?_shiftRemove hx]
      refine exists_congr fun y => and_congr_left fun hkey => ?_
      have hy : y ≠ last := fun heq => hk (hkey ▸ heq ▸ rfl)
      constructor
      · grind
      · grind

theorem mem_swapRemove {items : List ν} (hx : items[i]? = some x) (y : ν) :
    y ∈ swapRemove items i ↔ ∃ j, items[j]? = some y ∧ j ≠ i := by
  have hi := (List.getElem?_eq_some_iff.mp hx).1
  rw [List.mem_iff_getElem?]
  by_cases hend : i + 1 = items.length
  · simp only [swapRemove_last hend]
  · have hlt : i + 1 < items.length := by omega
    obtain ⟨last, hlast⟩ : ∃ last, items[items.length - 1]? = some last :=
      ⟨_, List.getElem?_eq_getElem (by omega)⟩
    simp only [swapRemove_inner hlt hlast]
    constructor
    · grind
    · grind

theorem Indexed.get_removeAt (h : v.Indexed key) (hx : v.items[i]? = some x) (k : κ) :
    (v.removeAt key i).get k = if k = key x then none else v.get k := by
  have hitems : (v.removeAt key i).items = swapRemove v.items i := by
    rw [IndexedVec.removeAt, hx]
    simp only
    split <;> rfl
  refine Option.ext fun y => ?_
  rw [(h.removeAt hx).get_iff, hitems, mem_swapRemove hx]
  by_cases hk : k = key x
  · subst hk
    rw [if_pos rfl]
    constructor
    · intro hmem
      obtain ⟨⟨j, hy, hne⟩, hkey⟩ := hmem
      exact absurd (h.position_eq hy hx hkey) hne
    · intro hnone
      cases hnone
  · rw [if_neg hk, h.get_iff, List.mem_iff_getElem?]
    refine and_congr_left fun hkey => exists_congr fun j => and_iff_left_of_imp fun hy => ?_
    rintro rfl
    obtain rfl : x = y := Option.some.inj (hx.symm.trans hy)
    exact hk hkey.symm

end IndexedVec

end SwissArmyHammer
