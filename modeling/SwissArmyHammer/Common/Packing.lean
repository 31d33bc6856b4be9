import Mathlib.Algebra.Order.BigOperators.Group.List
import Mathlib.Algebra.Order.Ring.Nat
import Mathlib.Data.List.Nodup

/-! The first value of each key of a list, and lists cut greedily into groups of bounded size. -/

namespace SwissArmyHammer

section

variable {α κ : Type} [DecidableEq κ] {key : α → κ} {x : α}

def dedupByKey (key : α → κ) (xs : List α) : List α := xs.eraseDupsBy fun x y => key x == key y

@[simp] theorem dedupByKey_nil : dedupByKey key ([] : List α) = [] := rfl

theorem dedupByKey_cons (x : α) (xs : List α) :
    dedupByKey key (x :: xs) = x :: dedupByKey key (xs.filter fun y => key y ≠ key x) := by
  simp [dedupByKey, List.eraseDupsBy_cons]

theorem dedupByKey_spec (n : Nat) (xs : List α) (hn : xs.length ≤ n) :
    (dedupByKey key xs).Sublist xs ∧ ((dedupByKey key xs).map key).Nodup ∧
      ∀ x ∈ xs, key x ∈ (dedupByKey key xs).map key := by
  induction n generalizing xs with
  | zero =>
    obtain rfl := List.length_eq_zero_iff.mp (by omega : xs.length = 0)
    simp
  | succ n ih =>
    cases xs with
    | nil => simp
    | cons x xs =>
      have hlen : (xs.filter fun y => key y ≠ key x).length ≤ n := by
        have hle := List.length_filter_le (fun y => key y ≠ key x) xs
        rw [List.length_cons] at hn
        omega
      obtain ⟨hsub, hnodup, hmem⟩ := ih _ hlen
      rw [dedupByKey_cons, List.map_cons, List.nodup_cons]
      refine ⟨(hsub.trans List.filter_sublist).cons_cons x, ⟨?_, hnodup⟩, ?_⟩
      · grind
      · grind

theorem dedupByKey_sublist (xs : List α) : (dedupByKey key xs).Sublist xs :=
  (dedupByKey_spec xs.length xs (Nat.le_refl _)).1

theorem nodup_dedupByKey (xs : List α) : ((dedupByKey key xs).map key).Nodup :=
  (dedupByKey_spec xs.length xs (Nat.le_refl _)).2.1

theorem key_mem_dedupByKey {xs : List α} (hx : x ∈ xs) : key x ∈ (dedupByKey key xs).map key :=
  (dedupByKey_spec xs.length xs (Nat.le_refl _)).2.2 x hx

end

section

variable {α : Type} {size : α → Nat} {budget : Nat}

structure Packing (α : Type) where
  batches : List (List α)
  current : List α
  bytes : Nat

def Packing.add (size : α → Nat) (budget : Nat) (p : Packing α) (x : α) : Packing α :=
  if p.current ≠ [] ∧ budget < p.bytes + size x then
    ⟨p.batches ++ [p.current], [x], size x⟩
  else ⟨p.batches, p.current ++ [x], p.bytes + size x⟩

def Packing.finish (p : Packing α) : List (List α) :=
  if p.current ≠ [] then p.batches ++ [p.current] else p.batches

def pack (size : α → Nat) (budget : Nat) (xs : List α) : List (List α) :=
  (xs.foldl (Packing.add size budget) ⟨[], [], 0⟩).finish

def Fits (size : α → Nat) (budget : Nat) (group : List α) : Prop :=
  (group.map size).sum ≤ budget ∨ ∃ x, group = [x]

structure Packed (size : α → Nat) (budget : Nat) (p : Packing α) : Prop where
  bytes : p.bytes = (p.current.map size).sum
  batches : ∀ group ∈ p.batches, Fits size budget group
  current : Fits size budget p.current

theorem Packed.add {p : Packing α} (h : Packed size budget p) (x : α) :
    Packed size budget (p.add size budget x) ∧
      (p.add size budget x).batches.flatten ++ (p.add size budget x).current =
        p.batches.flatten ++ p.current ++ [x] := by
  rw [Packing.add]
  by_cases hover : p.current ≠ [] ∧ budget < p.bytes + size x
  · rw [if_pos hover]
    refine ⟨⟨by simp, fun group hgroup => ?_, .inr ⟨x, rfl⟩⟩, by simp⟩
    rcases List.mem_append.mp hgroup with hold | hnew
    · exact h.batches group hold
    · rw [List.mem_singleton.mp hnew]
      exact h.current
  · rw [if_neg hover]
    refine ⟨⟨by simp [h.bytes], h.batches, ?_⟩, by simp⟩
    by_cases hempty : p.current = []
    · exact .inr ⟨x, by simp [hempty]⟩
    · have hle : p.bytes + size x ≤ budget := by
        by_contra hgt
        exact hover ⟨hempty, by omega⟩
      refine .inl ?_
      simpa [← h.bytes] using hle

theorem Packed.foldl {p : Packing α} (h : Packed size budget p) (xs : List α) :
    Packed size budget (xs.foldl (Packing.add size budget) p) ∧
      (xs.foldl (Packing.add size budget) p).batches.flatten ++
          (xs.foldl (Packing.add size budget) p).current =
        p.batches.flatten ++ p.current ++ xs := by
  induction xs generalizing p with
  | nil => exact ⟨h, by simp⟩
  | cons x xs ih =>
    obtain ⟨hadd, hall⟩ := h.add x
    obtain ⟨hrest, heq⟩ := ih hadd
    refine ⟨hrest, ?_⟩
    rw [List.foldl_cons, heq, hall]
    simp

theorem flatten_pack (size : α → Nat) (budget : Nat) (xs : List α) :
    (pack size budget xs).flatten = xs := by
  have hstart : Packed size budget (⟨[], [], 0⟩ : Packing α) :=
    ⟨rfl, fun _ hgroup => absurd hgroup List.not_mem_nil, .inl (Nat.zero_le _)⟩
  have hall := (hstart.foldl xs).2
  rw [pack, Packing.finish]
  by_cases hempty : (xs.foldl (Packing.add size budget) ⟨[], [], 0⟩).current = []
  · simpa [hempty] using hall
  · rw [if_pos hempty]
    simpa using hall

theorem fits_of_mem_pack {xs group : List α} (h : group ∈ pack size budget xs) :
    Fits size budget group := by
  have hstart : Packed size budget (⟨[], [], 0⟩ : Packing α) :=
    ⟨rfl, fun _ hgroup => absurd hgroup List.not_mem_nil, .inl (Nat.zero_le _)⟩
  have hpacked := (hstart.foldl xs).1
  rw [pack, Packing.finish] at h
  split at h
  · rcases List.mem_append.mp h with hold | hnew
    · exact hpacked.batches group hold
    · rw [List.mem_singleton.mp hnew]
      exact hpacked.current
  · exact hpacked.batches group h

theorem sum_le_of_charged {κ β : Type} {key : β → κ} {g : β → Nat} (xs : List β)
    (hnodup : (xs.map key).Nodup) (charges : List (κ × Nat))
    (h : ∀ x ∈ xs, ∃ c, (key x, c) ∈ charges ∧ g x ≤ c) :
    (xs.map g).sum ≤ (charges.map Prod.snd).sum := by
  induction xs generalizing charges with
  | nil => exact Nat.zero_le _
  | cons x xs ih =>
    obtain ⟨hnot, hrest⟩ := List.nodup_cons.mp hnodup
    obtain ⟨c, hc, hle⟩ := h x List.mem_cons_self
    obtain ⟨pre, post, rfl⟩ := List.append_of_mem hc
    have hothers : ∀ y ∈ xs, ∃ d, (key y, d) ∈ pre ++ post ∧ g y ≤ d := by
      intro y hy
      obtain ⟨d, hd, hdle⟩ := h y (List.mem_cons_of_mem x hy)
      refine ⟨d, ?_, hdle⟩
      rcases List.mem_append.mp hd with hpre | hpost
      · exact List.mem_append_left _ hpre
      · grind
    have hsum := ih hrest (pre ++ post) hothers
    simp only [List.map_append, List.map_cons, List.sum_append, List.sum_cons] at hsum ⊢
    omega

end

end SwissArmyHammer
