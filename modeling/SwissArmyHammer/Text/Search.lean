import Mathlib.Data.List.Basic

/-! Occurrences of one list in another, and the search for the first of them. -/

namespace SwissArmyHammer.Text

variable {α : Type} {needle s : List α} {p q : Nat}

def Occurs (needle s : List α) (p : Nat) : Prop := needle <+: s.drop p

theorem Occurs.length_le (h : Occurs needle s p) (hne : needle ≠ []) :
    p + needle.length ≤ s.length := by
  have hlen := List.IsPrefix.length_le h
  have hpos := List.length_pos_iff.mpr hne
  rw [List.length_drop] at hlen
  omega

theorem Occurs.getElem? (h : Occurs needle s p) (hle : p ≤ q) (hlt : q < p + needle.length) :
    s[q]? = needle[q - p]? := by
  obtain ⟨rest, hrest⟩ := h
  have hget := congrArg (fun l => l[q - p]?) hrest
  simp only [List.getElem?_append_left (show q - p < needle.length by omega),
    List.getElem?_drop] at hget
  rw [hget]
  congr 1
  omega

theorem occurs_drop {k : Nat} : Occurs needle (s.drop k) p ↔ Occurs needle s (k + p) := by
  rw [Occurs, Occurs, List.drop_drop]

theorem occurs_iff_take : Occurs needle s p ↔ (s.drop p).take needle.length = needle := by
  rw [Occurs, List.prefix_iff_eq_take, eq_comm]

instance [DecidableEq α] (needle s : List α) (p : Nat) : Decidable (Occurs needle s p) :=
  inferInstanceAs (Decidable (needle <+: s.drop p))

variable [DecidableEq α]

def findFirst (needle : List α) : List α → Option Nat
  | [] => if needle = [] then some 0 else none
  | c :: s => if needle.isPrefixOf (c :: s) then some 0 else (findFirst needle s).map Nat.succ

theorem findFirst_eq_none (h : findFirst needle s = none) (p : Nat) : ¬ Occurs needle s p := by
  induction s generalizing p with
  | nil =>
    intro hp
    rw [findFirst] at h
    split_ifs at h with hne
    rw [Occurs, List.drop_nil, List.prefix_nil] at hp
    exact hne hp
  | cons c s ih =>
    rw [findFirst] at h
    split_ifs at h with hstarts
    cases p with
    | zero =>
      intro hp
      exact hstarts (List.isPrefixOf_iff_prefix.mpr hp)
    | succ p => exact ih (Option.map_eq_none_iff.mp h) p

theorem findFirst_eq_some (h : findFirst needle s = some p) :
    Occurs needle s p ∧ ∀ q < p, ¬ Occurs needle s q := by
  induction s generalizing p with
  | nil =>
    rw [findFirst] at h
    split_ifs at h with hne
    obtain rfl := Option.some.inj h
    exact ⟨hne ▸ List.nil_prefix, fun q hq => absurd hq (Nat.not_lt_zero q)⟩
  | cons c s ih =>
    rw [findFirst] at h
    split_ifs at h with hstarts
    · obtain rfl := Option.some.inj h
      exact ⟨List.isPrefixOf_iff_prefix.mp hstarts, fun q hq => absurd hq (Nat.not_lt_zero q)⟩
    · obtain ⟨p', hp', rfl⟩ := Option.map_eq_some_iff.mp h
      obtain ⟨hoccurs, hfirst⟩ := ih hp'
      refine ⟨hoccurs, fun q hq => ?_⟩
      cases q with
      | zero =>
        intro hzero
        exact hstarts (List.isPrefixOf_iff_prefix.mpr hzero)
      | succ q => exact hfirst q (Nat.lt_of_succ_lt_succ hq)

end SwissArmyHammer.Text
