import Mathlib.Data.List.Basic

/-! The last part of a list, no longer than a limit. -/

namespace SwissArmyHammer

variable {α : Type} {limit : Nat} {xs ys zs : List α}

def lastPart (limit : Nat) (xs : List α) : List α := xs.drop (xs.length - limit)

theorem lastPart_of_le (h : xs.length ≤ limit) : lastPart limit xs = xs := by
  have hzero : xs.length - limit = 0 := by omega
  rw [lastPart, hzero, List.drop_zero]

@[simp] theorem length_lastPart (limit : Nat) (xs : List α) :
    (lastPart limit xs).length = min xs.length limit := by
  rw [lastPart, List.length_drop]
  omega

theorem lastPart_suffix (limit : Nat) (xs : List α) : lastPart limit xs <:+ xs :=
  List.drop_suffix _ xs

theorem lastPart_eq_self_iff : lastPart limit xs = xs ↔ xs.length ≤ limit := by
  constructor
  · intro h
    have hlen := congrArg List.length h
    rw [length_lastPart] at hlen
    omega
  · exact lastPart_of_le

theorem eq_lastPart (h : zs <:+ xs) (hlen : zs.length = min xs.length limit) :
    zs = lastPart limit xs := by
  have hdrop := List.suffix_iff_eq_drop.mp h
  have hstart : xs.length - zs.length = xs.length - limit := by omega
  rw [hdrop, hstart, lastPart]

theorem lastPart_append (limit : Nat) (xs ys : List α) :
    lastPart limit (lastPart limit xs ++ ys) = lastPart limit (xs ++ ys) := by
  refine eq_lastPart ?_ ?_
  · obtain ⟨before, hbefore⟩ := lastPart_suffix limit xs
    have hwhole : lastPart limit xs ++ ys <:+ xs ++ ys :=
      ⟨before, by rw [← List.append_assoc, hbefore]⟩
    exact (lastPart_suffix limit _).trans hwhole
  · simp only [length_lastPart, List.length_append]
    omega

theorem lastPart_append_of_le (hys : ys.length ≤ limit) (hover : limit < xs.length + ys.length) :
    lastPart limit (xs ++ ys) = xs.drop (xs.length + ys.length - limit) ++ ys := by
  have hle : xs.length + ys.length - limit ≤ xs.length := by omega
  have hzero : xs.length + ys.length - limit - xs.length = 0 := by omega
  rw [lastPart, List.length_append, List.drop_append, hzero, List.drop_zero]

end SwissArmyHammer
