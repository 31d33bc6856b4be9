import Mathlib.Data.List.Lex
import Mathlib.Data.String.Basic
import Mathlib.Tactic.IntervalCases

/-! Numbers padded with zeros, whose texts are ordered as they are. -/

namespace SwissArmyHammer.Text

section

variable {α : Type} [LinearOrder α] {a b x y : List α}

theorem append_lt_append_iff (h : a.length = b.length) :
    a ++ x < b ++ y ↔ a < b ∨ a = b ∧ x < y := by
  induction a generalizing b with
  | nil =>
    obtain rfl := List.length_eq_zero_iff.mp h.symm
    simp
  | cons c a ih =>
    cases b with
    | nil => cases h
    | cons d b =>
      have hlength : a.length = b.length := Nat.succ.inj h
      rw [List.cons_append, List.cons_append, List.cons_lt_cons_iff, List.cons_lt_cons_iff,
        ih hlength, List.cons.injEq]
      tauto

theorem exists_first_difference (hlt : a < b) (h : a.length = b.length) :
    ∃ p c d s t, a = p ++ c :: s ∧ b = p ++ d :: t ∧ c < d := by
  induction a generalizing b with
  | nil =>
    obtain rfl := List.length_eq_zero_iff.mp h.symm
    exact absurd hlt (lt_irrefl _)
  | cons c a ih =>
    cases b with
    | nil => cases h
    | cons d b =>
      rcases List.cons_lt_cons_iff.mp hlt with hcd | ⟨rfl, hrest⟩
      · exact ⟨[], c, d, a, b, rfl, rfl, hcd⟩
      · obtain ⟨p, c', d', s, t, rfl, rfl, hcd⟩ := ih hrest (Nat.succ.inj h)
        exact ⟨c :: p, c', d', s, t, rfl, rfl, hcd⟩

end

def padded : Nat → Nat → List Char
  | 0, _ => []
  | width + 1, n => padded width (n / 10) ++ [Nat.digitChar (n % 10)]

variable {width m n k : Nat} {c : Char}

theorem digitChar_lt_iff (hm : m < 10) (hn : n < 10) :
    Nat.digitChar m < Nat.digitChar n ↔ m < n := by
  interval_cases m <;> interval_cases n <;> decide

theorem digitChar_le (hn : n < 10) : '0' ≤ Nat.digitChar n ∧ Nat.digitChar n ≤ '9' := by
  interval_cases n <;> decide

@[simp] theorem length_padded (width n : Nat) : (padded width n).length = width := by
  induction width generalizing n with
  | zero => rfl
  | succ width ih => rw [padded, List.length_append, ih, List.length_singleton]

theorem mem_padded (h : c ∈ padded width n) : '0' ≤ c ∧ c ≤ '9' := by
  induction width generalizing n with
  | zero => cases h
  | succ width ih =>
    rcases List.mem_append.mp h with h | h
    · exact ih h
    · rw [List.mem_singleton.mp h]
      exact digitChar_le (Nat.mod_lt _ (by omega))

theorem padded_lt_iff (hm : m < 10 ^ width) (hn : n < 10 ^ width) :
    padded width m < padded width n ↔ m < n := by
  induction width generalizing m n with
  | zero =>
    grind
  | succ width ih =>
    have hlt := @ih (m / 10) (n / 10) (by omega) (by omega)
    have hgt := @ih (n / 10) (m / 10) (by omega) (by omega)
    have heq : padded width (m / 10) = padded width (n / 10) ↔ m / 10 = n / 10 := by
      constructor
      · grind
      · exact fun heq => congrArg _ heq
    have hdigit := @digitChar_lt_iff (m % 10) (n % 10) (by omega) (by omega)
    rw [padded, padded, append_lt_append_iff (by simp), hlt, heq, List.cons_lt_cons_iff, hdigit]
    simp only [List.not_lt_nil, and_false, or_false]
    omega

theorem padded_inj (hm : m < 10 ^ width) (hn : n < 10 ^ width)
    (h : padded width m = padded width n) : m = n := by
  have hlt := (padded_lt_iff hm hn).not.mp (h ▸ lt_irrefl _)
  have hgt := (padded_lt_iff hn hm).not.mp (h ▸ lt_irrefl _)
  omega

theorem padded_append_lt_iff {x y : List Char} (hm : m < 10 ^ width) (hn : n < 10 ^ width) :
    padded width m ++ x < padded width n ++ y ↔ m < n ∨ m = n ∧ x < y := by
  rw [append_lt_append_iff (by simp), padded_lt_iff hm hn]
  constructor
  · rintro (hlt | ⟨heq, hxy⟩)
    · exact .inl hlt
    · exact .inr ⟨padded_inj hm hn heq, hxy⟩
  · grind

theorem padded_add (width k n : Nat) :
    padded (width + k) n = padded width (n / 10 ^ k) ++ padded k n := by
  induction k generalizing n with
  | zero => simp [padded]
  | succ k ih =>
    rw [← Nat.add_assoc, padded, ih, padded, Nat.div_div_eq_div_mul, ← Nat.pow_succ',
      List.append_assoc]

theorem padded_of_dvd (h : n % 10 ^ k = 0) : padded k n = List.replicate k '0' := by
  induction k generalizing n with
  | zero => rfl
  | succ k ih =>
    obtain ⟨q, rfl⟩ := Nat.dvd_of_mod_eq_zero h
    have hdiv : 10 ^ (k + 1) * q / 10 = 10 ^ k * q := by
      rw [Nat.pow_succ, Nat.mul_comm (10 ^ k) 10, Nat.mul_assoc,
        Nat.mul_div_cancel_left _ (by omega)]
    have hmod : 10 ^ (k + 1) * q % 10 = 0 := by
      rw [Nat.pow_succ, Nat.mul_comm (10 ^ k) 10, Nat.mul_assoc, Nat.mul_mod_right]
    rw [padded, hdiv, hmod, ih (Nat.mul_mod_right _ _), List.replicate_succ']
    rfl

end SwissArmyHammer.Text
