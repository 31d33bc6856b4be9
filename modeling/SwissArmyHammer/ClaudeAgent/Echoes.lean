import Mathlib.Data.List.Basic

/-! A filter that drops a piece of text equal to all the text that it has let through. -/

namespace SwissArmyHammer.ClaudeAgent

def keep (text : String) : List String → List String
  | [] => []
  | piece :: rest => if piece = text then keep text rest else piece :: keep (text ++ piece) rest

def NoEcho : String → List String → Prop
  | _, [] => True
  | text, piece :: rest => piece ≠ text ∧ NoEcho (text ++ piece) rest

variable {text t : String} {pieces : List String}

@[simp] theorem keep_nil (text : String) : keep text [] = [] := rfl

theorem keep_cons (text piece : String) (rest : List String) :
    keep text (piece :: rest) =
      if piece = text then keep text rest else piece :: keep (text ++ piece) rest := rfl

theorem keep_append (text : String) (xs ys : List String) :
    keep text (xs ++ ys) = keep text xs ++ keep (text ++ String.join (keep text xs)) ys := by
  induction xs generalizing text with
  | nil => simp
  | cons piece rest ih =>
    by_cases hpiece : piece = text
    · simp [keep_cons, hpiece, ih]
    · simp [keep_cons, hpiece, ih, String.append_assoc]

theorem keep_of_noEcho (h : NoEcho text pieces) : keep text pieces = pieces := by
  induction pieces generalizing text with
  | nil => rfl
  | cons piece rest ih => rw [keep_cons, if_neg h.1, ih h.2]

theorem keep_eq_nil_iff : keep text pieces = [] ↔ ∀ piece ∈ pieces, piece = text := by
  induction pieces with
  | nil => simp
  | cons piece rest ih =>
    by_cases hpiece : piece = text
    · simp [keep_cons, hpiece, ih]
    · simp [keep_cons, hpiece]

theorem length_pos (h : t ≠ "") : 0 < t.length :=
  Nat.pos_of_ne_zero fun hzero => h (String.length_eq_zero_iff.mp hzero)

theorem length_join_keep_le (text : String) (pieces : List String) :
    (String.join (keep text pieces)).length ≤ (String.join pieces).length := by
  induction pieces generalizing text with
  | nil => exact Nat.le_refl _
  | cons piece rest ih =>
    rw [keep_cons]
    split
    · have hrest := ih text
      simp only [String.join_cons, String.length_append]
      omega
    · have hrest := ih (text ++ piece)
      simp only [String.join_cons, String.length_append]
      omega

theorem noEcho_of_length (hne : ∀ piece ∈ pieces, piece ≠ "")
    (h : (String.join pieces).length ≤ (String.join (keep text pieces)).length) :
    NoEcho text pieces := by
  induction pieces generalizing text with
  | nil => exact trivial
  | cons piece rest ih =>
    have hrest : ∀ piece ∈ rest, piece ≠ "" := fun p hp => hne p (List.mem_cons_of_mem _ hp)
    rw [keep_cons] at h
    split at h
    · have hpiece := length_pos (hne piece List.mem_cons_self)
      have hle := length_join_keep_le text rest
      simp only [String.join_cons, String.length_append] at h
      omega
    · rename_i hpiece
      simp only [String.join_cons, String.length_append] at h
      exact ⟨hpiece, ih hrest (by omega)⟩

theorem join_eq_empty_iff (hne : ∀ piece ∈ pieces, piece ≠ "") :
    String.join pieces = "" ↔ pieces = [] := by
  cases pieces with
  | nil => simp
  | cons piece rest =>
    have hpiece := hne piece List.mem_cons_self
    simp [hpiece]

theorem mem_of_mem_keep {piece : String} (h : piece ∈ keep text pieces) : piece ∈ pieces := by
  induction pieces generalizing text with
  | nil => exact h
  | cons first rest ih =>
    rw [keep_cons] at h
    split at h
    · exact List.mem_cons_of_mem _ (ih h)
    · grind

theorem join_keep_iff (hsplit : String.join pieces = t) (ht : t ≠ "")
    (hne : ∀ piece ∈ pieces, piece ≠ "") :
    String.join (keep text (pieces ++ [t])) = t ↔
      (text = "" ∧ NoEcho "" pieces) ∨
        (text ≠ "" ∧ 2 ≤ pieces.length ∧ ∀ piece ∈ pieces, piece = text) := by
  have hpieces : pieces ≠ [] := by
    intro hnil
    subst hnil
    exact ht (by simpa using hsplit.symm)
  have hkept : ∀ piece ∈ keep text pieces, piece ≠ "" := fun p hp => hne p (mem_of_mem_keep hp)
  have hlengths := congrArg String.length hsplit
  rw [keep_append, keep_cons]
  by_cases hlast : t = text ++ String.join (keep text pieces)
  · have hlong := congrArg String.length hlast
    rw [String.length_append] at hlong
    rw [if_pos hlast, keep_nil, List.append_nil]
    constructor
    · intro hwhole
      have hsame := congrArg String.length hwhole
      have htext : text = "" := String.length_eq_zero_iff.mp (by omega)
      subst htext
      exact .inl ⟨rfl, noEcho_of_length hne (by omega)⟩
    · intro h
      rcases h with ⟨rfl, hnoEcho⟩ | ⟨htext, htwo, hall⟩
      · rw [keep_of_noEcho hnoEcho]
        exact hsplit
      · have hpos := length_pos htext
        rw [keep_eq_nil_iff.mpr hall, String.join_nil, String.length_empty] at hlong
        match pieces, htwo with
        | first :: second :: rest, _ =>
          have hfirst := hall first List.mem_cons_self
          have hsecond := hall second (by simp)
          subst hfirst
          subst hsecond
          simp only [String.join_cons, String.length_append] at hlengths
          omega
  · rw [if_neg hlast, keep_nil]
    constructor
    · intro hwhole
      have hsame := congrArg String.length hwhole
      rw [String.length_join, List.map_append, List.sum_append, ← String.length_join] at hsame
      simp only [List.map_cons, List.map_nil, List.sum_cons, List.sum_nil] at hsame
      have hnone : keep text pieces = [] :=
        (join_eq_empty_iff hkept).mp (String.length_eq_zero_iff.mp (by omega))
      have hall := keep_eq_nil_iff.mp hnone
      rw [hnone, String.join_nil, String.append_empty] at hlast
      match pieces with
      | [] => exact absurd rfl hpieces
      | [only] =>
        have honly := hall only List.mem_cons_self
        exact absurd (by simpa [honly] using hsplit.symm) hlast
      | first :: second :: rest =>
        have hfirst := hall first List.mem_cons_self
        have htext : text ≠ "" := hfirst ▸ hne first List.mem_cons_self
        exact .inr ⟨htext, by simp, hall⟩
    · intro h
      rcases h with ⟨rfl, hnoEcho⟩ | ⟨-, -, hall⟩
      · rw [keep_of_noEcho hnoEcho, String.empty_append] at hlast
        exact absurd hsplit.symm hlast
      · rw [keep_eq_nil_iff.mpr hall]
        simp

end SwissArmyHammer.ClaudeAgent
