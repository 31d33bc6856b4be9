import Mathlib.Logic.Basic
import SwissArmyHammer.Common.Json

/-! The values of `serde_yaml_ng` and the errors of a merge. The entries of a mapping stand
in a fixed order, so that equality is the equality of `serde_yaml_ng`. -/

namespace SwissArmyHammer.Merge

inductive Yaml
  | null
  | bool (b : Bool)
  /-- A number is kept as its canonical text. -/
  | number (text : String)
  | string (s : String)
  | sequence (elems : List Yaml)
  | mapping (entries : List (Yaml × Yaml))
  | tagged (tag : String) (value : Yaml)

mutual

def Yaml.decEq : (a b : Yaml) → Decidable (a = b)
  | .null, .null => .isTrue rfl
  | .bool a, .bool b => decidable_of_iff (a = b) (by simp)
  | .number a, .number b => decidable_of_iff (a = b) (by simp)
  | .string a, .string b => decidable_of_iff (a = b) (by simp)
  | .sequence a, .sequence b =>
    have := decEqElems a b
    decidable_of_iff (a = b) (by simp)
  | .mapping a, .mapping b =>
    have := decEqEntries a b
    decidable_of_iff (a = b) (by simp)
  | .tagged t a, .tagged u b =>
    have := decEq a b
    decidable_of_iff (t = u ∧ a = b) (by simp)
  | .null, .bool _ | .null, .number _ | .null, .string _ | .null, .sequence _
  | .null, .mapping _ | .null, .tagged _ _ | .bool _, .null | .bool _, .number _
  | .bool _, .string _ | .bool _, .sequence _ | .bool _, .mapping _ | .bool _, .tagged _ _
  | .number _, .null | .number _, .bool _ | .number _, .string _ | .number _, .sequence _
  | .number _, .mapping _ | .number _, .tagged _ _ | .string _, .null | .string _, .bool _
  | .string _, .number _ | .string _, .sequence _ | .string _, .mapping _
  | .string _, .tagged _ _ | .sequence _, .null | .sequence _, .bool _ | .sequence _, .number _
  | .sequence _, .string _ | .sequence _, .mapping _ | .sequence _, .tagged _ _
  | .mapping _, .null | .mapping _, .bool _ | .mapping _, .number _ | .mapping _, .string _
  | .mapping _, .sequence _ | .mapping _, .tagged _ _ | .tagged _ _, .null
  | .tagged _ _, .bool _ | .tagged _ _, .number _ | .tagged _ _, .string _
  | .tagged _ _, .sequence _ | .tagged _ _, .mapping _ => .isFalse (by simp)

def Yaml.decEqElems : (a b : List Yaml) → Decidable (a = b)
  | [], [] => .isTrue rfl
  | [], _ :: _ => .isFalse (by simp)
  | _ :: _, [] => .isFalse (by simp)
  | x :: a, y :: b =>
    have := decEq x y
    have := decEqElems a b
    decidable_of_iff (x = y ∧ a = b) (by simp)

def Yaml.decEqEntries : (a b : List (Yaml × Yaml)) → Decidable (a = b)
  | [], [] => .isTrue rfl
  | [], _ :: _ => .isFalse (by simp)
  | _ :: _, [] => .isFalse (by simp)
  | (j, x) :: a, (k, y) :: b =>
    have := decEq j k
    have := decEq x y
    have := decEqEntries a b
    decidable_of_iff ((j = k ∧ x = y) ∧ a = b) (by simp)

end

instance : DecidableEq Yaml := Yaml.decEq

inductive MergeError
  | parseFailure (message : String)
  | conflict (conflictingIds : List String)
  deriving DecidableEq, Repr

end SwissArmyHammer.Merge

/-! Three-way merge of one state. A side that has not moved from the base gives way to the
other, equal sides are taken, and only two different moves are arbitrated. -/

namespace ThreeWay

variable {S : Type*} [DecidableEq S] {resolve : S → S → S} {base ours theirs : S}

def merge (resolve : S → S → S) (base ours theirs : S) : S :=
  if ours = base then theirs
  else if theirs = base then ours
  else if ours = theirs then ours
  else resolve ours theirs

theorem merge_ours_unmoved (h : ours = base) : merge resolve base ours theirs = theirs := by
  simp [merge, h]

theorem merge_theirs_unmoved (h : theirs = base) : merge resolve base ours theirs = ours := by
  by_cases ho : ours = base
  · simp [merge, ho, h]
  · simp [merge, ho, h]

theorem merge_agree (h : ours = theirs) : merge resolve base ours theirs = ours := by
  subst h
  simp [merge]

theorem merge_conflict (ho : ours ≠ base) (ht : theirs ≠ base) (hne : ours ≠ theirs) :
    merge resolve base ours theirs = resolve ours theirs := by
  simp [merge, ho, ht, hne]

theorem merge_eq_or (h : ∀ o t, resolve o t = o ∨ resolve o t = t) :
    merge resolve base ours theirs = ours ∨ merge resolve base ours theirs = theirs := by
  by_cases ho : ours = base
  · exact .inr (merge_ours_unmoved ho)
  · by_cases ht : theirs = base
    · exact .inl (merge_theirs_unmoved ht)
    · by_cases hne : ours = theirs
      · exact .inl (merge_agree hne)
      · rw [merge_conflict ho ht hne]
        exact h ours theirs

theorem merge_swap {resolve' : S → S → S}
    (h : ours ≠ theirs → resolve' theirs ours = resolve ours theirs) :
    merge resolve' base theirs ours = merge resolve base ours theirs := by
  by_cases ho : ours = base
  · rw [merge_ours_unmoved ho, merge_theirs_unmoved ho]
  · by_cases ht : theirs = base
    · rw [merge_theirs_unmoved ht, merge_ours_unmoved ht]
    · by_cases hne : ours = theirs
      · rw [merge_agree hne, merge_agree hne.symm, hne]
      · rw [merge_conflict ho ht hne, merge_conflict ht ho (Ne.symm hne), h hne]

end ThreeWay
