import Mathlib.Data.List.Basic
import Mathlib.Order.Bounds.Basic
import Mathlib.Order.MinMax

/-! The least number of insertions, deletions and substitutions that turn one list into another. -/

namespace SwissArmyHammer

variable {α : Type} {xs ys zs : List α} {x y : α} {m n : Nat}

inductive OneEdit : List α → List α → Prop
  | insert (x : α) (xs : List α) : OneEdit xs (x :: xs)
  | delete (x : α) (xs : List α) : OneEdit (x :: xs) xs
  | substitute (x y : α) (xs : List α) : OneEdit (x :: xs) (y :: xs)
  | later (x : α) {xs ys : List α} (h : OneEdit xs ys) : OneEdit (x :: xs) (x :: ys)

inductive Edits : Nat → List α → List α → Prop
  | refl (xs : List α) : Edits 0 xs xs
  | step {n : Nat} {xs ys zs : List α} (h : OneEdit xs ys) (hrest : Edits n ys zs) :
      Edits (n + 1) xs zs

inductive Align : List α → List α → Nat → Prop
  | nil : Align [] [] 0
  | delete (x : α) {xs ys : List α} {n : Nat} (h : Align xs ys n) : Align (x :: xs) ys (n + 1)
  | insert (y : α) {xs ys : List α} {n : Nat} (h : Align xs ys n) : Align xs (y :: ys) (n + 1)
  | keep (x : α) {xs ys : List α} {n : Nat} (h : Align xs ys n) : Align (x :: xs) (x :: ys) n
  | substitute (x y : α) {xs ys : List α} {n : Nat} (h : Align xs ys n) :
      Align (x :: xs) (y :: ys) (n + 1)

theorem Edits.trans (h : Edits m xs ys) (h' : Edits n ys zs) : Edits (m + n) xs zs := by
  induction h with
  | refl xs => simpa using h'
  | @step m xs ys' ys hedit hrest ih =>
    have hsteps := Edits.step hedit (ih h')
    rwa [Nat.succ_add]

theorem OneEdit.symm (h : OneEdit xs ys) : OneEdit ys xs := by
  induction h with
  | insert x xs => exact .delete x xs
  | delete x xs => exact .insert x xs
  | substitute x y xs => exact .substitute y x xs
  | later x _ ih => exact .later x ih

theorem Edits.symm (h : Edits n xs ys) : Edits n ys xs := by
  induction h with
  | refl xs => exact .refl xs
  | @step n xs ys zs hedit _ ih =>
    exact ih.trans (.step hedit.symm (.refl xs))

theorem Edits.later (x : α) (h : Edits n xs ys) : Edits n (x :: xs) (x :: ys) := by
  induction h with
  | refl xs => exact .refl (x :: xs)
  | step hedit _ ih => exact .step (.later x hedit) ih

theorem edits_zero : Edits 0 xs ys ↔ xs = ys := by
  constructor
  · intro h
    cases h
    rfl
  · intro h
    rw [h]
    exact .refl ys

theorem OneEdit.append (h : OneEdit xs ys) (zs : List α) : OneEdit (xs ++ zs) (ys ++ zs) := by
  induction h with
  | insert x xs => exact .insert x (xs ++ zs)
  | delete x xs => exact .delete x (xs ++ zs)
  | substitute x y xs => exact .substitute x y (xs ++ zs)
  | later x _ ih => exact .later x ih

theorem OneEdit.prepend (zs : List α) (h : OneEdit xs ys) : OneEdit (zs ++ xs) (zs ++ ys) := by
  induction zs with
  | nil => exact h
  | cons z zs ih => exact .later z ih

theorem OneEdit.reverse (h : OneEdit xs ys) : OneEdit xs.reverse ys.reverse := by
  induction h with
  | insert x xs => simpa using OneEdit.prepend xs.reverse (.insert x [])
  | delete x xs => simpa using OneEdit.prepend xs.reverse (.delete x [])
  | substitute x y xs => simpa using OneEdit.prepend xs.reverse (.substitute x y [])
  | later x _ ih => simpa using ih.append [x]

theorem Edits.reverse (h : Edits n xs ys) : Edits n xs.reverse ys.reverse := by
  induction h with
  | refl xs => exact .refl xs.reverse
  | step hedit _ ih => exact .step hedit.reverse ih

theorem Align.edits (h : Align xs ys n) : Edits n xs ys := by
  induction h with
  | nil => exact .refl []
  | delete x _ ih => exact .step (.delete x _) ih
  | insert y _ ih =>
    have hlast := ih.symm
    exact (Edits.step (.delete y _) hlast).symm
  | keep x _ ih => exact ih.later x
  | substitute x y _ ih => exact .step (.substitute x y _) (ih.later y)

theorem Align.of_insert (h : Align (x :: xs) ys n) : ∃ m ≤ n + 1, Align xs ys m := by
  generalize hx : x :: xs = xs' at h
  induction h with
  | nil => cases hx
  | @delete _ _ ys n h _ =>
    cases hx
    exact ⟨n, by omega, h⟩
  | insert y _ ih =>
    obtain ⟨m, hm, h⟩ := ih hx
    exact ⟨m + 1, by omega, .insert y h⟩
  | @keep _ _ ys n h _ =>
    cases hx
    exact ⟨n + 1, by omega, .insert x h⟩
  | @substitute _ y _ ys n h _ =>
    cases hx
    exact ⟨n + 1, by omega, .insert y h⟩

theorem Align.of_substitute (x : α) (h : Align (y :: xs) ys n) :
    ∃ m ≤ n + 1, Align (x :: xs) ys m := by
  generalize hx : y :: xs = xs' at h
  induction h with
  | nil => cases hx
  | @delete _ _ ys n h _ =>
    cases hx
    exact ⟨n + 1, by omega, .delete x h⟩
  | insert z _ ih =>
    obtain ⟨m, hm, h⟩ := ih hx
    exact ⟨m + 1, by omega, .insert z h⟩
  | @keep _ _ ys n h _ =>
    cases hx
    exact ⟨n + 1, by omega, .substitute x y h⟩
  | @substitute _ z _ ys n h _ =>
    cases hx
    exact ⟨n + 1, by omega, .substitute x z h⟩

theorem Align.of_edit (hedit : OneEdit xs zs) (h : Align zs ys n) : ∃ m ≤ n + 1, Align xs ys m := by
  induction hedit generalizing ys n with
  | insert x xs => exact h.of_insert
  | delete x xs => exact ⟨n + 1, by omega, .delete x h⟩
  | substitute x y xs => exact h.of_substitute x
  | @later x xs zs _ ih =>
    generalize hz : x :: zs = zs' at h
    induction h with
    | nil => cases hz
    | delete _ h _ =>
      cases hz
      obtain ⟨m, hm, h⟩ := ih h
      exact ⟨m + 1, by omega, .delete x h⟩
    | insert y _ ihalign =>
      obtain ⟨m, hm, h⟩ := ihalign hz
      exact ⟨m + 1, by omega, .insert y h⟩
    | keep _ h _ =>
      cases hz
      obtain ⟨m, hm, h⟩ := ih h
      exact ⟨m, hm, .keep x h⟩
    | substitute _ y h _ =>
      cases hz
      obtain ⟨m, hm, h⟩ := ih h
      exact ⟨m + 1, by omega, .substitute x y h⟩

theorem align_self (xs : List α) : Align xs xs 0 := by
  induction xs with
  | nil => exact .nil
  | cons x xs ih => exact .keep x ih

theorem Edits.align (h : Edits n xs ys) : ∃ m ≤ n, Align xs ys m := by
  induction h with
  | refl xs => exact ⟨0, le_refl 0, align_self xs⟩
  | step hedit _ ih =>
    obtain ⟨m, hm, h⟩ := ih
    obtain ⟨k, hk, h⟩ := Align.of_edit hedit h
    exact ⟨k, by omega, h⟩

theorem Align.of_nil_left (h : Align [] ys n) : n = ys.length := by
  generalize hx : ([] : List α) = xs at h
  induction h with
  | nil => rfl
  | insert y _ ih => rw [ih hx, List.length_cons]
  | delete | keep | substitute => cases hx

theorem align_nil_left (ys : List α) : Align [] ys ys.length := by
  induction ys with
  | nil => exact .nil
  | cons y ys ih => exact .insert y ih

theorem align_nil_right (xs : List α) : Align xs [] xs.length := by
  induction xs with
  | nil => exact .nil
  | cons x xs ih => exact .delete x ih

theorem exists_align (xs ys : List α) : ∃ n ≤ max xs.length ys.length, Align xs ys n := by
  induction xs generalizing ys with
  | nil => exact ⟨ys.length, by simp, align_nil_left ys⟩
  | cons x xs ih =>
    cases ys with
    | nil => exact ⟨(x :: xs).length, by simp, align_nil_right (x :: xs)⟩
    | cons y ys =>
      obtain ⟨n, hn, h⟩ := ih ys
      have hle : n + 1 ≤ max (x :: xs).length (y :: ys).length := by
        simp only [List.length_cons]
        omega
      exact ⟨n + 1, hle, .substitute x y h⟩

def IsDistance (xs ys : List α) (n : Nat) : Prop := IsLeast {n | Edits n xs ys} n

section

variable {diag up left : Nat}

theorem isDistance_iff : IsDistance xs ys n ↔ Align xs ys n ∧ ∀ m, Align xs ys m → n ≤ m := by
  constructor
  · intro h
    obtain ⟨m, hm, halign⟩ := h.1.align
    have hle := h.2 halign.edits
    obtain rfl : m = n := by omega
    exact ⟨halign, fun k hk => h.2 hk.edits⟩
  · intro h
    refine ⟨h.1.edits, fun m hm => ?_⟩
    obtain ⟨k, hk, halign⟩ := hm.align
    exact (h.2 k halign).trans hk

theorem IsDistance.unique (h : IsDistance xs ys m) (h' : IsDistance xs ys n) : m = n :=
  IsLeast.unique h h'

theorem IsDistance.symm (h : IsDistance xs ys n) : IsDistance ys xs n :=
  ⟨h.1.symm, fun _ hm => h.2 hm.symm⟩

theorem IsDistance.reverse (h : IsDistance xs ys n) : IsDistance xs.reverse ys.reverse n := by
  refine ⟨h.1.reverse, fun m hm => h.2 ?_⟩
  have hback : Edits m xs.reverse ys.reverse := hm
  simpa using hback.reverse

theorem IsDistance.eq_zero_iff (h : IsDistance xs ys n) : n = 0 ↔ xs = ys := by
  constructor
  · intro hn
    exact edits_zero.mp (hn ▸ h.1)
  · intro heq
    have hle := h.2 (show Edits 0 xs ys from edits_zero.mpr heq)
    omega

theorem IsDistance.triangle {k : Nat} (hxy : IsDistance xs ys m) (hyz : IsDistance ys zs n)
    (hxz : IsDistance xs zs k) : k ≤ m + n := hxz.2 (hxy.1.trans hyz.1)

theorem IsDistance.le_max (h : IsDistance xs ys n) : n ≤ max xs.length ys.length := by
  obtain ⟨m, hm, halign⟩ := exists_align xs ys
  exact (h.2 halign.edits).trans hm

theorem isDistance_nil_left (ys : List α) : IsDistance [] ys ys.length :=
  isDistance_iff.mpr ⟨align_nil_left ys, fun _ hm => hm.of_nil_left.ge⟩

theorem isDistance_nil_right (xs : List α) : IsDistance xs [] xs.length :=
  (isDistance_nil_left xs).symm

variable [DecidableEq α]

theorem IsDistance.cons (hup : IsDistance xs (y :: ys) up) (hleft : IsDistance (x :: xs) ys left)
    (hdiag : IsDistance xs ys diag) :
    IsDistance (x :: xs) (y :: ys)
      (min (min (up + 1) (left + 1)) (diag + if x ≠ y then 1 else 0)) := by
  rw [isDistance_iff] at hup hleft hdiag ⊢
  have hcorner : Align (x :: xs) (y :: ys) (diag + if x ≠ y then 1 else 0) := by
    by_cases hxy : x = y
    · subst hxy
      simpa using Align.keep x hdiag.1
    · simpa [hxy] using Align.substitute x y hdiag.1
  constructor
  · rcases min_choice (min (up + 1) (left + 1)) (diag + if x ≠ y then 1 else 0) with h | h
    · rw [h]
      rcases min_choice (up + 1) (left + 1) with h | h
      · rw [h]
        exact .delete x hup.1
      · rw [h]
        exact .insert y hleft.1
    · rw [h]
      exact hcorner
  · intro m hm
    cases hm with
    | delete _ h =>
      have hle := hup.2 _ h
      omega
    | insert _ h =>
      have hle := hleft.2 _ h
      omega
    | keep _ h =>
      grind
    | substitute _ _ h =>
      have hle := hdiag.2 _ h
      split_ifs <;> omega

end

end SwissArmyHammer
