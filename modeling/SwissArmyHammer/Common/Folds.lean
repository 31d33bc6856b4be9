import Mathlib.Data.List.Forall2
import Mathlib.Data.List.Nodup
import Mathlib.Logic.Basic

/-! Folds of a state over values with keys, where each value changes what the state shows at its own
key only. -/

namespace SwissArmyHammer

variable {σ α κ β : Type} {f : σ → α → σ} {key : α → κ} {x : κ} {a : α} {xs : List α}

theorem foldl_keeps {I : σ → Prop} (hstep : ∀ s a, a ∈ xs → I s → I (f s a)) {s : σ} (h : I s) :
    I (xs.foldl f s) := by
  induction xs generalizing s with
  | nil => exact h
  | cons a xs ih =>
    exact ih (fun s b hb => hstep s b (List.mem_cons_of_mem a hb)) (hstep s a List.mem_cons_self h)

theorem foldl_of_notMem (view : σ → β) (hframe : ∀ s a, key a ≠ x → view (f s a) = view s)
    (h : x ∉ xs.map key) (s : σ) : view (xs.foldl f s) = view s := by
  refine foldl_keeps (I := fun s' => view s' = view s) (fun s' a ha heq => ?_) rfl
  have hne : key a ≠ x := fun hkey => h (List.mem_map.mpr ⟨a, ha, hkey⟩)
  exact (hframe s' a hne).trans heq

theorem foldl_of_mem (view : σ → β) (hframe : ∀ s a, key a ≠ x → view (f s a) = view s)
    (hnodup : (xs.map key).Nodup) (hmem : a ∈ xs) (hkey : key a = x) (s : σ) :
    ∃ s', view s' = view s ∧ view (xs.foldl f s) = view (f s' a) := by
  induction xs generalizing s with
  | nil => simp at hmem
  | cons b xs ih =>
    obtain ⟨hnot, hrest⟩ := List.nodup_cons.mp hnodup
    rcases List.mem_cons.mp hmem with rfl | hmem
    · rw [hkey] at hnot
      exact ⟨s, rfl, foldl_of_notMem view hframe hnot (f s a)⟩
    · have hne : key b ≠ x := by
        rintro rfl
        exact hnot (List.mem_map.mpr ⟨a, hmem, hkey⟩)
      obtain ⟨s', hs', hlast⟩ := ih hrest hmem (f s b)
      exact ⟨s', hs'.trans (hframe s b hne), hlast⟩

section

variable {g : α → List β} {p : β → Bool}

theorem filter_flatMap_of_mem (hnodup : (xs.map key).Nodup) (hmem : a ∈ xs)
    (hother : ∀ b ∈ xs, key b ≠ key a → (g b).filter p = []) :
    (xs.flatMap g).filter p = (g a).filter p := by
  induction xs with
  | nil => simp at hmem
  | cons b xs ih =>
    obtain ⟨hnot, hrest⟩ := List.nodup_cons.mp hnodup
    rw [List.flatMap_cons, List.filter_append]
    rcases List.mem_cons.mp hmem with rfl | hmem
    · have hnone : (xs.flatMap g).filter p = [] := by
        rw [List.filter_flatMap, List.flatMap_eq_nil_iff]
        intro c hc
        refine hother c (List.mem_cons_of_mem a hc) fun heq => hnot ?_
        rw [← heq]
        exact List.mem_map_of_mem hc
      rw [hnone, List.append_nil]
    · grind

end

end SwissArmyHammer

/-! Lists cut into chunks, as `slice::chunks` cuts them. -/

namespace SwissArmyHammer

variable {α β : Type}

def chunks (n : Nat) : List α → List (List α)
  | [] => []
  | x :: xs => (x :: xs.take n) :: chunks n (xs.drop n)
termination_by xs => xs.length
decreasing_by simp only [List.length_drop, List.length_cons]; omega

theorem flatten_chunks (n : Nat) (xs : List α) : (chunks n xs).flatten = xs := by
  fun_induction chunks n xs with
  | case1 => rfl
  | case2 x xs ih => rw [List.flatten_cons, ih, List.cons_append, List.take_append_drop]

section

variable [DecidableEq β] {f : List α → List β} {found : List β} {b : β}

theorem mem_foldl_union (parts : List (List α)) :
    b ∈ parts.foldl (fun found part => found ∪ f part) found ↔
      b ∈ found ∨ ∃ part ∈ parts, b ∈ f part := by
  induction parts generalizing found with
  | nil => simp
  | cons part parts ih =>
    rw [List.foldl_cons, ih, List.mem_union_iff, or_assoc]
    simp

theorem nodup_foldl_union (hf : ∀ part, (f part).Nodup) (parts : List (List α))
    (h : found.Nodup) : (parts.foldl (fun found part => found ∪ f part) found).Nodup := by
  induction parts generalizing found with
  | nil => exact h
  | cons part parts ih => exact ih (List.Nodup.union _ (hf part))

end

end SwissArmyHammer

/-! Rules for computations that may fail: what a success was made of, and what every step of a
fold that succeeds keeps. -/

namespace SwissArmyHammer

variable {ε α β σ : Type}

theorem exists_of_bind {x : Except ε α} {f : α → Except ε β} {r : β} (h : x >>= f = .ok r) :
    ∃ a, x = .ok a ∧ f a = .ok r := by
  cases x with
  | error err => cases h
  | ok a => exact ⟨a, rfl, h⟩

theorem exists_of_map {x : Except ε α} {f : α → β} {r : β} (h : x.map f = .ok r) :
    ∃ a, x = .ok a ∧ f a = r := by
  cases x with
  | error err => cases h
  | ok a => exact ⟨a, rfl, Except.ok.inj h⟩

theorem exists_of_mapError {ε' : Type} {x : Except ε α} {f : ε → ε'} {r : α}
    (h : x.mapError f = .ok r) : x = .ok r := by
  cases x with
  | error err => cases h
  | ok a => exact congrArg Except.ok (Except.ok.inj h)

theorem ok_of_toOption {x : Except ε α} {r : α} (h : x.toOption = some r) : x = .ok r := by
  cases x with
  | error err => cases h
  | ok a => exact congrArg Except.ok (Option.some.inj h)

theorem foldlM_induction {step : σ → α → Except ε σ} {P : List α → σ → Prop}
    (hstep : ∀ a rest s s', P (a :: rest) s → step s a = .ok s' → P rest s')
    {rest : List α} {s s' : σ} (h : P rest s) (hrun : rest.foldlM step s = .ok s') : P [] s' := by
  induction rest generalizing s with
  | nil =>
    obtain rfl : s = s' := Except.ok.inj hrun
    exact h
  | cons a rest ih =>
    obtain ⟨s₁, hs₁, hrest⟩ := exists_of_bind hrun
    exact ih (hstep a rest s s₁ h hs₁) hrest

theorem exists_foldlM {step : σ → α → Except ε σ} {l : List α}
    (hstep : ∀ s, ∀ a ∈ l, ∃ s', step s a = .ok s') (s : σ) : ∃ s', l.foldlM step s = .ok s' := by
  induction l generalizing s with
  | nil => exact ⟨s, rfl⟩
  | cons a l ih =>
    obtain ⟨s₁, hs₁⟩ := hstep s a List.mem_cons_self
    obtain ⟨s', hs'⟩ := ih (fun s b hb => hstep s b (List.mem_cons_of_mem a hb)) s₁
    refine ⟨s', ?_⟩
    rw [List.foldlM_cons, hs₁]
    exact hs'

theorem foldlM_unchanged {step : σ → α → Except ε σ} {l : List α} {s : σ}
    (hstep : ∀ a ∈ l, step s a = .ok s) : l.foldlM step s = .ok s := by
  induction l with
  | nil => rfl
  | cons a l ih =>
    rw [List.foldlM_cons, hstep a List.mem_cons_self]
    exact ih fun b hb => hstep b (List.mem_cons_of_mem a hb)

theorem mapM_eq_ok {f : α → Except ε β} {xs : List α} {ys : List β} :
    xs.mapM f = .ok ys ↔ List.Forall₂ (fun x y => f x = .ok y) xs ys := by
  induction xs generalizing ys with
  | nil =>
    rw [List.forall₂_nil_left_iff]
    exact ⟨fun h => (Except.ok.inj h).symm, fun h => h ▸ rfl⟩
  | cons x xs ih =>
    rw [List.mapM_cons, List.forall₂_cons_left_iff]
    constructor
    · intro h
      obtain ⟨y, hy, h⟩ := exists_of_bind h
      obtain ⟨ys, hys, h⟩ := exists_of_bind h
      exact ⟨y, ys, hy, ih.mp hys, (Except.ok.inj h).symm⟩
    · rintro ⟨y, ys, hy, hys, rfl⟩
      rw [hy, ih.mpr hys]
      rfl

theorem exists_of_mapM_error {f : α → Except ε β} {xs : List α} {e : ε}
    (h : xs.mapM f = .error e) : ∃ x ∈ xs, f x = .error e := by
  induction xs with
  | nil => cases h
  | cons x xs ih =>
    rw [List.mapM_cons] at h
    cases hx : f x with
    | error e' =>
      rw [hx] at h
      obtain rfl := Except.error.inj h
      exact ⟨x, List.mem_cons_self, hx⟩
    | ok y =>
      cases hxs : xs.mapM f with
      | error e' =>
        rw [hx, hxs] at h
        obtain rfl := Except.error.inj h
        obtain ⟨z, hz, hz'⟩ := ih hxs
        exact ⟨z, List.mem_cons_of_mem x hz, hz'⟩
      | ok ys =>
        rw [hx, hxs] at h
        cases h

end SwissArmyHammer
