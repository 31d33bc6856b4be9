import Mathlib.Logic.Basic

/-! Runs of a step relation, each operation recorded with the state after it. -/

namespace SwissArmyHammer

variable {α σ : Type}

inductive Trace (R : σ → α → σ → Prop) : σ → List (α × σ) → Prop
  | nil (s : σ) : Trace R s []
  | cons {s s' : σ} {a : α} {rest : List (α × σ)} (hstep : R s a s') (hrest : Trace R s' rest) :
      Trace R s ((a, s') :: rest)

namespace Trace

variable {R P : σ → α → σ → Prop} {G : σ → α → Prop} {I : σ → Prop} {s : σ}
  {steps : List (α × σ)}

/-- `P` holds of every step: of the state before it, the operation and the state after it. -/
def Every (P : σ → α → σ → Prop) : σ → List (α × σ) → Prop
  | _, [] => True
  | s, (a, s') :: rest => P s a s' ∧ Every P s' rest

instance decidableEvery [∀ s a s', Decidable (P s a s')] :
    ∀ (s : σ) (steps : List (α × σ)), Decidable (Every P s steps)
  | _, [] => inferInstanceAs (Decidable True)
  | s, (a, s') :: rest =>
    have := decidableEvery s' rest
    inferInstanceAs (Decidable (P s a s' ∧ Every P s' rest))

def record (step : σ → α → Option σ) : σ → List α → List (α × σ)
  | _, [] => []
  | s, a :: rest =>
    match step s a with
    | some s' => (a, s') :: record step s' rest
    | none => []

theorem trace_record (step : σ → α → Option σ) (s : σ) (ops : List α) :
    Trace (fun s a s' => step s a = some s') s (record step s ops) := by
  induction ops generalizing s with
  | nil => exact .nil s
  | cons a rest ih =>
    rw [record]
    split
    · rename_i s' hstep
      exact .cons hstep (ih s')
    · exact .nil s

theorem every_of_invariant (hstep : ∀ s a s', I s → G s a → R s a s' → I s' ∧ P s a s')
    (h : Trace R s steps) (hs : I s) (hmeets : Every (fun s a _ => G s a) s steps) :
    Every P s steps := by
  induction h with
  | nil s => exact trivial
  | @cons s s' a rest hnext hrest ih =>
    have hboth := hstep s a s' hs hmeets.1 hnext
    exact ⟨hboth.2, ih hboth.1 hmeets.2⟩

theorem mono {R' : σ → α → σ → Prop} (himp : ∀ s a s', R s a s' → R' s a s')
    (h : Trace R s steps) : Trace R' s steps := by
  induction h with
  | nil s => exact .nil s
  | cons hnext _ ih => exact .cons (himp _ _ _ hnext) ih

theorem every_iff (hstep : ∀ s a s', I s → R s a s' → (I s' ↔ G s a)) (h : Trace R s steps)
    (hs : I s) : Every (fun _ _ s' => I s') s steps ↔ Every (fun s a _ => G s a) s steps := by
  induction h with
  | nil s => exact Iff.rfl
  | @cons s s' a rest hnext hrest ih =>
    have hiff := hstep s a s' hs hnext
    constructor
    · intro hall
      exact ⟨hiff.mp hall.1, (ih hall.1).mp hall.2⟩
    · intro hall
      have hs' := hiff.mpr hall.1
      exact ⟨hs', (ih hs').mpr hall.2⟩

theorem Every.imp {Q : σ → α → σ → Prop} (himp : ∀ s a s', P s a s' → Q s a s') :
    ∀ {s : σ} {steps : List (α × σ)}, Every P s steps → Every Q s steps
  | _, [], _ => trivial
  | _, (_, _) :: _, h => ⟨himp _ _ _ h.1, h.2.imp himp⟩

theorem Every.and {Q : σ → α → σ → Prop} :
    ∀ {s : σ} {steps : List (α × σ)}, Every P s steps → Every Q s steps →
      Every (fun s a s' => P s a s' ∧ Q s a s') s steps
  | _, [], _, _ => trivial
  | _, (_, _) :: _, h, h' => ⟨⟨h.1, h'.1⟩, h.2.and h'.2⟩

theorem every_true : ∀ (s : σ) (steps : List (α × σ)), Every (fun _ _ _ => True) s steps
  | _, [] => trivial
  | _, (_, s') :: rest => ⟨trivial, every_true s' rest⟩

def after : σ → List (α × σ) → σ
  | s, [] => s
  | _, (_, s') :: rest => after s' rest

theorem of_append {xs ys : List (α × σ)} (h : Trace R s (xs ++ ys)) :
    Trace R s xs ∧ Trace R (after s xs) ys := by
  induction xs generalizing s with
  | nil => exact ⟨.nil s, h⟩
  | cons x xs ih =>
    cases h with
    | cons hstep hrest =>
      have hboth := ih hrest
      exact ⟨.cons hstep hboth.1, hboth.2⟩

theorem Every.of_append {xs ys : List (α × σ)} (h : Every P s (xs ++ ys)) :
    Every P s xs ∧ Every P (after s xs) ys := by
  induction xs generalizing s with
  | nil => exact ⟨trivial, h⟩
  | cons x xs ih =>
    have hboth := ih h.2
    exact ⟨⟨h.1, hboth.1⟩, hboth.2⟩

theorem after_invariant {K : α → Prop} (hstep : ∀ s a s', I s → K a → R s a s' → I s')
    (h : Trace R s steps) (hs : I s) (hall : ∀ x ∈ steps, K x.1) : I (after s steps) := by
  induction h with
  | nil s => exact hs
  | @cons s s' a rest hnext hrest ih =>
    have hs' : I s' := hstep s a s' hs (hall (a, s') List.mem_cons_self) hnext
    exact ih hs' fun x hx => hall x (List.mem_cons_of_mem _ hx)

theorem exists_wanted {W : α → Prop} (measure : σ → Nat)
    (hstep : ∀ s, I s → ∃ a s', R s a s' ∧ (W a ∨ (I s' ∧ measure s' < measure s)))
    (hs : I s) : ∃ steps, Trace R s steps ∧ ∃ x ∈ steps, W x.1 := by
  induction hn : measure s using Nat.strongRecOn generalizing s with
  | ind n ih =>
    obtain ⟨a, s', hR, hwanted | ⟨hs', hless⟩⟩ := hstep s hs
    · exact ⟨[(a, s')], .cons hR (.nil s'), (a, s'), List.mem_singleton_self _, hwanted⟩
    · obtain ⟨steps, htrace, x, hx, hwanted⟩ := ih (measure s') (hn ▸ hless) hs' rfl
      exact ⟨(a, s') :: steps, .cons hR htrace, x, List.mem_cons_of_mem _ hx, hwanted⟩

end Trace

end SwissArmyHammer
