import Mathlib.Data.List.Basic
import Mathlib.Data.Nat.Find
import Mathlib.Logic.Relation
import Mathlib.Tactic.SplitIfs

/-! Calls that run interleaved on a shared state: each call is a local state that is advanced one
atomic step at a time, until it returns. -/

namespace SwissArmyHammer.Concurrency

variable {σ ρ : Type}

/-- What may begin in which state, and the next step of a call: the shared state after it, and the
call itself unless it returns. -/
structure Protocol (σ ρ : Type) where
  starts : σ → ρ → Bool
  advance : σ → ρ → σ × Option ρ

abbrev Config (σ ρ : Type) := σ × List ρ

/-- A step is one that `ok` allows, for the state, the call and the other calls before it. -/
inductive Step (P : Protocol σ ρ) (ok : σ → ρ → List ρ → Prop) : Config σ ρ → Config σ ρ → Prop
  | start {s : σ} {r : ρ} (calls : List ρ) (h : P.starts s r = true) :
      Step P ok (s, calls) (s, r :: calls)
  | advance {s : σ} {r : ρ} (pre post : List ρ) (h : ok s r (pre ++ post)) :
      Step P ok (s, pre ++ r :: post)
        ((P.advance s r).1, pre ++ (P.advance s r).2.toList ++ post)

abbrev Run (P : Protocol σ ρ) (ok : σ → ρ → List ρ → Prop) :=
  Relation.ReflTransGen (Step P ok)

section

variable {P : Protocol σ ρ} {ok : σ → ρ → List ρ → Prop} {c c' : Config σ ρ}

theorem Run.invariant {I : Config σ ρ → Prop} (hstep : ∀ c c', Step P ok c c' → I c → I c')
    (h : Run P ok c c') (hc : I c) : I c' := by
  induction h with
  | refl => exact hc
  | tail _ hlast ih => exact hstep _ _ hlast ih

theorem Run.invariant_of_perm {I : σ → List ρ → Prop}
    (hperm : ∀ s calls calls', calls.Perm calls' → I s calls → I s calls')
    (hstart : ∀ s r calls, P.starts s r = true → I s calls → I s (r :: calls))
    (hadvance : ∀ s r others, ok s r others → I s (r :: others) →
      I (P.advance s r).1 ((P.advance s r).2.toList ++ others))
    (h : Run P ok c c') (hc : I c.1 c.2) : I c'.1 c'.2 := by
  refine Run.invariant (I := fun c => I c.1 c.2) (fun c c' hstep hc => ?_) h hc
  cases hstep with
  | start calls hstarts => exact hstart _ _ _ hstarts hc
  | @advance s r pre post hok =>
    have hfirst : I s (r :: (pre ++ post)) := hperm _ _ _ List.perm_middle hc
    have hnext : ((P.advance s r).2.toList ++ (pre ++ post)).Perm
        (pre ++ (P.advance s r).2.toList ++ post) := by
      rw [← List.append_assoc]
      exact List.perm_append_comm.append_right post
    exact hperm _ _ _ hnext (hadvance _ _ _ hok hfirst)

theorem Run.invariant_state {I : σ → Prop}
    (hadvance : ∀ s r others, ok s r others → I s → I (P.advance s r).1)
    (h : Run P ok c c') (hc : I c.1) : I c'.1 :=
  Run.invariant_of_perm (I := fun s _ => I s) (fun _ _ _ _ hI => hI) (fun _ _ _ _ hI => hI)
    hadvance h hc

theorem Run.local {L : σ → ρ → Prop} (hstart : ∀ s r, P.starts s r = true → L s r)
    (hown : ∀ s r r', L s r → (P.advance s r).2 = some r' → L (P.advance s r).1 r')
    (hother : ∀ s r other, L s r → L s other → L (P.advance s other).1 r)
    (h : Run P ok c c') (hc : ∀ r ∈ c.2, L c.1 r) : ∀ r ∈ c'.2, L c'.1 r := by
  refine Run.invariant (I := fun c => ∀ r ∈ c.2, L c.1 r) (fun c c' hstep hc => ?_) h hc
  cases hstep with
  | start calls hstarts =>
    grind
  | @advance s r pre post hok =>
    grind

def GoodOrOwed (good : σ → Prop) (owes : ρ → Prop) (s : σ) (calls : List ρ) : Prop :=
  good s ∨ ∃ r ∈ calls, owes r

theorem Run.settles (L : σ → ρ → Prop) (good : σ → Prop) (owes : ρ → Prop)
    (hstart : ∀ s r, P.starts s r = true → L s r)
    (hown : ∀ s r r', L s r → (P.advance s r).2 = some r' → L (P.advance s r).1 r')
    (hother : ∀ s r other, L s r → L s other → L (P.advance s other).1 r)
    (hstep : ∀ s r others, L s r → ok s r others → (owes r ∨ good s) →
      (good (P.advance s r).1 ∨ ∃ r', (P.advance s r).2 = some r' ∧ owes r') ∨
        ∃ other ∈ others, owes other)
    {s s' : σ} (h : Run P ok (s, []) (s', [])) (hgood : good s) : good s' := by
  have hboth : (∀ r ∈ ([] : List ρ), L s' r) ∧ GoodOrOwed good owes s' [] := by
    refine Run.invariant
      (I := fun c => (∀ r ∈ c.2, L c.1 r) ∧ GoodOrOwed good owes c.1 c.2)
      (fun c c' hlast hc => ?_) h ⟨by simp, .inl hgood⟩
    refine ⟨Run.local hstart hown hother (.single hlast) hc.1, ?_⟩
    cases hlast with
    | start calls hstarts =>
      rcases hc.2 with hgood | ⟨r, hr, howes⟩
      · exact .inl hgood
      · exact .inr ⟨r, List.mem_cons_of_mem _ hr, howes⟩
    | @advance s r pre post hok =>
      have hL : L s r := hc.1 r (by simp)
      have hothers : ∀ other, other ∈ pre ++ post →
          other ∈ pre ++ (P.advance s r).2.toList ++ post := by
        intro other hmem
        rcases List.mem_append.mp hmem with hmem | hmem
        · simp [hmem]
        · simp [hmem]
      have hcases : (owes r ∨ good s) ∨ ∃ other ∈ pre ++ post, owes other := by
        rcases hc.2 with hgood | ⟨other, hmem, howes⟩
        · exact .inl (.inr hgood)
        · grind
      rcases hcases with hcases | ⟨other, hmem, howes⟩
      · rcases hstep s r (pre ++ post) hL hok hcases with (hgood | ⟨r', hr', howes⟩) |
          ⟨other, hmem, howes⟩
        · exact .inl hgood
        · exact .inr ⟨r', by simp [hr'], howes⟩
        · exact .inr ⟨other, hothers other hmem, howes⟩
      · exact .inr ⟨other, hothers other hmem, howes⟩
  rcases hboth.2 with hgood | ⟨r, hr, -⟩
  · exact hgood
  · simp at hr

end

inductive Move (ρ : Type) where
  | start (r : ρ)
  | advance (i : Nat)

def play (P : Protocol σ ρ) (c : Config σ ρ) : List (Move ρ) → Option (Config σ ρ)
  | [] => some c
  | .start r :: moves => if P.starts c.1 r then play P (c.1, r :: c.2) moves else none
  | .advance i :: moves =>
    match c.2[i]? with
    | none => none
    | some r => play P ((P.advance c.1 r).1,
        c.2.take i ++ (P.advance c.1 r).2.toList ++ c.2.drop (i + 1)) moves

theorem run_of_play {P : Protocol σ ρ} {c c' : Config σ ρ} (moves : List (Move ρ))
    (h : play P c moves = some c') : Run P (fun _ _ _ => True) c c' := by
  induction moves generalizing c with
  | nil =>
    rw [play, Option.some.injEq] at h
    rw [h]
  | cons move moves ih =>
    obtain ⟨s, calls⟩ := c
    cases move with
    | start r =>
      rw [play] at h
      split_ifs at h with hstarts
      exact .head (.start calls hstarts) (ih h)
    | advance i =>
      simp only [play] at h
      split at h
      · simp at h
      · rename_i r hr
        have hsplit : calls = calls.take i ++ r :: calls.drop (i + 1) := by
          obtain ⟨hi, rfl⟩ := List.getElem?_eq_some_iff.mp hr
          rw [← List.drop_eq_getElem_cons hi, List.take_append_drop]
        have hstep : Step P (fun _ _ _ => True) (s, calls.take i ++ r :: calls.drop (i + 1))
            ((P.advance s r).1,
              calls.take i ++ (P.advance s r).2.toList ++ calls.drop (i + 1)) :=
          .advance _ _ trivial
        rw [← hsplit] at hstep
        exact .head hstep (ih h)

end SwissArmyHammer.Concurrency

/-! A fair read-write lock: who waits has drawn a ticket, and no one overtakes an earlier one. -/

namespace SwissArmyHammer.Concurrency

inductive Stand
  | away
  | holdsRead
  | holdsWrite
  | waitsRead (ticket : Nat)
  | waitsWrite (ticket : Nat)
  deriving DecidableEq

variable {stands : List Stand}

def GrantsRead (stands : List Stand) (ticket : Nat) : Prop :=
  .holdsWrite ∉ stands ∧ ∀ other, .waitsWrite other ∈ stands → ticket ≤ other

def GrantsWrite (stands : List Stand) (ticket : Nat) : Prop :=
  .holdsRead ∉ stands ∧ .holdsWrite ∉ stands ∧
    (∀ other, .waitsRead other ∈ stands → ticket ≤ other) ∧
    ∀ other, .waitsWrite other ∈ stands → ticket ≤ other

def Stand.Below (n : Nat) : Stand → Prop
  | .waitsRead t | .waitsWrite t => t < n
  | .away | .holdsRead | .holdsWrite => True

theorem Stand.Below.mono {m n : Nat} {stand : Stand} (h : Stand.Below m stand) (hmn : m ≤ n) :
    Stand.Below n stand := by
  cases stand with
  | waitsRead t => exact Nat.lt_of_lt_of_le h hmn
  | waitsWrite t => exact Nat.lt_of_lt_of_le h hmn
  | _ => trivial

theorem exists_granted (hread : .holdsRead ∉ stands) (hwrite : .holdsWrite ∉ stands)
    (hwaits : ∃ ticket, .waitsRead ticket ∈ stands ∨ .waitsWrite ticket ∈ stands) :
    ∃ ticket, (.waitsRead ticket ∈ stands ∧ GrantsRead stands ticket) ∨
      (.waitsWrite ticket ∈ stands ∧ GrantsWrite stands ticket) := by
  classical
  have hmin : ∀ other, (.waitsRead other ∈ stands ∨ .waitsWrite other ∈ stands) →
      Nat.find hwaits ≤ other := fun other h => Nat.find_min' hwaits h
  refine ⟨Nat.find hwaits, ?_⟩
  rcases Nat.find_spec hwaits with hfirst | hfirst
  · exact .inl ⟨hfirst, hwrite, fun other h => hmin other (.inr h)⟩
  · exact .inr ⟨hfirst, hread, hwrite, fun other h => hmin other (.inl h),
      fun other h => hmin other (.inr h)⟩

end SwissArmyHammer.Concurrency
