import Mathlib.Data.List.Basic
import Mathlib.Logic.Function.Iterate

/-! Parsing expression grammars as parser combinators: choice is ordered, repetition is greedy,
and nothing is undone once it succeeded. -/

namespace SwissArmyHammer.Text

abbrev Peg (σ α : Type) := List σ → Option (α × List σ)

namespace Peg

variable {σ α β : Type}

def fail : Peg σ α := fun _ => none

def just [BEq σ] (word : List σ) : Peg σ Unit := fun s =>
  if word.isPrefixOf s then some ((), s.drop word.length) else none

def any (p : σ → Bool) : Peg σ σ
  | [] => none
  | c :: s => if p c then some (c, s) else none

def map (f : α → β) (p : Peg σ α) : Peg σ β := fun s => (p s).map fun r => (f r.1, r.2)

def ignoreThen (p : Peg σ α) (q : Peg σ β) : Peg σ β := fun s => (p s).bind fun r => q r.2

def thenIgnore (p : Peg σ α) (q : Peg σ β) : Peg σ α := fun s =>
  (p s).bind fun r => (q r.2).map fun r' => (r.1, r'.2)

def rewind (p : Peg σ α) : Peg σ α := fun s => (p s).map fun r => (r.1, s)

def choice (ps : List (Peg σ α)) : Peg σ α := fun s => ps.findSome? fun p => p s

def orNot (p : Peg σ α) : Peg σ (Option α) := fun s =>
  match p s with
  | some (a, rest) => some (some a, rest)
  | none => some (none, s)

def padded (ws : σ → Bool) (p : Peg σ α) : Peg σ α := fun s =>
  (p (s.dropWhile ws)).map fun r => (r.1, r.2.dropWhile ws)

def repeated (p : Peg σ α) (s : List σ) : Option (List α × List σ) :=
  match p s with
  | some (a, rest) =>
    if rest.length < s.length then (repeated p rest).map fun r => (a :: r.1, r.2) else some ([], s)
  | none => some ([], s)
termination_by s.length

def atLeast (n : Nat) (p : Peg σ (List α)) : Peg σ (List α) := fun s =>
  (p s).filter fun r => n ≤ r.1.length

def foldl (p : Peg σ α) (items : Peg σ (List β)) (f : α → β → α) : Peg σ α := fun s =>
  (p s).bind fun r => map (fun bs => bs.foldl f r.1) items r.2

def foldr (items : Peg σ (List β)) (p : Peg σ α) (f : β → α → α) : Peg σ α := fun s =>
  (items s).bind fun r => map (fun a => r.1.foldr f a) p r.2

def delimitedBy (p : Peg σ α) (start close : Peg σ β) : Peg σ α :=
  thenIgnore (ignoreThen start p) close

def recursive (f : Peg σ α → Peg σ α) : Peg σ α := fun s => f^[s.length + 1] fail s

section

variable {p : Peg σ α} {s rest : List σ} {a : α}

theorem just_eq_some [BEq σ] [LawfulBEq σ] {word : List σ} :
    just word s = some ((), rest) ↔ s = word ++ rest := by
  unfold just
  split
  · rename_i h
    obtain ⟨t, rfl⟩ := List.isPrefixOf_iff_prefix.mp h
    simp
  · grind

theorem just_eq_none [BEq σ] [LawfulBEq σ] {c : σ} {word : List σ} (h : s.head? ≠ some c) :
    just (c :: word) s = none := by
  cases hs : just (c :: word) s with
  | none => rfl
  | some r =>
    rw [just_eq_some.mp hs] at h
    exact absurd rfl h

theorem any_eq_some {q : σ → Bool} {c : σ} :
    any q s = some (c, rest) ↔ s = c :: rest ∧ q c = true := by
  cases s with
  | nil => simp [any]
  | cons d s =>
    by_cases hd : q d = true
    · simp only [any, hd, if_true, Option.some.injEq, Prod.mk.injEq, List.cons.injEq]
      constructor
      · rintro ⟨rfl, rfl⟩
        exact ⟨⟨rfl, rfl⟩, hd⟩
      · rintro ⟨⟨rfl, rfl⟩, -⟩
        exact ⟨rfl, rfl⟩
    · simp only [any, hd, List.cons.injEq]
      constructor
      · simp
      · rintro ⟨⟨rfl, rfl⟩, hc⟩
        exact absurd hc hd

theorem map_eq_some {f : α → β} {b : β} :
    map f p s = some (b, rest) ↔ ∃ a, p s = some (a, rest) ∧ f a = b := by
  simp [map]

theorem ignoreThen_eq_some {q : Peg σ β} {b : β} : ignoreThen p q s = some (b, rest) ↔
    ∃ a mid, p s = some (a, mid) ∧ q mid = some (b, rest) := by
  simp [ignoreThen, Option.bind_eq_some_iff]

theorem thenIgnore_eq_some {q : Peg σ β} : thenIgnore p q s = some (a, rest) ↔
    ∃ mid b, p s = some (a, mid) ∧ q mid = some (b, rest) := by
  simp [thenIgnore, Option.bind_eq_some_iff]

theorem rewind_eq_some : rewind p s = some (a, rest) ↔ (∃ mid, p s = some (a, mid)) ∧ s = rest := by
  simp [rewind]

theorem atLeast_eq_some {n : Nat} {p : Peg σ (List α)} {as : List α} :
    atLeast n p s = some (as, rest) ↔ p s = some (as, rest) ∧ n ≤ as.length := by
  simp [atLeast, Option.filter_eq_some_iff]

theorem padded_eq_some {ws : σ → Bool} : padded ws p s = some (a, rest) ↔
    ∃ after, p (s.dropWhile ws) = some (a, after) ∧ after.dropWhile ws = rest := by
  simp [padded]

theorem padded_eq_none {ws : σ → Bool} : padded ws p s = none ↔ p (s.dropWhile ws) = none := by
  simp [padded]

theorem repeated_of_none (h : p s = none) : repeated p s = some ([], s) := by
  rw [repeated]
  simp [h]

theorem repeated_of_some (h : p s = some (a, rest)) (hlt : rest.length < s.length) :
    repeated p s = (repeated p rest).map fun r => (a :: r.1, r.2) := by
  rw [repeated]
  simp [h, hlt]

theorem repeated_any (q : σ → Bool) (s : List σ) :
    repeated (any q) s = some (s.takeWhile q, s.dropWhile q) := by
  induction s with
  | nil => exact repeated_of_none rfl
  | cons c s ih =>
    by_cases hc : q c = true
    · have hany : any q (c :: s) = some (c, s) := by simp [any, hc]
      rw [repeated_of_some hany (by simp), ih]
      simp [hc]
    · have hany : any q (c :: s) = none := by simp [any, hc]
      rw [repeated_of_none hany]
      simp [hc]

end

section

variable {p : Peg σ α} {q : Peg σ β} {s rest : List σ} {a e : α} {b : β} {f : α → β → α}
  {g : β → α → α}

def loop (q : Peg σ β) (f : α → β → α) (a : α) : Peg σ α :=
  map (fun bs => bs.foldl f a) (repeated q)

theorem foldl_of_some (h : p s = some (a, rest)) :
    foldl p (repeated q) f s = loop q f a rest := by
  simp [foldl, loop, h]

theorem foldl_of_none (h : p s = none) : foldl p (repeated q) f s = none := by
  simp [foldl, h]

theorem loop_of_none (h : q s = none) : loop q f a s = some (a, s) := by
  simp [loop, map, repeated_of_none h]

theorem loop_of_some (h : q s = some (b, rest)) (hlt : rest.length < s.length) :
    loop q f a s = loop q f (f a b) rest := by
  simp only [loop, map, repeated_of_some h hlt, Option.map_map]
  rfl

theorem loop_invariant {I : α → List σ → Prop}
    (hstep : ∀ a s b rest, I a s → q s = some (b, rest) → I (f a b) rest)
    (hlt : ∀ s b rest, q s = some (b, rest) → rest.length < s.length) (hI : I a s)
    (h : loop q f a s = some (e, rest)) : I e rest := by
  induction hn : s.length using Nat.strongRecOn generalizing s a with
  | ind n ih =>
    cases hq : q s with
    | none =>
      rw [loop_of_none hq] at h
      obtain ⟨rfl, rfl⟩ := Prod.mk.inj (Option.some.inj h)
      exact hI
    | some r =>
      have hless := hlt s r.1 r.2 hq
      rw [loop_of_some hq hless] at h
      exact ih r.2.length (by omega) (hstep a s r.1 r.2 hI hq) h rfl

theorem foldr_of_none (h : q s = none) : foldr (repeated q) p g s = p s := by
  simp [foldr, repeated_of_none h, map]

theorem foldr_of_some (h : q s = some (b, rest)) (hlt : rest.length < s.length) :
    foldr (repeated q) p g s = map (g b) (foldr (repeated q) p g) rest := by
  simp only [foldr, repeated_of_some h hlt, map]
  cases repeated q rest with
  | none => rfl
  | some r => cases hp : p r.2 <;> simp [hp]

theorem foldr_invariant {I : List σ → α → List σ → Prop}
    (hbase : ∀ s a rest, p s = some (a, rest) → I s a rest)
    (hstep : ∀ s b mid a rest, q s = some (b, mid) → I mid a rest → I s (g b a) rest)
    (hlt : ∀ s b rest, q s = some (b, rest) → rest.length < s.length)
    (h : foldr (repeated q) p g s = some (a, rest)) : I s a rest := by
  induction hn : s.length using Nat.strongRecOn generalizing s a with
  | ind n ih =>
    cases hq : q s with
    | none =>
      rw [foldr_of_none hq] at h
      exact hbase s a rest h
    | some r =>
      have hless := hlt s r.1 r.2 hq
      rw [foldr_of_some hq hless, map, Option.map_eq_some_iff] at h
      obtain ⟨⟨a', rest'⟩, hr, heq⟩ := h
      obtain ⟨rfl, rfl⟩ := Prod.mk.inj heq
      exact hstep s r.1 r.2 a' rest' hq (ih r.2.length (by omega) hr rfl)

end

end Peg

end SwissArmyHammer.Text
