import Mathlib.Data.List.Basic
import Mathlib.Data.List.Nodup
import Mathlib.Data.List.Perm.Subperm
import Mathlib.Logic.Function.Iterate
import Mathlib.Logic.Relation
import Mathlib.Order.Basic

/-! Following links one after the other, and when that comes to an end. -/

namespace SwissArmyHammer

variable {α : Type} {next : α → Option α} {x y z : α}

def Link (next : α → Option α) (x y : α) : Prop := next x = some y

inductive Ends (next : α → Option α) : α → Prop
  | stop {x : α} (h : next x = none) : Ends next x
  | step {x y : α} (h : next x = some y) (hy : Ends next y) : Ends next x

namespace Ends

theorem of_link (h : Ends next x) (hlink : Link next x y) : Ends next y := by
  cases h with
  | stop hnone =>
    rw [Link, hnone] at hlink
    cases hlink
  | step hsome hy =>
    rw [Link, hsome] at hlink
    cases hlink
    exact hy

theorem of_reach (h : Ends next x) (hreach : Relation.ReflTransGen (Link next) x y) :
    Ends next y := by
  induction hreach with
  | refl => exact h
  | tail _ hlink ih => exact ih.of_link hlink

theorem not_cyclic (h : Ends next x) : ¬ Relation.TransGen (Link next) x x := by
  induction h with
  | stop hnone =>
    intro hcycle
    obtain ⟨y, hlink, -⟩ := Relation.TransGen.head'_iff.mp hcycle
    rw [Link, hnone] at hlink
    cases hlink
  | step hsome _ ih =>
    intro hcycle
    obtain ⟨z, hlink, hback⟩ := Relation.TransGen.head'_iff.mp hcycle
    rw [Link, hsome] at hlink
    cases hlink
    exact ih (Relation.TransGen.tail' hback hsome)

theorem of_sub {other : α → Option α} (h : Ends next x)
    (hsub : ∀ a b, other a = some b → next a = some b) : Ends other x := by
  induction h with
  | @stop x hnone =>
    cases hother : other x with
    | none => exact .stop hother
    | some y =>
      rw [hsub x y hother] at hnone
      cases hnone
  | @step x y hsome _ ih =>
    cases hother : other x with
    | none => exact .stop hother
    | some z =>
      have hsame := hsub x z hother
      rw [hsome] at hsame
      cases hsame
      exact .step hother ih

end Ends

section

variable {members : List α}

open Classical in
noncomputable def ahead (next : α → Option α) (members : List α) (x : α) : Nat :=
  (members.filter fun m => Relation.TransGen (Link next) x m).length

theorem ahead_lt (hmem : y ∈ members) (hlink : Link next x y)
    (hcycle : ¬ Relation.TransGen (Link next) y y) :
    ahead next members y < ahead next members x := by
  classical
  have hsub : (members.filter fun m => Relation.TransGen (Link next) y m).Sublist
      (members.filter fun m => Relation.TransGen (Link next) x m) := by
    apply List.monotone_filter_right
    intro m hm
    have hy : Relation.TransGen (Link next) y m := by simpa using hm
    simpa using Relation.TransGen.head hlink hy
  refine Nat.lt_of_le_of_ne hsub.length_le fun heq => ?_
  have hsame := hsub.eq_of_length heq
  have hin : y ∈ members.filter fun m => Relation.TransGen (Link next) x m :=
    List.mem_filter.mpr ⟨hmem, by simpa using Relation.TransGen.single hlink⟩
  rw [← hsame] at hin
  exact hcycle (by simpa using (List.mem_filter.mp hin).2)

theorem ends_of_acyclic (hmembers : ∀ a b, next a = some b → a ∈ members)
    (hacyclic : ∀ a, Relation.ReflTransGen (Link next) x a →
      ¬ Relation.TransGen (Link next) a a) : Ends next x := by
  generalize hn : ahead next members x = n
  induction n using Nat.strongRecOn generalizing x with
  | ind n ih =>
    cases hx : next x with
    | none => exact .stop hx
    | some y =>
      cases hy : next y with
      | none => exact .step hx (.stop hy)
      | some z =>
        have hcycle := hacyclic y (Relation.ReflTransGen.single hx)
        have hlt := ahead_lt (hmembers y z hy) hx hcycle
        rw [hn] at hlt
        exact .step hx (ih _ hlt (fun a ha => hacyclic a (Relation.ReflTransGen.head hx ha)) rfl)

theorem ends_iff (hmembers : ∀ a b, next a = some b → a ∈ members) :
    Ends next x ↔ ∀ a, Relation.ReflTransGen (Link next) x a →
      ¬ Relation.TransGen (Link next) a a :=
  ⟨fun h _ ha => (h.of_reach ha).not_cyclic, ends_of_acyclic hmembers⟩

end

end SwissArmyHammer

/-! A step that stays or goes up: repeated among finitely many, it comes to rest. -/

namespace SwissArmyHammer

variable {α β : Type} [Preorder β]

structure Advances (f : α → α) (value : α → β) (members : List α) : Prop where
  mem : ∀ x ∈ members, f x ∈ members
  stays_or_lt : ∀ x ∈ members, f x = x ∨ value x < value (f x)

namespace Advances

variable {f : α → α} {value : α → β} {members : List α} {x : α}

theorem iterate_mem (h : Advances f value members) (hx : x ∈ members) (n : Nat) :
    f^[n] x ∈ members := by
  induction n with
  | zero => exact hx
  | succ n ih =>
    rw [Function.iterate_succ_apply']
    exact h.mem _ ih

theorem rests {n : Nat} (hrest : f (f^[n] x) = f^[n] x) (k : Nat) :
    f^[n + k] x = f^[n] x := by
  induction k with
  | zero => rfl
  | succ k ih =>
    rw [← Nat.add_assoc, Function.iterate_succ_apply', ih]
    exact hrest

theorem lt_of_not_rests (h : Advances f value members) (hx : x ∈ members) {n k : Nat}
    (hlt : n < k) (hmoves : ∀ m < k, f (f^[m] x) ≠ f^[m] x) :
    value (f^[n] x) < value (f^[k] x) := by
  induction hlt with
  | refl =>
    rw [Function.iterate_succ_apply']
    rcases h.stays_or_lt _ (h.iterate_mem hx n) with hstay | hup
    · exact absurd hstay (hmoves n (by omega))
    · exact hup
  | @step k hle ih =>
    have hbefore := ih fun m hm => hmoves m (by omega)
    rw [Function.iterate_succ_apply']
    rcases h.stays_or_lt _ (h.iterate_mem hx k) with hstay | hup
    · exact absurd hstay (hmoves k (by omega))
    · exact lt_trans hbefore hup

theorem rests_of_eq (h : Advances f value members) (hx : x ∈ members) {n k : Nat} (hlt : n < k)
    (heq : f^[n] x = f^[k] x) : f (f^[n] x) = f^[n] x := by
  by_contra hmoves
  have hlater : ∀ m < k, f (f^[m] x) ≠ f^[m] x := by
    intro m hm hrest
    rcases Nat.lt_or_ge n m with hnm | hmn
    · have hk : f^[k] x = f^[m] x := by
        have hsame := rests hrest (k - m)
        rwa [show m + (k - m) = k by omega] at hsame
      rw [← hk, ← heq] at hrest
      exact hmoves hrest
    · have hn : f^[n] x = f^[m] x := by
        have hsame := rests hrest (n - m)
        rwa [show m + (n - m) = n by omega] at hsame
      rw [← hn] at hrest
      exact hmoves hrest
  have hup := h.lt_of_not_rests hx hlt hlater
  rw [heq] at hup
  exact lt_irrefl _ hup

theorem rests_of_length_le (h : Advances f value members) (hx : x ∈ members) {n : Nat}
    (hn : members.length ≤ n) : f (f^[n] x) = f^[n] x := by
  by_contra hmoves
  have hbefore : ∀ m < n + 1, f (f^[m] x) ≠ f^[m] x := by
    intro m hm hrest
    have hsame := rests hrest (n - m)
    rw [show m + (n - m) = n by omega] at hsame
    rw [← hsame] at hrest
    exact hmoves hrest
  have hnodup : ((List.range (n + 1)).map fun m => f^[m] x).Nodup := by
    refine List.Nodup.map_on (fun i hi j hj hij => ?_) List.nodup_range
    rw [List.mem_range] at hi hj
    rcases Nat.lt_trichotomy i j with hlt | heq | hgt
    · exact absurd (h.rests_of_eq hx hlt hij) (hbefore i hi)
    · exact heq
    · exact absurd (h.rests_of_eq hx hgt hij.symm) (hbefore j hj)
  have hsubset : ((List.range (n + 1)).map fun m => f^[m] x) ⊆ members := by
    intro y hy
    obtain ⟨m, -, rfl⟩ := List.mem_map.mp hy
    exact h.iterate_mem hx m
  have hle := (List.subperm_of_subset hnodup hsubset).length_le
  rw [List.length_map, List.length_range] at hle
  omega

end Advances

end SwissArmyHammer
