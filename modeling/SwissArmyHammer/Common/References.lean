import Mathlib.Data.List.Nodup
import Mathlib.Logic.Relation

/-! Values that refer to one another by name, and the chains of names along such references. -/

namespace SwissArmyHammer.References

variable {ν κ : Type} {refs refs' : ν → List κ} {lookup : κ → Option ν} {v w : ν} {k : κ}
  {ks visited : List κ}

inductive Chain (refs : ν → List κ) (lookup : κ → Option ν) : ν → List κ → Prop
  | one {v : ν} {k : κ} (hk : k ∈ refs v) : Chain refs lookup v [k]
  | cons {v w : ν} {k : κ} {ks : List κ} (hk : k ∈ refs v) (hw : lookup k = some w)
      (hks : Chain refs lookup w ks) : Chain refs lookup v (k :: ks)

def Breaks (lookup : κ → Option ν) (visited ks : List κ) : Prop :=
  (∃ k, ks.getLast? = some k ∧ lookup k = none) ∨ ¬ (visited ++ ks).Nodup

def Broken (refs : ν → List κ) (lookup : κ → Option ν) (visited : List κ) (v : ν) : Prop :=
  ∃ ks, Chain refs lookup v ks ∧ Breaks lookup visited ks

def Refers (refs : ν → List κ) (lookup : κ → Option ν) (v w : ν) : Prop :=
  ∃ k ∈ refs v, lookup k = some w

abbrev Reached (refs : ν → List κ) (lookup : κ → Option ν) : ν → ν → Prop :=
  Relation.ReflTransGen (Refers refs lookup)

theorem Chain.ne_nil (h : Chain refs lookup v ks) : ks ≠ [] := by
  cases h with
  | one _ => exact List.cons_ne_nil _ _
  | cons _ _ _ => exact List.cons_ne_nil _ _

theorem getLast?_cons_of_ne_nil (h : ks ≠ []) : (k :: ks).getLast? = ks.getLast? := by grind

theorem broken_iff (hvisited : visited.Nodup) :
    Broken refs lookup visited v ↔
      ∃ k ∈ refs v, k ∈ visited ∨ lookup k = none ∨
        ∃ w, lookup k = some w ∧ Broken refs lookup (visited ++ [k]) w := by
  constructor
  · rintro ⟨ks, hchain, hbreaks⟩
    cases hchain with
    | @one _ k hk =>
      refine ⟨k, hk, ?_⟩
      rcases hbreaks with ⟨last, hlast, hnone⟩ | hrepeat
      · obtain rfl := Option.some.inj hlast
        exact .inr (.inl hnone)
      · grind
    | @cons _ w k ks hk hw hks =>
      refine ⟨k, hk, .inr (.inr ⟨w, hw, ks, hks, ?_⟩)⟩
      rcases hbreaks with ⟨last, hlast, hnone⟩ | hrepeat
      · rw [getLast?_cons_of_ne_nil hks.ne_nil] at hlast
        exact .inl ⟨last, hlast, hnone⟩
      · refine .inr ?_
        rwa [List.append_assoc, List.singleton_append]
  · rintro ⟨k, hk, hvis | hnone | ⟨w, hw, ks, hks, hbreaks⟩⟩
    · refine ⟨[k], .one hk, .inr fun hnodup => ?_⟩
      exact (List.disjoint_of_nodup_append hnodup) hvis (List.mem_singleton_self k)
    · exact ⟨[k], .one hk, .inl ⟨k, rfl, hnone⟩⟩
    · refine ⟨k :: ks, .cons hk hw hks, ?_⟩
      rcases hbreaks with ⟨last, hlast, hnone⟩ | hrepeat
      · exact .inl ⟨last, by rw [getLast?_cons_of_ne_nil hks.ne_nil, hlast], hnone⟩
      · refine .inr ?_
        rwa [List.append_assoc, List.singleton_append] at hrepeat

theorem Chain.of_reached (h : Chain refs lookup v ks)
    (hsame : ∀ w, Reached refs' lookup v w → ∀ k ∈ refs w, k ∈ refs' w) :
    Chain refs' lookup v ks := by
  induction h with
  | one hk => exact .one (hsame _ .refl _ hk)
  | cons hk hw _ ih =>
    have hk' := hsame _ .refl _ hk
    refine .cons hk' hw (ih fun u hu => hsame u ?_)
    exact .head ⟨_, hk', hw⟩ hu

theorem Broken.of_reached (h : Broken refs lookup visited v)
    (hsame : ∀ w, Reached refs' lookup v w → ∀ k ∈ refs w, k ∈ refs' w) :
    Broken refs' lookup visited v := by
  obtain ⟨ks, hchain, hbreaks⟩ := h
  exact ⟨ks, hchain.of_reached hsame, hbreaks⟩

theorem forall_reached_iff {P : ν → Prop} :
    (∀ w, Reached refs lookup v w → P w) ↔
      P v ∧ ∀ k ∈ refs v, ∀ u, lookup k = some u → ∀ w, Reached refs lookup u w → P w := by
  constructor
  · intro h
    exact ⟨h v .refl, fun k hk u hu w hw => h w (.head ⟨k, hk, hu⟩ hw)⟩
  · rintro ⟨hv, hrest⟩ w hw
    rcases Relation.ReflTransGen.cases_head hw with rfl | ⟨u, ⟨k, hk, hu⟩, hw⟩
    · exact hv
    · exact hrest k hk u hu w hw

end SwissArmyHammer.References
