import SwissArmyHammer.Concurrency.Interleaving
import SwissArmyHammer.Entities.Entity

/-! The memoized outputs of one entity under reads and mutations that run interleaved, and the
epoch that keeps stale outputs from being stored. -/

namespace SwissArmyHammer.Cache.Memoization

open Entities Concurrency

structure State where
  entity : Option Fields
  epoch : Nat
  outputs : Option Fields
  deriving DecidableEq

inductive Pc where
  | read
  | getDerivedOutputs (fields : Fields)
  | derive (fields : Fields) (cached : Option Fields) (observedEpoch : Nat)
  | tryMemoize (observedEpoch : Nat) (fresh : Fields)
  | mutate (entity : Fields)
  | bumpEpoch
  | clearOutputs
  deriving DecidableEq

variable (engine : ComputeEngine) (query : EntityQueryFn) (defs : List FieldDef)

def advance (s : State) : Pc → State × Option Pc
  | .read => (s, s.entity.map .getDerivedOutputs)
  | .getDerivedOutputs fields => (s, some (.derive fields s.outputs s.epoch))
  | .derive fields cached observedEpoch =>
    let fresh := if cached.isSome then none else some ∅
    match engine.deriveFields query cached defs fields fresh with
    | .ok (_, some fresh) =>
      (s, if fresh.isEmpty then none else some (.tryMemoize observedEpoch fresh))
    | _ => (s, none)
  | .tryMemoize observedEpoch fresh =>
    (if s.epoch = observedEpoch then { s with outputs := some fresh } else s, none)
  | .mutate entity => ({ s with entity := some entity }, some .bumpEpoch)
  | .bumpEpoch => ({ s with epoch := s.epoch + 1 }, some .clearOutputs)
  | .clearOutputs => ({ s with outputs := none }, none)

def State.starts (s : State) : Pc → Bool
  | .read => s.entity.isSome
  | .mutate _ => true
  | _ => false

def protocol : Protocol State Pc where
  starts := State.starts
  advance := advance engine query defs

def outputs (fields : Fields) : Option Fields :=
  match engine.deriveFields query none defs fields (some ∅) with
  | .ok (_, fresh) => fresh
  | .error _ => none

def Fresh (s : State) : Prop :=
  ∀ o, s.outputs = some o → s.entity.bind (outputs engine query defs) = some o

/-- A read that finds nothing memoized has taken the entity that is in the map, or a mutation has
still to bump the epoch. -/
def Timely (s : State) (pc : Pc) (others : List Pc) : Prop :=
  ∀ fields, pc = .getDerivedOutputs fields → s.outputs = none →
    s.entity = some fields ∨ .bumpEpoch ∈ others

section

variable {engine query defs} {s s' : State} {pc : Pc} {others calls : List Pc}

def Pc.Observed (s : State) : Pc → Prop
  | .derive _ _ observedEpoch | .tryMemoize observedEpoch _ => observedEpoch ≤ s.epoch
  | _ => True

/-- While the epoch is the one that a cold read has seen, the entity is the one that it derives
from. -/
def Pc.Current (engine : ComputeEngine) (query : EntityQueryFn) (defs : List FieldDef)
    (s : State) : Pc → Prop
  | .derive fields none observedEpoch => observedEpoch = s.epoch → s.entity = some fields
  | .tryMemoize observedEpoch fresh => observedEpoch = s.epoch →
      s.entity.bind (outputs engine query defs) = some fresh
  | _ => True

structure Inv (engine : ComputeEngine) (query : EntityQueryFn) (defs : List FieldDef)
    (s : State) (calls : List Pc) : Prop where
  observed : ∀ pc ∈ calls, pc.Observed s
  current : .bumpEpoch ∈ calls ∨ ∀ pc ∈ calls, pc.Current engine query defs s
  fresh : .bumpEpoch ∈ calls ∨ .clearOutputs ∈ calls ∨ Fresh engine query defs s

theorem observed_mono (hle : s.epoch ≤ s'.epoch) (h : pc.Observed s) : pc.Observed s' := by
  cases pc with
  | derive fields cached observedEpoch => exact Nat.le_trans h hle
  | tryMemoize observedEpoch fresh => exact Nat.le_trans h hle
  | _ => trivial

theorem current_of_epoch_lt (hlt : s.epoch < s'.epoch) (h : pc.Observed s) :
    pc.Current engine query defs s' := by
  cases pc with
  | derive fields cached observedEpoch =>
    have hle : observedEpoch ≤ s.epoch := h
    cases cached with
    | none =>
      intro heq
      omega
    | some outputs => trivial
  | tryMemoize observedEpoch fresh =>
    have hle : observedEpoch ≤ s.epoch := h
    intro heq
    omega
  | _ => trivial

theorem Inv.next (h : Inv engine query defs s (pc :: others)) (next : Option Pc)
    (hbump : .bumpEpoch ≠ pc) (hclear : .clearOutputs ≠ pc)
    (hobserved : ∀ pc', next = some pc' → pc'.Observed s)
    (hcurrent : .bumpEpoch ∈ others ∨ ∀ pc', next = some pc' → pc'.Current engine query defs s) :
    Inv engine query defs s (next.toList ++ others) := by
  have hkept : ∀ pc', pc' ≠ pc → pc' ∈ pc :: others → pc' ∈ next.toList ++ others := by
    intro pc' hne hmem
    exact List.mem_append_right _ ((List.mem_cons.mp hmem).resolve_left hne)
  refine ⟨?_, ?_, ?_⟩
  · intro pc' hmem
    rcases List.mem_append.mp hmem with hmem | hmem
    · exact hobserved pc' (Option.mem_toList.mp hmem)
    · exact h.observed pc' (List.mem_cons_of_mem _ hmem)
  · rcases h.current with hmem | hall
    · exact .inl (hkept _ hbump hmem)
    · grind
  · exact h.fresh.imp (hkept _ hbump) (Or.imp_left (hkept _ hclear))

theorem derive_cold {fields : Fields} {observedEpoch : Nat} {pc' : Pc}
    (h : (advance engine query defs s (.derive fields none observedEpoch)).2 = some pc') :
    ∃ fresh, pc' = .tryMemoize observedEpoch fresh ∧
      outputs engine query defs fields = some fresh := by
  cases hderive : engine.deriveFields query none defs fields (some ∅) with
  | error e => simp [advance, hderive] at h
  | ok result =>
    obtain ⟨fields', fresh⟩ := result
    cases fresh with
    | none => simp [advance, hderive] at h
    | some fresh =>
      simp only [advance, Option.isSome_none, Bool.false_eq_true, if_false, hderive] at h
      split_ifs at h
      refine ⟨fresh, (Option.some.inj h).symm, ?_⟩
      rw [outputs, hderive]

theorem derive_warm {fields cached : Fields} {observedEpoch : Nat} :
    (advance engine query defs s (.derive fields (some cached) observedEpoch)).2 = none := by
  cases hderive : engine.deriveFields query (some cached) defs fields none with
  | error e => simp [advance, hderive]
  | ok result =>
    obtain ⟨fields', fresh⟩ := result
    have hfresh : fresh = none := ComputeEngine.deriveFields_none hderive
    simp [advance, hderive, hfresh]

theorem derive_same {fields : Fields} {cached : Option Fields} {observedEpoch : Nat} :
    (advance engine query defs s (.derive fields cached observedEpoch)).1 = s := by
  rw [advance]
  split
  · rfl
  · rfl

theorem inv_derive {fields : Fields} {cached : Option Fields} {observedEpoch : Nat}
    (h : Inv engine query defs s (.derive fields cached observedEpoch :: others)) :
    Inv engine query defs s
      ((advance engine query defs s (.derive fields cached observedEpoch)).2.toList ++ others) := by
  cases cached with
  | some cached =>
    rw [derive_warm]
    exact h.next none (by simp) (by simp) (by simp) (by simp)
  | none =>
    refine h.next _ (by simp) (by simp) ?_ ?_
    · intro pc' hpc'
      have hle : observedEpoch ≤ s.epoch := h.observed _ List.mem_cons_self
      obtain ⟨fresh, rfl, -⟩ := derive_cold hpc'
      exact hle
    · rcases h.current with hmem | hall
      · exact .inl ((List.mem_cons.mp hmem).resolve_left (by simp))
      · refine .inr fun pc' hpc' => ?_
        obtain ⟨fresh, rfl, hfresh⟩ := derive_cold hpc'
        intro hepoch
        have hentity : s.entity = some fields := hall _ List.mem_cons_self hepoch
        rw [hentity]
        exact hfresh

theorem inv_step (hok : Timely s pc others) (h : Inv engine query defs s (pc :: others)) :
    Inv engine query defs (advance engine query defs s pc).1
      ((advance engine query defs s pc).2.toList ++ others) := by
  have hobserved : ∀ pc' ∈ others, pc'.Observed s := fun pc' hmem =>
    h.observed pc' (List.mem_cons_of_mem _ hmem)
  cases pc with
  | read =>
    have hnext : ∀ pc', (s.entity.map Pc.getDerivedOutputs) = some pc' →
        ∃ fields, pc' = .getDerivedOutputs fields := by
      intro pc' hpc'
      obtain ⟨fields, -, rfl⟩ := Option.map_eq_some_iff.mp hpc'
      exact ⟨fields, rfl⟩
    refine h.next _ (by simp) (by simp) ?_ (.inr ?_)
    · intro pc' hpc'
      obtain ⟨fields, rfl⟩ := hnext pc' hpc'
      trivial
    · intro pc' hpc'
      obtain ⟨fields, rfl⟩ := hnext pc' hpc'
      trivial
  | getDerivedOutputs fields =>
    refine h.next _ (by simp) (by simp) ?_ ?_
    · intro pc' hpc'
      obtain rfl := Option.some.inj hpc'
      exact Nat.le_refl s.epoch
    · cases hcached : s.outputs with
      | none =>
        refine (hok fields rfl hcached).symm.imp_right fun hentity pc' hpc' => ?_
        obtain rfl := Option.some.inj hpc'
        rw [hcached]
        exact fun _ => hentity
      | some cached =>
        refine .inr fun pc' hpc' => ?_
        obtain rfl := Option.some.inj hpc'
        rw [hcached]
        trivial
  | derive fields cached observedEpoch =>
    rw [derive_same]
    exact inv_derive h
  | tryMemoize observedEpoch fresh =>
    have hsame : Inv engine query defs s others :=
      h.next none (by simp) (by simp) (by simp) (by simp)
    simp only [advance, Option.toList_none, List.nil_append]
    split_ifs with hepoch
    · refine ⟨hobserved, hsame.current, ?_⟩
      refine h.current.imp (fun hmem => (List.mem_cons.mp hmem).resolve_left (by simp)) ?_
      intro hall
      refine .inr fun o ho => ?_
      obtain rfl := Option.some.inj ho
      exact hall _ List.mem_cons_self hepoch.symm
    · exact hsame
  | mutate entity =>
    refine ⟨?_, .inl (by simp [advance]), .inl (by simp [advance])⟩
    intro pc' hmem
    rcases List.mem_cons.mp hmem with rfl | hmem
    · trivial
    · exact observed_mono (Nat.le_refl s.epoch) (hobserved pc' hmem)
  | bumpEpoch =>
    refine ⟨?_, .inr ?_, .inr (.inl (by simp [advance]))⟩
    · intro pc' hmem
      rcases List.mem_cons.mp hmem with rfl | hmem
      · trivial
      · exact observed_mono (Nat.le_succ s.epoch) (hobserved pc' hmem)
    · intro pc' hmem
      rcases List.mem_cons.mp hmem with rfl | hmem
      · trivial
      · exact current_of_epoch_lt (Nat.lt_succ_self s.epoch) (hobserved pc' hmem)
  | clearOutputs =>
    refine ⟨hobserved, ?_, .inr (.inr ?_)⟩
    · rcases h.current with hmem | hall
      · exact .inl ((List.mem_cons.mp hmem).resolve_left (by simp))
      · exact .inr fun pc' hmem => hall pc' (List.mem_cons_of_mem _ hmem)
    · intro o ho
      simp [advance] at ho

theorem inv_run (h : Run (protocol engine query defs) Timely (s, []) (s', calls))
    (hfresh : Fresh engine query defs s) : Inv engine query defs s' calls := by
  refine h.invariant_of_perm (I := Inv engine query defs) ?_ ?_ ?_ ⟨by simp, by simp, ?_⟩
  · intro s calls calls' hperm h
    refine ⟨?_, ?_, ?_⟩
    · exact fun pc hmem => h.observed pc (hperm.mem_iff.mpr hmem)
    · exact h.current.imp hperm.mem_iff.mp fun hall pc hmem => hall pc (hperm.mem_iff.mpr hmem)
    · exact h.fresh.imp hperm.mem_iff.mp (Or.imp_left hperm.mem_iff.mp)
  · intro s pc calls hstarts h
    have hpc : pc.Observed s ∧ pc.Current engine query defs s := by
      cases pc with
      | read => exact ⟨trivial, trivial⟩
      | mutate entity => exact ⟨trivial, trivial⟩
      | _ => simp [protocol, State.starts] at hstarts
    refine ⟨List.forall_mem_cons.mpr ⟨hpc.1, h.observed⟩, ?_, ?_⟩
    · exact h.current.imp (List.mem_cons_of_mem _) fun hall =>
        List.forall_mem_cons.mpr ⟨hpc.2, hall⟩
    · exact h.fresh.imp (List.mem_cons_of_mem _) (Or.imp_left (List.mem_cons_of_mem _))
  · intro s pc others hok h
    exact inv_step hok h
  · exact .inr (.inr hfresh)

end

/-- Where no read is late, nothing stale is memoized between the mutations. -/
theorem fresh_of_timely {engine : ComputeEngine} {query : EntityQueryFn} {defs : List FieldDef}
    {s s' : State} {calls : List Pc}
    (h : Run (protocol engine query defs) Timely (s, []) (s', calls))
    (hstart : Fresh engine query defs s)
    (hbetween : .bumpEpoch ∉ calls ∧ .clearOutputs ∉ calls) : Fresh engine query defs s' :=
  ((inv_run h hstart).fresh.resolve_left hbetween.1).resolve_left hbetween.2

def copyTitle : ComputeEngine :=
  ⟨fun name => if name = "copy" then some fun fields => fields["title"]?.getD .null else none,
    fun _ => none⟩

def shown : List FieldDef := [⟨"shown", .computed "copy" []⟩]

def titled (title : String) : Fields := (∅ : Fields).insert "title" (.string title)

def showing (title : String) : Fields := (∅ : Fields).insert "shown" (.string title)

theorem fresh_of_timely_read : Fresh copyTitle (fun _ => []) shown
    ⟨some (titled "a"), 0, some (showing "a")⟩ := by
  have hrun : Run (protocol copyTitle (fun _ => []) shown) Timely
      (⟨some (titled "a"), 0, none⟩, []) (⟨some (titled "a"), 0, some (showing "a")⟩, []) := by
    have hstart : Step (protocol copyTitle (fun _ => []) shown) Timely
        (⟨some (titled "a"), 0, none⟩, []) (⟨some (titled "a"), 0, none⟩, [.read]) :=
      .start [] rfl
    refine .head hstart ?_
    refine .head (.advance [] [] fun fields h => by simp at h) ?_
    refine .head (.advance [] [] fun fields h _ => .inl ?_) ?_
    · rw [← Pc.getDerivedOutputs.inj h]
      rfl
    refine .head (.advance [] [] fun fields h => by simp at h) ?_
    exact .single (.advance [] [] fun fields h => by simp at h)
  exact fresh_of_timely hrun (by simp [Fresh]) (by simp)

theorem late_read_memoizes_stale :
    let start : State := ⟨some (titled "a"), 0, none⟩
    let stop : State := ⟨some (titled "b"), 1, some (showing "a")⟩
    Fresh copyTitle (fun _ => []) shown start ∧
      Run (protocol copyTitle (fun _ => []) shown) (fun _ _ _ => True) (start, []) (stop, []) ∧
        ¬ Fresh copyTitle (fun _ => []) shown stop := by
  refine ⟨by simp [Fresh], ?_, ?_⟩
  · refine run_of_play [.start .read, .advance 0, .start (.mutate (titled "b")),
      .advance 0, .advance 0, .advance 0, .advance 0, .advance 0, .advance 0] ?_
    rfl
  · intro h
    have hderived : outputs copyTitle (fun _ => []) shown (titled "b") = some (showing "a") :=
      h (showing "a") rfl
    revert hderived
    decide

end SwissArmyHammer.Cache.Memoization
