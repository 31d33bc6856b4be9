import Mathlib.Data.List.Induction
import Mathlib.Data.Set.Basic
import Mathlib.Logic.Function.Basic

/-! A sequence of writes to single points of a function. Only the last write to a point
counts, so a sequence that is cut short has left no trace exactly when each of its last
writes puts back what was there. -/

namespace SwissArmyHammer.History

variable {κ ν : Type*} [DecidableEq κ]

def writeAll (writes : List (κ × ν)) (v : κ → ν) : κ → ν :=
  writes.foldl (fun v w => Function.update v w.1 w.2) v

def lastWrite (writes : List (κ × ν)) (k : κ) : Option ν :=
  (writes.reverse.find? (fun w => w.1 = k)).map Prod.snd

theorem writeAll_append (writes writes' : List (κ × ν)) (v : κ → ν) :
    writeAll (writes ++ writes') v = writeAll writes' (writeAll writes v) := by
  simp [writeAll]

theorem writeAll_apply (writes : List (κ × ν)) (v : κ → ν) (k : κ) :
    writeAll writes v k = (lastWrite writes k).getD (v k) := by
  induction writes using List.reverseRecOn with
  | nil => rfl
  | append_singleton writes w ih =>
    by_cases hk : w.1 = k
    · subst hk
      simp [writeAll, lastWrite]
    · have hne : k ≠ w.1 := fun h => hk h.symm
      simpa [writeAll, lastWrite, hk, Function.update_of_ne hne] using ih

theorem writeAll_eq_self_iff {writes : List (κ × ν)} {v : κ → ν} :
    writeAll writes v = v ↔ ∀ k x, lastWrite writes k = some x → x = v k := by
  constructor
  · intro h k x hx
    have hk := congrFun h k
    rwa [writeAll_apply, hx] at hk
  · intro h
    funext k
    rw [writeAll_apply]
    cases hx : lastWrite writes k with
    | none => rfl
    | some x => exact h k x hx

end SwissArmyHammer.History

/-! Linear undo over an arbitrary state. Undoing an entry need not restore the state
before it exactly: `sameBut F s t` says that `t` is `s` as far as the entries outside
`F` can tell, and the entries of `F` are never undone again. -/

namespace SwissArmyHammer.History

structure UndoSystem (σ ι κ : Type*) where
  key : ι → κ
  undo : ι → σ → Option σ
  redo : ι → σ → Option σ
  done : ι → σ → Prop
  sameBut : Set κ → σ → σ → Prop
  sameBut_refl : ∀ s, sameBut ∅ s s
  sameBut_trans : ∀ {F G s t u}, sameBut F s t → sameBut G t u → sameBut (F ∪ G) s u
  done_sameBut : ∀ {F s t e}, sameBut F s t → key e ∉ F → done e s → done e t
  undo_sameBut : ∀ {F s t e s'}, sameBut F s t → key e ∉ F → done e s → undo e s = some s' →
    ∃ t', undo e t = some t' ∧ sameBut F s' t'
  redo_undo : ∀ {s e s'}, done e s → undo e s = some s' → redo e s' = some s

namespace UndoSystem

variable {σ ι κ : Type*} (U : UndoSystem σ ι κ)

def undoAll : List ι → σ → Option σ
  | [], s => some s
  | e :: es, s => (U.undo e s).bind (undoAll es)

def redoAll : List ι → σ → Option σ
  | [], s => some s
  | e :: es, s => (U.redo e s).bind (redoAll es)

theorem undoAll_append (es es' : List ι) (s : σ) :
    U.undoAll (es ++ es') s = (U.undoAll es s).bind (U.undoAll es') := by
  induction es generalizing s with
  | nil => rfl
  | cons e es ih =>
    cases h : U.undo e s with
    | none => simp [undoAll, h]
    | some t => simp [undoAll, h, ih]

theorem redoAll_append (es es' : List ι) (s : σ) :
    U.redoAll (es ++ es') s = (U.redoAll es s).bind (U.redoAll es') := by
  induction es generalizing s with
  | nil => rfl
  | cons e es ih =>
    cases h : U.redo e s with
    | none => simp [redoAll, h]
    | some t => simp [redoAll, h, ih]

/-- `Line s es t F`: the entries `es`, newest first, lead from `s` to `t`. Each is done
where it leads, its undo gives back its predecessor but for some keys, and these keys,
collected in `F`, are none of the entries before it. -/
inductive Line (s : σ) : List ι → σ → Set κ → Prop
  | nil : Line s [] s ∅
  | cons {t u v : σ} {es : List ι} {e : ι} {F G : Set κ} : Line s es t F → U.done e u →
      U.undo e u = some v → U.sameBut G t v → (∀ x ∈ es, U.key x ∉ G) →
      Line s (e :: es) u (F ∪ G)

theorem Line.undoAll_of_sameBut {s t : σ} {es : List ι} {F : Set κ} (h : Line U s es t F)
    {G : Set κ} {t' : σ} (ht : U.sameBut G t t') (hG : ∀ x ∈ es, U.key x ∉ G) :
    ∃ s', U.undoAll es t' = some s' ∧ U.sameBut (F ∪ G) s s' ∧
      U.redoAll es.reverse s' = some t' := by
  induction h generalizing G t' with
  | nil => exact ⟨t', rfl, by simpa using ht, rfl⟩
  | @cons t u v es e F H _ hd hu hv hH ih =>
    have hk : U.key e ∉ G := hG e (by simp)
    obtain ⟨w, hw, hvw⟩ := U.undo_sameBut ht hk hd hu
    have hd' := U.done_sameBut ht hk hd
    have htw : U.sameBut (H ∪ G) t w := U.sameBut_trans hv hvw
    obtain ⟨s', hs, hss, hr⟩ := ih htw (by
      grind)
    refine ⟨s', by simp [undoAll, hw, hs], by simpa [Set.union_assoc] using hss, ?_⟩
    simp [redoAll_append, hr, redoAll, U.redo_undo hd' hw]

theorem Line.undoAll {s t : σ} {es : List ι} {F : Set κ} (h : Line U s es t F) :
    ∃ s', U.undoAll es t = some s' ∧ U.sameBut F s s' ∧ U.redoAll es.reverse s' = some t := by
  simpa using h.undoAll_of_sameBut U (U.sameBut_refl t) (by simp)

end UndoSystem
end SwissArmyHammer.History
