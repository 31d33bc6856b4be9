import Mathlib.Data.Finmap
import Mathlib.Data.String.Basic

/-! The directory of one store as maps from file names to contents. A name is an item
id with an extension, and under `.trash` and `.archive` also the id of the undo entry
that moved the file there. -/

namespace SwissArmyHammer.Store

abbrev UndoEntryId := Nat

abbrev StoredItemId := String

abbrev DateTime := Int

def UndoEntryId.toString (id : UndoEntryId) : String :=
  String.ofList ((List.range 26).map fun i =>
    "0123456789ABCDEFGHJKMNPQRSTVWXYZ".toList.getD (id / 32 ^ (25 - i) % 32) '0')

inductive StoreError
  | io (kind : String)
  | yaml (message : String)
  | notFound (item : String)
  | entryNotFound (entry : String)
  | patchFailed (message : String)
  | mergeConflict (message : String)
  | deserialize (message : String)
  | noProvider (entry : String)
  deriving DecidableEq, Repr

def StoreError.display : StoreError → String
  | .io kind => "I/O error: " ++ kind
  | .yaml message => "YAML error: " ++ message
  | .notFound item => "item not found: " ++ item
  | .entryNotFound entry => "changelog entry not found: " ++ entry
  | .patchFailed message => "patch failed: " ++ message
  | .mergeConflict message => "merge conflict: " ++ message
  | .deserialize message => "deserialization error: " ++ message
  | .noProvider entry => "no provider found for undo entry: " ++ entry

inductive Bin
  | trash
  | archive
  deriving DecidableEq, Repr

structure Slots (α : Type) where
  live : Option α
  bin : Bin → Std.ExtTreeMap UndoEntryId α

def Slots.empty {α : Type} : Slots α := ⟨none, fun _ => ∅⟩

section

variable {α : Type}

/-- `rename` from the live directory into a bin; `none` is `io::ErrorKind::NotFound`. -/
def Slots.moveToBin (b : Bin) (s : Slots α) (entry : UndoEntryId) : Option (Slots α) :=
  s.live.map fun x => ⟨none, Function.update s.bin b ((s.bin b).insert entry x)⟩

def Slots.moveFromBin (b : Bin) (s : Slots α) (entry : UndoEntryId) : Option (Slots α) :=
  (s.bin b)[entry]?.map fun x => ⟨some x, Function.update s.bin b ((s.bin b).erase entry)⟩

def Slots.restoreFile (s : Slots α) (entry : UndoEntryId) : Option (Slots α) :=
  s.moveFromBin .trash entry

def Slots.restoreArchivedFile (s : Slots α) (entry : UndoEntryId) : Option (Slots α) :=
  s.moveFromBin .archive entry

def Slots.isTrashed (s : Slots α) (entry : UndoEntryId) : Bool :=
  (s.bin .trash).contains entry

def Slots.isArchived (s : Slots α) (entry : UndoEntryId) : Bool :=
  (s.bin .archive).contains entry

def larger (best : Option UndoEntryId) (entry : UndoEntryId) : Option UndoEntryId :=
  match best with
  | some prev => if prev > entry then some prev else some entry
  | none => some entry

def Slots.findArchivedEntryId (s : Slots α) : Option UndoEntryId :=
  (s.bin .archive).keys.foldl larger none

theorem Slots.moveToBin_eq_some {s s' : Slots α} {b : Bin} {entry : UndoEntryId} :
    s.moveToBin b entry = some s' ↔ ∃ x, s.live = some x ∧
      s' = ⟨none, Function.update s.bin b ((s.bin b).insert entry x)⟩ := by
  simp [moveToBin, eq_comm]

theorem Slots.moveFromBin_eq_some {s s' : Slots α} {b : Bin} {entry : UndoEntryId} :
    s.moveFromBin b entry = some s' ↔ ∃ x, (s.bin b)[entry]? = some x ∧
      s' = ⟨some x, Function.update s.bin b ((s.bin b).erase entry)⟩ := by
  simp [moveFromBin, eq_comm]

theorem foldl_larger_mem {keys : List UndoEntryId} {best : Option UndoEntryId}
    {entry : UndoEntryId} (h : keys.foldl larger best = some entry) :
    best = some entry ∨ entry ∈ keys := by
  induction keys generalizing best with
  | nil => exact Or.inl h
  | cons k keys ih =>
    rcases ih h with hb | hm
    · cases best with
      | none =>
        simp only [larger, Option.some.injEq] at hb
        exact Or.inr (by simp [hb])
      | some prev =>
        simp only [larger] at hb
        split at hb
        · exact Or.inl hb
        · simp only [Option.some.injEq] at hb
          exact Or.inr (by simp [hb])
    · exact Or.inr (by simp [hm])

theorem Slots.findArchivedEntryId_mem {s : Slots α} {entry : UndoEntryId}
    (h : s.findArchivedEntryId = some entry) : ∃ x, (s.bin .archive)[entry]? = some x := by
  have hm := foldl_larger_mem h
  simp only [reduceCtorEq, Std.ExtTreeMap.mem_keys, false_or] at hm
  exact ⟨_, Std.ExtTreeMap.getElem?_eq_some_getElem hm⟩

theorem Slots.moveToBin_live {s s' : Slots α} {b : Bin} {entry : UndoEntryId}
    (h : s.moveToBin b entry = some s') : s'.live = none := by
  obtain ⟨x, -, rfl⟩ := moveToBin_eq_some.mp h
  rfl

theorem Slots.moveToBin_get {s s' : Slots α} {b : Bin} {entry : UndoEntryId}
    (h : s.moveToBin b entry = some s') (b' : Bin) (entry' : UndoEntryId) :
    (s'.bin b')[entry']? = if b' = b ∧ entry' = entry then s.live else (s.bin b')[entry']? := by
  obtain ⟨x, hx, rfl⟩ := moveToBin_eq_some.mp h
  by_cases hb : b' = b
  · grind
  · simp [hb]

theorem Slots.moveFromBin_live {s s' : Slots α} {b : Bin} {entry : UndoEntryId}
    (h : s.moveFromBin b entry = some s') : s'.live = (s.bin b)[entry]? := by
  obtain ⟨x, hx, rfl⟩ := moveFromBin_eq_some.mp h
  exact hx.symm

theorem Slots.moveFromBin_get {s s' : Slots α} {b : Bin} {entry : UndoEntryId}
    (h : s.moveFromBin b entry = some s') (b' : Bin) (entry' : UndoEntryId) :
    (s'.bin b')[entry']? = if b' = b ∧ entry' = entry then none else (s.bin b')[entry']? := by
  obtain ⟨x, hx, rfl⟩ := moveFromBin_eq_some.mp h
  by_cases hb : b' = b
  · grind
  · simp [hb]

theorem Slots.exists_moveToBin {s : Slots α} {x : α} (h : s.live = some x) (b : Bin)
    (entry : UndoEntryId) : ∃ s', s.moveToBin b entry = some s' := by
  simp [moveToBin, h]

theorem Slots.exists_moveFromBin {s : Slots α} {b : Bin} {entry : UndoEntryId} {x : α}
    (h : (s.bin b)[entry]? = some x) : ∃ s', s.moveFromBin b entry = some s' := by
  simp [moveFromBin, h]

theorem Slots.moveFromBin_moveToBin {s s' : Slots α} {b : Bin} {entry : UndoEntryId}
    (hn : (s.bin b)[entry]? = none) (h : s.moveToBin b entry = some s') :
    s'.moveFromBin b entry = some s := by
  obtain ⟨x, hx, rfl⟩ := moveToBin_eq_some.mp h
  have he : ((s.bin b).insert entry x).erase entry = s.bin b := by
    apply Std.ExtTreeMap.ext_getElem?
    intro k
    by_cases hk : entry = k
    · subst k; simp [hn]
    · simp [Std.ExtTreeMap.getElem?_erase, Std.ExtTreeMap.getElem?_insert, hk]
  cases s
  simp_all [moveFromBin]

theorem Slots.moveToBin_moveFromBin {s s' : Slots α} {b : Bin} {entry : UndoEntryId}
    (hn : s.live = none) (h : s.moveFromBin b entry = some s') :
    s'.moveToBin b entry = some s := by
  obtain ⟨x, hx, rfl⟩ := moveFromBin_eq_some.mp h
  have he : ((s.bin b).erase entry).insert entry x = s.bin b := by
    apply Std.ExtTreeMap.ext_getElem?
    intro k
    by_cases hk : entry = k
    · subst k; simp [hx]
    · simp [Std.ExtTreeMap.getElem?_erase, Std.ExtTreeMap.getElem?_insert, hk]
  cases s
  simp_all [moveToBin]

end
end SwissArmyHammer.Store
