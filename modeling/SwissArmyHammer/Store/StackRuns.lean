import SwissArmyHammer.Common.Traces
import SwissArmyHammer.Store.Context
import SwissArmyHammer.Text.Lines

/-! Runs of an undo stack: the pointer stays between two groups, and the undo and redo of a group
take each other back. -/

namespace SwissArmyHammer.Store

structure StackYaml where
  toString : UndoStack → Except String String
  fromStr : String → Except String UndoStack
  round_trip : ∀ s text, toString s = .ok text → fromStr text = .ok s

namespace UndoStack

variable {s : UndoStack} {a b i n : Nat} {group : UndoEntryId} {r : Nat × Nat}

def clear (s : UndoStack) : UndoStack := ⟨[], 0, s.maxSize⟩

def load (Y : StackYaml) : Option String → Except String UndoStack
  | none => .ok new
  | some contents =>
    if (Text.trim contents.toList).isEmpty then .ok new
    else do
      let stack ← Y.fromStr contents
      let pointer := min stack.pointer stack.entries.length
      if stack.entries.length > stack.maxSize then
        let excess := stack.entries.length - stack.maxSize
        return ⟨stack.entries.drop excess, pointer - excess, stack.maxSize⟩
      else return ⟨stack.entries, pointer, stack.maxSize⟩

def save (Y : StackYaml) (s : UndoStack) : Except String String := Y.toString s

def reload (Y : StackYaml) (s : UndoStack) : Except String UndoStack := do
  let contents ← s.save Y
  load Y (some contents)

def groupAt (s : UndoStack) (i : Nat) : Option UndoEntryId := s.entries[i]?.bind (·.groupId)

structure WellPlaced (s : UndoStack) : Prop where
  pointer_le : s.pointer ≤ s.entries.length
  length_le : s.entries.length ≤ s.maxSize
  boundary : ∀ group, 0 < s.pointer → s.groupAt (s.pointer - 1) = some group →
    s.groupAt s.pointer ≠ some group

structure Block (s : UndoStack) (a b : Nat) : Prop where
  lt : a < b
  le : b ≤ s.entries.length
  run : (s.groupAt a = none ∧ b = a + 1) ∨
    ∃ group, (∀ i, a ≤ i → i < b → s.groupAt i = some group) ∧
      (0 < a → s.groupAt (a - 1) ≠ some group) ∧ s.groupAt b ≠ some group

theorem groupStart_le (entries : List UndoEntry) (group : UndoEntryId) (n : Nat) :
    groupStart entries group n ≤ n := by
  induction n with
  | zero => exact le_rfl
  | succ n ih =>
    rw [groupStart]
    split
    · omega
    · exact le_rfl

theorem groupStart_group (s : UndoStack) (group : UndoEntryId) {n : Nat}
    (hi : groupStart s.entries group n ≤ i) (hn : i < n) : s.groupAt i = some group := by
  induction n with
  | zero => omega
  | succ n ih =>
    rw [groupStart] at hi
    split at hi
    · rename_i hgroup
      by_cases heq : i = n
      · rw [heq]
        exact hgroup
      · exact ih hi (by omega)
    · omega

theorem groupStart_before (s : UndoStack) (group : UndoEntryId) (n : Nat)
    (hpos : 0 < groupStart s.entries group n) :
    s.groupAt (groupStart s.entries group n - 1) ≠ some group := by
  induction n with
  | zero => simp [groupStart] at hpos
  | succ n ih =>
    rw [groupStart] at hpos ⊢
    split at hpos
    · rename_i hgroup
      rw [if_pos hgroup]
      exact ih hpos
    · rename_i hgroup
      rw [if_neg hgroup]
      exact hgroup

theorem groupStart_eq (hrun : ∀ i, a ≤ i → i < n → s.groupAt i = some group) (han : a ≤ n)
    (hbefore : 0 < a → s.groupAt (a - 1) ≠ some group) :
    groupStart s.entries group n = a := by
  have hle := groupStart_le s.entries group n
  rcases Nat.lt_trichotomy (groupStart s.entries group n) a with hlt | heq | hgt
  · have hgroup : s.groupAt (a - 1) = some group :=
      groupStart_group s group (n := n) (by omega) (by omega)
    exact absurd hgroup (hbefore (by omega))
  · exact heq
  · have hgroup : s.groupAt (groupStart s.entries group n - 1) = some group :=
      hrun _ (by omega) (by omega)
    exact absurd hgroup (groupStart_before s group n (by omega))

theorem groupLength_le (group : UndoEntryId) (l : List UndoEntry) :
    groupLength group l ≤ l.length := by
  induction l with
  | nil => exact le_rfl
  | cons e rest ih =>
    rw [groupLength, List.length_cons]
    split <;> omega

theorem groupLength_group (group : UndoEntryId) {l : List UndoEntry} {i : Nat}
    (hi : i < groupLength group l) : l[i]?.bind (·.groupId) = some group := by
  induction l generalizing i with
  | nil => simp [groupLength] at hi
  | cons e rest ih =>
    rw [groupLength] at hi
    split at hi
    · grind
    · omega

theorem groupLength_after (group : UndoEntryId) (l : List UndoEntry) :
    l[groupLength group l]?.bind (·.groupId) ≠ some group := by
  induction l with
  | nil => simp
  | cons e rest ih =>
    rw [groupLength]
    split
    · exact ih
    · rename_i hgroup
      exact hgroup

theorem groupLength_eq {l : List UndoEntry}
    (hrun : ∀ i, i < n → l[i]?.bind (·.groupId) = some group)
    (hafter : l[n]?.bind (·.groupId) ≠ some group) : groupLength group l = n := by
  rcases Nat.lt_trichotomy (groupLength group l) n with hlt | heq | hgt
  · exact absurd (hrun _ hlt) (groupLength_after group l)
  · exact heq
  · exact absurd (groupLength_group group hgt) hafter

theorem groupAt_drop (s : UndoStack) (a i : Nat) :
    (s.entries.drop a)[i]?.bind (·.groupId) = s.groupAt (a + i) := by
  rw [List.getElem?_drop]
  rfl

theorem groupUndoRange_single (hundo : s.canUndo = true) (h : s.groupAt (s.pointer - 1) = none) :
    s.groupUndoRange = some (s.pointer - 1, s.pointer) := by
  rw [groupAt] at h
  rw [groupUndoRange, if_pos hundo, h]

theorem groupUndoRange_group {group : UndoEntryId} (hundo : s.canUndo = true)
    (h : s.groupAt (s.pointer - 1) = some group) :
    s.groupUndoRange = some (groupStart s.entries group (s.pointer - 1), s.pointer) := by
  rw [groupAt] at h
  rw [groupUndoRange, if_pos hundo, h]

theorem groupRedoRange_single (hredo : s.canRedo = true) (h : s.groupAt s.pointer = none) :
    s.groupRedoRange = some (s.pointer, s.pointer + 1) := by
  rw [groupAt] at h
  rw [groupRedoRange, if_pos hredo, h]

theorem groupRedoRange_group {group : UndoEntryId} (hredo : s.canRedo = true)
    (h : s.groupAt s.pointer = some group) :
    s.groupRedoRange =
      some (s.pointer, s.pointer + 1 + groupLength group (s.entries.drop (s.pointer + 1))) := by
  rw [groupAt] at h
  rw [groupRedoRange, if_pos hredo, h]

theorem groupUndoRange_of_block (h : s.Block a b) (hp : s.pointer = b) :
    s.groupUndoRange = some (a, b) := by
  have hlt := h.lt
  have hundo : s.canUndo = true := decide_eq_true (by omega)
  rcases h.run with ⟨hnone, hb⟩ | ⟨group, hrun, hbefore, hafter⟩
  · have ha : s.pointer - 1 = a := by omega
    rw [groupUndoRange_single hundo (ha ▸ hnone), ha, hp]
  · rw [groupUndoRange_group hundo (hrun (s.pointer - 1) (by omega) (by omega)),
      groupStart_eq (fun i hi hn => hrun i hi (by omega)) (by omega) hbefore, hp]

theorem groupRedoRange_of_block (h : s.Block a b) (hp : s.pointer = a) :
    s.groupRedoRange = some (a, b) := by
  have hlt := h.lt
  have hle := h.le
  have hredo : s.canRedo = true := decide_eq_true (by omega)
  rcases h.run with ⟨hnone, hb⟩ | ⟨group, hrun, hbefore, hafter⟩
  · rw [groupRedoRange_single hredo (hp ▸ hnone), hp, hb]
  · rw [groupRedoRange_group hredo (hp ▸ hrun a le_rfl hlt), hp]
    have hlength : groupLength group (s.entries.drop (a + 1)) = b - (a + 1) := by
      apply groupLength_eq
      · intro i hi
        rw [groupAt_drop]
        exact hrun _ (by omega) (by omega)
      · rw [groupAt_drop, show a + 1 + (b - (a + 1)) = b by omega]
        exact hafter
    rw [hlength, show a + 1 + (b - (a + 1)) = b by omega]

theorem WellPlaced.block_of_undo (h : s.WellPlaced) (hr : s.groupUndoRange = some r) :
    s.Block r.1 r.2 ∧ r.2 = s.pointer := by
  have hle := h.pointer_le
  by_cases hundo : s.canUndo = true
  · have hpos : 0 < s.pointer := of_decide_eq_true hundo
    cases hgroup : s.groupAt (s.pointer - 1) with
    | none =>
      rw [groupUndoRange_single hundo hgroup] at hr
      obtain rfl := Option.some.inj hr
      refine ⟨⟨?_, hle, .inl ⟨hgroup, ?_⟩⟩, rfl⟩
      · exact Nat.sub_one_lt_of_lt hpos
      · exact (Nat.sub_add_cancel hpos).symm
    | some group =>
      rw [groupUndoRange_group hundo hgroup] at hr
      obtain rfl := Option.some.inj hr
      have hstart := groupStart_le s.entries group (s.pointer - 1)
      refine ⟨⟨?_, hle, .inr ⟨group, fun i hi hn => ?_, ?_, ?_⟩⟩, rfl⟩
      · omega
      · by_cases heq : i = s.pointer - 1
        · rw [heq]
          exact hgroup
        · apply groupStart_group s group hi
          omega
      · exact groupStart_before s group _
      · exact h.boundary group hpos hgroup
  · rw [groupUndoRange, if_neg hundo] at hr
    cases hr

theorem WellPlaced.block_of_redo (h : s.WellPlaced) (hr : s.groupRedoRange = some r) :
    s.Block r.1 r.2 ∧ r.1 = s.pointer := by
  by_cases hredo : s.canRedo = true
  · have hlt : s.pointer < s.entries.length := of_decide_eq_true hredo
    cases hgroup : s.groupAt s.pointer with
    | none =>
      rw [groupRedoRange_single hredo hgroup] at hr
      obtain rfl := Option.some.inj hr
      exact ⟨⟨Nat.lt_succ_self _, hlt, .inl ⟨hgroup, rfl⟩⟩, rfl⟩
    | some group =>
      rw [groupRedoRange_group hredo hgroup] at hr
      obtain rfl := Option.some.inj hr
      have hlength := groupLength_le group (s.entries.drop (s.pointer + 1))
      rw [List.length_drop] at hlength
      refine ⟨⟨?_, ?_, .inr ⟨group, fun i hi hn => ?_, fun hpos hbefore => ?_, ?_⟩⟩, rfl⟩
      · omega
      · omega
      · by_cases heq : i = s.pointer
        · rw [heq]
          exact hgroup
        · have hin := groupLength_group group
            (show i - (s.pointer + 1) < groupLength group (s.entries.drop (s.pointer + 1)) by omega)
          rw [groupAt_drop, show s.pointer + 1 + (i - (s.pointer + 1)) = i by omega] at hin
          exact hin
      · exact h.boundary group hpos hbefore hgroup
      · have hafter := groupLength_after group (s.entries.drop (s.pointer + 1))
        rw [groupAt_drop] at hafter
        exact hafter
  · rw [groupRedoRange, if_neg hredo] at hr
    cases hr

theorem Block.boundary (h : s.Block a b) (hn : n = a ∨ n = b) (hpos : 0 < n)
    (hbefore : s.groupAt (n - 1) = some group) : s.groupAt n ≠ some group := by
  have hlt := h.lt
  rcases h.run with ⟨hnone, hb⟩ | ⟨group', hrun, hleft, hright⟩
  · grind
  · grind

theorem recordUndoN_block (hlt : a < b) (hp : s.pointer = b) :
    s.recordUndoN (b - a) = { s with pointer := a } := by
  rw [recordUndoN, hp, Nat.sub_sub_self hlt.le]

theorem recordRedoN_block (hlt : a < b) (hle : b ≤ s.entries.length) (hp : s.pointer = a) :
    s.recordRedoN (b - a) = { s with pointer := b } := by
  rw [recordRedoN, hp, Nat.add_sub_cancel' hlt.le, Nat.min_eq_left hle]

theorem WellPlaced.withPointer (h : s.WellPlaced) (hblock : s.Block a b) (hn : n = a ∨ n = b) :
    WellPlaced { s with pointer := n } where
  pointer_le := by
    have hlt := hblock.lt
    have hle := hblock.le
    dsimp only
    omega
  length_le := h.length_le
  boundary _ hpos hbefore := hblock.boundary hn hpos hbefore

theorem WellPlaced.recordUndoN (h : s.WellPlaced) (hr : s.groupUndoRange = some r) :
    (s.recordUndoN (r.2 - r.1)).WellPlaced := by
  obtain ⟨hblock, hp⟩ := h.block_of_undo hr
  rw [recordUndoN_block hblock.lt hp.symm]
  exact h.withPointer hblock (.inl rfl)

theorem WellPlaced.recordRedoN (h : s.WellPlaced) (hr : s.groupRedoRange = some r) :
    (s.recordRedoN (r.2 - r.1)).WellPlaced := by
  obtain ⟨hblock, hp⟩ := h.block_of_redo hr
  rw [recordRedoN_block hblock.lt hblock.le hp.symm]
  exact h.withPointer hblock (.inr rfl)

structure Inverse (s : UndoStack) : Prop where
  undo : ∀ r, s.groupUndoRange = some r →
    (s.recordUndoN (r.2 - r.1)).groupRedoRange = some r ∧
      (s.recordUndoN (r.2 - r.1)).recordRedoN (r.2 - r.1) = s
  redo : ∀ r, s.groupRedoRange = some r →
    (s.recordRedoN (r.2 - r.1)).groupUndoRange = some r ∧
      (s.recordRedoN (r.2 - r.1)).recordUndoN (r.2 - r.1) = s

theorem Block.moved (h : s.Block a b) (n : Nat) : Block { s with pointer := n } a b :=
  ⟨h.lt, h.le, h.run⟩

theorem WellPlaced.inverse (h : s.WellPlaced) : s.Inverse where
  undo r hr := by
    obtain ⟨hblock, hp⟩ := h.block_of_undo hr
    rw [recordUndoN_block hblock.lt hp.symm]
    refine ⟨groupRedoRange_of_block (hblock.moved r.1) rfl, ?_⟩
    have hback := recordRedoN_block (s := { s with pointer := r.1 }) hblock.lt hblock.le rfl
    rw [hback, hp]
  redo r hr := by
    obtain ⟨hblock, hp⟩ := h.block_of_redo hr
    rw [recordRedoN_block hblock.lt hblock.le hp.symm]
    refine ⟨groupUndoRange_of_block (hblock.moved r.2) rfl, ?_⟩
    have hback := recordUndoN_block (s := { s with pointer := r.2 }) hblock.lt rfl
    rw [hback, hp]

theorem groupAt_length (s : UndoStack) : s.groupAt s.entries.length = none := by
  rw [groupAt, List.getElem?_eq_none le_rfl]
  rfl

theorem wellPlaced_full {entries : List UndoEntry} {maxSize : Nat}
    (hle : entries.length ≤ maxSize) : WellPlaced ⟨entries, entries.length, maxSize⟩ where
  pointer_le := le_rfl
  length_le := hle
  boundary _ _ _ hafter := by
    rw [groupAt_length ⟨entries, entries.length, maxSize⟩] at hafter
    cases hafter

theorem pushWithGroup_eq {e : UndoEntry} (hp : s.pointer ≤ s.entries.length)
    (hne : s.top.map (·.id) ≠ some e.id) :
    s.pushWithGroup e.id e.label e.itemId e.groupId =
      ⟨(s.entries.take s.pointer ++ [e]).drop (s.pointer + 1 - s.maxSize),
        ((s.entries.take s.pointer ++ [e]).drop (s.pointer + 1 - s.maxSize)).length,
        s.maxSize⟩ := by
  have hlength : (s.entries.take s.pointer ++ [e]).length = s.pointer + 1 := by
    rw [List.length_append, List.length_take_of_le hp, List.length_singleton]
  rw [pushWithGroup, if_neg hne]
  dsimp only
  split
  · rw [List.length_drop, hlength]
  · rename_i hroom
    rw [hlength] at hroom
    have hzero : s.pointer + 1 - s.maxSize = 0 := by omega
    rw [hzero, List.drop_zero, hlength]

theorem WellPlaced.pushWithGroup (h : s.WellPlaced) (e : UndoEntry) :
    (s.pushWithGroup e.id e.label e.itemId e.groupId).WellPlaced := by
  by_cases hne : s.top.map (·.id) = some e.id
  · rw [UndoStack.pushWithGroup, if_pos hne]
    exact h
  · rw [pushWithGroup_eq h.pointer_le hne]
    apply wellPlaced_full
    rw [List.length_drop, List.length_append, List.length_take_of_le h.pointer_le,
      List.length_singleton]
    omega

theorem wellPlaced_withMaxSize (maxSize : Nat) : (withMaxSize maxSize).WellPlaced :=
  wellPlaced_full (Nat.zero_le _)

theorem WellPlaced.load (Y : StackYaml) (h : s.WellPlaced) {contents : String}
    (hsave : s.save Y = .ok contents) :
    UndoStack.load Y (some contents) = .ok new ∨ UndoStack.load Y (some contents) = .ok s := by
  rw [UndoStack.load]
  split
  · exact .inl rfl
  · right
    have hlength := h.length_le
    rw [Y.round_trip s contents hsave]
    change (if s.entries.length > s.maxSize then _ else Except.ok _) = _
    rw [if_neg (by omega), Nat.min_eq_left h.pointer_le]

theorem WellPlaced.reload (Y : StackYaml) (h : s.WellPlaced) {s' : UndoStack}
    (hs' : s.reload Y = .ok s') : s'.WellPlaced := by
  rw [UndoStack.reload] at hs'
  cases hsave : s.save Y with
  | error err =>
    rw [hsave] at hs'
    cases hs'
  | ok contents =>
    rw [hsave] at hs'
    change UndoStack.load Y (some contents) = .ok s' at hs'
    rcases h.load Y hsave with hnew | hsame
    · rw [hnew] at hs'
      obtain rfl := Except.ok.inj hs'
      exact wellPlaced_withMaxSize 100
    · rw [hsame] at hs'
      obtain rfl := Except.ok.inj hs'
      exact h

end UndoStack

inductive StackCall
  | push (e : UndoEntry)
  | undo
  | redo
  deriving DecidableEq, Repr

inductive StackOp
  | call (c : StackCall)
  | clear
  | reload
  deriving DecidableEq, Repr

namespace UndoStack

variable {s s' : UndoStack}

def apply (s : UndoStack) : StackCall → UndoStack
  | .push e => s.pushWithGroup e.id e.label e.itemId e.groupId
  | .undo =>
    match s.groupUndoRange with
    | some r => s.recordUndoN (r.2 - r.1)
    | none => s
  | .redo =>
    match s.groupRedoRange with
    | some r => s.recordRedoN (r.2 - r.1)
    | none => s

def Step (Y : StackYaml) (s : UndoStack) : StackOp → UndoStack → Prop
  | .call c, s' => s' = s.apply c
  | .clear, s' => s' = s.clear
  | .reload, s' => s.reload Y = .ok s'

theorem WellPlaced.apply (h : s.WellPlaced) (c : StackCall) : (s.apply c).WellPlaced := by
  cases c with
  | push e => exact h.pushWithGroup e
  | undo =>
    rw [UndoStack.apply]
    split
    · rename_i hr
      exact h.recordUndoN hr
    · exact h
  | redo =>
    rw [UndoStack.apply]
    split
    · rename_i hr
      exact h.recordRedoN hr
    · exact h

theorem WellPlaced.step {Y : StackYaml} (h : s.WellPlaced) {op : StackOp} (hstep : s.Step Y op s') :
    s'.WellPlaced := by
  cases op with
  | call c =>
    obtain rfl : s' = s.apply c := hstep
    exact h.apply c
  | clear =>
    obtain rfl : s' = s.clear := hstep
    exact wellPlaced_full (Nat.zero_le _)
  | reload => exact h.reload Y hstep

/-- In every state of a run from an empty stack the pointer is between two groups, and the undo and
the redo of a group take each other back. -/
theorem inverse_everywhere (Y : StackYaml) (maxSize : Nat) {steps : List (StackOp × UndoStack)}
    (h : Trace (Step Y) (withMaxSize maxSize) steps) :
    ((withMaxSize maxSize).WellPlaced ∧ (withMaxSize maxSize).Inverse) ∧
      Trace.Every (fun _ _ s' => s'.WellPlaced ∧ s'.Inverse) (withMaxSize maxSize) steps := by
  have hstart : (withMaxSize maxSize).WellPlaced := wellPlaced_withMaxSize maxSize
  refine ⟨⟨hstart, hstart.inverse⟩, ?_⟩
  refine Trace.every_of_invariant (fun s op s' hs _ hstep => ?_) h hstart (Trace.every_true _ _)
  have hs' : s'.WellPlaced := hs.step hstep
  exact ⟨hs', hs', hs'.inverse⟩

def emptyYaml : StackYaml where
  toString s :=
    if s = withMaxSize 2 then .ok "entries: []\npointer: 0\nmax_size: 2\n" else .error "io"
  fromStr _ := .ok (withMaxSize 2)
  round_trip s text h := by
    split at h
    · rename_i heq
      rw [heq]
    · cases h

theorem inverse_after_reload :
    (withMaxSize 2).Inverse ∧
      ((withMaxSize 2).apply (.push ⟨1, "update task", "t", some 7⟩)).Inverse := by
  have htrace : Trace (Step emptyYaml) (withMaxSize 2) [(.reload, withMaxSize 2),
      (.call (.push ⟨1, "update task", "t", some 7⟩),
        (withMaxSize 2).apply (.push ⟨1, "update task", "t", some 7⟩))] :=
    .cons rfl (.cons rfl (.nil _))
  have h := inverse_everywhere emptyYaml 2 htrace
  exact ⟨h.1.2, h.2.2.1.2⟩

end UndoStack

end SwissArmyHammer.Store
