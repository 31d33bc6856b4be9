import SwissArmyHammer.Store.Handle

/-! `UndoStack`: a bounded list of entries with a pointer. Entries before the pointer
are done, the others can be redone. -/

namespace SwissArmyHammer.Store

structure UndoEntry where
  id : UndoEntryId
  label : String
  itemId : StoredItemId
  groupId : Option UndoEntryId
  deriving DecidableEq, Repr

structure UndoStack where
  entries : List UndoEntry
  pointer : Nat
  maxSize : Nat
  deriving DecidableEq, Repr

namespace UndoStack

def withMaxSize (maxSize : Nat) : UndoStack := ⟨[], 0, maxSize⟩

def new : UndoStack := withMaxSize 100

def canUndo (s : UndoStack) : Bool := s.pointer > 0

def canRedo (s : UndoStack) : Bool := s.pointer < s.entries.length

def top (s : UndoStack) : Option UndoEntry :=
  if s.canUndo then s.entries[s.pointer - 1]? else none

def pushWithGroup (s : UndoStack) (id : UndoEntryId) (label : String) (itemId : StoredItemId)
    (groupId : Option UndoEntryId) : UndoStack :=
  if s.top.map (·.id) = some id then s
  else
    let entries := s.entries.take s.pointer ++ [⟨id, label, itemId, groupId⟩]
    let pointer := s.pointer + 1
    if entries.length > s.maxSize then
      let excess := entries.length - s.maxSize
      ⟨entries.drop excess, pointer - excess, s.maxSize⟩
    else ⟨entries, pointer, s.maxSize⟩

theorem pushWithGroup_of_fresh {s : UndoStack} {id : UndoEntryId} (label : String)
    (itemId : StoredItemId) (groupId : Option UndoEntryId) (hp : s.pointer = s.entries.length)
    (htop : s.top.map (·.id) ≠ some id) (hroom : s.entries.length + 1 ≤ s.maxSize) :
    s.pushWithGroup id label itemId groupId =
      ⟨s.entries ++ [⟨id, label, itemId, groupId⟩], s.entries.length + 1, s.maxSize⟩ := by
  have hsmall : ¬ s.entries.length + 1 > s.maxSize := by omega
  simp [pushWithGroup, htop, hp, hsmall]

theorem top_pushWithGroup {s : UndoStack} {id : UndoEntryId} {label : String}
    {itemId : StoredItemId} {groupId : Option UndoEntryId} {e : UndoEntry}
    (hne : s.top.map (·.id) ≠ some id)
    (h : (s.pushWithGroup id label itemId groupId).top = some e) :
    e = ⟨id, label, itemId, groupId⟩ := by
  have hfull : ∀ {x : UndoEntry},
      (s.entries.take s.pointer ++ [x])[s.pointer]? = some e → e = x := by
    intro x hx
    by_cases hp : s.pointer ≤ s.entries.length
    · grind
    · grind
  simp only [pushWithGroup, if_neg hne] at h
  split at h
  · simp only [top, canUndo, List.getElem?_drop] at h
    split at h
    · grind
    · simp at h
  · have hpos : s.pointer + 1 > 0 := Nat.succ_pos _
    exact hfull h

def groupStart (entries : List UndoEntry) (group : UndoEntryId) : Nat → Nat
  | 0 => 0
  | start + 1 =>
    if (entries[start]?.bind (·.groupId)) = some group then groupStart entries group start
    else start + 1

def groupLength (group : UndoEntryId) : List UndoEntry → Nat
  | [] => 0
  | e :: rest => if e.groupId = some group then groupLength group rest + 1 else 0

def groupUndoRange (s : UndoStack) : Option (Nat × Nat) :=
  if s.canUndo then
    match (s.entries[s.pointer - 1]?.bind (·.groupId)) with
    | none => some (s.pointer - 1, s.pointer)
    | some group => some (groupStart s.entries group (s.pointer - 1), s.pointer)
  else none

def groupRedoRange (s : UndoStack) : Option (Nat × Nat) :=
  if s.canRedo then
    match (s.entries[s.pointer]?.bind (·.groupId)) with
    | none => some (s.pointer, s.pointer + 1)
    | some group =>
      some (s.pointer, s.pointer + 1 + groupLength group (s.entries.drop (s.pointer + 1)))
  else none

def range (s : UndoStack) (r : Nat × Nat) : List UndoEntry :=
  (s.entries.take r.2).drop r.1

def recordUndoN (s : UndoStack) (n : Nat) : UndoStack := { s with pointer := s.pointer - n }

def recordRedoN (s : UndoStack) (n : Nat) : UndoStack :=
  { s with pointer := min (s.pointer + n) s.entries.length }

end UndoStack
end SwissArmyHammer.Store

/-! `StoreContext`: the undo stack shared by the registered stores, and the dispatch of
a whole undo group to the stores that own its entries. -/

namespace SwissArmyHammer.Store

structure StoreHandle where
  store : TrackedStore
  files : Files
  pendingEvents : List ChangeEvent

structure UndoOutcome where
  storeName : String
  itemId : StoredItemId
  items : List (String × StoredItemId)
  deriving DecidableEq, Repr

structure StoreContext where
  stack : UndoStack
  stores : List StoreHandle
  currentGroup : Option UndoEntryId

def StoreHandle.commit {α : Type} (h : StoreHandle) (o : Outcome α) : StoreHandle :=
  { h with files := o.files, pendingEvents := h.pendingEvents ++ o.events }

def StoreHandle.hasEntry (h : StoreHandle) (e : UndoEntry) : Bool :=
  Store.hasEntry h.files e.id e.itemId

inductive Direction
  | undo
  | redo
  deriving DecidableEq, Repr

def Direction.arm : Direction → ChangelogEntry → Arm
  | .undo => undoArm
  | .redo => redoArm

section

variable (D : Diffy)

def StoreHandle.replayErased (dir : Direction) (h : StoreHandle) (e : UndoEntry) :
    Except StoreError Unit × StoreHandle :=
  let o := replay D h.store dir.arm h.files e.id e.itemId
  (o.result.map fun _ => (), h.commit o)

def dispatch (dir : Direction) (stores : List StoreHandle) (e : UndoEntry) :
    Except StoreError (String × StoredItemId) × List StoreHandle :=
  match stores with
  | [] => (.error (.noProvider (UndoEntryId.toString e.id)), [])
  | h :: rest =>
    if h.hasEntry e then
      let r := h.replayErased D dir e
      (r.1.map fun _ => (h.store.storeName, e.itemId), r.2 :: rest)
    else
      let r := dispatch dir rest e
      (r.1, h :: r.2)

/-- The loop over the entries of a group, in processing order. It stops at the first
error and keeps what the entries before have done. -/
def dispatchAll (dir : Direction) (stores : List StoreHandle) :
    List UndoEntry → Except StoreError (List (String × StoredItemId)) × List StoreHandle
  | [] => (.ok [], stores)
  | e :: rest =>
    match dispatch D dir stores e with
    | (.error err, stores) => (.error err, stores)
    | (.ok x, stores) =>
      match dispatchAll dir stores rest with
      | (.error err, stores) => (.error err, stores)
      | (.ok items, stores) => (.ok (x :: items), stores)

def UndoStack.group (dir : Direction) (s : UndoStack) : Option (List UndoEntry) :=
  match dir with
  | .undo => s.groupUndoRange.map fun r => (s.range r).reverse
  | .redo => s.groupRedoRange.map s.range

def UndoStack.record (dir : Direction) (s : UndoStack) (n : Nat) : UndoStack :=
  match dir with
  | .undo => s.recordUndoN n
  | .redo => s.recordRedoN n

def nothingTo : Direction → StoreError
  | .undo => .notFound "nothing to undo"
  | .redo => .notFound "nothing to redo"

def StoreContext.replay (dir : Direction) (c : StoreContext) :
    Except StoreError UndoOutcome × StoreContext :=
  match c.stack.group dir with
  | none => (.error (nothingTo dir), c)
  | some entries =>
    match dispatchAll D dir c.stores entries with
    | (.error err, stores) => (.error err, { c with stores := stores })
    | (.ok items, stores) =>
      let c := { c with stores := stores, stack := c.stack.record dir entries.length }
      match items.getLast? with
      | none => (.error (nothingTo dir), c)
      | some (storeName, itemId) => (.ok ⟨storeName, itemId, items⟩, c)

def StoreContext.undo (c : StoreContext) : Except StoreError UndoOutcome × StoreContext :=
  c.replay D .undo

def StoreContext.redo (c : StoreContext) : Except StoreError UndoOutcome × StoreContext :=
  c.replay D .redo

end

/-- `begin_undo_group`; `fresh` is the id that is drawn when no group is open. -/
def StoreContext.beginUndoGroup (c : StoreContext) (fresh : UndoEntryId) : StoreContext :=
  if c.currentGroup.isNone then { c with currentGroup := some fresh } else c

/-- `end_undo_group`, which the end and the drop of every guard call. -/
def StoreContext.endUndoGroup (c : StoreContext) : StoreContext := { c with currentGroup := none }

def StoreContext.push (c : StoreContext) (id : UndoEntryId) (label : String)
    (itemId : StoredItemId) : StoreContext :=
  { c with stack := c.stack.pushWithGroup id label itemId c.currentGroup }

end SwissArmyHammer.Store
