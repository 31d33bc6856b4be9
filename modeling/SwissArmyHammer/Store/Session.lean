import SwissArmyHammer.Store.Commands
import SwissArmyHammer.Store.Context

/-! Runs of one store under a `StoreContext`, each step pushed as an entry of its own. -/

namespace SwissArmyHammer.Store

section

variable (D : Diffy)

def StoreContext.replayed (dir : Direction) (c : StoreContext) : Option StoreContext :=
  match c.replay D dir with
  | (.ok _, c) => some c
  | (.error _, _) => none

def StoreContext.replayN (dir : Direction) : Nat → StoreContext → Option StoreContext
  | 0, c => some c
  | k + 1, c => (c.replayed D dir).bind (replayN dir k)

def StoreContext.undoN (k : Nat) (c : StoreContext) : Option StoreContext := c.replayN D .undo k

def StoreContext.redoN (k : Nat) (c : StoreContext) : Option StoreContext := c.replayN D .redo k

end

def StoreHandle.liveData (h : StoreHandle) (item : StoredItemId) : Option String :=
  (h.files.data item).live

def StoreContext.liveData (c : StoreContext) : List (StoredItemId → Option String) :=
  c.stores.map StoreHandle.liveData

structure Session (S : TrackedStore) where
  files : Files
  pendingEvents : List ChangeEvent
  stack : UndoStack

structure Step (S : TrackedStore) where
  stamp : Stamp
  label : String
  command : Command S

abbrev Step.id {S : TrackedStore} (p : Step S) : UndoEntryId := p.stamp.id

theorem hasEntry_of_okFiles {D : Diffy} {S : TrackedStore} {arm : ChangelogEntry → Arm}
    {f g : Files} {e : UndoEntryId} {item : StoredItemId}
    (h : (replay D S arm f e item).okFiles = some g) : hasEntry f e item = true := by
  by_contra hn
  simp only [hasEntry, Bool.or_eq_true, not_or, Slots.isTrashed, Slots.isArchived,
    Option.isSome_iff_ne_none, ne_eq, not_not, ← Std.ExtTreeMap.mem_iff_contains] at hn
  obtain ⟨⟨hfind, ht⟩, ha⟩ := hn
  have hrest : restoreLogs f item e = f := restoreLogs_of_none fun b => by
    cases b with
    | trash => exact Std.ExtTreeMap.getElem?_eq_none ht
    | archive => exact Std.ExtTreeMap.getElem?_eq_none ha
  simp [replay, hrest, hfind, fail, Outcome.okFiles] at h

theorem UndoStack.withPointer (st : UndoStack) {n : Nat} (h : st.pointer = n) :
    { st with pointer := n } = st := by
  subst h
  rfl

theorem UndoStack.group_undo {st : UndoStack} (es later : List UndoEntry) {e : UndoEntry}
    (hs : st.entries = es ++ e :: later) (hp : st.pointer = es.length + 1)
    (he : e.groupId = none) : st.group .undo = some [e] := by
  have hget : st.entries[es.length]? = some e := by simp [hs]
  have htake : st.entries.take (es.length + 1) = es ++ [e] := by
    rw [hs, List.take_append]
    simp
  simp [UndoStack.group, groupUndoRange, canUndo, hp, hget, he, range, htake]

theorem UndoStack.group_redo {st : UndoStack} (es later : List UndoEntry) {e : UndoEntry}
    (hs : st.entries = es ++ e :: later) (hp : st.pointer = es.length)
    (he : e.groupId = none) : st.group .redo = some [e] := by
  have hget : st.entries[es.length]? = some e := by simp [hs]
  obtain ⟨hlt, hval⟩ := List.getElem?_eq_some_iff.mp hget
  have htake : st.entries.take (es.length + 1) = es ++ [e] := by
    rw [hs, List.take_append]
    simp
  simp [UndoStack.group, groupRedoRange, canRedo, hp, hlt, hval, he, range, htake]

namespace Session

variable {S : TrackedStore}

def start (S : TrackedStore) (maxSize : Nat) : Session S := ⟨.empty, [], .withMaxSize maxSize⟩

def context (s : Session S) : StoreContext := ⟨s.stack, [⟨S, s.files, s.pendingEvents⟩], none⟩

theorem replayed_single (D : Diffy) {dir : Direction} {s : Session S} {e : UndoEntry}
    (hg : s.stack.group dir = some [e]) :
    s.context.replayed D dir = (replay D S dir.arm s.files e.id e.itemId).okFiles.map fun g =>
      context (S := S) ⟨g, s.pendingEvents ++ (replay D S dir.arm s.files e.id e.itemId).events,
        s.stack.record dir 1⟩ := by
  have hhas : ∀ g, (replay D S dir.arm s.files e.id e.itemId).okFiles = some g →
      Store.hasEntry s.files e.id e.itemId = true := fun g h => hasEntry_of_okFiles h
  cases hr : (replay D S dir.arm s.files e.id e.itemId).result with
  | ok x =>
    have hh := hhas (replay D S dir.arm s.files e.id e.itemId).files (by simp [Outcome.okFiles, hr])
    simp [StoreContext.replayed, StoreContext.replay, context, hg, dispatchAll, dispatch,
      StoreHandle.hasEntry, hh, StoreHandle.replayErased, hr, Except.map, Outcome.okFiles,
      StoreHandle.commit]
  | error err =>
    by_cases hh : Store.hasEntry s.files e.id e.itemId
    · simp [StoreContext.replayed, StoreContext.replay, context, hg, dispatchAll, dispatch,
        StoreHandle.hasEntry, hh, StoreHandle.replayErased, hr, Except.map, Outcome.okFiles]
    · simp [StoreContext.replayed, StoreContext.replay, context, hg, dispatchAll, dispatch,
        StoreHandle.hasEntry, hh, hr, Outcome.okFiles]

def nameOf (e : UndoEntry) : UndoEntryId × StoredItemId := (e.id, e.itemId)

theorem undoN_context (D : Diffy) {s : Session S} (base es later : List UndoEntry)
    (hs : s.stack.entries = base ++ es ++ later) (hp : s.stack.pointer = base.length + es.length)
    (hn : ∀ e ∈ es, e.groupId = none) :
    Option.Rel (fun g c => ∃ events,
        c = context (S := S) ⟨g, events, { s.stack with pointer := base.length }⟩)
      ((undoSystem D S).undoAll (es.map nameOf).reverse s.files)
      (s.context.undoN D es.length) := by
  induction es using List.reverseRecOn generalizing s later with
  | nil =>
    exact .some ⟨s.pendingEvents, by simp [UndoStack.withPointer _ (hp.trans (Nat.add_zero _))]⟩
  | append_singleton es e ih =>
    have hg : s.stack.group .undo = some [e] :=
      UndoStack.group_undo (base ++ es) later (by simp [hs])
        (by simp [hp, Nat.add_assoc]) (hn e (by simp))
    have hone := replayed_single D hg
    simp only [List.map_append, List.map_cons, List.map_nil, List.reverse_append,
      List.reverse_cons, List.reverse_nil, List.nil_append, List.cons_append, List.length_append,
      List.length_cons, List.length_nil, History.UndoSystem.undoAll, StoreContext.undoN,
      StoreContext.replayN, hone]
    change Option.Rel _ ((replay D S undoArm s.files e.id e.itemId).okFiles.bind _) _
    cases hu : (replay D S Direction.undo.arm s.files e.id e.itemId).okFiles with
    | none =>
      rw [show (replay D S undoArm s.files e.id e.itemId).okFiles = none from hu]
      exact .none
    | some g =>
      rw [show (replay D S undoArm s.files e.id e.itemId).okFiles = some g from hu]
      have hptr : s.stack.pointer - 1 = base.length + es.length := by
        rw [hp, List.length_append]
        simp
      exact @ih ⟨g, _, s.stack.record .undo 1⟩ (e :: later) (by
        simp [UndoStack.record, UndoStack.recordUndoN, hs]) hptr
        (fun x hx => hn x (by simp [hx]))

theorem redoN_context (D : Diffy) {s : Session S} (base es later : List UndoEntry)
    (hs : s.stack.entries = base ++ es ++ later) (hp : s.stack.pointer = base.length)
    (hn : ∀ e ∈ es, e.groupId = none) :
    Option.Rel (fun g c => ∃ events, c = context (S := S)
        ⟨g, events, { s.stack with pointer := base.length + es.length }⟩)
      ((undoSystem D S).redoAll (es.map nameOf) s.files)
      (s.context.redoN D es.length) := by
  induction es generalizing s base with
  | nil => exact .some ⟨s.pendingEvents, by simp [UndoStack.withPointer _ hp]⟩
  | cons e es ih =>
    have hg : s.stack.group .redo = some [e] :=
      UndoStack.group_redo base (es ++ later) (by simp [hs]) hp (hn e (by simp))
    have hone := replayed_single D hg
    simp only [List.map_cons, List.length_cons, History.UndoSystem.redoAll, StoreContext.redoN,
      StoreContext.replayN, hone]
    change Option.Rel _ ((replay D S redoArm s.files e.id e.itemId).okFiles.bind _) _
    cases hu : (replay D S Direction.redo.arm s.files e.id e.itemId).okFiles with
    | none =>
      rw [show (replay D S redoArm s.files e.id e.itemId).okFiles = none from hu]
      exact .none
    | some g =>
      rw [show (replay D S redoArm s.files e.id e.itemId).okFiles = some g from hu]
      have hptr : (s.stack.record .redo 1).pointer = (base ++ [e]).length := by
        simp [UndoStack.record, UndoStack.recordRedoN, hp, hs]
      have hrest := @ih ⟨g,
        s.pendingEvents ++ (replay D S Direction.redo.arm s.files e.id e.itemId).events,
        s.stack.record .redo 1⟩ (base ++ [e]) (by
        simp [UndoStack.record, UndoStack.recordRedoN, hs]) hptr
        (fun x hx => hn x (by simp [hx]))
      have hlen : (base ++ [e]).length + es.length = base.length + (es.length + 1) := by
        simp [Nat.add_comm, Nat.add_left_comm]
      rw [hlen] at hrest
      exact hrest

section

variable (D : Diffy)

def entryOf (s : Session S) (p : Step S) : Option UndoEntry :=
  match (runCommand D s.files p.stamp p.command).result with
  | .ok (some id) => some ⟨id, p.label, p.command.item, none⟩
  | _ => none

def exec (s : Session S) (p : Step S) : Session S :=
  let o := runCommand D s.files p.stamp p.command
  ⟨o.files, s.pendingEvents ++ o.events,
    match entryOf D s p with
    | some e => (s.context.push e.id e.label e.itemId).stack
    | none => s.stack⟩

def run (s : Session S) (steps : List (Step S)) : Session S := steps.foldl (exec D) s

def pushed (s : Session S) : List (Step S) → List UndoEntry
  | [] => []
  | p :: rest => (entryOf D s p).toList ++ pushed (exec D s p) rest

def restores (s : Session S) (p : Step S) : Option UndoEntryId :=
  match p.command with
  | .unarchiveLatest id => (s.files.data (S.display id)).findArchivedEntryId
  | _ => none

/-- No step restores an archived item over a live one, or one archived under `keys`. -/
def Reversible (keys : List UndoEntryId) (s : Session S) : List (Step S) → Prop
  | [] => True
  | p :: rest => (∀ a ∈ restores s p, (s.files.data p.command.item).live = none ∧ a ∉ keys) ∧
      Reversible keys (exec D s p) rest

instance Reversible.decidable (keys : List UndoEntryId) :
    (s : Session S) → (steps : List (Step S)) → Decidable (Reversible D keys s steps)
  | _, [] => .isTrue trivial
  | s, p :: rest =>
    have := decidable keys (exec D s p) rest
    inferInstanceAs (Decidable (_ ∧ _))

end

variable {D : Diffy} {s t : Session S} {p : Step S} {pre post : List (Step S)}

theorem exec_files (s : Session S) (p : Step S) :
    (exec D s p).files = (runCommand D s.files p.stamp p.command).files := rfl

theorem run_append (s : Session S) (pre post : List (Step S)) :
    run D s (pre ++ post) = run D (run D s pre) post := by
  simp [run]

theorem run_concat (s : Session S) (post : List (Step S)) (p : Step S) :
    run D s (post ++ [p]) = exec D (run D s post) p := by
  simp [run]

theorem pushed_append (s : Session S) (pre post : List (Step S)) :
    pushed D s (pre ++ post) = pushed D s pre ++ pushed D (run D s pre) post := by
  induction pre generalizing s with
  | nil => rfl
  | cons p pre ih => simp [pushed, ih, run]

theorem Reversible.append {keys : List UndoEntryId} :
    Reversible D keys s (pre ++ post) ↔
      Reversible D keys s pre ∧ Reversible D keys (run D s pre) post := by
  induction pre generalizing s with
  | nil => simp [Reversible, run]
  | cons p pre ih =>
    simp only [List.cons_append, Reversible, ih, and_assoc]
    rfl

def Fresh (n : UndoEntryId) (steps : List (Step S)) : Prop :=
  (∀ p ∈ steps, n ≤ p.id) ∧ (steps.map Step.id).Pairwise (· < ·)

variable {n m : UndoEntryId}

theorem Fresh.append (h : Fresh n (pre ++ post)) :
    Fresh n pre ∧ Fresh n post ∧ ∀ p ∈ pre, ∀ q ∈ post, p.id < q.id := by
  obtain ⟨hn, hp⟩ := h
  simp only [List.map_append, List.pairwise_append, List.mem_map, List.mem_append] at hn hp
  exact ⟨⟨fun q hq => hn q (Or.inl hq), hp.1⟩, ⟨fun q hq => hn q (Or.inr hq), hp.2.1⟩,
    fun q hq r hr => hp.2.2 q.id ⟨q, hq, rfl⟩ r.id ⟨r, hr, rfl⟩⟩

structure Settled (n : UndoEntryId) (s : Session S) : Prop where
  kept : s.files.Kept S n
  pointer : s.stack.pointer = s.stack.entries.length
  ungrouped : ∀ e ∈ s.stack.entries, e.groupId = none
  below : ∀ e ∈ s.stack.entries, e.id < n

theorem Settled.start (maxSize : Nat) : (Session.start S maxSize).Settled n where
  kept := .empty
  pointer := rfl
  ungrouped := by simp [Session.start, UndoStack.withMaxSize]
  below := by simp [Session.start, UndoStack.withMaxSize]

theorem Settled.top_id (h : s.Settled n) (hn : n ≤ m) : s.stack.top.map (·.id) ≠ some m := by
  intro ht
  obtain ⟨e, he, rfl⟩ := Option.map_eq_some_iff.mp ht
  unfold UndoStack.top at he
  split at he
  · have hb := h.below e (List.mem_of_getElem? he)
    exact absurd (hb.trans_le hn) (lt_irrefl _)
  · simp at he

theorem Settled.entryOf_cases (hS : S.Lawful) (h : s.Settled n) (hn : n ≤ p.id) :
    (entryOf D s p = none ∧ (exec D s p).files = s.files) ∨
      (entryOf D s p = some ⟨p.id, p.label, p.command.item, none⟩ ∧
        (runCommand D s.files p.stamp p.command).result = .ok (some p.id)) := by
  rcases runCommand_cases (D := D) hS h.kept hn p.command with ⟨hr, hf⟩ | ⟨hr, -, -⟩
  · refine Or.inl ⟨?_, hf⟩
    unfold entryOf
    split
    · rename_i id hid
      exact absurd hid (hr id)
    · rfl
  · exact Or.inr ⟨by simp [entryOf, hr], hr⟩

theorem Settled.kept_exec (hS : S.Lawful) (h : s.Settled n) (hn : n ≤ p.id) :
    (exec D s p).files.Kept S (p.id + 1) := by
  rcases runCommand_cases (D := D) hS h.kept hn p.command with ⟨-, hf⟩ | ⟨-, hkept, -⟩
  · intro item
    have hfiles : (Session.exec D s p).files = s.files := hf
    rw [hfiles]
    exact (h.kept item).mono (hn.trans (Nat.le_succ _))
  · exact hkept

theorem Settled.exec_stack (hS : S.Lawful) (h : s.Settled n) (hn : n ≤ p.id)
    (hroom : s.stack.entries.length + (entryOf D s p).toList.length ≤ s.stack.maxSize) :
    (exec D s p).stack = ⟨s.stack.entries ++ (entryOf D s p).toList,
      (s.stack.entries ++ (entryOf D s p).toList).length, s.stack.maxSize⟩ := by
  rcases h.entryOf_cases (D := D) hS hn with ⟨he, -⟩ | ⟨he, -⟩
  · simp [Session.exec, he, ← h.pointer]
  · have hroom' : s.stack.entries.length + 1 ≤ s.stack.maxSize := by simpa [he] using hroom
    simp only [Session.exec, he, Option.toList_some, List.length_append, List.length_singleton]
    exact UndoStack.pushWithGroup_of_fresh _ _ _ h.pointer (h.top_id hn) hroom'

theorem Settled.exec (hS : S.Lawful) (h : s.Settled n) (hn : n ≤ p.id)
    (hroom : s.stack.entries.length + (entryOf D s p).toList.length ≤ s.stack.maxSize) :
    (exec D s p).Settled (p.id + 1) := by
  have hstack := h.exec_stack hS hn hroom
  have hnew : ∀ e ∈ (entryOf D s p).toList, e.groupId = none ∧ e.id = p.id := by
    intro e he
    rcases h.entryOf_cases (D := D) hS hn with ⟨hp, -⟩ | ⟨hp, -⟩
    · simp [hp] at he
    · obtain rfl : e = _ := by simpa [hp] using he
      exact ⟨rfl, rfl⟩
  refine ⟨h.kept_exec hS hn, by rw [hstack], fun e he => ?_, fun e he => ?_⟩
  · rw [hstack] at he
    rcases List.mem_append.mp he with he | he
    · exact h.ungrouped e he
    · exact (hnew e he).1
  · rw [hstack] at he
    rcases List.mem_append.mp he with he | he
    · exact (h.below e he).trans_le (hn.trans (Nat.le_succ _))
    · exact (hnew e he).2 ▸ Nat.lt_succ_self p.id

end Session
end SwissArmyHammer.Store
