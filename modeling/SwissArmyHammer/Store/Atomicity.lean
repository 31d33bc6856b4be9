import SwissArmyHammer.Store.Records
import SwissArmyHammer.Store.Session

/-! What a call of `undo` or `redo` that fails has done to the live files. -/

namespace SwissArmyHammer.Store

section

variable (D : Diffy) (S : TrackedStore)

def found (f : Files) (entry : UndoEntryId) (item : StoredItemId) : Option ChangelogEntry :=
  Changelog.findEntry (((restoreLogs f item entry).log item).live.getD []) entry

def Arm.text (f : Files) (r : ChangelogEntry) : Arm → Option String
  | .sendAway _ patch => (applyPatch D "" patch).toOption
  | .bringBack _ patch => (applyPatch D "" patch).toOption
  | .rewrite patch _ => (f.data r.itemId).live.bind fun c => (applyPatch D c patch).toOption

def reads (item : StoredItemId) (text : String) : Bool := (S.read item text).isOk

def Arm.logged (f : Files) (r : ChangelogEntry) : Arm → Bool
  | .sendAway _ _ => (f.log r.itemId).live.isSome
  | .bringBack _ _ => true
  | .rewrite _ _ => true

def Arm.succeeds (f : Files) (r : ChangelogEntry) (a : Arm) : Bool :=
  (a.write D f r).isSome && a.logged f r && (a.text D f r).any (reads S r.itemId)

variable {D S} {f : Files} {r : ChangelogEntry}

theorem runArm_live (a : Arm) (x : StoredItemId) :
    ((runArm D S f r a).files.data x).live =
      if x = r.itemId then (a.write D f r).getD (f.data x).live else (f.data x).live := by
  by_cases hx : x = r.itemId
  · subst hx
    rw [if_pos rfl]
    have hleaves := runArm_leaves (D := D) (S := S) f r a
    generalize (runArm D S f r a).files = g at hleaves ⊢
    cases hleaves with
    | unchanged hwrite => rw [hwrite, Option.getD_none]
    | halfSent hwrite hs _ => simp [hwrite, Slots.moveToBin_live hs]
    | sent hwrite hs _ => simp [hwrite, Slots.moveToBin_live hs]
    | brought hs =>
      have hlive := Slots.moveFromBin_live hs
      obtain ⟨y, hy, -⟩ := Slots.moveFromBin_eq_some.mp hs
      simp [Arm.write, hy, hlive]
    | rewritten hc hp => simp [Arm.write, hc, hp, Except.toOption, Files.writeText]
  · rw [if_neg hx, (runArm_of_ne hx a).1]

theorem runArm_ok (a : Arm) : (runArm D S f r a).result.isOk = a.succeeds D S f r := by
  cases a with
  | sendAway b patch =>
    simp only [runArm, Arm.succeeds, Arm.write, Arm.text, Arm.logged]
    cases hp : applyPatch D "" patch with
    | error e => simp [fail, Except.isOk, Except.toBool]
    | ok text =>
      cases hs : (f.data r.itemId).moveToBin b r.id with
      | none =>
        have hlive : (f.data r.itemId).live = none := by simpa [Slots.moveToBin] using hs
        simp [Except.isOk, Except.toBool, hlive, fail]
      | some s =>
        obtain ⟨y, hy, -⟩ := Slots.moveToBin_eq_some.mp hs
        cases hm : (f.log r.itemId).moveToBin b r.id with
        | none =>
          have hlog : (f.log r.itemId).live = none := by simpa [Slots.moveToBin] using hm
          simp [hm, hy, hlog, fail, Except.isOk, Except.toBool]
        | some l =>
          obtain ⟨log, hlog, -⟩ := Slots.moveToBin_eq_some.mp hm
          simp [hm, hy, hlog, Except.isOk, Except.toBool, Except.toOption]
          rfl
  | bringBack b patch =>
    simp only [runArm, Arm.succeeds, Arm.write, Arm.text, Arm.logged]
    cases hs : (f.data r.itemId).moveFromBin b r.id with
    | none =>
      have hbin : ((f.data r.itemId).bin b)[r.id]? = none := by simpa [Slots.moveFromBin] using hs
      simp [hbin, fail, Except.isOk, Except.toBool]
    | some s =>
      obtain ⟨y, hy, -⟩ := Slots.moveFromBin_eq_some.mp hs
      cases applyPatch D "" patch with
      | error e => simp [hy, fail, Except.isOk, Except.toBool, Except.toOption]
      | ok text =>
        simp [hy, Except.toOption]
        rfl
  | rewrite patch conflict =>
    simp only [runArm, Arm.succeeds, Arm.write, Arm.text, Arm.logged]
    cases hc : (f.data r.itemId).live with
    | none => simp [fail, Except.isOk, Except.toBool]
    | some current =>
      cases hp : applyPatch D current patch with
      | error e => simp [hp, fail, Except.isOk, Except.toBool, Except.toOption]
      | ok target =>
        simp [hp, Except.toOption]
        rfl

end
section

variable (D : Diffy) (dir : Direction)

def StoreHandle.write (h : StoreHandle) (e : UndoEntry) : Option (StoredItemId × Option String) :=
  (found h.files e.id e.itemId).bind fun r =>
    ((dir.arm r).write D h.files r).map fun content => (r.itemId, content)

def StoreHandle.succeeds (h : StoreHandle) (e : UndoEntry) : Bool :=
  (found h.files e.id e.itemId).any fun r =>
    (dir.arm r).succeeds D h.store (restoreLogs h.files e.itemId e.id) r

def owner : List StoreHandle → UndoEntry → Option (Nat × StoreHandle)
  | [], _ => none
  | h :: rest, e => if h.hasEntry e then some (0, h) else (owner rest e).map fun p => (p.1 + 1, p.2)

abbrev LiveFile := Nat × StoredItemId

def liveFile (stores : List StoreHandle) (k : LiveFile) : Option String :=
  stores[k.1]?.bind fun h => h.liveData k.2

def turnWrite (stores : List StoreHandle) (e : UndoEntry) : Option (LiveFile × Option String) :=
  (owner stores e).bind fun p => (p.2.write D dir e).map fun w => ((p.1, w.1), w.2)

def turnSucceeds (stores : List StoreHandle) (e : UndoEntry) : Bool :=
  (owner stores e).any fun p => p.2.succeeds D dir e

def through : List StoreHandle → List UndoEntry → Bool
  | _, [] => true
  | stores, e :: rest =>
    turnSucceeds D dir stores e && through (dispatch D dir stores e).2 rest

def liveWrites : List StoreHandle → List UndoEntry → List (LiveFile × Option String)
  | _, [] => []
  | stores, e :: rest => (turnWrite D dir stores e).toList ++
      if turnSucceeds D dir stores e then liveWrites (dispatch D dir stores e).2 rest else []

variable {D dir} {S : TrackedStore} {f : Files} {entry : UndoEntryId} {item : StoredItemId}

theorem replay_live (arm : ChangelogEntry → Arm) (x : StoredItemId) :
    ((replay D S arm f entry item).files.data x).live =
      match found f entry item with
      | none => (f.data x).live
      | some r => if x = r.itemId then ((arm r).write D f r).getD (f.data x).live
          else (f.data x).live := by
  simp only [replay]
  cases hr : found f entry item with
  | none =>
    rw [found] at hr
    simp only [hr]
    rfl
  | some r =>
    rw [found] at hr
    simp only [hr]
    exact runArm_live (f := restoreLogs f item entry) (arm r) x

theorem replay_ok (arm : ChangelogEntry → Arm) :
    (replay D S arm f entry item).result.isOk =
      (found f entry item).any fun r => (arm r).succeeds D S (restoreLogs f item entry) r := by
  simp only [replay]
  cases hr : found f entry item with
  | none =>
    rw [found] at hr
    simp only [hr]
    rfl
  | some r =>
    rw [found] at hr
    simp only [hr]
    exact runArm_ok (arm r)

theorem StoreHandle.replayErased_spec (D : Diffy) (dir : Direction) (h : StoreHandle)
    (e : UndoEntry) :
    (h.replayErased D dir e).1.isOk = h.succeeds D dir e ∧
      (h.replayErased D dir e).2.liveData =
        History.writeAll (h.write D dir e).toList h.liveData := by
  constructor
  · rw [StoreHandle.succeeds, ← replay_ok]
    simp only [StoreHandle.replayErased]
    cases (replay D h.store dir.arm h.files e.id e.itemId).result <;> rfl
  · funext x
    rw [History.writeAll_apply]
    simp only [StoreHandle.replayErased, StoreHandle.liveData, StoreHandle.commit, replay_live,
      StoreHandle.write]
    cases found h.files e.id e.itemId with
    | none => rfl
    | some r =>
      cases hw : (dir.arm r).write D h.files r with
      | none => simp [History.lastWrite, hw]
      | some content =>
        by_cases hx : x = r.itemId
        · simp [History.lastWrite, hw, hx]
        · have hne : r.itemId ≠ x := fun heq => hx heq.symm
          simp [History.lastWrite, hw, hx, hne]

theorem liveFile_cons_head {h h' : StoreHandle} {w : Option (StoredItemId × Option String)}
    (hlive : h'.liveData = History.writeAll w.toList h.liveData) (rest : List StoreHandle) :
    liveFile (h' :: rest) =
      History.writeAll (w.map fun w => ((0, w.1), w.2)).toList (liveFile (h :: rest)) := by
  funext ⟨i, item⟩
  rw [History.writeAll_apply]
  cases i with
  | zero =>
    have hitem := congrFun hlive item
    rw [History.writeAll_apply] at hitem
    cases w with
    | none => simpa [liveFile, History.lastWrite] using hitem
    | some w => simpa [liveFile, History.lastWrite, Prod.ext_iff] using hitem
  | succ i =>
    cases w with
    | none => rfl
    | some w => simp [liveFile, History.lastWrite]

theorem liveFile_cons_tail {rest rest' : List StoreHandle} {w : Option (LiveFile × Option String)}
    (hlive : liveFile rest' = History.writeAll w.toList (liveFile rest)) (h : StoreHandle) :
    liveFile (h :: rest') = History.writeAll
      (w.map fun w => ((w.1.1 + 1, w.1.2), w.2)).toList (liveFile (h :: rest)) := by
  funext ⟨i, item⟩
  rw [History.writeAll_apply]
  cases i with
  | zero =>
    cases w with
    | none => rfl
    | some w => simp [liveFile, History.lastWrite]
  | succ i =>
    have hitem := congrFun hlive (i, item)
    rw [History.writeAll_apply] at hitem
    cases w with
    | none => simpa [liveFile, History.lastWrite] using hitem
    | some w => simpa [liveFile, History.lastWrite, Prod.ext_iff] using hitem

theorem dispatch_spec (D : Diffy) (dir : Direction) (stores : List StoreHandle) (e : UndoEntry) :
    (dispatch D dir stores e).1.isOk = turnSucceeds D dir stores e ∧
      (dispatch D dir stores e).2.length = stores.length ∧
      liveFile (dispatch D dir stores e).2 =
        History.writeAll (turnWrite D dir stores e).toList (liveFile stores) := by
  induction stores with
  | nil => exact ⟨rfl, rfl, rfl⟩
  | cons h rest ih =>
    by_cases hh : h.hasEntry e
    · obtain ⟨hok, hlive⟩ := h.replayErased_spec D dir e
      simp only [dispatch, hh, if_true, turnSucceeds, turnWrite, owner, Option.any_some,
        Option.bind_some, List.length_cons, true_and, ← hok]
      refine ⟨by cases (h.replayErased D dir e).1 <;> rfl, ?_⟩
      exact liveFile_cons_head hlive rest
    · obtain ⟨hok, hlen, hlive⟩ := ih
      simp only [dispatch, hh, if_false, Bool.false_eq_true, turnSucceeds, turnWrite, owner,
        Option.any_map, List.length_cons, hlen, true_and]
      refine ⟨hok, ?_⟩
      rw [liveFile_cons_tail hlive h, turnWrite]
      cases owner rest e with
      | none => rfl
      | some p => simp [Function.comp_def]

theorem dispatchAll_spec (D : Diffy) (dir : Direction) (stores : List StoreHandle)
    (entries : List UndoEntry) :
    (dispatchAll D dir stores entries).1.isOk = through D dir stores entries ∧
      (dispatchAll D dir stores entries).2.length = stores.length ∧
      liveFile (dispatchAll D dir stores entries).2 =
        History.writeAll (liveWrites D dir stores entries) (liveFile stores) ∧
      ∀ items, (dispatchAll D dir stores entries).1 = .ok items →
        items.length = entries.length := by
  induction entries generalizing stores with
  | nil =>
    refine ⟨rfl, rfl, rfl, ?_⟩
    rintro items ⟨⟩
    rfl
  | cons e rest ih =>
    obtain ⟨hok, hlen, hlive⟩ := dispatch_spec D dir stores e
    simp only [dispatchAll, through, liveWrites, ← hok, History.writeAll_append, ← hlive]
    generalize dispatch D dir stores e = turn at hok hlen hlive ⊢
    obtain ⟨result, stores'⟩ := turn
    cases result with
    | error err => exact ⟨rfl, hlen, rfl, by simp⟩
    | ok x =>
      obtain ⟨hok', hlen', hlive', hitems⟩ := ih stores'
      simp only [Except.isOk, Except.toBool, Bool.true_and, if_true] at hok' ⊢
      rw [← hok', ← hlen, ← hlen', ← hlive']
      generalize dispatchAll D dir stores' rest = run at hitems ⊢
      obtain ⟨result, stores''⟩ := run
      cases result with
      | error err => exact ⟨rfl, rfl, rfl, by simp⟩
      | ok items =>
        refine ⟨rfl, rfl, rfl, ?_⟩
        simp [hitems items rfl]

theorem liveData_eq_iff {stores stores' : List StoreHandle} (h : stores'.length = stores.length) :
    stores'.map StoreHandle.liveData = stores.map StoreHandle.liveData ↔
      liveFile stores' = liveFile stores := by
  constructor
  · intro heq
    funext ⟨i, item⟩
    have hi := congrArg (fun l => l[i]?) heq
    simp only [List.getElem?_map] at hi
    simp only [liveFile]
    cases h₁ : stores'[i]? with
    | none =>
      grind
    | some s =>
      cases h₂ : stores[i]? with
      | none => simp [h₁, h₂] at hi
      | some t =>
        simp only [h₁, h₂, Option.map_some, Option.some.injEq] at hi
        exact congrFun hi item
  · intro heq
    apply List.ext_getElem (by simpa using h)
    intro i h₁ h₂
    funext item
    have hi := congrFun heq (i, item)
    rw [List.length_map] at h₁ h₂
    simpa [liveFile, h₁, h₂] using hi

end
section

open UndoStack

def groupOfTwo (files : Files → Files) : StoreContext :=
  let f := (write .verbatim .plain .empty ⟨1, 1⟩ ("a", "one")).files
  let f := (write .verbatim .plain f ⟨2, 2⟩ ("a", "two")).files
  let f := (write .verbatim .plain f ⟨3, 3⟩ ("b", "new")).files
  let stack := (withMaxSize 100).pushWithGroup 1 "" "a" none
  let stack := (stack.pushWithGroup 2 "" "a" (some 9)).pushWithGroup 3 "" "b" (some 9)
  ⟨stack, [⟨.plain, files f, []⟩], none⟩

end
end SwissArmyHammer.Store
