import SwissArmyHammer.Store.Commands
import Mathlib.Logic.Equiv.Basic
import Mathlib.Logic.Relation

/-! Where the records of an item lie. Moving a changelog keeps its records together, no
two files share a record, and a file in a bin holds the record of the entry that it is
named after. -/

namespace SwissArmyHammer.Store

inductive Place
  | live
  | bin (b : Bin) (e : UndoEntryId)
  deriving DecidableEq, Repr

def Slots.at? {α : Type} (s : Slots α) : Place → Option α
  | .live => s.live
  | .bin b e => (s.bin b)[e]?

inductive LogMove (e : UndoEntryId) (l : Slots Changelog) : Slots Changelog → Prop
  | back {b : Bin} {l' : Slots Changelog} : l.moveFromBin b e = some l' → LogMove e l l'
  | away {b : Bin} {l' : Slots Changelog} {log : Changelog} {r : ChangelogEntry} :
      l.live = some log → r ∈ log → r.id = e → l.moveToBin b e = some l' → LogMove e l l'

abbrev LogMoves (e : UndoEntryId) := Relation.ReflTransGen (LogMove e)

def Slots.appended (l : Slots Changelog) (r : ChangelogEntry) : Slots Changelog :=
  { l with live := some (l.live.getD [] ++ [r]) }

def Slots.Every (P : Changelog → Prop) (l : Slots Changelog) : Prop :=
  ∀ p log, l.at? p = some log → P log

structure Slots.Filed (l : Slots Changelog) : Prop where
  unique : ∀ p q log log', l.at? p = some log → l.at? q = some log' →
    ∀ r ∈ log, ∀ r' ∈ log', r.id = r'.id → p = q
  named : ∀ b e log, l.at? (.bin b e) = some log → ∃ r ∈ log, r.id = e

section

variable {e : UndoEntryId} {l l' : Slots Changelog} {P : Changelog → Prop}

theorem LogMove.swap (h : LogMove e l l') : ∃ b, ∀ p log, l'.at? p = some log →
    l.at? (Equiv.swap .live (.bin b e) p) = some log := by
  cases h with
  | @back b _ h =>
    refine ⟨b, fun p log hp => ?_⟩
    cases p with
    | live =>
      rw [Slots.at?, Slots.moveFromBin_live h] at hp
      simpa [Slots.at?] using hp
    | bin b' e' =>
      rw [Slots.at?, Slots.moveFromBin_get h] at hp
      split at hp
      · simp at hp
      · rename_i hne
        rw [Equiv.swap_apply_of_ne_of_ne (by simp) (by simpa using hne)]
        exact hp
  | @away b _ log' r hl hr he h =>
    refine ⟨b, fun p log hp => ?_⟩
    cases p with
    | live => simp [Slots.at?, Slots.moveToBin_live h] at hp
    | bin b' e' =>
      rw [Slots.at?, Slots.moveToBin_get h] at hp
      split at hp
      · rename_i heq
        obtain ⟨rfl, rfl⟩ := heq
        simpa [Slots.at?] using hp
      · rename_i hne
        rw [Equiv.swap_apply_of_ne_of_ne (by simp) (by simpa using hne)]
        exact hp

theorem LogMove.bin_of_ne (h : LogMove e l l') {e' : UndoEntryId} (he : e' ≠ e) (b : Bin) :
    (l'.bin b)[e']? = (l.bin b)[e']? := by
  cases h with
  | back h => simp [Slots.moveFromBin_get h, he]
  | away _ _ _ h => simp [Slots.moveToBin_get h, he]

theorem LogMoves.bin_of_ne (h : LogMoves e l l') {e' : UndoEntryId} (he : e' ≠ e) (b : Bin) :
    (l'.bin b)[e']? = (l.bin b)[e']? := by
  induction h with
  | refl => rfl
  | tail _ hstep ih => rw [hstep.bin_of_ne he, ih]

theorem Slots.Every.move (hl : l.Every P) (h : LogMove e l l') : l'.Every P := by
  obtain ⟨b, hb⟩ := h.swap
  exact fun p log hp => hl _ log (hb p log hp)

theorem Slots.Every.moves (hl : l.Every P) (h : LogMoves e l l') : l'.Every P := by
  induction h with
  | refl => exact hl
  | tail _ hstep ih => exact ih.move hstep

theorem Slots.Every.appended (hl : l.Every P) {r : ChangelogEntry} (hnil : P [])
    (hP : ∀ log, P log → P (log ++ [r])) : (l.appended r).Every P := by
  intro p log hp
  cases p with
  | live =>
    obtain rfl : l.live.getD [] ++ [r] = log := by simpa [Slots.at?, Slots.appended] using hp
    cases hlive : l.live with
    | none => exact hP [] hnil
    | some log => exact hP log (hl .live log hlive)
  | bin b e => exact hl (.bin b e) log hp

theorem Slots.Filed.move (hl : l.Filed) (h : LogMove e l l') : l'.Filed := by
  constructor
  · intro p q log log' hp hq r hr r' hr' hrr
    obtain ⟨b, hb⟩ := h.swap
    have hpq := hl.unique _ _ log log' (hb p log hp) (hb q log' hq) r hr r' hr' hrr
    exact (Equiv.swap _ _).injective hpq
  · intro b' e' log hp
    cases h with
    | back h =>
      rw [Slots.at?, Slots.moveFromBin_get h] at hp
      split at hp
      · simp at hp
      · exact hl.named b' e' log hp
    | away hlive hr he h =>
      rw [Slots.at?, Slots.moveToBin_get h] at hp
      split at hp
      · grind
      · exact hl.named b' e' log hp

theorem Slots.Filed.moves (hl : l.Filed) (h : LogMoves e l l') : l'.Filed := by
  induction h with
  | refl => exact hl
  | tail _ hstep ih => exact ih.move hstep

theorem Slots.Filed.empty : (Slots.empty : Slots Changelog).Filed := by
  constructor
  · intro p q log log' hp
    cases p <;> simp [Slots.at?, Slots.empty] at hp
  · intro b e log hp
    simp [Slots.at?, Slots.empty] at hp

theorem Slots.Filed.appended (hl : l.Filed) {r : ChangelogEntry}
    (hr : l.Every fun log => ∀ x ∈ log, x.id ≠ r.id) : (l.appended r).Filed := by
  have hold : ∀ p log, (l.appended r).at? p = some log → ∀ x ∈ log,
      (p = .live ∧ x = r) ∨ ∃ log', l.at? p = some log' ∧ x ∈ log' := by
    intro p log hp x hx
    cases p with
    | live =>
      obtain rfl : l.live.getD [] ++ [r] = log := by simpa [Slots.at?, Slots.appended] using hp
      rcases List.mem_append.mp hx with hx | hx
      · cases hlive : l.live with
        | none => simp [hlive] at hx
        | some log => exact Or.inr ⟨log, hlive, by simpa [hlive] using hx⟩
      · exact Or.inl ⟨rfl, by simpa using hx⟩
    | bin b e => exact Or.inr ⟨log, hp, hx⟩
  refine ⟨?_, fun b e log hp => hl.named b e log hp⟩
  intro p q log log' hp hq x hx x' hx' hxx
  rcases hold p log hp x hx with ⟨rfl, rfl⟩ | ⟨m, hm, hxm⟩
  · rcases hold q log' hq x' hx' with ⟨rfl, rfl⟩ | ⟨m', hm', hxm'⟩
    · rfl
    · exact absurd hxx.symm (hr q m' hm' x' hxm')
  · rcases hold q log' hq x' hx' with ⟨rfl, rfl⟩ | ⟨m', hm', hxm'⟩
    · exact absurd hxx (hr p m hm x hxm)
    · exact hl.unique p q m m' hm hm' x hxm x' hxm' hxx

end

section

variable {D : Diffy} {S : TrackedStore} {f : Files} {e : UndoEntryId} {item : StoredItemId}

theorem restoreLogs_moves (f : Files) (item : StoredItemId) (e : UndoEntryId) :
    LogMoves e (f.log item) ((restoreLogs f item e).log item) := by
  have hback : ∀ (l : Slots Changelog) (b : Bin), LogMoves e l ((l.moveFromBin b e).getD l) := by
    intro l b
    cases h : l.moveFromBin b e with
    | none => exact .refl
    | some l' => exact .single (.back h)
  simp only [restoreLogs, Files.setLog_log]
  exact (hback _ .trash).trans (hback _ .archive)

theorem restoreLogs_of_ne {x : StoredItemId} (h : x ≠ item) :
    (restoreLogs f item e).log x = f.log x := by
  simp [restoreLogs, Files.setLog_log_of_ne, h]

def Arm.write (D : Diffy) (f : Files) (r : ChangelogEntry) : Arm → Option (Option String)
  | .sendAway _ patch =>
    if (applyPatch D "" patch).isOk && (f.data r.itemId).live.isSome then some none else none
  | .bringBack b _ => ((f.data r.itemId).bin b)[r.id]?.map some
  | .rewrite patch _ =>
    ((f.data r.itemId).live.bind fun c => (applyPatch D c patch).toOption).map some

inductive Arm.Leaves (D : Diffy) (f : Files) (r : ChangelogEntry) : Arm → Files → Prop
  | unchanged {a : Arm} : a.write D f r = none → Leaves D f r a f
  | halfSent {b : Bin} {patch : String} {s : Slots String} :
      (Arm.sendAway b patch).write D f r = some none →
      (f.data r.itemId).moveToBin b r.id = some s → (f.log r.itemId).live = none →
      Leaves D f r (.sendAway b patch) (f.setData r.itemId s)
  | sent {b : Bin} {patch : String} {s : Slots String} {l : Slots Changelog} :
      (Arm.sendAway b patch).write D f r = some none →
      (f.data r.itemId).moveToBin b r.id = some s → (f.log r.itemId).moveToBin b r.id = some l →
      Leaves D f r (.sendAway b patch) ((f.setData r.itemId s).setLog r.itemId l)
  | brought {b : Bin} {patch : String} {s : Slots String} :
      (f.data r.itemId).moveFromBin b r.id = some s →
      Leaves D f r (.bringBack b patch) (f.setData r.itemId s)
  | rewritten {patch conflict current target : String} :
      (f.data r.itemId).live = some current → applyPatch D current patch = .ok target →
      Leaves D f r (.rewrite patch conflict) (f.writeText r.itemId target)

theorem runArm_leaves (f : Files) (r : ChangelogEntry) (a : Arm) :
    a.Leaves D f r (runArm D S f r a).files := by
  cases a with
  | sendAway b patch =>
    simp only [runArm]
    cases hp : applyPatch D "" patch with
    | error err => exact .unchanged (by simp [Arm.write, hp, Except.isOk, Except.toBool])
    | ok text =>
      cases hs : (f.data r.itemId).moveToBin b r.id with
      | none =>
        have hlive : (f.data r.itemId).live = none := by simpa [Slots.moveToBin] using hs
        exact .unchanged (by simp [Arm.write, hlive])
      | some s =>
        obtain ⟨y, hy, -⟩ := Slots.moveToBin_eq_some.mp hs
        have hwrite : (Arm.sendAway b patch).write D f r = some none := by
          simp [Arm.write, hp, hy, Except.isOk, Except.toBool]
        simp only [Files.setData_log]
        cases hl : (f.log r.itemId).moveToBin b r.id with
        | none => exact .halfSent hwrite hs (by simpa [Slots.moveToBin] using hl)
        | some l => exact .sent hwrite hs hl
  | bringBack b patch =>
    simp only [runArm]
    cases hs : (f.data r.itemId).moveFromBin b r.id with
    | none =>
      have hbin : ((f.data r.itemId).bin b)[r.id]? = none := by simpa [Slots.moveFromBin] using hs
      exact .unchanged (by simp [Arm.write, hbin])
    | some s =>
      cases applyPatch D "" patch with
      | error err => exact .brought hs
      | ok text => exact .brought hs
  | rewrite patch conflict =>
    simp only [runArm]
    cases hc : (f.data r.itemId).live with
    | none => exact .unchanged (by simp [Arm.write, hc])
    | some current =>
      simp only
      cases hp : applyPatch D current patch with
      | error err => exact .unchanged (by simp [Arm.write, hc, hp, Except.toOption])
      | ok target => exact .rewritten hc hp

theorem runArm_moves {r : ChangelogEntry} {log : Changelog} (hl : (f.log r.itemId).live = some log)
    (hr : r ∈ log) (a : Arm) :
    LogMoves r.id (f.log r.itemId) ((runArm D S f r a).files.log r.itemId) := by
  have hleaves := runArm_leaves (D := D) (S := S) f r a
  generalize (runArm D S f r a).files = g at hleaves ⊢
  cases hleaves with
  | unchanged => exact .refl
  | halfSent => exact .refl
  | sent _ _ hm =>
    rw [Files.setLog_log]
    exact .single (.away hl hr rfl hm)
  | brought => exact .refl
  | rewritten => exact .refl

theorem runArm_of_ne {r : ChangelogEntry} {x : StoredItemId} (h : x ≠ r.itemId) (a : Arm) :
    (runArm D S f r a).files.data x = f.data x ∧ (runArm D S f r a).files.log x = f.log x := by
  have hleaves := runArm_leaves (D := D) (S := S) f r a
  generalize (runArm D S f r a).files = g at hleaves ⊢
  cases hleaves with
  | unchanged => exact ⟨rfl, rfl⟩
  | halfSent => exact ⟨Files.setData_data_of_ne f r.itemId _ h, rfl⟩
  | sent => exact ⟨Files.setData_data_of_ne f r.itemId _ h, Files.setLog_log_of_ne _ r.itemId _ h⟩
  | brought => exact ⟨Files.setData_data_of_ne f r.itemId _ h, rfl⟩
  | rewritten => exact ⟨Files.setData_data_of_ne f r.itemId _ h, rfl⟩

structure Files.Filed (f : Files) : Prop where
  filed : ∀ x, (f.log x).Filed
  itemId : ∀ x, (f.log x).Every fun log => ∀ r ∈ log, r.itemId = x

theorem replay_effect (hf : f.Filed) (arm : ChangelogEntry → Arm) (e : UndoEntryId)
    (item : StoredItemId) :
    LogMoves e (f.log item) ((replay D S arm f e item).files.log item) ∧
      ∀ x ≠ item, (replay D S arm f e item).files.data x = f.data x ∧
        (replay D S arm f e item).files.log x = f.log x := by
  have hrest := restoreLogs_moves f item e
  have hother : ∀ x ≠ item, (restoreLogs f item e).log x = f.log x :=
    fun x hx => restoreLogs_of_ne hx
  simp only [replay]
  cases hl : ((restoreLogs f item e).log item).live with
  | none => exact ⟨hrest, fun x hx => ⟨rfl, hother x hx⟩⟩
  | some log =>
    simp only [Option.getD_some]
    cases hfind : log.findEntry e with
    | none => exact ⟨hrest, fun x hx => ⟨rfl, hother x hx⟩⟩
    | some r =>
      have hr : r ∈ log := Changelog.findEntry_mem hfind
      have hre : r.id = e := Changelog.findEntry_id hfind
      have hri : r.itemId = item := (hf.itemId item).moves hrest .live log hl r hr
      subst hri
      subst hre
      refine ⟨hrest.trans (runArm_moves hl hr _), fun x hx => ?_⟩
      obtain ⟨hd, hlog⟩ :=
        runArm_of_ne (D := D) (S := S) (f := restoreLogs f r.itemId r.id) hx (arm r)
      exact ⟨hd, hlog.trans (hother x hx)⟩

theorem Files.Filed.replay (hf : f.Filed) (arm : ChangelogEntry → Arm) :
    (replay D S arm f e item).files.Filed := by
  obtain ⟨hmoves, hother⟩ := replay_effect (D := D) (S := S) hf arm e item
  constructor
  · intro x
    by_cases hx : x = item
    · subst x; exact (hf.filed item).moves hmoves
    · rw [(hother x hx).2]; exact hf.filed x
  · intro x
    by_cases hx : x = item
    · subst x; exact (hf.itemId item).moves hmoves
    · rw [(hother x hx).2]; exact hf.itemId x

theorem Slots.Every.replay {P : Changelog → Prop} {x : StoredItemId} (hP : (f.log x).Every P)
    (hf : f.Filed) (arm : ChangelogEntry → Arm) :
    ((Store.replay D S arm f e item).files.log x).Every P := by
  obtain ⟨hmoves, hother⟩ := replay_effect (D := D) (S := S) hf arm e item
  by_cases hx : x = item
  · subst x; exact hP.moves hmoves
  · rw [(hother x hx).2]; exact hP

theorem replay_of_stuck (hf : f.Filed) (hs : ∀ p log, (f.log item).at? p = some log →
      (∃ r ∈ log, r.id = e) → ∃ b e', p = .bin b e' ∧ e' ≠ e)
    (arm : ChangelogEntry → Arm) : (replay D S arm f e item).okFiles = none := by
  have hbin : ∀ b, ((f.log item).bin b)[e]? = none := by
    intro b
    by_contra hne
    obtain ⟨log, hlog⟩ := Option.ne_none_iff_exists'.mp hne
    obtain ⟨b', e', hp, he⟩ := hs (.bin b e) log hlog ((hf.filed item).named b e log hlog)
    exact he (Place.bin.inj hp).2.symm
  have hfind : Changelog.findEntry ((f.log item).live.getD []) e = none := by
    rw [Changelog.findEntry_eq_none]
    intro r hr hre
    cases hl : (f.log item).live with
    | none => simp [hl] at hr
    | some log =>
      obtain ⟨b, e', hp, -⟩ := hs .live log hl ⟨r, by simpa [hl] using hr, hre⟩
      simp at hp
  simp [Store.replay, restoreLogs_of_none hbin, hfind, fail, Outcome.okFiles]

end

section

variable {D : Diffy} {S : TrackedStore} {f g : Files} {e a : UndoEntryId} {item : StoredItemId}

theorem undo_unarchive (hf : f.Filed)
    (he : (f.log item).Every fun log => ∀ r ∈ log, r.id = e → r.op = .unarchive)
    (hu : (undo D S f e item).okFiles = some g) :
    (g.data item).live = none ∧
      ∃ log, (g.log item).at? (.bin .archive e) = some log ∧ ∃ r ∈ log, r.id = e := by
  have hrest := restoreLogs_moves f item e
  rw [undo, replay] at hu
  cases hl : ((restoreLogs f item e).log item).live with
  | none => simp [hl, Changelog.findEntry, fail, Outcome.okFiles] at hu
  | some log =>
    simp only [hl, Option.getD_some] at hu
    cases hfind : log.findEntry e with
    | none => simp [hfind, fail, Outcome.okFiles] at hu
    | some r =>
      have hr : r ∈ log := Changelog.findEntry_mem hfind
      have hre : r.id = e := Changelog.findEntry_id hfind
      have hri : r.itemId = item := (hf.itemId item).moves hrest .live log hl r hr
      have hop : r.op = .unarchive := he.moves hrest .live log hl r hr hre
      subst hri
      subst hre
      simp only [hfind, undoArm, hop, runArm] at hu
      cases hp : applyPatch D "" r.forwardPatch with
      | error err => simp [hp, fail, Outcome.okFiles] at hu
      | ok text =>
        cases hs : ((restoreLogs f r.itemId r.id).data r.itemId).moveToBin .archive r.id with
        | none => simp [hp, hs, fail, Outcome.okFiles] at hu
        | some s =>
          obtain ⟨l, hm⟩ := Slots.exists_moveToBin hl .archive r.id
          cases hread : S.read r.itemId text with
          | error err => simp [hp, hs, hm, hread, Outcome.okFiles] at hu
          | ok x =>
            simp only [hp, hs, Files.setData_log, hm, hread, Outcome.okFiles,
              Option.some.injEq] at hu
            subst hu
            refine ⟨by simp [Files.setLog_setData, Slots.moveToBin_live hs], log, ?_, r, hr, rfl⟩
            simp [Slots.at?, Slots.moveToBin_get hm, hl]

end
section

variable {D : Diffy} {S : TrackedStore} {n : UndoEntryId} {f g : Files} {stamp : Stamp}

structure Effect (f g : Files) (item : StoredItemId) (r : ChangelogEntry) : Prop where
  other : ∀ x ≠ item, g.data x = f.data x ∧ g.log x = f.log x
  log : ∃ a l, LogMoves a (f.log item) l ∧ LogMoves r.id (l.appended r) (g.log item)
  last : (g.data item).live = none ∨ ∃ log, (g.log item).live = some log ∧ r ∈ log
  bin : ∀ b e, ((g.data item).bin b)[e]? ≠ none → e = r.id ∨ ((f.data item).bin b)[e]? ≠ none

theorem Effect.every {item x : StoredItemId} {r : ChangelogEntry}
    {P : Changelog → Prop} (h : Effect f g item r) (hf : (f.log x).Every P) (hnil : P [])
    (hP : ∀ log r', r'.id = r.id → r'.itemId = r.itemId → P log → P (log ++ [r'])) :
    (g.log x).Every P := by
  by_cases hx : x = item
  · subst x
    obtain ⟨a, l, hl, hg⟩ := h.log
    exact ((hf.moves hl).appended hnil fun log => hP log r rfl rfl).moves hg
  · rw [(h.other x hx).2]
    exact hf

theorem Effect.set_other {item x : StoredItemId} (hx : x ≠ item) (d : Slots String)
    (l : Slots Changelog) : ((f.setData item d).setLog item l).data x = f.data x ∧
      ((f.setData item d).setLog item l).log x = f.log x := by
  simp [Files.setData_data_of_ne, Files.setLog_log_of_ne, hx]

theorem write_effect {x : S.Item} {id : UndoEntryId}
    (hr : (write D S f stamp x).result = .ok (some id)) :
    ∃ r, r.id = stamp.id ∧ r.itemId = S.display (S.itemId x) ∧
      Effect f (write D S f stamp x).files (S.display (S.itemId x)) r := by
  cases hx : S.serialize x with
  | error err => simp [write, hx, fail] at hr
  | ok text =>
    by_cases hl : (f.data (S.display (S.itemId x))).live = some text
    · simp [write, hx, hl] at hr
    · obtain ⟨-, hf⟩ := write_ok (D := D) stamp hx hl
      rw [hf]
      refine ⟨_, rfl, rfl, fun y hy => Effect.set_other hy _ _,
        ⟨stamp.id, _, .refl, by rw [Files.setLog_log]; exact .refl⟩,
        Or.inr ⟨_, by rw [Files.setLog_log], by simp⟩, fun b e he => Or.inr (by simpa using he)⟩

theorem moveAway_effect (hk : f.Kept S n) {b : Bin} {op : ChangeOp} {id : S.ItemId}
    {e : UndoEntryId} (hr : (moveAway D S b op f stamp id).result = .ok e) :
    ∃ r, r.id = stamp.id ∧ r.itemId = S.display id ∧
      Effect f (moveAway D S b op f stamp id).files (S.display id) r := by
  cases hf : (f.data (S.display id)).live with
  | none => simp [moveAway, hf, fail] at hr
  | some text =>
    obtain ⟨log, hlog⟩ := (hk (S.display id)).log_of_live hf
    obtain ⟨d, hd⟩ := Slots.exists_moveToBin hf b stamp.id
    set r := record D stamp op (S.display id) text "" with hrec
    have happ : ((f.log (S.display id)).appended r).live = some (log ++ [r]) := by
      simp [Slots.appended, hlog]
    obtain ⟨l, hl⟩ := Slots.exists_moveToBin happ b stamp.id
    have hout : (moveAway D S b op f stamp id).files =
        (f.setData (S.display id) d).setLog (S.display id) l := by
      simp only [Slots.appended, hlog, Option.getD_some] at hl
      simp [moveAway, hf, Files.appendLog, hlog, hd, ← hrec, hl, Files.setLog_setData]
    rw [hout]
    refine ⟨r, rfl, rfl, fun y hy => Effect.set_other hy _ _,
      ⟨stamp.id, _, .refl, by
        rw [Files.setLog_log]; exact .single (.away happ (by simp) rfl hl)⟩,
      Or.inl (by simp [Slots.moveToBin_live hd]), fun b' e' he' => ?_⟩
    simp only [Files.setLog_data, Files.setData_data, Slots.moveToBin_get hd] at he'
    split at he'
    · rename_i heq; exact Or.inl heq.2
    · exact Or.inr he'

theorem unarchiveLatest_effect (hk : f.Kept S n) {id : S.ItemId} {x : S.Item × UndoEntryId}
    (hr : (unarchiveLatest D S f stamp id).result = .ok x) :
    ∃ r, r.id = stamp.id ∧ r.itemId = S.display id ∧
      Effect f (unarchiveLatest D S f stamp id).files (S.display id) r := by
  cases ha : (f.data (S.display id)).findArchivedEntryId with
  | none => simp [unarchiveLatest, ha, fail] at hr
  | some a =>
    obtain ⟨text, log, d, l, x, hd, hl, hdl, hll, hread, -, hf⟩ :=
      unarchiveLatest_ok (D := D) stamp hk ha
    rw [hf]
    refine ⟨_, rfl, rfl, fun y hy => Effect.set_other hy _ _,
      ⟨a, l, .single (.back hl), by
        rw [Files.setLog_log]; simp only [Slots.appended, hll]; exact .refl⟩,
      Or.inr ⟨_, by rw [Files.setLog_log], by simp⟩, fun b' e' he' => ?_⟩
    simp only [Files.setLog_data, Files.setData_data, Slots.moveFromBin_get hd] at he'
    split at he'
    · simp at he'
    · exact Or.inr he'

theorem runCommand_effect (hk : f.Kept S n) {c : Command S} {id : UndoEntryId}
    (hr : (runCommand D f stamp c).result = .ok (some id)) :
    ∃ r, r.id = stamp.id ∧ r.itemId = c.item ∧
      Effect f (runCommand D f stamp c).files c.item r := by
  cases c with
  | write x => exact write_effect hr
  | delete i =>
    cases hres : (delete D S f stamp i).result with
    | error err => simp [runCommand, hres, Except.map] at hr
    | ok e => exact moveAway_effect hk hres
  | archive i =>
    cases hres : (archive D S f stamp i).result with
    | error err => simp [runCommand, hres, Except.map] at hr
    | ok e => exact moveAway_effect hk hres
  | unarchiveLatest i =>
    cases hres : (unarchiveLatest D S f stamp i).result with
    | error err => simp [runCommand, hres, Except.map] at hr
    | ok e => exact unarchiveLatest_effect hk hres

end
end SwissArmyHammer.Store
