import SwissArmyHammer.Store.Reversal

/-! The operations that create undo entries. They keep every file readable and every
data file beside its changelog, and the entry they push can be undone. -/

namespace SwissArmyHammer.Store

def Reads (S : TrackedStore) (item : StoredItemId) (text : String) : Prop :=
  ∃ x, S.read item text = .ok x

def TrackedStore.Lawful (S : TrackedStore) : Prop :=
  ∀ x text, S.serialize x = .ok text → Reads S (S.display (S.itemId x)) text

inductive Command (S : TrackedStore)
  | write (x : S.Item)
  | delete (id : S.ItemId)
  | archive (id : S.ItemId)
  | unarchiveLatest (id : S.ItemId)

def Command.item {S : TrackedStore} : Command S → StoredItemId
  | .write x => S.display (S.itemId x)
  | .delete id => S.display id
  | .archive id => S.display id
  | .unarchiveLatest id => S.display id

def runCommand (D : Diffy) {S : TrackedStore} (f : Files) (stamp : Stamp) :
    Command S → Outcome (Option UndoEntryId)
  | .write x => write D S f stamp x
  | .delete id =>
    let o := delete D S f stamp id
    ⟨o.result.map some, o.files, o.events⟩
  | .archive id =>
    let o := archive D S f stamp id
    ⟨o.result.map some, o.files, o.events⟩
  | .unarchiveLatest id =>
    let o := unarchiveLatest D S f stamp id
    ⟨o.result.map fun r => some r.2, o.files, o.events⟩

section

variable {D : Diffy} {S : TrackedStore} {n m : UndoEntryId}

structure ItemKept (S : TrackedStore) (n : UndoEntryId) (item : StoredItemId) (d : Slots String)
    (l : Slots Changelog) : Prop where
  live : l.live.isSome = d.live.isSome
  bin : ∀ (b : Bin) (e : UndoEntryId), ((l.bin b)[e]?).isSome = ((d.bin b)[e]?).isSome
  liveReads : ∀ text, d.live = some text → Reads S item text
  binReads : ∀ (b : Bin) (e : UndoEntryId) text, (d.bin b)[e]? = some text → Reads S item text
  below : ∀ (b : Bin) (e : UndoEntryId) text, (d.bin b)[e]? = some text → e < n

def Files.Kept (S : TrackedStore) (n : UndoEntryId) (f : Files) : Prop :=
  ∀ item, ItemKept S n item (f.data item) (f.log item)

theorem ItemKept.mono {item : StoredItemId} {d : Slots String} {l : Slots Changelog}
    (h : ItemKept S n item d l) (hnm : n ≤ m) : ItemKept S m item d l :=
  ⟨h.live, h.bin, h.liveReads, h.binReads, fun b e text he => (h.below b e text he).trans_le hnm⟩

theorem Files.Kept.empty : Files.empty.Kept S n := fun _ =>
  ⟨rfl, fun _ _ => by simp [Files.empty, Slots.empty], by simp [Files.empty, Slots.empty],
    by simp [Files.empty, Slots.empty], by simp [Files.empty, Slots.empty]⟩

theorem Files.Kept.set {f : Files} (h : f.Kept S n) (hnm : n ≤ m) (item : StoredItemId)
    {d : Slots String} {l : Slots Changelog} (hi : ItemKept S m item d l) :
    ((f.setData item d).setLog item l).Kept S m := by
  intro x
  by_cases hx : x = item
  · subst x; simpa using hi
  · simpa [Files.setLog_log_of_ne, Files.setData_data_of_ne, hx] using (h x).mono hnm

theorem ItemKept.bin_none {item : StoredItemId} {d : Slots String} {l : Slots Changelog}
    (h : ItemKept S n item d l) (b : Bin) {e : UndoEntryId} (he : n ≤ e) :
    (d.bin b)[e]? = none ∧ (l.bin b)[e]? = none := by
  have hd : (d.bin b)[e]? = none := by
    by_contra hne
    obtain ⟨text, ht⟩ := Option.ne_none_iff_exists'.mp hne
    exact absurd (h.below b e text ht) (not_lt.mpr he)
  exact ⟨hd, Option.isNone_iff_eq_none.mp (by rw [← Option.not_isSome, h.bin, hd]; rfl)⟩

theorem ItemKept.writeText {item : StoredItemId} {d : Slots String} {l : Slots Changelog}
    (h : ItemKept S n item d l) {text : String} (ht : Reads S item text) (log : Changelog) :
    ItemKept S n item { d with live := some text } { l with live := some log } :=
  ⟨rfl, h.bin, by simpa using ht, h.binReads, h.below⟩

theorem ItemKept.moveToBin {item : StoredItemId} {d d' : Slots String} {l l' : Slots Changelog}
    (h : ItemKept S n item d l) {b : Bin} {e : UndoEntryId} (he : n ≤ e)
    (hd : d.moveToBin b e = some d') (hl : l.moveToBin b e = some l') :
    ItemKept S (e + 1) item d' l' where
  live := by rw [Slots.moveToBin_live hd, Slots.moveToBin_live hl]; rfl
  bin b' e' := by
    rw [Slots.moveToBin_get hd, Slots.moveToBin_get hl]
    split
    · exact h.live
    · exact h.bin b' e'
  liveReads text ht := by simp [Slots.moveToBin_live hd] at ht
  binReads b' e' text ht := by
    rw [Slots.moveToBin_get hd] at ht
    split at ht
    · exact h.liveReads text ht
    · exact h.binReads b' e' text ht
  below b' e' text ht := by
    rw [Slots.moveToBin_get hd] at ht
    split at ht
    · rename_i hh; exact hh.2 ▸ Nat.lt_succ_self e
    · exact (h.below b' e' text ht).trans_le (he.trans (Nat.le_succ e))

theorem ItemKept.moveFromBin {item : StoredItemId} {d d' : Slots String} {l l' : Slots Changelog}
    (h : ItemKept S n item d l) {b : Bin} {e : UndoEntryId}
    (hd : d.moveFromBin b e = some d') (hl : l.moveFromBin b e = some l') :
    ItemKept S n item d' l' where
  live := by rw [Slots.moveFromBin_live hd, Slots.moveFromBin_live hl]; exact h.bin b e
  bin b' e' := by
    rw [Slots.moveFromBin_get hd, Slots.moveFromBin_get hl]
    split
    · rfl
    · exact h.bin b' e'
  liveReads text ht := h.binReads b e text (Slots.moveFromBin_live hd ▸ ht)
  binReads b' e' text ht := by
    rw [Slots.moveFromBin_get hd] at ht
    split at ht
    · simp at ht
    · exact h.binReads b' e' text ht
  below b' e' text ht := by
    rw [Slots.moveFromBin_get hd] at ht
    split at ht
    · simp at ht
    · exact h.below b' e' text ht

theorem ItemKept.log_of_live {item : StoredItemId} {d : Slots String} {l : Slots Changelog}
    (h : ItemKept S n item d l) {text : String} (ht : d.live = some text) :
    ∃ log, l.live = some log := by
  apply Option.isSome_iff_exists.mp
  rw [h.live, ht]
  rfl

theorem ItemKept.log_of_bin {item : StoredItemId} {d : Slots String} {l : Slots Changelog}
    (h : ItemKept S n item d l) {b : Bin} {e : UndoEntryId} {text : String}
    (ht : (d.bin b)[e]? = some text) : ∃ log, (l.bin b)[e]? = some log := by
  apply Option.isSome_iff_exists.mp
  rw [h.bin, ht]
  rfl

end

section

variable {D : Diffy} {S : TrackedStore} {n : UndoEntryId} {f : Files} {stamp : Stamp}

/-- An operation under a fresh id that pushed its entry: the entry is done, and undoing
it gives back the files before but for the bin files and log records in `lost`. -/
structure Pushed (D : Diffy) (S : TrackedStore) (f : Files) (id : UndoEntryId)
    (item : StoredItemId) (lost : Set UndoEntryId) (g : Files) : Prop where
  kept : g.Kept S (id + 1)
  done : ∃ r, r.id = id ∧ r.itemId = item ∧ Done D S g r
  undo : ∃ u, (undo D S g id item).okFiles = some u ∧ f.SameBut lost u

theorem rebuilds_forward {op : ChangeOp} {item : StoredItemId} {text : String}
    (h : Reads S item text) :
    Rebuilds D S (record D stamp op item "" text) (createPatches D "" text).1 := by
  obtain ⟨x, hx⟩ := h
  exact ⟨text, x, applyPatch_forward D "" text, hx⟩

theorem rebuilds_reverse {op : ChangeOp} {item : StoredItemId} {text : String}
    (h : Reads S item text) :
    Rebuilds D S (record D stamp op item text "") (createPatches D text "").2 := by
  obtain ⟨x, hx⟩ := h
  exact ⟨text, x, applyPatch_reverse D text "", hx⟩

theorem Pushed.of_sendAway {item : StoredItemId} {op : ChangeOp} {text : String} {log : Changelog}
    {lost : Set UndoEntryId} {b : Bin} {d : Slots String} {l : Slots Changelog}
    (hk : f.Kept S n) (hn : n ≤ stamp.id) (hf : (f.data item).live = none)
    (harm : undoArm (record D stamp op item "" text) = .sendAway b (createPatches D "" text).1)
    (hi : ItemKept S n item d l) (hd : d.live = some text)
    (hl : l.live = some (log ++ [record D stamp op item "" text])) (hid : stamp.id ∈ lost)
    (hdb : ∀ b, ∀ e ∉ lost, (d.bin b)[e]? = ((f.data item).bin b)[e]?)
    (hlb : ∀ b, ∀ e ∉ lost, (l.bin b)[e]? = ((f.log item).bin b)[e]?) :
    Pushed D S f stamp.id item lost ((f.setData item d).setLog item l) := by
  have hdone : Done D S ((f.setData item d).setLog item l) (record D stamp op item "" text) := by
    rw [Done, harm]
    refine ⟨by simp [hd], ⟨_, by simpa using hl, Changelog.findEntry_append_self _ _⟩,
      fun b => by simpa using hi.bin_none b hn, rebuilds_forward (hi.liveReads text hd)⟩
  refine ⟨hk.set (hn.trans (Nat.le_succ _)) item (hi.mono (hn.trans (Nat.le_succ _))),
    ⟨_, rfl, rfl, hdone⟩, ?_⟩
  obtain ⟨s, m, hs, hm, hu⟩ := undo_of_sendAway hdone harm
  refine ⟨_, hu, ?_⟩
  have hs' : d.moveToBin b stamp.id = some s := by simpa using hs
  have hm' : l.moveToBin b stamp.id = some m := by simpa using hm
  have hflog : (f.log item).live = none := by simpa [hf] using (hk item).live
  have hback := Files.SameBut.of_item (.of_moveToBin (fun _ => rfl) hs' hid hf hdb)
    (.of_moveToBin (LogGrows.refl lost) hm' hid hflog hlb)
  simpa [Files.setLog_setData] using hback

theorem Pushed.of_rewrite {item : StoredItemId} {old new : String} {log : Changelog}
    (hk : f.Kept S n) (hn : n ≤ stamp.id) (hf : (f.data item).live = some old)
    (hnew : Reads S item new) (hlog : (f.log item).live = some log) :
    Pushed D S f stamp.id item {stamp.id}
      ((f.setData item { f.data item with live := some new }).setLog item
        { f.log item with live := some (log ++ [record D stamp .update item old new]) }) := by
  set g := (f.setData item { f.data item with live := some new }).setLog item
    { f.log item with live := some (log ++ [record D stamp .update item old new]) } with hg
  have hi := hk item
  obtain ⟨x, hx⟩ := hi.liveReads old hf
  obtain ⟨y, hy⟩ := hnew
  have hdone : Done D S g (record D stamp .update item old new) := by
    refine ⟨⟨_, by simp [hg]; rfl, Changelog.findEntry_append_self _ _⟩,
      fun b => by simpa [hg] using (hi.bin_none b hn).2,
      old, new, x, y, by simp [hg], rfl, rfl, hx, hy⟩
  refine ⟨hk.set (hn.trans (Nat.le_succ _)) item
    ((hi.writeText ⟨y, hy⟩ _).mono (hn.trans (Nat.le_succ _))), ⟨_, rfl, rfl, hdone⟩, ?_⟩
  have hu : (Store.undo D S g stamp.id item).okFiles = some (g.writeText item old) :=
    undo_of_rewrite hdone rfl (by simp [hg]) rfl hx
  refine ⟨_, hu, ?_⟩
  have hlog' : (f.log item).SameBut (LogGrows {stamp.id}) {stamp.id}
      { f.log item with live := some (log ++ [record D stamp .update item old new]) } :=
    .of_eq (LogGrows.refl _) (by rw [hlog]; exact .some (LogGrows.append log _)) fun _ _ _ => rfl
  have hold : (⟨some old, (f.data item).bin⟩ : Slots String) = f.data item := by rw [← hf]
  simpa [hg, Files.writeText, hold, Files.setLog_setData] using
    Files.SameBut.of_item ((Files.SameBut.refl _ f).data item) hlog'

theorem Pushed.of_bringBack {item : StoredItemId} {op : ChangeOp} {text : String} {log : Changelog}
    {b : Bin} {d : Slots String} {l : Slots Changelog}
    (hk : f.Kept S n) (hn : n ≤ stamp.id) (hf : (f.data item).live = some text)
    (hlog : (f.log item).live = some log)
    (harm : undoArm (record D stamp op item text "") = .bringBack b (createPatches D text "").2)
    (hd : (f.data item).moveToBin b stamp.id = some d)
    (hl : Slots.moveToBin b
      { f.log item with live := some (log ++ [record D stamp op item text ""]) }
      stamp.id = some l) :
    Pushed D S f stamp.id item {stamp.id} ((f.setData item d).setLog item l) := by
  have hi := hk item
  have hdone : Done D S ((f.setData item d).setLog item l) (record D stamp op item text "") := by
    rw [Done, harm]
    refine ⟨by simpa using Slots.moveToBin_live hd,
      by simpa using Slots.moveToBin_live hl, ?_,
      ⟨log ++ [record D stamp op item text ""], ?_, Changelog.findEntry_append_self _ _⟩,
      fun b' hb' => ?_, rebuilds_reverse (hi.liveReads text hf)⟩
    · simp [Slots.moveToBin_get hd, hf]
    · simp [Slots.moveToBin_get hl]
    · simpa [Slots.moveToBin_get hl, hb'] using (hi.bin_none b' hn).2
  have hi' : ItemKept S n item (f.data item)
      { f.log item with live := some (log ++ [record D stamp op item text ""]) } := by
    have hh := hi.writeText (hi.liveReads text hf) (log ++ [record D stamp op item text ""])
    rwa [show (⟨some text, (f.data item).bin⟩ : Slots String) = f.data item by rw [← hf]] at hh
  refine ⟨hk.set (hn.trans (Nat.le_succ _)) item (hi'.moveToBin hn hd hl), ⟨_, rfl, rfl, hdone⟩, ?_⟩
  obtain ⟨s, m, hs, hm, hu⟩ := undo_of_bringBack hdone harm
  refine ⟨_, hu, ?_⟩
  have hs' : d.moveFromBin b stamp.id = some s := by simpa using hs
  have hm' : l.moveFromBin b stamp.id = some m := by simpa using hm
  have hne : ∀ e ∉ ({stamp.id} : Set UndoEntryId), e ≠ stamp.id := fun e he => he
  have hdata : (f.data item).SameBut Eq {stamp.id} s :=
    .of_moveFromBin (fun _ => rfl) hs' rfl
      (by simpa [Slots.moveToBin_get hd] using optionRel_refl (fun _ => rfl) (f.data item).live)
      fun b' e he => by simp [Slots.moveToBin_get hd, hne e he]
  have hlog' : (f.log item).SameBut (LogGrows {stamp.id}) {stamp.id} m :=
    .of_moveFromBin (LogGrows.refl _) hm' rfl
      (by
        rw [Slots.moveToBin_get hl, hlog]
        simpa using Option.Rel.some (LogGrows.append log (record D stamp op item text "")))
      fun b' e he => by simp [Slots.moveToBin_get hl, hne e he]
  simpa [Files.setLog_setData] using Files.SameBut.of_item hdata hlog'

def lost {S : TrackedStore} (f : Files) (stamp : Stamp) : Command S → Set UndoEntryId
  | .unarchiveLatest id =>
    {e | e = stamp.id ∨ (f.data (S.display id)).findArchivedEntryId = some e}
  | _ => {stamp.id}

def Vacant {S : TrackedStore} (f : Files) : Command S → Prop
  | .unarchiveLatest id => (f.data (S.display id)).findArchivedEntryId.isSome →
      (f.data (S.display id)).live = none
  | _ => True

theorem write_ok (stamp : Stamp) {x : S.Item} {text : String} (hx : S.serialize x = .ok text)
    (hl : (f.data (S.display (S.itemId x))).live ≠ some text) :
    let item := S.display (S.itemId x)
    let old := (f.data item).live
    let op := if old.isNone then ChangeOp.create else ChangeOp.update
    (write D S f stamp x).result = .ok (some stamp.id) ∧ (write D S f stamp x).files =
      (f.setData item { f.data item with live := some text }).setLog item
        { f.log item with live := some ((f.log item).live.getD [] ++
          [record D stamp op item (old.getD "") text]) } := by
  simp [write, hx, hl, Files.writeText, Files.appendLog, Files.setLog_setData]

theorem write_cases (hS : S.Lawful) (hk : f.Kept S n) (hn : n ≤ stamp.id) (x : S.Item) :
    ((∀ id, (write D S f stamp x).result ≠ .ok (some id)) ∧ (write D S f stamp x).files = f) ∨
    ((write D S f stamp x).result = .ok (some stamp.id) ∧
      Pushed D S f stamp.id (S.display (S.itemId x)) {stamp.id} (write D S f stamp x).files) := by
  cases hx : S.serialize x with
  | error e => left; simp [write, hx, fail]
  | ok text =>
    by_cases hl : (f.data (S.display (S.itemId x))).live = some text
    · left; simp [write, hx, hl]
    · right
      have hread := hS x text hx
      obtain ⟨hr, hf⟩ := write_ok (D := D) stamp hx hl
      refine ⟨hr, ?_⟩
      rw [hf]
      generalize S.display (S.itemId x) = item at hl hread
      have hi := hk item
      cases ho : (f.data item).live with
      | none =>
        have hlog : (f.log item).live = none := by simpa [ho] using hi.live
        exact Pushed.of_sendAway hk hn ho rfl (hi.writeText hread _) rfl rfl rfl
          (fun _ _ _ => rfl) (fun _ _ _ => rfl)
      | some old =>
        obtain ⟨log, hlog⟩ := hi.log_of_live ho
        simp only [Option.isNone_some, Bool.false_eq_true, if_false, Option.getD_some, hlog]
        exact Pushed.of_rewrite hk hn ho hread hlog

theorem moveAway_cases (hk : f.Kept S n) (hn : n ≤ stamp.id) (b : Bin) (op : ChangeOp)
    (harm : ∀ item text, undoArm (record D stamp op item text "") =
      .bringBack b (createPatches D text "").2) (id : S.ItemId) :
    (∃ e, (moveAway D S b op f stamp id).result = .error e ∧
      (moveAway D S b op f stamp id).files = f) ∨
    ((moveAway D S b op f stamp id).result = .ok stamp.id ∧
      Pushed D S f stamp.id (S.display id) {stamp.id} (moveAway D S b op f stamp id).files) := by
  cases hf : (f.data (S.display id)).live with
  | none => left; simp [moveAway, hf, fail]
  | some text =>
    right
    obtain ⟨log, hlog⟩ := (hk (S.display id)).log_of_live hf
    obtain ⟨d, hd⟩ := Slots.exists_moveToBin hf b stamp.id
    obtain ⟨l, hl⟩ := Slots.exists_moveToBin (s := { f.log (S.display id) with
      live := some (log ++ [record D stamp op (S.display id) text ""]) }) rfl b stamp.id
    have hpushed := Pushed.of_bringBack hk hn hf hlog (harm _ text) hd hl
    have hout : (moveAway D S b op f stamp id).result = .ok stamp.id ∧
        (moveAway D S b op f stamp id).files =
          (f.setData (S.display id) d).setLog (S.display id) l := by
      simp [moveAway, hf, Files.appendLog, hlog, hd, hl, Files.setLog_setData]
    exact ⟨hout.1, hout.2 ▸ hpushed⟩

theorem unarchiveLatest_ok (stamp : Stamp) (hk : f.Kept S n) {id : S.ItemId} {a : UndoEntryId}
    (ha : (f.data (S.display id)).findArchivedEntryId = some a) :
    ∃ text log d l x, (f.data (S.display id)).moveFromBin .archive a = some d ∧
      (f.log (S.display id)).moveFromBin .archive a = some l ∧
      d.live = some text ∧ l.live = some log ∧ Reads S (S.display id) text ∧
      (unarchiveLatest D S f stamp id).result = .ok (x, stamp.id) ∧
      (unarchiveLatest D S f stamp id).files = (f.setData (S.display id) d).setLog (S.display id)
        { l with live := some (log ++ [record D stamp .unarchive (S.display id) "" text]) } := by
  have hi := hk (S.display id)
  obtain ⟨text, ht⟩ := Slots.findArchivedEntryId_mem ha
  obtain ⟨log, hlog⟩ := hi.log_of_bin ht
  obtain ⟨d, hd⟩ := Slots.exists_moveFromBin ht
  obtain ⟨l, hl⟩ := Slots.exists_moveFromBin hlog
  have hdl : d.live = some text := by rw [Slots.moveFromBin_live hd, ht]
  have hll : l.live = some log := by rw [Slots.moveFromBin_live hl, hlog]
  obtain ⟨x, hx⟩ := hi.binReads .archive a text ht
  refine ⟨text, log, d, l, x, hd, hl, hdl, hll, ⟨x, hx⟩, ?_⟩
  simp [unarchiveLatest, ha, unarchive, Slots.restoreArchivedFile, hd, hl, hdl, hll, hx,
    Files.appendLog, Files.setLog_setData, record]

theorem unarchiveLatest_cases (hk : f.Kept S n) (hn : n ≤ stamp.id) (id : S.ItemId) :
    (∃ e, (unarchiveLatest D S f stamp id).result = .error e ∧
      (unarchiveLatest D S f stamp id).files = f) ∨
    ((∃ x, (unarchiveLatest D S f stamp id).result = .ok (x, stamp.id)) ∧
      (unarchiveLatest D S f stamp id).files.Kept S (stamp.id + 1) ∧
      (Vacant f (.unarchiveLatest id) → Pushed D S f stamp.id (S.display id)
        (lost f stamp (.unarchiveLatest id)) (unarchiveLatest D S f stamp id).files)) := by
  cases ha : (f.data (S.display id)).findArchivedEntryId with
  | none => left; simp [unarchiveLatest, ha, fail]
  | some a =>
    right
    obtain ⟨text, log, d, l, x, hd, hl, hdl, hll, hread, hr, hf⟩ :=
      unarchiveLatest_ok (D := D) stamp hk ha
    have hi : ItemKept S n (S.display id) d
        { l with live := some (log ++ [record D stamp .unarchive (S.display id) "" text]) } := by
      have hh := ((hk (S.display id)).moveFromBin hd hl).writeText hread
        (log ++ [record D stamp .unarchive (S.display id) "" text])
      rwa [show (⟨some text, d.bin⟩ : Slots String) = d by rw [← hdl]] at hh
    rw [hf]
    refine ⟨⟨x, hr⟩, hk.set (hn.trans (Nat.le_succ _)) _ (hi.mono (hn.trans (Nat.le_succ _))),
      fun hv => ?_⟩
    have hne : ∀ e ∉ lost f stamp (.unarchiveLatest id), e ≠ a :=
      fun e he hea => he (Or.inr (hea ▸ ha))
    refine Pushed.of_sendAway hk hn (hv (by simp [ha])) rfl hi hdl rfl (Or.inl rfl) ?_ ?_
    · intro b e he
      simp [Slots.moveFromBin_get hd, hne e he]
    · intro b e he
      simp [Slots.moveFromBin_get hl, hne e he]

theorem runCommand_cases (hS : S.Lawful) (hk : f.Kept S n) (hn : n ≤ stamp.id) (c : Command S) :
    ((∀ id, (runCommand D f stamp c).result ≠ .ok (some id)) ∧
      (runCommand D f stamp c).files = f) ∨
    ((runCommand D f stamp c).result = .ok (some stamp.id) ∧
      (runCommand D f stamp c).files.Kept S (stamp.id + 1) ∧
      (Vacant f c →
        Pushed D S f stamp.id c.item (lost f stamp c) (runCommand D f stamp c).files)) := by
  cases c with
  | write x =>
    rcases write_cases (D := D) hS hk hn x with h | ⟨hr, hp⟩
    · exact Or.inl h
    · exact Or.inr ⟨hr, hp.kept, fun _ => hp⟩
  | delete id =>
    rcases moveAway_cases (D := D) hk hn .trash .delete (fun _ _ => rfl) id with
      ⟨e, hr, hf⟩ | ⟨hr, hp⟩
    · exact Or.inl ⟨by simp [runCommand, delete, hr, Except.map], hf⟩
    · exact Or.inr ⟨by simp [runCommand, delete, hr, Except.map], hp.kept, fun _ => hp⟩
  | archive id =>
    rcases moveAway_cases (D := D) hk hn .archive .archive (fun _ _ => rfl) id with
      ⟨e, hr, hf⟩ | ⟨hr, hp⟩
    · exact Or.inl ⟨by simp [runCommand, archive, hr, Except.map], hf⟩
    · exact Or.inr ⟨by simp [runCommand, archive, hr, Except.map], hp.kept, fun _ => hp⟩
  | unarchiveLatest id =>
    rcases unarchiveLatest_cases (D := D) hk hn id with ⟨e, hr, hf⟩ | ⟨⟨x, hr⟩, hkept, hp⟩
    · exact Or.inl ⟨by simp [runCommand, hr, Except.map], hf⟩
    · exact Or.inr ⟨by simp [runCommand, hr, Except.map], hkept, hp⟩

end
end SwissArmyHammer.Store
