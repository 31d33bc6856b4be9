import SwissArmyHammer.Entities.Replay
import SwissArmyHammer.Store.Records

/-! Runs of the store on one entity, and the field history that its changelog then tells. -/

namespace SwissArmyHammer.Entities

open Store

/-- A call on the handle for one entity; `stamp` is the fresh id and the clock. -/
inductive Step
  | write (stamp : Stamp) (fields : Fields)
  | delete (stamp : Stamp)
  | archive (stamp : Stamp)
  | unarchiveLatest (stamp : Stamp)
  | undo (entry : UndoEntryId)
  | redo (entry : UndoEntryId)

section

variable (D : Diffy) (Y : SerdeYaml) (S : EntityTypeStore) (item path : String)

def Step.exec (f : Files) : Step → Files
  | .write stamp fields =>
    (Store.write D (S.tracked Y) f stamp ⟨S.entityTypeName, item, fields⟩).files
  | .delete stamp => (Store.delete D (S.tracked Y) f stamp item).files
  | .archive stamp => (Store.archive D (S.tracked Y) f stamp item).files
  | .unarchiveLatest stamp => (Store.unarchiveLatest D (S.tracked Y) f stamp item).files
  | .undo entry => (Store.undo D (S.tracked Y) f entry item).files
  | .redo entry => (Store.redo D (S.tracked Y) f entry item).files

def Step.run (f : Files) (steps : List Step) : Files := steps.foldl (Step.exec D Y S item) f

/-- While the entity is live, its changelog is read and the changes, applied in order to
the empty entity, give the fields of the stored text. -/
def ReplaysToPresent (f : Files) : Prop :=
  ∀ text, (f.data item).live = some text →
    ∃ entries e' e, readChangelogFor D Y S.entityTypeName S.entityDef path
        ((f.log item).live.map (List.map LogLine.store)) = .ok entries ∧
      applyEntries D (Entity.new S.entityTypeName item) entries = .ok e' ∧
      parseEntityText Y text S.entityTypeName item S.entityDef path = .ok e ∧ e'.fields = e.fields

/-- The clock has not gone back behind the last record of the live changelog. -/
def ClockKept (f : Files) (stamp : Stamp) : Prop :=
  ∀ log, (f.log item).live = some log → ∀ last, log.getLast? = some last →
    last.timestamp ≤ stamp.now

def ArmKept (f : Files) (entry : UndoEntryId) : Arm → Prop
  | .sendAway _ _ => ∀ b, ((f.log item).bin b)[entry]? = none
  | .bringBack b _ => (∀ b', b' ≠ b → ((f.log item).bin b')[entry]? = none) ∧
      ∀ log, ((f.log item).bin b)[entry]? = some log → ∀ last, log.getLast? = some last →
        last.op ≠ .delete ∧ last.op ≠ .archive
  | .rewrite patch _ => (∀ b, ((f.log item).bin b)[entry]? = none) ∧
      ∀ current, (f.data item).live = some current →
        ∀ target, applyPatch D current patch = .ok target → target = current

def ReplayKept (arm : ChangelogEntry → Arm) (f : Files) (entry : UndoEntryId) : Prop :=
  ∀ r, (((restoreLogs f item entry).log item).live.getD []).findEntry entry = some r →
    ArmKept D item f entry (arm r)

def UnarchiveKept (f : Files) (stamp : Stamp) : Prop :=
  ∀ a, (f.data item).findArchivedEntryId = some a →
    ∀ log, ((f.log item).bin .archive)[a]? = some log →
      ∃ last, log.getLast? = some last ∧ last.op = .archive ∧ last.timestamp ≤ stamp.now

def Step.Kept (f : Files) : Step → Prop
  | .write stamp _ => ClockKept item f stamp
  | .delete _ => True
  | .archive stamp => ClockKept item f stamp
  | .unarchiveLatest stamp => UnarchiveKept item f stamp
  | .undo entry => ReplayKept D item undoArm f entry
  | .redo entry => ReplayKept D item redoArm f entry

def RunKept (f : Files) : List Step → Prop
  | [] => True
  | s :: rest => s.Kept D item f ∧ RunKept (s.exec D Y S item f) rest

end

section

variable (D : Diffy) (Y : SerdeYaml) (S : EntityTypeStore) (item : String) (f : Files)

instance decidableForallSome {α : Type} (x : Option α) (p : α → Prop) [DecidablePred p] :
    Decidable (∀ a, x = some a → p a) :=
  inferInstanceAs (Decidable (∀ a ∈ x, p a))

instance decidableExistsSome {α : Type} (x : Option α) (p : α → Prop) [DecidablePred p] :
    Decidable (∃ a, x = some a ∧ p a) :=
  inferInstanceAs (Decidable (∃ a ∈ x, p a))

instance decidableForallOk {ε α : Type} (x : Except ε α) (p : α → Prop) [DecidablePred p] :
    Decidable (∀ a, x = .ok a → p a) :=
  match x with
  | .error _ => isTrue fun _ h => nomatch h
  | .ok a => decidable_of_iff (p a) ⟨fun h _ ha => Except.ok.inj ha ▸ h, fun h => h a rfl⟩

instance decidableForallBin (p : Bin → Prop) [DecidablePred p] : Decidable (∀ b, p b) :=
  decidable_of_iff (p .trash ∧ p .archive)
    ⟨fun h b => match b with | .trash => h.1 | .archive => h.2, fun h => ⟨h _, h _⟩⟩

instance ClockKept.decidable (stamp : Stamp) : Decidable (ClockKept item f stamp) :=
  inferInstanceAs (Decidable (∀ log, (f.log item).live = some log →
    ∀ last, log.getLast? = some last → last.timestamp ≤ stamp.now))

instance ArmKept.decidable (entry : UndoEntryId) : DecidablePred (ArmKept D item f entry)
  | .sendAway _ _ => inferInstanceAs (Decidable (∀ b, ((f.log item).bin b)[entry]? = none))
  | .bringBack b _ => inferInstanceAs (Decidable (
      (∀ b', b' ≠ b → ((f.log item).bin b')[entry]? = none) ∧
        ∀ log, ((f.log item).bin b)[entry]? = some log → ∀ last, log.getLast? = some last →
          last.op ≠ .delete ∧ last.op ≠ .archive))
  | .rewrite patch _ => inferInstanceAs (Decidable (
      (∀ b, ((f.log item).bin b)[entry]? = none) ∧
        ∀ current, (f.data item).live = some current →
          ∀ target, applyPatch D current patch = .ok target → target = current))

instance ReplayKept.decidable (arm : ChangelogEntry → Arm) (entry : UndoEntryId) :
    Decidable (ReplayKept D item arm f entry) :=
  inferInstanceAs (Decidable (∀ r,
    (((restoreLogs f item entry).log item).live.getD []).findEntry entry = some r →
      ArmKept D item f entry (arm r)))

instance UnarchiveKept.decidable (stamp : Stamp) : Decidable (UnarchiveKept item f stamp) :=
  inferInstanceAs (Decidable (∀ a, (f.data item).findArchivedEntryId = some a →
    ∀ log, ((f.log item).bin .archive)[a]? = some log →
      ∃ last, log.getLast? = some last ∧ last.op = .archive ∧ last.timestamp ≤ stamp.now))

instance Step.decidableKept : DecidablePred (Step.Kept D item f)
  | .write stamp _ => ClockKept.decidable item f stamp
  | .delete _ => isTrue trivial
  | .archive stamp => ClockKept.decidable item f stamp
  | .unarchiveLatest stamp => UnarchiveKept.decidable item f stamp
  | .undo entry => ReplayKept.decidable D item f undoArm entry
  | .redo entry => ReplayKept.decidable D item f redoArm entry

instance RunKept.decidable : ∀ f, DecidablePred (RunKept D Y S item f)
  | _, [] => isTrue trivial
  | f, s :: rest =>
    @instDecidableAnd _ _ (Step.decidableKept D item f s)
      (RunKept.decidable (s.exec D Y S item f) rest)

end

section

variable (D : Diffy) (P : String → Prop) (item : String)

structure Current (log : Changelog) (text : String) : Prop where
  chain : Chain D P log "" text
  parses : P text
  items : ∀ r ∈ log, r.itemId = item
  times : (log.map ChangelogEntry.timestamp).Pairwise (· ≤ ·)
  last : ∀ r, log.getLast? = some r → r.op ≠ .delete ∧ r.op ≠ .archive

structure Gone (log : Changelog) (text : String) : Prop where
  parses : P text
  items : ∀ r ∈ log, r.itemId = item
  last : ∃ r, log.getLast? = some r ∧ (r.op = .delete ∨ r.op = .archive)
  archived : ∀ r, log.getLast? = some r → r.op = .archive →
    Chain D P log "" "" ∧ (log.map ChangelogEntry.timestamp).Pairwise (· ≤ ·)

def BinPair (e : UndoEntryId) (text : String) (log : Changelog) : Prop :=
  (Current D P item log text ∨ Gone D P item log text) ∧ ∃ r ∈ log, r.id = e

structure Histories (d : Slots String) (l : Slots Changelog) : Prop where
  live : Option.Rel (fun text log => Current D P item log text) d.live l.live
  bin : ∀ (b : Bin) (e : UndoEntryId), Option.Rel (BinPair D P item e) (d.bin b)[e]? (l.bin b)[e]?

variable {D P item} {d d' : Slots String} {l l' : Slots Changelog} {b : Bin} {e : UndoEntryId}
  {log : Changelog} {text old : String} {r : ChangelogEntry}

theorem times_concat (h : (log.map ChangelogEntry.timestamp).Pairwise (· ≤ ·))
    (hlast : ∀ last, log.getLast? = some last → last.timestamp ≤ r.timestamp) :
    ((log ++ [r]).map ChangelogEntry.timestamp).Pairwise (· ≤ ·) := by
  rcases List.eq_nil_or_concat log with rfl | ⟨log, last, rfl⟩
  · simp
  · rw [List.concat_eq_append] at h hlast ⊢
    have hle := hlast last (by simp)
    rw [List.map_append, List.pairwise_append] at h ⊢
    refine ⟨by rw [List.map_append, List.pairwise_append]; exact h, by simp, ?_⟩
    intro x hx y hy
    obtain rfl : y = r.timestamp := by simpa using hy
    rw [List.map_append, List.mem_append] at hx
    rcases hx with hx | hx
    · exact (h.2.2 x hx last.timestamp (by simp)).trans hle
    · obtain rfl : x = last.timestamp := by simpa using hx
      exact hle

theorem Current.concat (h : Current D P item log old) (hr : r.itemId = item)
    (hop : r.op ≠ .delete ∧ r.op ≠ .archive) (hcreate : r.op = .create → old = "")
    (hpatch : applyPatch D old r.forwardPatch = .ok text) (htext : P text)
    (hlast : ∀ last, log.getLast? = some last → last.timestamp ≤ r.timestamp) :
    Current D P item (log ++ [r]) text where
  chain := h.chain.concat hcreate hpatch htext
  parses := htext
  items := Changelog.forall_mem_concat h.items hr
  times := times_concat h.times hlast
  last r' hr' := by
    obtain rfl : r = r' := by simpa using hr'
    exact hop

theorem Histories.of_moveToBin (hbin : ∀ (b : Bin) (e : UndoEntryId),
      Option.Rel (BinPair D P item e) (d.bin b)[e]? (l.bin b)[e]?)
    (hd : d.moveToBin b e = some d') (hl : l.moveToBin b e = some l')
    (hpair : ∀ text log, d.live = some text → l.live = some log → BinPair D P item e text log) :
    Histories D P item d' l' where
  live := by
    rw [Slots.moveToBin_live hd, Slots.moveToBin_live hl]
    exact .none
  bin b' e' := by
    rw [Slots.moveToBin_get hd, Slots.moveToBin_get hl]
    split
    · rename_i heq
      obtain ⟨rfl, rfl⟩ := heq
      cases hdl : d.live with
      | none => simp [Slots.moveToBin, hdl] at hd
      | some text =>
        cases hll : l.live with
        | none => simp [Slots.moveToBin, hll] at hl
        | some log => exact .some (hpair text log hdl hll)
    · exact hbin b' e'

theorem Histories.bin_moveFromBin (h : Histories D P item d l) (hd : d.moveFromBin b e = some d')
    (hl : l.moveFromBin b e = some l') (b' : Bin) (e' : UndoEntryId) :
    Option.Rel (BinPair D P item e') (d'.bin b')[e']? (l'.bin b')[e']? := by
  rw [Slots.moveFromBin_get hd, Slots.moveFromBin_get hl]
  split
  · exact .none
  · exact h.bin b' e'

theorem BinPair.items (h : BinPair D P item e text log) : ∀ r ∈ log, r.itemId = item := by
  rcases h.1 with h | h
  · exact h.items
  · exact h.items

theorem BinPair.current (h : BinPair D P item e text log)
    (hlast : ∀ last, log.getLast? = some last → last.op ≠ .delete ∧ last.op ≠ .archive) :
    Current D P item log text := by
  rcases h.1 with h | h
  · exact h
  · obtain ⟨r, hr, hop⟩ := h.last
    have hne := hlast r hr
    rcases hop with hop | hop
    · exact absurd hop hne.1
    · exact absurd hop hne.2

end

section

variable {D : Diffy} {P : String → Prop} {item : String} {S : TrackedStore} {f : Files}
  {stamp : Stamp} {b : Bin} {e : UndoEntryId} {arm : ChangelogEntry → Arm}

def Historied (D : Diffy) (P : String → Prop) (item : String) (f : Files) : Prop :=
  Histories D P item (f.data item) (f.log item)

theorem Historied.empty : Historied D P item Files.empty :=
  ⟨.none, fun b e => by
    exact .none⟩

theorem Historied.set {d : Slots String} {l : Slots Changelog} (h : Histories D P item d l) :
    Historied D P item ((f.setData item d).setLog item l) := by
  simpa [Historied] using h

theorem Historied.write (h : Historied D P item f) {x : S.Item}
    (hid : S.display (S.itemId x) = item) (hclock : ClockKept item f stamp)
    (hparse : ∀ text, S.serialize x = .ok text → P text) :
    Historied D P item (Store.write D S f stamp x).files := by
  subst hid
  cases hx : S.serialize x with
  | error err => simpa [Store.write, hx, fail] using h
  | ok text =>
    by_cases hl : (f.data (S.display (S.itemId x))).live = some text
    · simpa [Store.write, hx, hl] using h
    · obtain ⟨-, hf⟩ := write_ok (D := D) stamp hx hl
      rw [hf]
      refine Historied.set ⟨?_, h.bin⟩
      have hpatch := fun old => applyPatch_forward D old text
      have hlive := h.live
      cases hd : (f.data (S.display (S.itemId x))).live with
      | none =>
        rw [hd] at hlive
        have hlog := optionRel_none hlive
        rw [hlog]
        refine .some ⟨⟨fun _ => rfl, text, hpatch "", hparse text hx, rfl⟩, hparse text hx,
          ?_, ?_, ?_⟩
        · simp
        · simp
        · simp [record]
      | some old =>
        rw [hd] at hlive
        obtain ⟨log, hlog, hcurrent⟩ := optionRel_some hlive
        rw [hlog]
        exact .some (hcurrent.concat rfl (by simp [record]) (by simp [record]) (hpatch old)
          (hparse text hx) (hclock log hlog))

theorem Historied.moveAway (h : Historied D P item f) {id : S.ItemId} (hid : S.display id = item)
    {op : ChangeOp} (hgone : ∀ text log, Current D P item log text →
      (f.log item).live = some log →
      Gone D P item (log ++ [record D stamp op item text ""]) text) :
    Historied D P item (Store.moveAway D S b op f stamp id).files := by
  subst hid
  cases hd : (f.data (S.display id)).live with
  | none => simpa [Store.moveAway, hd, fail] using h
  | some text =>
    have hlive := h.live
    rw [hd] at hlive
    obtain ⟨log, hlog, hcurrent⟩ := optionRel_some hlive
    obtain ⟨d, hd'⟩ := Slots.exists_moveToBin hd b stamp.id
    obtain ⟨l, hl'⟩ := Slots.exists_moveToBin (s := { f.log (S.display id) with
      live := some (log ++ [record D stamp op (S.display id) text ""]) }) rfl b stamp.id
    have hfiles : (Store.moveAway D S b op f stamp id).files =
        (f.setData (S.display id) d).setLog (S.display id) l := by
      simp [Store.moveAway, hd, Files.appendLog, hlog, hd', hl', Files.setLog_setData]
    rw [hfiles]
    refine Historied.set (Histories.of_moveToBin (l := { f.log (S.display id) with
      live := some (log ++ [record D stamp op (S.display id) text ""]) }) h.bin hd' hl' ?_)
    intro text' log' htext' hlog'
    obtain rfl : text' = text := Option.some.inj (htext'.symm.trans hd)
    obtain rfl : log ++ [record D stamp op (S.display id) text' ""] = log' := Option.some.inj hlog'
    exact ⟨.inr (hgone text' log hcurrent hlog), record D stamp op (S.display id) text' "",
      by simp, rfl⟩

theorem Historied.delete (h : Historied D P item f) {id : S.ItemId} (hid : S.display id = item) :
    Historied D P item (Store.delete D S f stamp id).files := by
  refine h.moveAway hid fun text log hcurrent _ =>
    ⟨hcurrent.parses, Changelog.forall_mem_concat hcurrent.items rfl, ?_, ?_⟩
  · exact ⟨record D stamp .delete item text "", by simp, .inl rfl⟩
  · intro r hr hop
    obtain rfl : record D stamp .delete item text "" = r := by simpa using hr
    simp [record] at hop

theorem Historied.archive (h : Historied D P item f) {id : S.ItemId} (hid : S.display id = item)
    (hempty : P "") (hclock : ClockKept item f stamp) :
    Historied D P item (Store.archive D S f stamp id).files := by
  refine h.moveAway hid fun text log hcurrent hlog =>
    ⟨hcurrent.parses, Changelog.forall_mem_concat hcurrent.items rfl, ?_, ?_⟩
  · exact ⟨record D stamp .archive item text "", by simp, .inr rfl⟩
  · intro r _ _
    exact ⟨hcurrent.chain.concat (by simp [record]) (applyPatch_forward D text "") hempty,
      times_concat hcurrent.times (hclock log hlog)⟩

theorem unarchiveLatest_files {id : S.ItemId} {a : UndoEntryId}
    (ha : (f.data (S.display id)).findArchivedEntryId = some a) :
    (Store.unarchiveLatest D S f stamp id).files = (Store.unarchive D S f stamp id a).files := by
  simp only [Store.unarchiveLatest, ha]
  split
  · rfl
  · split <;> rfl

theorem Historied.unarchiveLatest (h : Historied D P item f) {id : S.ItemId}
    (hid : S.display id = item) (harchived : UnarchiveKept item f stamp) :
    Historied D P item (Store.unarchiveLatest D S f stamp id).files := by
  subst hid
  cases ha : (f.data (S.display id)).findArchivedEntryId with
  | none => simpa [Store.unarchiveLatest, ha, fail] using h
  | some a =>
    obtain ⟨text, ht⟩ := Slots.findArchivedEntryId_mem ha
    have hbin := h.bin .archive a
    rw [ht] at hbin
    obtain ⟨log, hlog, hpair⟩ := optionRel_some hbin
    obtain ⟨d, hd⟩ := Slots.exists_moveFromBin ht
    obtain ⟨l, hl⟩ := Slots.exists_moveFromBin hlog
    have hdl : d.live = some text := by rw [Slots.moveFromBin_live hd, ht]
    have hll : l.live = some log := by rw [Slots.moveFromBin_live hl, hlog]
    obtain ⟨last, hlast, hop, htime⟩ := harchived a ha log hlog
    have hgone : Gone D P (S.display id) log text := by
      rcases hpair.1 with hcurrent | hgone
      · exact absurd hop (hcurrent.last last hlast).2
      · exact hgone
    have hfiles : (Store.unarchiveLatest D S f stamp id).files =
        (f.setData (S.display id) d).setLog (S.display id)
          { l with live := some (log ++ [record D stamp .unarchive (S.display id) "" text]) } := by
      rw [unarchiveLatest_files ha]
      simp [Store.unarchive, Slots.restoreArchivedFile, hd, hl, hdl, hll, Files.appendLog,
        Files.setLog_setData]
    rw [hfiles]
    refine Historied.set ⟨?_, fun b e => h.bin_moveFromBin hd hl b e⟩
    rw [hdl]
    obtain ⟨hchain, htimes⟩ := hgone.archived last hlast hop
    have hrestore := applyPatch_forward D "" text
    refine .some ⟨hchain.concat (by simp [record]) hrestore hgone.parses, hgone.parses,
      Changelog.forall_mem_concat hgone.items rfl, ?_, ?_⟩
    · refine times_concat htimes fun last' hlast' => ?_
      obtain rfl := Option.some.inj (hlast.symm.trans hlast')
      exact htime
    · intro r hr
      obtain rfl : record D stamp .unarchive (S.display id) "" text = r := by simpa using hr
      simp [record]

theorem restoreLogs_live (h : ∃ b, ((f.log item).bin b)[e]? ≠ none) :
    ∃ b log, ((f.log item).bin b)[e]? = some log ∧
      ((restoreLogs f item e).log item).live = some log := by
  cases harchive : ((f.log item).bin .archive)[e]? with
  | some log =>
    refine ⟨.archive, log, harchive, ?_⟩
    have hkept : (((f.log item).restoreFile e).getD (f.log item)).bin .archive =
        (f.log item).bin .archive := by
      cases hrestore : (f.log item).restoreFile e with
      | none => rfl
      | some l =>
        obtain ⟨x, -, rfl⟩ := Slots.moveFromBin_eq_some.mp hrestore
        simp
    obtain ⟨l, hl⟩ := Slots.exists_moveFromBin (b := .archive)
      (s := ((f.log item).restoreFile e).getD (f.log item)) (by rw [hkept]; exact harchive)
    have hlive := Slots.moveFromBin_live hl
    rw [hkept, harchive] at hlive
    simp [restoreLogs, Slots.restoreArchivedFile, hl, hlive]
  | none =>
    cases htrash : ((f.log item).bin .trash)[e]? with
    | none =>
      obtain ⟨b, hb⟩ := h
      cases b with
      | trash => exact absurd htrash hb
      | archive => exact absurd harchive hb
    | some log =>
      refine ⟨.trash, log, htrash, ?_⟩
      obtain ⟨l, hl⟩ := Slots.exists_moveFromBin htrash
      have hother : ∀ b' ≠ Bin.trash, ((f.log item).bin b')[e]? = none := by
        intro b' hb'
        cases b' with
        | trash => exact absurd rfl hb'
        | archive => exact harchive
      rw [restoreLogs_of_bin hl hother, Files.setLog_log, Slots.moveFromBin_live hl, htrash]

theorem Historied.runArm {r : ChangelogEntry} {log : Changelog} (h : Historied D P r.itemId f)
    (hlog : (f.log r.itemId).live = some log) (hmem : r ∈ log)
    (hnone : ∀ b, ((f.log r.itemId).bin b)[r.id]? = none) {a : Arm}
    (hrewrite : ∀ patch conflict, a = .rewrite patch conflict → ∀ current,
      (f.data r.itemId).live = some current → ∀ target, applyPatch D current patch = .ok target →
        target = current) :
    Historied D P r.itemId (Store.runArm D S f r a).files := by
  have hlive := h.live
  rw [hlog] at hlive
  cases hd : (f.data r.itemId).live with
  | none => rw [hd] at hlive; cases hlive
  | some text =>
    rw [hd] at hlive
    obtain ⟨_, heq, hcurrent⟩ := optionRel_some hlive
    obtain rfl := Option.some.inj heq
    have hleaves := runArm_leaves (D := D) (S := S) f r a
    generalize (Store.runArm D S f r a).files = g at hleaves ⊢
    cases hleaves with
    | unchanged => exact h
    | halfSent _ _ hnolog => simp [hlog] at hnolog
    | sent _ hd' hl' =>
      refine Historied.set (Histories.of_moveToBin h.bin hd' hl' ?_)
      intro text' log' htext' hlog'
      obtain rfl : text = text' := Option.some.inj (hd.symm.trans htext')
      obtain rfl : log = log' := Option.some.inj (hlog.symm.trans hlog')
      exact ⟨.inl hcurrent, r, hmem, rfl⟩
    | @brought b _ _ hs =>
      have hbin := h.bin b r.id
      rw [hnone b] at hbin
      obtain ⟨y, hy, -⟩ := Slots.moveFromBin_eq_some.mp hs
      rw [hy] at hbin
      cases hbin
    | @rewritten patch conflict current target hc hpatch =>
      obtain rfl := hrewrite patch conflict rfl current hc target hpatch
      have hslot : ({ f.data r.itemId with live := some target } : Slots String) =
          f.data r.itemId := by rw [← hc]
      simp only [Files.writeText, hslot, Files.setData_self]
      exact h

theorem Historied.replay_live (h : Historied D P item f) (hkept : ReplayKept D item arm f e)
    (hnone : ∀ b, ((f.log item).bin b)[e]? = none) :
    Historied D P item (Store.replay D S arm f e item).files := by
  have hrestore := restoreLogs_of_none hnone
  rw [Store.replay]
  simp only [hrestore]
  cases hl : (f.log item).live with
  | none => exact h
  | some log =>
    cases hfind : Changelog.findEntry log e with
    | none => simpa [hfind, fail] using h
    | some r =>
      have hlive := h.live
      rw [hl] at hlive
      have hmem := Changelog.findEntry_mem hfind
      obtain rfl := Changelog.findEntry_id hfind
      have hr := hkept r (by rw [hrestore, hl]; exact hfind)
      obtain ⟨text, -, hcurrent⟩ := optionRel_some_right hlive
      obtain rfl := hcurrent.items r hmem
      simp only [Option.getD_some, hfind]
      refine h.runArm hl hmem hnone fun patch conflict ha => ?_
      rw [ha] at hr
      exact hr.2

theorem Historied.replay_bin (h : Historied D P item f) (hkept : ReplayKept D item arm f e)
    (hsome : ∃ b, ((f.log item).bin b)[e]? ≠ none) :
    Historied D P item (Store.replay D S arm f e item).files := by
  obtain ⟨b, log, hlog, hlive⟩ := restoreLogs_live hsome
  have hbin := h.bin b e
  rw [hlog] at hbin
  obtain ⟨text, hdata, hpair⟩ := optionRel_some_right hbin
  obtain ⟨r, hfind⟩ : ∃ r, Changelog.findEntry log e = some r := by
    obtain ⟨r, hr, hid⟩ := hpair.2
    apply Option.ne_none_iff_exists'.mp
    rw [ne_eq, Changelog.findEntry_eq_none]
    exact fun hall => hall r hr hid
  have hr := hkept r (by rw [hlive]; exact hfind)
  have hitem := hpair.items r (Changelog.findEntry_mem hfind)
  obtain rfl := Changelog.findEntry_id hfind
  subst hitem
  rw [Store.replay]
  simp only [hlive, Option.getD_some, hfind]
  cases ha : arm r with
  | sendAway b' patch =>
    rw [ha] at hr
    simp [hr b] at hlog
  | rewrite patch conflict =>
    rw [ha] at hr
    simp [hr.1 b] at hlog
  | bringBack b' patch =>
    rw [ha] at hr
    by_cases hb : b = b'
    · subst hb
      obtain ⟨d, hd⟩ := Slots.exists_moveFromBin hdata
      obtain ⟨l, hl⟩ := Slots.exists_moveFromBin hlog
      have hcurrent := hpair.current (hr.2 log hlog)
      have hkeep : Historied D P r.itemId ((f.setData r.itemId d).setLog r.itemId l) := by
        refine Historied.set ⟨?_, h.bin_moveFromBin hd hl⟩
        rw [Slots.moveFromBin_live hd, Slots.moveFromBin_live hl, hdata, hlog]
        exact .some hcurrent
      rw [restoreLogs_of_bin hl hr.1]
      simp only [Store.runArm, Files.setLog_data, hd]
      cases applyPatch D "" patch with
      | error err => exact hkeep
      | ok rebuilt => exact hkeep
    · simp [hr.1 b hb] at hlog

theorem Historied.replay (h : Historied D P item f) (hkept : ReplayKept D item arm f e) :
    Historied D P item (Store.replay D S arm f e item).files := by
  by_cases hnone : ∀ b, ((f.log item).bin b)[e]? = none
  · exact h.replay_live hkept hnone
  · exact h.replay_bin hkept (not_forall.mp hnone)

end

section

variable {D : Diffy} {Y : SerdeYaml} {S : EntityTypeStore} {item path : String} {f : Files}
  {steps : List Step}

theorem parses_serialize {e : Entity} {text yaml : String}
    (hyaml : Y.RoundTrips (S.written e) yaml) (htext : S.serialize Y e = .ok text) :
    Parses Y S.entityTypeName item S.entityDef path text := by
  obtain ⟨entries, hread, -⟩ := hyaml.hash_reads
  unfold EntityTypeStore.serialize at htext
  unfold Parses parseEntityText
  split
  · exact ⟨_, rfl⟩
  · cases hdef : S.entityDef.bodyField with
    | some bodyField =>
      simp only [hdef, hyaml.emits, Except.ok.injEq] at htext
      subst htext
      simp only [parseFrontmatterBody, splitFrontmatterBody_text hyaml, String.ofList_toList, hread]
      exact ⟨_, rfl⟩
    | none =>
      simp only [hdef, hyaml.emits, Except.ok.injEq] at htext
      subst htext
      simp only [parsePlainYaml, hread]
      exact ⟨_, rfl⟩

theorem Historied.exec
    (h : Historied D (Parses Y S.entityTypeName item S.entityDef path) item f) {s : Step}
    (hkept : s.Kept D item f) (hyaml : ∀ stamp fields, s = .write stamp fields →
      ∃ yaml, Y.RoundTrips (S.written ⟨S.entityTypeName, item, fields⟩) yaml) :
    Historied D (Parses Y S.entityTypeName item S.entityDef path) item (s.exec D Y S item f) := by
  cases s with
  | write stamp fields =>
    obtain ⟨yaml, hyaml⟩ := hyaml stamp fields rfl
    exact h.write (S := S.tracked Y) rfl hkept fun text htext => parses_serialize hyaml htext
  | delete stamp => exact h.delete (S := S.tracked Y) rfl
  | archive stamp => exact h.archive (S := S.tracked Y) rfl parses_empty hkept
  | unarchiveLatest stamp => exact h.unarchiveLatest (S := S.tracked Y) rfl hkept
  | undo entry => exact h.replay hkept
  | redo entry => exact h.replay hkept

theorem Historied.run
    (h : Historied D (Parses Y S.entityTypeName item S.entityDef path) item f)
    (hkept : RunKept D Y S item f steps) (hyaml : ∀ stamp fields, .write stamp fields ∈ steps →
      ∃ yaml, Y.RoundTrips (S.written ⟨S.entityTypeName, item, fields⟩) yaml) :
    Historied D (Parses Y S.entityTypeName item S.entityDef path) item
      (Step.run D Y S item f steps) := by
  induction steps generalizing f with
  | nil => exact h
  | cons s steps ih =>
    obtain ⟨hs, hrest⟩ := hkept
    have hnext := h.exec hs fun stamp fields heq => hyaml stamp fields (by simp [heq])
    exact ih hnext hrest fun stamp fields hmem => hyaml stamp fields (by simp [hmem])

theorem RunKept.of_append {before after : List Step} (h : RunKept D Y S item f (before ++ after)) :
    RunKept D Y S item f before := by
  induction before generalizing f with
  | nil => trivial
  | cons s before ih => exact ⟨h.1, ih h.2⟩

theorem Historied.replaysToPresent
    (h : Historied D (Parses Y S.entityTypeName item S.entityDef path) item f) :
    ReplaysToPresent D Y S item path f := by
  intro text htext
  have hlive := h.live
  rw [htext] at hlive
  obtain ⟨log, hlog, hcurrent⟩ := optionRel_some hlive
  obtain ⟨entries, e', e, hread, hparse, happly, hfields⟩ :=
    readChangelogFor_of_chain hcurrent.chain hcurrent.items hcurrent.times
  exact ⟨entries, e', e, by rw [hlog]; exact hread, happly, hparse, hfields⟩

/-- In a run whose steps all keep the changelog in line with the text, the history replays
to the present in every state reached. -/
theorem replaysToPresent_of_runKept (D : Diffy) (Y : SerdeYaml) (S : EntityTypeStore)
    (item path : String) (steps : List Step) (hkept : RunKept D Y S item Files.empty steps)
    (hyaml : ∀ stamp fields, .write stamp fields ∈ steps →
      ∃ yaml, Y.RoundTrips (S.written ⟨S.entityTypeName, item, fields⟩) yaml) :
    ∀ before after, steps = before ++ after →
      ReplaysToPresent D Y S item path (Step.run D Y S item Files.empty before) := by
  rintro before after rfl
  refine (Historied.run Historied.empty (RunKept.of_append hkept) ?_).replaysToPresent
  exact fun stamp fields hmem => hyaml stamp fields (by simp [hmem])

theorem replaysToPresent_of_runKept_archive :
    let Y := SerdeYaml.table
      [([("title", .string "a")], "title: a\n"), ([("title", .string "b")], "title: b\n")]
    let S : EntityTypeStore := ⟨"tag", ⟨none⟩, []⟩
    let title := fun text => (∅ : Fields).insert "title" (Json.string text)
    let steps := [.write ⟨1, 10⟩ (title "a"), .undo 1, .redo 1, .write ⟨2, 20⟩ (title "b"),
      .archive ⟨3, 30⟩, .unarchiveLatest ⟨4, 40⟩, .delete ⟨5, 50⟩]
    ∀ before after, steps = before ++ after → ReplaysToPresent Diffy.verbatim Y S "bug" "bug.yaml"
      (Step.run Diffy.verbatim Y S "bug" Files.empty before) := by
  intro Y S title steps
  apply replaysToPresent_of_runKept Diffy.verbatim Y S "bug" "bug.yaml" steps
  · decide +kernel
  · intro stamp fields h
    have hfields : fields = title "a" ∨ fields = title "b" := by
      simp only [steps, List.mem_cons, Step.write.injEq, reduceCtorEq, List.not_mem_nil,
        or_false, false_or] at h
      exact h.imp And.right And.right
    rcases hfields with rfl | rfl
    · exact ⟨"title: a\n", by decide +kernel, by decide +kernel, by decide +kernel,
        ⟨_, rfl, by decide +kernel⟩, ⟨_, rfl, by decide +kernel⟩⟩
    · exact ⟨"title: b\n", by decide +kernel, by decide +kernel, by decide +kernel,
        ⟨_, rfl, by decide +kernel⟩, ⟨_, rfl, by decide +kernel⟩⟩

theorem not_replaysToPresent_undo :
    let Y := SerdeYaml.table
      [([("title", .string "a")], "title: a\n"), ([("title", .string "b")], "title: b\n")]
    let S : EntityTypeStore := ⟨"tag", ⟨none⟩, []⟩
    let title := fun text => (∅ : Fields).insert "title" (Json.string text)
    ¬ ReplaysToPresent Diffy.verbatim Y S "bug" "bug.yaml" (Step.run Diffy.verbatim Y S "bug"
      Files.empty [.write ⟨1, 10⟩ (title "a"), .write ⟨2, 20⟩ (title "b"), .undo 2]) := by
  intro Y S title h
  have hlive : ((Step.run Diffy.verbatim Y S "bug" Files.empty [.write ⟨1, 10⟩ (title "a"),
      .write ⟨2, 20⟩ (title "b"), .undo 2]).data "bug").live = some "title: a\n" := by
    decide +kernel
  have hlog : ((Step.run Diffy.verbatim Y S "bug" Files.empty [.write ⟨1, 10⟩ (title "a"),
      .write ⟨2, 20⟩ (title "b"), .undo 2]).log "bug").live =
        some [record Diffy.verbatim ⟨1, 10⟩ .create "bug" "" "title: a\n",
          record Diffy.verbatim ⟨2, 20⟩ .update "bug" "title: a\n" "title: b\n"] := by
    decide +kernel
  obtain ⟨entries, e', e, hread, happly, hparse, hfields⟩ := h "title: a\n" hlive
  rw [hlog] at hread
  have hchain : Chain Diffy.verbatim (Parses Y "tag" "bug" ⟨none⟩ "bug.yaml")
      [record Diffy.verbatim ⟨1, 10⟩ .create "bug" "" "title: a\n",
        record Diffy.verbatim ⟨2, 20⟩ .update "bug" "title: a\n" "title: b\n"] "" "title: b\n" :=
    ⟨fun _ => rfl, "title: a\n", applyPatch_forward Diffy.verbatim "" "title: a\n", ⟨_, rfl⟩,
      by simp [record], "title: b\n",
      applyPatch_forward Diffy.verbatim "title: a\n" "title: b\n", ⟨_, rfl⟩, rfl⟩
  obtain ⟨entries₂, e₂, eb, hread₂, hparse₂, happly₂, hfields₂⟩ :=
    readChangelogFor_of_chain hchain (by simp [record]) (by simp [record])
  obtain rfl := Except.ok.inj (hread.symm.trans hread₂)
  obtain rfl := Except.ok.inj (happly.symm.trans happly₂)
  have hsame : e.fields["title"]? = eb.fields["title"]? := by rw [← hfields, hfields₂]
  obtain rfl := Except.ok.inj hparse
  obtain rfl := Except.ok.inj hparse₂
  revert hsame
  decide

end
end SwissArmyHammer.Entities
