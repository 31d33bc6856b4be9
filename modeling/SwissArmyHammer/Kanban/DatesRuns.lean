import SwissArmyHammer.Kanban.DatesFollow

/-! Runs on one task: its file and its changelog are live or in the trash, and the changelog
follows where the task is. -/

namespace SwissArmyHammer.Kanban

open Entities Store

section

variable {α : Type} {s s' : Slots α} {x y : α} {place : Option UndoEntryId} {b : Bin}
  {entry : UndoEntryId}

structure Holds (s : Slots α) (place : Option UndoEntryId) (x : α) : Prop where
  live : s.live = if place = none then some x else none
  bin : ∀ b k, (s.bin b)[k]? = if b = .trash ∧ place = some k then some x else none

theorem Holds.moveToBin (h : Holds s none x) (entry : UndoEntryId) :
    ∃ s', s.moveToBin .trash entry = some s' ∧ Holds s' (some entry) x := by
  have hlive : s.live = some x := h.live
  obtain ⟨s', hs'⟩ := Slots.exists_moveToBin hlive .trash entry
  refine ⟨s', hs', Slots.moveToBin_live hs', fun b k => ?_⟩
  rw [Slots.moveToBin_get hs', hlive, h.bin]
  by_cases hk : entry = k
  · subst hk
    by_cases hb : b = .trash <;> simp [hb]
  · have hk' : k ≠ entry := fun heq => hk heq.symm
    simp [hk, hk']

theorem Holds.moveToBin_none (h : Holds s (some entry) x) (b : Bin) (k : UndoEntryId) :
    s.moveToBin b k = none := by
  have hlive : s.live = none := h.live
  rw [Slots.moveToBin, hlive]
  rfl

theorem Holds.moveFromBin (h : Holds s (some entry) x) :
    ∃ s', s.moveFromBin .trash entry = some s' ∧ Holds s' none x := by
  have hbin : (s.bin .trash)[entry]? = some x := by
    rw [h.bin]
    exact if_pos ⟨rfl, rfl⟩
  obtain ⟨s', hs'⟩ := Slots.exists_moveFromBin hbin
  refine ⟨s', hs', (Slots.moveFromBin_live hs').trans hbin, fun b k => ?_⟩
  rw [Slots.moveFromBin_get hs', h.bin]
  by_cases hk : entry = k
  · subst hk
    by_cases hb : b = .trash <;> simp [hb]
  · have hk' : k ≠ entry := fun heq => hk heq.symm
    simp [hk, hk']

theorem Holds.moveFromBin_none (h : Holds s place x) (hne : ¬ (b = .trash ∧ place = some entry)) :
    s.moveFromBin b entry = none := by
  rw [Slots.moveFromBin, h.bin, if_neg hne]
  rfl

theorem Holds.write (h : Holds s none x) (y : α) : Holds { s with live := some y } none y := by
  refine ⟨rfl, fun b k => ?_⟩
  refine (h.bin b k).trans ?_
  rw [if_neg (fun hboth => by cases hboth.2), if_neg (fun hboth => by cases hboth.2)]

theorem holds_empty (y : α) : Holds { Slots.empty with live := some y } none y := by
  refine ⟨rfl, fun b k => ?_⟩
  rw [if_neg (fun hboth => by cases hboth.2)]
  exact Std.ExtTreeMap.getElem?_empty

theorem holds_restoreLogs {f : Files} {item : StoredItemId} {log : Changelog}
    (h : Holds (f.log item) place log) (entry : UndoEntryId) :
    Holds ((restoreLogs f item entry).log item) (if place = some entry then none else place) log := by
  have harchive : ∀ {l : Slots Changelog} {p : Option UndoEntryId}, Holds l p log →
      l.restoreArchivedFile entry = none := fun hl => hl.moveFromBin_none fun hboth => by
    cases hboth.1
  rw [restoreLogs, Files.setLog_log]
  split
  · rename_i hplace
    rw [hplace] at h
    obtain ⟨l, hl, hholds⟩ := h.moveFromBin
    rw [Slots.restoreFile, hl, Option.getD_some, harchive hholds]
    exact hholds
  · rename_i hplace
    have hnone : (f.log item).restoreFile entry = none :=
      h.moveFromBin_none fun hboth => hplace hboth.2
    rw [hnone, Option.getD_none, harchive h]
    exact h

end

section

variable {D : Diffy} {Y : SerdeYaml} {rfc3339 : DateTime → String} {item path first column : String}
  {created entry : UndoEntryId} {f : Files} {w : Whereabouts} {dataAt logAt : Option UndoEntryId}
  {text : String} {log : Changelog} {r : ChangelogEntry} {stamp : Stamp}

/-- Where the file and the changelog are and what they hold. The changelog goes to the trash only
with the file, and comes back before it. -/
structure Kept (D : Diffy) (Y : SerdeYaml) (rfc3339 : DateTime → String)
    (item path first : String) (created : UndoEntryId) (f : Files) (w : Whereabouts)
    (dataAt logAt : Option UndoEntryId) (text : String) (log : Changelog) : Prop where
  data : Holds (f.data item) dataAt text
  logs : Holds (f.log item) logAt log
  place : dataAt = none ∨ dataAt = some created
  logPlace : logAt = none ∨ logAt = some created ∧ dataAt = some created
  column : columnOf Y item path text = some w.column
  follows : ∃ cursor, Follows D Y rfc3339 item path first created log cursor w

def Tracked (D : Diffy) (Y : SerdeYaml) (rfc3339 : DateTime → String) (item path first : String)
    (created : UndoEntryId) (f : Files) (w : Whereabouts) : Prop :=
  ∃ dataAt logAt text log, Kept D Y rfc3339 item path first created f w dataAt logAt text log

theorem Kept.next_same (h : Kept D Y rfc3339 item path first created f w dataAt logAt text log)
    (now : Option DateTime) : w.next first now (liveColumn Y item path f) = w := by
  rw [liveColumn, h.data.live]
  split
  · rw [Option.bind_some, h.column, Whereabouts.next, if_pos rfl]
  · rfl

theorem Tracked.same (h : Tracked D Y rfc3339 item path first created f w) (now : Option DateTime) :
    Tracked D Y rfc3339 item path first created f
      (w.next first now (liveColumn Y item path f)) := by
  obtain ⟨dataAt, logAt, text, log, hkept⟩ := h
  rw [hkept.next_same now]
  exact ⟨dataAt, logAt, text, log, hkept⟩

theorem Tracked.datesAgree {columns : List Fields} {terminal : String}
    (hcolumns : OrderedColumns columns) (hfirst : IsFirst columns first)
    (hterminal : IsTerminal columns terminal)
    (h : Tracked D Y rfc3339 item path first created f w) :
    DatesAgree D Y item path rfc3339 columns terminal (f, w) := by
  obtain ⟨dataAt, logAt, text, log, hkept⟩ := h
  obtain ⟨cursor, hfollows⟩ := hkept.follows
  intro text' htext'
  have hlive := hkept.data.live
  rw [show (f.data item).live = some text' from htext'] at hlive
  split at hlive
  · rename_i hplace
    obtain rfl := Option.some.inj hlive
    have hlogs : (f.log item).live = some log := by
      rcases hkept.logPlace with hlog | ⟨-, hdata⟩
      · rw [hkept.logs.live, if_pos hlog]
      · rw [hplace] at hdata
        cases hdata
    refine hfollows.datesAgree hcolumns hfirst hterminal hlogs (fun text hdata => ?_) text' htext'
    rw [Option.some.inj (hdata.symm.trans htext')]
    exact hkept.column
  · cases hlive

theorem write_files (D : Diffy) (S : TrackedStore) (stamp : Stamp) (x : S.Item) {old : String}
    (h : (f.data (S.display (S.itemId x))).live = some old) :
    (Store.write D S f stamp x).files = f ∨ ∃ new, S.serialize x = .ok new ∧
      (Store.write D S f stamp x).files =
        (f.appendLog (S.display (S.itemId x))
          (record D stamp .update (S.display (S.itemId x)) old new)).writeText
            (S.display (S.itemId x)) new := by
  unfold Store.write
  cases hserialize : S.serialize x with
  | error err => exact .inl rfl
  | ok new =>
    grind

theorem files_runArm_rewrite {S : TrackedStore} {current target patch conflict : String}
    (hlive : (f.data r.itemId).live = some current)
    (hpatch : applyPatch D current patch = .ok target) :
    (runArm D S f r (.rewrite patch conflict)).files = f.writeText r.itemId target := by
  unfold runArm
  rw [hlive]
  dsimp only
  rw [hpatch]

theorem Tracked.rewriteTask (hD : PrintsUnified D) (hY : ReadsBackYaml Y)
    (h : Tracked D Y rfc3339 item path first created f w) {change : Fields → Fields}
    (hstep : InStep D item f) (hclock : ClockKept item f stamp)
    (hchange : ∀ m, Storable m → m["position_column"]? = some (.string w.column) →
      Storable (change m) ∧ (change m)["position_column"]? = some (.string column))
    (hline : OneLine column) :
    Tracked D Y rfc3339 item path first created (rewriteTask D Y item path stamp change f)
      (w.next first (some stamp.now)
        (liveColumn Y item path (Kanban.rewriteTask D Y item path stamp change f))) := by
  obtain ⟨dataAt, logAt, text, log, hkept⟩ := h
  have htracked : Tracked D Y rfc3339 item path first created f w :=
    ⟨dataAt, logAt, text, log, hkept⟩
  cases dataAt with
  | some k =>
    have hlive : (f.data item).live = none := hkept.data.live
    have hsame : Kanban.rewriteTask D Y item path stamp change f = f := by
      rw [Kanban.rewriteTask, hlive]
    rw [hsame]
    exact htracked.same _
  | none =>
    have hlive : (f.data item).live = some text := hkept.data.live
    have hlogAt : logAt = none := by
      rcases hkept.logPlace with hlog | ⟨-, hdata⟩
      · exact hlog
      · cases hdata
    subst hlogAt
    have hloglive : (f.log item).live = some log := hkept.logs.live
    obtain ⟨cursor, hfollows⟩ := hkept.follows
    obtain rfl : cursor = text :=
      Except.ok.inj (hfollows.cursor.symm.trans (hstep text log hlive hloglive))
    obtain ⟨e, hparse, hstorable, hcolumn⟩ := hfollows.stored
    obtain ⟨hstorable', hcolumn'⟩ := hchange e.fields hstorable hcolumn
    have hwritten : Kanban.rewriteTask D Y item path stamp change f =
        (Store.write D (taskStore.tracked Y) f stamp ⟨"task", item, change e.fields⟩).files := by
      rw [Kanban.rewriteTask, hlive]
      dsimp only
      rw [hparse]
    rw [hwritten]
    rcases write_files D (taskStore.tracked Y) stamp ⟨"task", item, change e.fields⟩ hlive
      with hsame | ⟨new, hserialize, hfiles⟩
    · rw [hsame]
      exact htracked.same _
    · have hfiles : (Store.write D (taskStore.tracked Y) f stamp
          ⟨"task", item, change e.fields⟩).files = (f.appendLog item
            (record D stamp .update item cursor new)).writeText item new := hfiles
      rw [hfiles]
      have hstored : Stored Y item path new column :=
        stored_serialize hY hstorable' hcolumn' hserialize
      have hnow : liveColumn Y item path ((f.appendLog item
          (record D stamp .update item cursor new)).writeText item new) = some column := by
        rw [liveColumn, Files.writeText, Files.setData_data]
        exact hstored.columnOf
      have hdata : Holds (((f.appendLog item (record D stamp .update item cursor new)).writeText item
          new).data item) none new := by
        rw [Files.writeText, Files.setData_data]
        exact hkept.data.write new
      have hlogs : Holds (((f.appendLog item (record D stamp .update item cursor new)).writeText item
          new).log item) none (log ++ [record D stamp .update item cursor new]) := by
        rw [Files.writeText, Files.setData_log, Files.appendLog, Files.setLog_log, hloglive]
        exact hkept.logs.write _
      refine ⟨none, none, new, log ++ [record D stamp .update item cursor new], hdata, hlogs,
        .inl rfl, .inl rfl, ?_, new, ?_⟩
      · refine hstored.columnOf.trans ?_
        rw [hnow, Whereabouts.next_column]
      · rw [hnow]
        exact hfollows.concat hD hstored hline (hclock log hloglive)

structure TaskArm (arm : ChangelogEntry → Arm) : Prop where
  update : ∀ r, r.op = .update → ∃ patch conflict, arm r = .rewrite patch conflict
  create : ∀ r, r.op = .create →
    ∃ patch, arm r = .sendAway .trash patch ∨ arm r = .bringBack .trash patch

theorem taskArm_undoArm : TaskArm undoArm where
  update r hop := by
    rw [undoArm, hop]
    exact ⟨_, _, rfl⟩
  create r hop := by
    rw [undoArm, hop]
    exact ⟨_, .inl rfl⟩

theorem taskArm_redoArm : TaskArm redoArm where
  update r hop := by
    rw [redoArm, hop]
    exact ⟨_, _, rfl⟩
  create r hop := by
    rw [redoArm, hop]
    exact ⟨_, .inr rfl⟩

theorem Kept.sendAway {S : TrackedStore}
    (h : Kept D Y rfc3339 item path first r.id f w dataAt none text log) (hitem : r.itemId = item)
    (patch : String) :
    Tracked D Y rfc3339 item path first r.id (runArm D S f r (.sendAway .trash patch)).files w := by
  subst hitem
  have htracked : Tracked D Y rfc3339 r.itemId path first r.id f w :=
    ⟨dataAt, none, text, log, h⟩
  unfold runArm
  dsimp only
  split
  · exact htracked
  · cases dataAt with
    | some k =>
      rw [h.data.moveToBin_none]
      exact htracked
    | none =>
      obtain ⟨s, hs, hdata⟩ := h.data.moveToBin r.id
      obtain ⟨l, hl, hlogs⟩ := h.logs.moveToBin r.id
      rw [hs]
      dsimp only
      rw [Files.setData_log, hl]
      refine ⟨some r.id, some r.id, text, log, ?_, ?_, .inr rfl, .inr ⟨rfl, rfl⟩, h.column,
        h.follows⟩
      · rw [Files.setLog_data, Files.setData_data]
        exact hdata
      · rw [Files.setLog_log]
        exact hlogs

theorem Kept.bringBack {S : TrackedStore}
    (h : Kept D Y rfc3339 item path first r.id f w dataAt none text log) (hitem : r.itemId = item)
    (patch : String) :
    Tracked D Y rfc3339 item path first r.id (runArm D S f r (.bringBack .trash patch)).files w := by
  subst hitem
  have htracked : Tracked D Y rfc3339 r.itemId path first r.id f w :=
    ⟨dataAt, none, text, log, h⟩
  unfold runArm
  dsimp only
  rcases h.place with hplace | hplace
  · subst hplace
    rw [h.data.moveFromBin_none fun hboth => by cases hboth.2]
    exact htracked
  · subst hplace
    obtain ⟨s, hs, hdata⟩ := h.data.moveFromBin
    rw [hs]
    have hback : Tracked D Y rfc3339 r.itemId path first r.id (f.setData r.itemId s) w := by
      refine ⟨none, none, text, log, ?_, ?_, .inl rfl, .inl rfl, h.column, h.follows⟩
      · rw [Files.setData_data]
        exact hdata
      · exact h.logs
    dsimp only
    split
    · exact hback
    · exact hback

theorem Kept.rewrite {S : TrackedStore}
    (h : Kept D Y rfc3339 item path first created f w dataAt none text log)
    (hitem : r.itemId = item) {patch conflict : String}
    (hcolumn : ∀ current, (f.data item).live = some current → ∀ target,
      applyPatch D current patch = .ok target →
        columnOf Y item path target = columnOf Y item path current) :
    Tracked D Y rfc3339 item path first created
      (runArm D S f r (.rewrite patch conflict)).files w := by
  subst hitem
  have htracked : Tracked D Y rfc3339 r.itemId path first created f w :=
    ⟨dataAt, none, text, log, h⟩
  unfold runArm
  rcases h.place with hplace | hplace
  · subst hplace
    have hlive : (f.data r.itemId).live = some text := h.data.live
    rw [hlive]
    dsimp only
    split
    · exact htracked
    · rename_i target hpatch
      refine ⟨none, none, target, log, ?_, ?_, .inl rfl, .inl rfl, ?_, h.follows⟩
      · rw [Files.writeText, Files.setData_data]
        exact h.data.write target
      · exact h.logs
      · rw [hcolumn text hlive target hpatch]
        exact h.column
  · subst hplace
    have hlive : (f.data r.itemId).live = none := h.data.live
    rw [hlive]
    exact htracked

theorem Tracked.replay {S : TrackedStore} (h : Tracked D Y rfc3339 item path first created f w)
    {arm : ChangelogEntry → Arm} (harm : TaskArm arm)
    (hkept : ColumnKept D Y item path arm f entry) :
    Tracked D Y rfc3339 item path first created (Store.replay D S arm f entry item).files w := by
  obtain ⟨dataAt, logAt, text, log, h⟩ := h
  have hlogs := holds_restoreLogs h.logs entry
  have hrestored : Kept D Y rfc3339 item path first created (restoreLogs f item entry) w dataAt
      (if logAt = some entry then none else logAt) text log := by
    refine ⟨h.data, hlogs, h.place, ?_, h.column, h.follows⟩
    split
    · exact .inl rfl
    · exact h.logPlace
  generalize (if logAt = some entry then none else logAt) = place at hlogs hrestored
  unfold Store.replay
  dsimp only
  cases hfind : Changelog.findEntry (((restoreLogs f item entry).log item).live.getD []) entry with
  | none => exact ⟨_, _, text, log, hrestored⟩
  | some r =>
    dsimp only
    cases place with
    | some k =>
      have hlive : ((restoreLogs f item entry).log item).live = none := hlogs.live
      rw [hlive] at hfind
      cases hfind
    | none =>
      have hlive : ((restoreLogs f item entry).log item).live = some log := hlogs.live
      have hmem : r ∈ log := by
        have hmem := Changelog.findEntry_mem hfind
        rwa [hlive] at hmem
      obtain ⟨cursor, hfollows⟩ := h.follows
      obtain ⟨hitem, hop⟩ := hfollows.records r hmem
      rcases hop with hop | ⟨hop, hid⟩
      · obtain ⟨patch, conflict, harm⟩ := harm.update r hop
        rw [harm]
        exact hrestored.rewrite hitem (hkept r hfind patch conflict harm)
      · subst hid
        obtain ⟨patch, harm | harm⟩ := harm.create r hop
        · rw [harm]
          exact hrestored.sendAway hitem patch
        · rw [harm]
          exact hrestored.bringBack hitem patch

end

section

variable {D : Diffy} {Y : SerdeYaml} {rfc3339 : DateTime → String} {item path first column : String}
  {created : UndoEntryId} {f : Files} {w : Whereabouts} {m : Fields} {stamp : Stamp}
  {text terminal : String} {columns : List Fields}

theorem storable_insert {field : String} {value : String} (h : Storable m) (hne : field ≠ "body") :
    Storable (m.insert field (.string value)) := by
  obtain ⟨⟨body, hbody⟩, hflat⟩ := h
  constructor
  · grind
  · grind

theorem get_putInColumn (column ordinal : String) (m : Fields) :
    (putInColumn column ordinal m)["position_column"]? = some (.string column) := by
  rw [putInColumn, Std.ExtTreeMap.getElem?_insert, if_neg (by decide),
    Std.ExtTreeMap.getElem?_insert_self]

theorem Tracked.step (hD : PrintsUnified D) (hY : ReadsBackYaml Y) {op : TaskStep}
    {s' : Files × Whereabouts} (h : Tracked D Y rfc3339 item path first created f w)
    (hclock : op.ClockKept item f) (hmeets : op.Meets D Y item path f)
    (hstep : TaskStep.Step D Y item path first (f, w) op s') :
    Tracked D Y rfc3339 item path first created s'.1 s'.2 := by
  obtain ⟨hfiles, hnext⟩ := hstep
  rw [hnext, hfiles]
  cases op with
  | move stamp column ordinal =>
    refine h.rewriteTask hD hY hmeets.2 hclock (fun m hm _ => ?_) hmeets.1
    exact ⟨storable_insert (storable_insert hm (by decide)) (by decide), get_putInColumn _ _ _⟩
  | edit stamp fields =>
    obtain ⟨dataAt, logAt, text, log, hkept⟩ := h
    obtain ⟨cursor, hfollows⟩ := hkept.follows
    refine Tracked.rewriteTask hD hY ⟨dataAt, logAt, text, log, hkept⟩ hmeets hclock
      (fun m hm hcolumn => ?_) hfollows.line
    exact ⟨fields.storable m hm, (fields.keeps m).trans hcolumn⟩
  | undo entry => exact (h.replay taskArm_undoArm hmeets).same _
  | redo entry => exact (h.replay taskArm_redoArm hmeets).same _

theorem addTaskFile_eq (D : Diffy) (stamp : Stamp)
    (hwritten : taskStore.serialize Y ⟨"task", item, m⟩ = .ok text) :
    addTaskFile D Y item stamp m =
      (Files.empty.appendLog item (record D stamp .create item "" text)).writeText item text := by
  unfold addTaskFile Store.write
  rw [show (taskStore.tracked Y).serialize ⟨"task", item, m⟩ = .ok text from hwritten]
  rfl

theorem tracked_addTaskFile (stamp : Stamp) (hY : ReadsBackYaml Y) (hm : Storable m)
    (hcolumn : m["position_column"]? = some (.string column)) (hline : OneLine column)
    (hwritten : taskStore.serialize Y ⟨"task", item, m⟩ = .ok text) :
    Tracked D Y rfc3339 item path first stamp.id (addTaskFile D Y item stamp m)
      ⟨column, stamp.now, decide (column ≠ first)⟩ := by
  have hstored : Stored Y item path text column := stored_serialize hY hm hcolumn hwritten
  rw [addTaskFile_eq D stamp hwritten]
  refine ⟨none, none, text, [record D stamp .create item "" text], ?_, ?_, .inl rfl, .inl rfl,
    hstored.columnOf, text, follows_created hstored hline⟩
  · rw [Files.writeText, Files.setData_data]
    exact holds_empty text
  · rw [Files.writeText, Files.setData_log, Files.appendLog, Files.setLog_log]
    exact holds_empty _

end

instance decidableOneLine (column : String) : Decidable (OneLine column) :=
  inferInstanceAs (Decidable (_ ∧ _ ∧ _ ∧ _))

def readUnified : List (List Char) → Except String (String × String)
  | [_, _, _, old, _, new, _] => .ok (String.ofList (old.drop 1), String.ofList (new.drop 1))
  | _ => .error "no patch"

theorem head?_encode (old new : List Char) : (Diffy.encode old new).head? ≠ some '-' := by
  cases old with
  | nil => exact fun heq => absurd (Option.some.inj heq) (by decide)
  | cons c old => exact fun heq => absurd (Option.some.inj heq) (by decide)

def printed : Diffy where
  Patch := String × String
  createPatch a b := (a, b)
  toString p :=
    if OneLine p.1 ∧ OneLine p.2 ∧ p.1 ≠ p.2 then String.ofList (unified p.1 p.2)
    else String.ofList (Diffy.encode p.1.toList p.2.toList)
  fromStr text :=
    if text.toList.head? = some '-' then readUnified (Text.lines text.toList)
    else
      match Diffy.decode text.toList with
      | some (a, b) => .ok (String.ofList a, String.ofList b)
      | none => .error "no patch"
  apply text p := if text = p.1 then .ok p.2 else .error "hunk does not match"
  round_trip a b := by
    by_cases hone : OneLine a ∧ OneLine b ∧ a ≠ b
    · have hhead : (unified a b).head? = some '-' := rfl
      rw [if_pos hone, String.toList_ofList, if_pos hhead, lines_unified hone.1 hone.2.1]
      simp [readUnified]
    · rw [if_neg hone, String.toList_ofList, if_neg (head?_encode _ _), Diffy.decode_encode]
      simp

theorem printsUnified_printed : PrintsUnified printed := by
  intro old new hold hnew hne
  rw [show printed.toString (printed.createPatch old new) = String.ofList (unified old new) from
    if_pos ⟨hold, hnew, hne⟩, String.toList_ofList]

def taskYaml : SerdeYaml := SerdeYaml.table
  [([("position_column", .string "todo")], "position_column: todo\n"),
    ([("position_column", .string "done"), ("position_ordinal", .string "a0")],
      "position_column: done\nposition_ordinal: a0\n")]

theorem readsBackYaml_taskYaml : ReadsBackYaml taskYaml := by
  intro m yaml h
  have hrow : (m.toList = [("position_column", .string "todo")] ∧
      yaml = "position_column: todo\n") ∨
      (m.toList = [("position_column", .string "done"), ("position_ordinal", .string "a0")] ∧
        yaml = "position_column: done\nposition_ordinal: a0\n") := by
    unfold taskYaml SerdeYaml.table at h
    dsimp only at h
    split at h
    · grind
    · cases h
  rcases hrow with ⟨hm, rfl⟩ | ⟨hm, rfl⟩
  · exact ⟨h, by decide, by decide, ⟨_, rfl, by rw [hm]⟩,
      ⟨_, rfl, by rw [hm]; exact List.reverse_perm _⟩⟩
  · exact ⟨h, by decide, by decide, ⟨_, rfl, by rw [hm]⟩,
      ⟨_, rfl, by rw [hm]; exact List.reverse_perm _⟩⟩

def boardColumns : List Fields :=
  [((∅ : Fields).insert "id" (.string "todo")).insert "order" (.number "0"),
    ((∅ : Fields).insert "id" (.string "done")).insert "order" (.number "1")]

theorem orderedColumns_boardColumns : OrderedColumns boardColumns := by
  constructor
  · intro c hc
    rcases List.mem_pair.mp hc with rfl | rfl
    · exact ⟨0, by decide⟩
    · exact ⟨1, by decide⟩
  · exact List.pairwise_pair.mpr (by decide)

theorem isFirst_todo : IsFirst boardColumns "todo" := by
  refine ⟨_, List.mem_cons_self, by decide, fun other hother => ?_⟩
  rcases List.mem_pair.mp hother with rfl | rfl
  · exact le_rfl
  · decide

theorem isTerminal_done : IsTerminal boardColumns "done" := by
  refine ⟨_, List.mem_cons_of_mem _ List.mem_cons_self, by decide, fun other hother => ?_⟩
  rcases List.mem_pair.mp hother with rfl | rfl
  · decide
  · exact le_rfl

def sampleTime (t : DateTime) : String :=
  if t = 0 then "1970-01-01T00:00:00Z" else "1970-01-01T00:00:01Z"

def todoTask : Fields :=
  ((∅ : Fields).insert "position_column" (.string "todo")).insert "body" (.string "")

theorem storable_todoTask : Storable todoTask := by
  refine ⟨⟨"", by decide⟩, fun k v hk hne fields => ?_⟩
  rw [todoTask, Std.ExtTreeMap.getElem?_insert, if_neg (by simpa using Ne.symm hne),
    Std.ExtTreeMap.getElem?_insert] at hk
  split at hk
  · rw [← Option.some.inj hk]
    exact fun heq => by cases heq
  · cases hk

theorem todoTask_column : todoTask["position_column"]? = some (.string "todo") := by
  decide

theorem oneLine_todo : OneLine "todo" := by decide

def todoState : Files × Whereabouts :=
  (addTaskFile printed taskYaml "t" ⟨1, 0⟩ todoTask, ⟨"todo", 0, decide ("todo" ≠ "todo")⟩)

def TaskStep.after (s : Files × Whereabouts) (op : TaskStep) : Files × Whereabouts :=
  (op.exec printed taskYaml "t" "t.md" s.1,
    s.2.next "todo" op.now (liveColumn taskYaml "t" "t.md" (op.exec printed taskYaml "t" "t.md" s.1)))

def moveDone : TaskStep := .move ⟨2, 1000000000⟩ "done" "a0"

def todoText : String := "---\nposition_column: todo\n---\n"

def doneText : String := "---\nposition_column: done\nposition_ordinal: a0\n---\n"

theorem todo_serialized : taskStore.serialize taskYaml ⟨"task", "t", todoTask⟩ = .ok todoText := by
  have hfields : (taskStore.written ⟨"task", "t", todoTask⟩).toList =
      [("position_column", .string "todo")] := by
    decide +kernel
  unfold EntityTypeStore.serialize
  rw [hfields]
  rfl

theorem todo_data : (todoState.1.data "t").live = some todoText := by
  rw [todoState, addTaskFile_eq printed ⟨1, 0⟩ todo_serialized]
  rfl

theorem todo_log : (todoState.1.log "t").live =
    some [record printed ⟨1, 0⟩ .create "t" "" todoText] := by
  rw [todoState, addTaskFile_eq printed ⟨1, 0⟩ todo_serialized]
  rfl

theorem clockKept_moveDone : moveDone.ClockKept "t" todoState.1 := by
  intro log hlog last hlast
  obtain rfl := Option.some.inj (todo_log.symm.trans hlog)
  obtain rfl := Option.some.inj hlast
  exact (by decide : (0 : Int) ≤ 1000000000)

theorem meets_moveDone : moveDone.Meets printed taskYaml "t" "t.md" todoState.1 := by
  refine ⟨by decide, fun text log hdata hlog => ?_⟩
  obtain rfl := Option.some.inj (todo_log.symm.trans hlog)
  obtain rfl := Option.some.inj (todo_data.symm.trans hdata)
  have hcursor : cursorOf printed ([] ++ [record printed ⟨1, 0⟩ .create "t" "" todoText]) =
      .ok todoText :=
    cursorOf_concat rfl (applyPatch_forward printed _ _)
  exact hcursor

def todoRead : Entity :=
  ((Entity.new "task" "t").set "position_column" (.string "todo")).set "body" (.string "")

theorem done_serialized : taskStore.serialize taskYaml
    ⟨"task", "t", putInColumn "done" "a0" todoRead.fields⟩ = .ok doneText := by
  have hfields : (taskStore.written
      ⟨"task", "t", putInColumn "done" "a0" todoRead.fields⟩).toList =
        [("position_column", .string "done"), ("position_ordinal", .string "a0")] := by
    decide +kernel
  unfold EntityTypeStore.serialize
  rw [hfields]
  rfl

def doneFiles : Files :=
  (todoState.1.appendLog "t" (record printed ⟨2, 1000000000⟩ .update "t" todoText
    doneText)).writeText "t" doneText

theorem moveDone_after (s : Files × Whereabouts) :
    (moveDone.after s).1 = rewriteTask printed taskYaml "t" "t.md" ⟨2, 1000000000⟩
      (putInColumn "done" "a0") s.1 :=
  rfl

theorem moveDone_files : (moveDone.after todoState).1 = doneFiles := by
  have hparse : parseEntityText taskYaml todoText "task" "t" taskStore.entityDef "t.md" =
      .ok todoRead := by
    rfl
  have hne : some todoText ≠ some doneText := by decide
  have hwrite : (Store.write printed (taskStore.tracked taskYaml) todoState.1 ⟨2, 1000000000⟩
      ⟨"task", "t", putInColumn "done" "a0" todoRead.fields⟩).files = doneFiles := by
    unfold Store.write
    rw [show (taskStore.tracked taskYaml).serialize
      ⟨"task", "t", putInColumn "done" "a0" todoRead.fields⟩ = .ok doneText from done_serialized]
    dsimp only
    rw [show (todoState.1.data ((taskStore.tracked taskYaml).display
      ((taskStore.tracked taskYaml).itemId
        ⟨"task", "t", putInColumn "done" "a0" todoRead.fields⟩))).live = some todoText
          from todo_data, if_neg hne]
    rfl
  rw [moveDone_after]
  unfold rewriteTask
  rw [todo_data]
  dsimp only
  exact hwrite

theorem done_log : (doneFiles.log "t").live =
    some [record printed ⟨1, 0⟩ .create "t" "" todoText,
      record printed ⟨2, 1000000000⟩ .update "t" todoText doneText] := by
  rw [doneFiles, Files.writeText, Files.setData_log, Files.appendLog, todo_log]
  rfl

def undoMove : TaskStep := .undo 2

theorem undoMove_after (s : Files × Whereabouts) :
    (undoMove.after s).1 = (undo printed (taskStore.tracked taskYaml) s.1 2 "t").files :=
  rfl

theorem undoMove_files :
    (undoMove.after (moveDone.after todoState)).1 = doneFiles.writeText "t" todoText := by
  have hbins : ∀ b, ((doneFiles.log "t").bin b)[2]? = none := by
    intro b
    rw [doneFiles, todoState, addTaskFile_eq printed ⟨1, 0⟩ todo_serialized]
    exact Std.ExtTreeMap.getElem?_empty
  have hlive : (doneFiles.data "t").live = some doneText := by
    rw [doneFiles, Files.writeText, Files.setData_data]
  rw [undoMove_after, moveDone_files, undo, replay_of_find (restoreLogs_of_none hbins) done_log rfl]
  have harm : undoArm (record printed ⟨2, 1000000000⟩ .update "t" todoText doneText) =
      .rewrite (createPatches printed todoText doneText).2
        "reverse patch failed to apply — file was concurrently modified" :=
    rfl
  exact files_runArm_rewrite hlive (applyPatch_reverse printed todoText doneText)

theorem doneText_column : columnOf taskYaml "t" "t.md" doneText = some "done" := by
  have hread : Storable todoRead.fields := by
    refine ⟨⟨"", Std.ExtTreeMap.getElem?_insert_self⟩, fun k v hk hne fields => ?_⟩
    rw [todoRead, Entity.set, Std.ExtTreeMap.getElem?_insert, if_neg (by simpa using Ne.symm hne),
      Entity.set, Std.ExtTreeMap.getElem?_insert] at hk
    split at hk
    · rw [← Option.some.inj hk]
      exact fun heq => by cases heq
    · cases hk
  have hstorable : Storable (putInColumn "done" "a0" todoRead.fields) :=
    storable_insert (storable_insert hread (by decide)) (by decide)
  exact (stored_serialize readsBackYaml_taskYaml hstorable (get_putInColumn _ _ _)
    done_serialized).columnOf

theorem todoText_column : columnOf taskYaml "t" "t.md" todoText = some "todo" :=
  (stored_serialize readsBackYaml_taskYaml storable_todoTask todoTask_column todo_serialized).columnOf

end SwissArmyHammer.Kanban
