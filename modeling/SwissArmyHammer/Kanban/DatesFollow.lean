import SwissArmyHammer.Common.Folds
import SwissArmyHammer.Kanban.DatesAgree

/-! What the changelog tells of the column, kept in line with where the task is. -/

namespace SwissArmyHammer.Kanban

open Entities Store

section

variable {D : Diffy} {rfc3339 : DateTime → String} {e : ChangeEntry} {old new : Entity}
  {column : String}

theorem changelogTimestamp_toJson (rfc3339 : DateTime → String) (e : ChangeEntry) :
    changelogTimestamp (e.toJson rfc3339) = some (rfc3339 e.timestamp) := by
  cases hactor : e.actor <;> cases hredone : e.redoneId <;>
    simp [changelogTimestamp, ChangeEntry.toJson, optionalField, Json.getKey, hactor, hredone,
      Json.asStr]

theorem changes_toJson (rfc3339 : DateTime → String) (e : ChangeEntry) :
    (e.toJson rfc3339).getKey "changes" =
      some (.array (e.changes.map fun c => .array [.string c.1, c.2.toJson])) := by
  cases hactor : e.actor <;> simp [ChangeEntry.toJson, optionalField, Json.getKey, hactor]

theorem extractPositionColumn_toJson (rfc3339 : DateTime → String) (e : ChangeEntry) :
    extractPositionColumn (e.toJson rfc3339) =
      (e.changes.filter fun c => c.1 = "position_column").findSome? fun c =>
        fieldChangeNewValue c.2.toJson := by
  rw [extractPositionColumn, changes_toJson]
  change (List.filter _ (List.map _ e.changes)).findSome? _ = _
  rw [List.filter_map, List.findSome?_map]
  congr 1
  apply List.filter_congr
  simp [isPositionColumnChange, Json.asArray, Json.asStr]

theorem findSome?_of_forall {α β : Type} {l : List α} {f : α → Option β} {v : Option β}
    (hne : l ≠ []) (h : ∀ x ∈ l, f x = v) : l.findSome? f = v := by
  cases v with
  | none => exact List.findSome?_eq_none_iff.mpr h
  | some v =>
    cases l with
    | nil => exact absurd rfl hne
    | cons x l =>
      rw [List.findSome?_cons, h x List.mem_cons_self]

theorem extractPositionColumn_diff (rfc3339 : DateTime → String)
    (h : e.changes = diffEntities D old new) : extractPositionColumn (e.toJson rfc3339) =
      (changeBetween D (old.get "position_column") (new.get "position_column")).bind
        fun c => fieldChangeNewValue c.toJson := by
  rw [extractPositionColumn_toJson, h]
  cases hchange : changeBetween D (old.get "position_column") (new.get "position_column") with
  | none =>
    rw [Option.bind_none, List.findSome?_eq_none_iff]
    intro c hc
    obtain ⟨hmem, hkey⟩ := List.mem_filter.mp hc
    have hthis := mem_diffEntities.mp hmem
    rw [of_decide_eq_true hkey, hchange] at hthis
    cases hthis
  | some change =>
    apply findSome?_of_forall
    · have hmem : ("position_column", change) ∈ diffEntities D old new :=
        mem_diffEntities.mpr hchange
      exact List.ne_nil_of_mem (List.mem_filter.mpr ⟨hmem, decide_eq_true rfl⟩)
    · intro c hc
      obtain ⟨hmem, hkey⟩ := List.mem_filter.mp hc
      have hthis := mem_diffEntities.mp hmem
      rw [of_decide_eq_true hkey, hchange] at hthis
      rw [← Option.some.inj hthis]
      rfl

theorem newValue_set (value : String) :
    fieldChangeNewValue (FieldChange.set (.string value)).toJson = some value := rfl

theorem newValue_textDiff (forward reverse : String) :
    fieldChangeNewValue (FieldChange.textDiff forward reverse).toJson =
      extractTextDiffNewValue forward := rfl

theorem extract_created (h : e.changes = diffEntities D old new)
    (hold : old.get "position_column" = none)
    (hnew : new.get "position_column" = some (.string column)) :
    extractPositionColumn (e.toJson rfc3339) = some column := by
  rw [extractPositionColumn_diff rfc3339 h, hold, hnew]
  exact newValue_set column

theorem extract_moved (rfc3339 : DateTime → String) (hD : PrintsUnified D) {before : String}
    (h : e.changes = diffEntities D old new)
    (hold : old.get "position_column" = some (.string before))
    (hnew : new.get "position_column" = some (.string column)) (hbefore : OneLine before)
    (hcolumn : OneLine column) : extractPositionColumn (e.toJson rfc3339) =
      if column = before then none else some column := by
  rw [extractPositionColumn_diff rfc3339 h, hold, hnew]
  split
  · rename_i heq
    rw [changeBetween_eq_none.mpr (by rw [heq]), Option.bind_none]
  · rename_i hne
    have hdiffers : Json.string before ≠ .string column := fun heq =>
      hne (Json.string.inj heq).symm
    rw [changeBetween, changeOf, if_neg hdiffers]
    exact extract_unified hbefore hcolumn (hD _ _ hbefore hcolumn fun heq => hne heq.symm)

end

section

variable {rfc3339 : DateTime → String} {first column : String} {w : Whereabouts}
  {entries : List ChangeEntry} {e : ChangeEntry}

/-- What the entries tell of a task: its last column and since when, and whether it was ever
outside the first one. -/
structure Told (rfc3339 : DateTime → String) (first : String) (w : Whereabouts)
    (entries : List ChangeEntry) : Prop where
  last : ∃ e, entries.reverse.findSome? (fun e =>
    (extractPositionColumn (e.toJson rfc3339)).map fun col => (e, col)) = some (e, w.column) ∧
      e.timestamp = w.since
  outside : w.outside = true ↔
    ∃ e ∈ entries, ∃ col, extractPositionColumn (e.toJson rfc3339) = some col ∧ col ≠ first

theorem told_created (h : extractPositionColumn (e.toJson rfc3339) = some column) :
    Told rfc3339 first ⟨column, e.timestamp, decide (column ≠ first)⟩ [e] := by
  refine ⟨⟨e, ?_, rfl⟩, ?_⟩
  · rw [List.reverse_singleton, List.findSome?_cons, h]
    rfl
  · grind

theorem Told.concat (hw : Told rfc3339 first w entries)
    (h : extractPositionColumn (e.toJson rfc3339) = if column = w.column then none else some column) :
    Told rfc3339 first (w.next first (some e.timestamp) (some column)) (entries ++ [e]) := by
  obtain ⟨last, hlast, htime⟩ := hw.last
  by_cases hsame : column = w.column
  · rw [if_pos hsame] at h
    rw [Whereabouts.next, if_pos hsame]
    refine ⟨⟨last, ?_, htime⟩, ?_⟩
    · rw [List.reverse_concat, List.findSome?_cons, h]
      exact hlast
    · rw [hw.outside]
      constructor
      · grind
      · grind
  · rw [if_neg hsame] at h
    rw [Whereabouts.next, if_neg hsame]
    refine ⟨⟨e, ?_, rfl⟩, ?_⟩
    · rw [List.reverse_concat, List.findSome?_cons, h]
      rfl
    · rw [Bool.or_eq_true, hw.outside]
      constructor
      · intro hor
        rcases hor with hsome | hne
        · obtain ⟨e', he', hcol⟩ := hsome
          exact ⟨e', List.mem_append_left _ he', hcol⟩
        · exact ⟨e, List.mem_append_right _ (List.mem_singleton_self e), column, h,
            of_decide_eq_true hne⟩
      · intro hsome
        obtain ⟨e', he', col, hcol, hne⟩ := hsome
        rcases List.mem_append.mp he' with he' | he'
        · exact .inl ⟨e', he', col, hcol, hne⟩
        · rw [List.mem_singleton.mp he', h] at hcol
          obtain rfl := Option.some.inj hcol
          exact .inr (decide_eq_true hne)

theorem Told.completed (hw : Told rfc3339 first w entries) (terminal : String) :
    findCompletedTimestamp (entries.map (ChangeEntry.toJson rfc3339)) terminal =
      if w.column = terminal then some (rfc3339 w.since) else none := by
  obtain ⟨last, hlast, htime⟩ := hw.last
  have hjson : (entries.map (ChangeEntry.toJson rfc3339)).reverse.findSome? (fun entry =>
      (extractPositionColumn entry).map fun col => (entry, col)) =
        some (last.toJson rfc3339, w.column) := by
    rw [← List.map_reverse, List.findSome?_map]
    have hmapped := congrArg (Option.map fun p : ChangeEntry × String =>
      (p.1.toJson rfc3339, p.2)) hlast
    rw [List.map_findSome?] at hmapped
    rw [← show Option.map (fun p : ChangeEntry × String => (p.1.toJson rfc3339, p.2))
      (some (last, w.column)) = some (last.toJson rfc3339, w.column) from rfl, ← hmapped]
    congr 1
    funext e
    cases hextract : extractPositionColumn (e.toJson rfc3339) <;> simp [hextract]
  rw [findCompletedTimestamp, hjson, Option.bind_some, changelogTimestamp_toJson, htime]

theorem Told.started (hw : Told rfc3339 first w entries) :
    findStartedTimestamp (entries.map (ChangeEntry.toJson rfc3339)) first = none ↔
      w.outside = false := by
  rw [← Bool.not_eq_true, hw.outside, findStartedTimestamp, List.find?_map]
  cases hfind : entries.find? ((fun entry => (extractPositionColumn entry).any (· ≠ first)) ∘
      ChangeEntry.toJson rfc3339) with
  | none =>
    grind
  | some e =>
    have hany := List.find?_some hfind
    have hmem := List.mem_of_find?_eq_some hfind
    rw [Function.comp_apply] at hany
    have htime : changelogTimestamp (e.toJson rfc3339) ≠ none := by
      rw [changelogTimestamp_toJson]
      exact Option.some_ne_none _
    refine iff_of_false htime fun hnone => hnone ?_
    cases hcol : extractPositionColumn (e.toJson rfc3339) with
    | none =>
      rw [hcol] at hany
      cases hany
    | some col =>
      rw [hcol] at hany
      exact ⟨e, hmem, col, hcol, of_decide_eq_true hany⟩

end

section

variable {D : Diffy} {Y : SerdeYaml} {rfc3339 : DateTime → String} {item path first column : String}
  {a b c : String} {created : UndoEntryId} {log : Changelog} {r : ChangelogEntry} {w : Whereabouts}
  {entries : List ChangeEntry} {entry : ChangeEntry}

def Stored (Y : SerdeYaml) (item path text column : String) : Prop :=
  ∃ e, parseEntityText Y text "task" item taskStore.entityDef path = .ok e ∧ Storable e.fields ∧
    e.get "position_column" = some (.string column)

theorem Stored.columnOf (h : Stored Y item path a column) :
    columnOf Y item path a = some column := by
  obtain ⟨e, hparse, -, hcolumn⟩ := h
  rw [Kanban.columnOf, hparse]
  change e.getStr "position_column" = some column
  rw [Entity.getStr, hcolumn]
  rfl

theorem storable_filter {m : Fields} (h : Storable m) :
    Storable (m.filter fun k _ => !taskStore.isComputed k) := by
  obtain ⟨⟨body, hbody⟩, hflat⟩ := h
  constructor
  · refine ⟨body, ?_⟩
    rw [Std.ExtTreeMap.getElem?_filter', hbody]
    rfl
  · grind

theorem stored_serialize (hY : ReadsBackYaml Y) {m : Fields} (hm : Storable m)
    (hcolumn : m["position_column"]? = some (.string column))
    (h : taskStore.serialize Y ⟨"task", item, m⟩ = .ok a) : Stored Y item path a column := by
  have hyaml : ∃ yaml, Y.toString (taskStore.written ⟨"task", item, m⟩).toList = .ok yaml := by
    unfold EntityTypeStore.serialize at h
    cases hwritten : Y.toString (taskStore.written ⟨"task", item, m⟩).toList with
    | ok yaml => exact ⟨yaml, rfl⟩
    | error err =>
      rw [hwritten] at h
      cases h
  obtain ⟨yaml, hyaml⟩ := hyaml
  obtain ⟨text, htext, -, e, hparse, hfields⟩ := serialize_deserialize Y taskStore
    ⟨"task", item, m⟩ item "task" path yaml (hY _ _ hyaml)
    (fun bodyField hbody => by
      obtain rfl := Option.some.inj hbody
      exact ⟨by decide, hm.1⟩)
    (fun k v hk hbody => hm.2 k v hk fun heq => hbody (by rw [heq]; rfl))
  obtain rfl := Except.ok.inj (htext.symm.trans h)
  refine ⟨e, hparse, ?_, ?_⟩
  · rw [hfields]
    exact storable_filter hm
  · rw [Entity.get, hfields, Std.ExtTreeMap.getElem?_filter', hcolumn]
    rfl

theorem replayOne_cursor
    (h : replayOneStoreEntry D Y "task" taskStore.entityDef path r a = .ok (entry, b)) :
    applyPatch D a r.forwardPatch = .ok b := by
  obtain ⟨before, -, h⟩ := exists_of_bind h
  cases hpatch : applyPatch D a r.forwardPatch with
  | error err =>
    rw [hpatch] at h
    cases h
  | ok next =>
    rw [hpatch] at h
    have hparsed : (parseEntityText Y next "task" r.itemId taskStore.entityDef path >>= fun after =>
        .ok (entryOf "task" r (if r.op = .create
          then diffEntities D (Entity.new "task" r.itemId) after
          else diffEntities D before after), next)) = Except.ok (entry, b) := h
    obtain ⟨after, -, h⟩ := exists_of_bind hparsed
    obtain ⟨-, rfl⟩ := Prod.mk.inj (Except.ok.inj h)
    rfl

theorem replayFrom_concat
    (h : replayFrom D Y "task" taskStore.entityDef path a log = .ok entries)
    (hcursor : log.foldlM (fun text r => applyPatch D text r.forwardPatch) a = .ok b)
    (hone : replayOneStoreEntry D Y "task" taskStore.entityDef path r b = .ok (entry, c)) :
    replayFrom D Y "task" taskStore.entityDef path a (log ++ [r]) = .ok (entries ++ [entry]) := by
  induction log generalizing a entries with
  | nil =>
    obtain rfl := Except.ok.inj hcursor
    obtain rfl := Except.ok.inj h
    rw [List.nil_append, replayFrom, hone]
    rfl
  | cons r' log ih =>
    obtain ⟨⟨entry', next⟩, hthis, h⟩ := exists_of_bind h
    obtain ⟨out, hout, h⟩ := exists_of_bind h
    obtain rfl := Except.ok.inj h
    rw [List.foldlM_cons, replayOne_cursor hthis] at hcursor
    rw [List.cons_append, replayFrom, hthis]
    change (replayFrom D Y "task" taskStore.entityDef path next (log ++ [r]) >>= _) = _
    rw [ih hout hcursor]
    rfl

theorem cursorOf_concat (h : cursorOf D log = .ok a) (hpatch : applyPatch D a r.forwardPatch = .ok b) :
    cursorOf D (log ++ [r]) = .ok b := by
  rw [cursorOf] at h
  rw [cursorOf, List.foldlM_append, h]
  change (applyPatch D a r.forwardPatch >>= fun text => .ok text) = .ok b
  rw [hpatch]
  rfl

structure Follows (D : Diffy) (Y : SerdeYaml) (rfc3339 : DateTime → String)
    (item path first : String) (created : UndoEntryId) (log : Changelog) (text : String)
    (w : Whereabouts) : Prop where
  replays : ∃ entries, replayFrom D Y "task" taskStore.entityDef path "" log = .ok entries ∧
    entries.map ChangeEntry.timestamp = log.map ChangelogEntry.timestamp ∧
    Told rfc3339 first w entries
  cursor : cursorOf D log = .ok text
  stored : Stored Y item path text w.column
  line : OneLine w.column
  times : (log.map ChangelogEntry.timestamp).Pairwise (· ≤ ·)
  records : ∀ r ∈ log, r.itemId = item ∧ (r.op = .update ∨ r.op = .create ∧ r.id = created)

theorem Whereabouts.next_column (first : String) (now : Option DateTime) (w : Whereabouts)
    (column : String) : (w.next first now (some column)).column = column := by
  rw [Whereabouts.next]
  split
  · rename_i heq
    exact heq.symm
  · rfl

theorem Follows.concat (hD : PrintsUnified D)
    (h : Follows D Y rfc3339 item path first created log a w) {stamp : Stamp}
    (hnew : Stored Y item path b column) (hline : OneLine column)
    (hclock : ∀ last, log.getLast? = some last → last.timestamp ≤ stamp.now) :
    Follows D Y rfc3339 item path first created (log ++ [record D stamp .update item a b]) b
      (w.next first (some stamp.now) (some column)) := by
  obtain ⟨entries, hentries, htimes, htold⟩ := h.replays
  obtain ⟨old, hold, -, holdColumn⟩ := h.stored
  obtain ⟨new, hparse, hstorable, hcolumn⟩ := hnew
  have hpatch : applyPatch D a (record D stamp .update item a b).forwardPatch = .ok b :=
    applyPatch_forward D a b
  obtain ⟨entry, hone, htime, hchanges⟩ := replayOneStoreEntry_ok
    (r := record D stamp .update item a b) hold hpatch hparse (fun hop => by cases hop)
  have hextract := extract_moved rfc3339 hD hchanges holdColumn hcolumn h.line hline
  have htime : entry.timestamp = stamp.now := htime
  refine ⟨⟨entries ++ [entry], replayFrom_concat hentries h.cursor hone, ?_, ?_⟩,
    cursorOf_concat h.cursor hpatch, ?_, ?_, times_concat h.times hclock,
    Changelog.forall_mem_concat h.records ⟨rfl, .inl rfl⟩⟩
  · rw [List.map_append, List.map_append, htimes]
    exact congrArg (fun t => List.map _ log ++ [t]) htime
  · rw [← htime]
    exact htold.concat hextract
  · rw [Whereabouts.next_column]
    exact ⟨new, hparse, hstorable, hcolumn⟩
  · rw [Whereabouts.next_column]
    exact hline

theorem follows_created {stamp : Stamp} (hnew : Stored Y item path b column)
    (hline : OneLine column) : Follows D Y rfc3339 item path first stamp.id
      [record D stamp .create item "" b] b ⟨column, stamp.now, decide (column ≠ first)⟩ := by
  obtain ⟨new, hparse, hstorable, hcolumn⟩ := hnew
  have hpatch : applyPatch D "" (record D stamp .create item "" b).forwardPatch = .ok b :=
    applyPatch_forward D "" b
  have hempty : parseEntityText Y "" "task" item taskStore.entityDef path =
      .ok (Entity.new "task" item) := rfl
  obtain ⟨entry, hone, htime, hchanges⟩ := replayOneStoreEntry_ok
    (r := record D stamp .create item "" b) hempty hpatch hparse (fun _ => rfl)
  have hextract : extractPositionColumn (entry.toJson rfc3339) = some column :=
    extract_created hchanges rfl hcolumn
  have htime : entry.timestamp = stamp.now := htime
  refine ⟨⟨[entry], ?_, congrArg (fun t => [t]) htime, ?_⟩, ?_, ⟨new, hparse, hstorable, hcolumn⟩,
    hline, List.pairwise_singleton _ _, fun r hr => ?_⟩
  · rw [replayFrom, hone]
    rfl
  · rw [← htime]
    exact told_created hextract
  · have hcursor : cursorOf D ([] ++ [record D stamp .create item "" b]) = .ok b :=
      cursorOf_concat rfl hpatch
    exact hcursor
  · rw [List.mem_singleton.mp hr]
    exact ⟨rfl, .inr ⟨rfl, rfl⟩⟩

theorem Follows.datesAgree {columns : List Fields} {terminal : String} {f : Files}
    (hcolumns : OrderedColumns columns) (hfirst : IsFirst columns first)
    (hterminal : IsTerminal columns terminal)
    (h : Follows D Y rfc3339 item path first created log a w) (hlog : (f.log item).live = some log)
    (hdata : ∀ text, (f.data item).live = some text → columnOf Y item path text = some w.column) :
    DatesAgree D Y item path rfc3339 columns terminal (f, w) := by
  intro text htext
  obtain ⟨entries, hentries, htimes, htold⟩ := h.replays
  have hread := readChangelogFor_of_replay hentries htimes h.times
  have hinjected : injectedChangelog D Y item path rfc3339 f =
      entries.map (ChangeEntry.toJson rfc3339) := by
    rw [injectedChangelog, hlog, Option.map_some, hread]
  have hcompleted := htold.completed terminal
  have hstarted := htold.started
  rw [hinjected, hdata text htext, deriveCompleted, deriveStarted,
    terminalColumnId_eq hcolumns hterminal, firstColumnId_eq hcolumns hfirst, hcompleted]
  refine ⟨?_, ?_, ?_⟩
  · split
    · rename_i heq
      exact iff_of_true (fun hnull => by cases hnull) (congrArg some heq)
    · rename_i hne
      exact iff_of_false (fun hsome => hsome rfl) fun hsome => hne (Option.some.inj hsome)
  · intro heq
    rw [if_pos (Option.some.inj heq)]
    rfl
  · rw [← hstarted]
    cases findStartedTimestamp (entries.map (ChangeEntry.toJson rfc3339)) first with
    | none => exact iff_of_true rfl rfl
    | some t => exact iff_of_false (fun hnull => by cases hnull) fun hnone => by cases hnone

end

end SwissArmyHammer.Kanban
