import SwissArmyHammer.Common.Traces
import SwissArmyHammer.Entities.FieldHistory
import SwissArmyHammer.Kanban.NextTask

/-! The dates of a task that are derived from its changelog. -/

namespace SwissArmyHammer.Kanban

open Entities Store

def changelogTimestamp (entry : Json) : Option String :=
  (entry.getKey "timestamp").bind Json.asStr

def extractTextDiffNewValue (patch : String) : Option String :=
  ((Text.lines patch.toList).find? fun line =>
    ['+'].isPrefixOf line && not (['+', '+', '+'].isPrefixOf line)).map
      fun line => String.ofList (Text.trimEnd (line.drop 1))

def fieldChangeNewValue (fc : Json) : Option String :=
  ((fc.getKey "kind").bind Json.asStr).bind fun kind =>
    if kind = "set" then (fc.getKey "value").bind Json.asStr
    else if kind = "changed" then (fc.getKey "new_value").bind Json.asStr
    else if kind = "text_diff" then
      ((fc.getKey "forward_patch").bind Json.asStr).bind extractTextDiffNewValue
    else none

def isPositionColumnChange (change : Json) : Bool :=
  match change.asArray with
  | some [name, _] => decide (name.asStr = some "position_column")
  | _ => false

def extractPositionColumn (entry : Json) : Option String :=
  ((entry.getKey "changes").bind Json.asArray).bind fun changes =>
    (changes.filter isPositionColumnChange).findSome? fun change =>
      (change.asArray.bind fun pair => pair[1]?).bind fieldChangeNewValue

def columnOrder? (column : Fields) : Option Nat := column["order"]?.bind Json.asU64

def columnId? (column : Fields) : Option String := column["id"]?.bind Json.asStr

def pickColumnId (columns : List Fields) (orderKey : Fields → Nat) (fallback : String) : String :=
  ((maxByKey orderKey columns).bind columnId?).getD fallback

def firstColumnId (columns : List Fields) : String :=
  pickColumnId columns (fun c => 2 ^ 64 - 1 - (columnOrder? c).getD (2 ^ 64 - 1)) "todo"

def terminalColumnId (columns : List Fields) : String :=
  pickColumnId columns (fun c => (columnOrder? c).getD 0) "done"

def timestampValue (ts : Option String) : Json := ts.elim .null .string

def findStartedTimestamp (changelog : List Json) (firstColumnId : String) : Option String :=
  (changelog.find? fun entry => (extractPositionColumn entry).any (· ≠ firstColumnId)).bind
    changelogTimestamp

def findCompletedTimestamp (changelog : List Json) (terminalId : String) : Option String :=
  (changelog.reverse.findSome? fun entry =>
    (extractPositionColumn entry).map fun col => (entry, col)).bind fun lastMove =>
      if lastMove.2 = terminalId then changelogTimestamp lastMove.1 else none

def deriveStarted (columns : List Fields) (changelog : List Json) : Json :=
  timestampValue (findStartedTimestamp changelog (firstColumnId columns))

def deriveCompleted (columns : List Fields) (changelog : List Json) : Json :=
  timestampValue (findCompletedTimestamp changelog (terminalColumnId columns))

def taskStore : EntityTypeStore where
  entityTypeName := "task"
  entityDef := ⟨some "body"⟩
  computedFieldNames := ["tags", "virtual_tags", "filter_tags", "created", "updated", "started",
    "completed", "status_date", "progress"]

section

variable (D : Diffy) (Y : SerdeYaml) (item path : String)

/-- The `_changelog` that is injected: empty where the file cannot be read. -/
def injectedChangelog (rfc3339 : DateTime → String) (f : Files) : List Json :=
  match readChangelogFor D Y "task" taskStore.entityDef path
      ((f.log item).live.map (List.map LogLine.store)) with
  | .ok entries => entries.map (ChangeEntry.toJson rfc3339)
  | .error _ => []

def columnOf (text : String) : Option String :=
  match parseEntityText Y text "task" item taskStore.entityDef path with
  | .ok e => e.getStr "position_column"
  | .error _ => none

def Storable (m : Fields) : Prop :=
  (∃ body, m["body"]? = some (.string body)) ∧
    ∀ k v, m[k]? = some v → k ≠ "body" → ∀ fields, v ≠ .object fields

structure FieldEdit where
  change : Fields → Fields
  keeps : ∀ m, (change m)["position_column"]? = m["position_column"]?
  storable : ∀ m, Storable m → Storable (change m)

inductive TaskStep
  | move (stamp : Stamp) (column ordinal : String)
  | edit (stamp : Stamp) (fields : FieldEdit)
  | undo (entry : UndoEntryId)
  | redo (entry : UndoEntryId)

def rewriteTask (stamp : Stamp) (change : Fields → Fields) (f : Files) : Files :=
  match (f.data item).live with
  | none => f
  | some text =>
    match parseEntityText Y text "task" item taskStore.entityDef path with
    | .error _ => f
    | .ok e =>
      (Store.write D (taskStore.tracked Y) f stamp ⟨"task", item, change e.fields⟩).files

def putInColumn (column ordinal : String) (m : Fields) : Fields :=
  (m.insert "position_column" (.string column)).insert "position_ordinal" (.string ordinal)

def TaskStep.exec (f : Files) : TaskStep → Files
  | .move stamp column ordinal => rewriteTask D Y item path stamp (putInColumn column ordinal) f
  | .edit stamp fields => rewriteTask D Y item path stamp fields.change f
  | .undo entry => (Store.undo D (taskStore.tracked Y) f entry item).files
  | .redo entry => (Store.redo D (taskStore.tracked Y) f entry item).files

def addTaskFile (stamp : Stamp) (m : Fields) : Files :=
  (Store.write D (taskStore.tracked Y) Files.empty stamp ⟨"task", item, m⟩).files

end

end SwissArmyHammer.Kanban

/-! The derived dates follow the column of a task while the changelog ends in its text, or undo
and redo leave the column alone. -/

namespace SwissArmyHammer.Kanban

open Entities Store

/-- Where a task was last put and when, and whether it has been outside the first column. -/
structure Whereabouts where
  column : String
  since : DateTime
  outside : Bool

def Whereabouts.next (first : String) (now : Option DateTime) (w : Whereabouts) :
    Option String → Whereabouts
  | some column =>
    if column = w.column then w
    else ⟨column, now.getD w.since, w.outside || decide (column ≠ first)⟩
  | none => w

def TaskStep.now : TaskStep → Option DateTime
  | .move stamp _ _ => some stamp.now
  | .edit stamp _ => some stamp.now
  | _ => none

/-- A column id that is written in a patch as one line, which reads back as itself. -/
def OneLine (column : String) : Prop :=
  column ≠ "" ∧ '\n' ∉ column.toList ∧ Text.trimEnd column.toList = column.toList ∧
    ¬ ['+', '+'] <+: column.toList

def originalLine : List Char :=
  ['-', '-', '-', ' ', 'o', 'r', 'i', 'g', 'i', 'n', 'a', 'l']

def modifiedLine : List Char :=
  ['+', '+', '+', ' ', 'm', 'o', 'd', 'i', 'f', 'i', 'e', 'd']

def hunkLine : List Char :=
  ['@', '@', ' ', '-', '1', ' ', '+', '1', ' ', '@', '@']

def noNewline : List Char :=
  ['\\', ' ', 'N', 'o', ' ', 'n', 'e', 'w', 'l', 'i', 'n', 'e', ' ', 'a', 't', ' ', 'e', 'n',
    'd', ' ', 'o', 'f', ' ', 'f', 'i', 'l', 'e']

def unified (old new : String) : List Char :=
  originalLine ++ '\n' :: (modifiedLine ++ '\n' :: (hunkLine ++ '\n' :: ('-' :: old.toList ++
    '\n' :: (noNewline ++ '\n' :: ('+' :: new.toList ++ '\n' :: (noNewline ++ '\n' :: []))))))

def PrintsUnified (D : Diffy) : Prop := ∀ old new, OneLine old → OneLine new → old ≠ new →
  (D.toString (D.createPatch old new)).toList = unified old new

def ReadsBackYaml (Y : SerdeYaml) : Prop := ∀ (m : Fields) yaml, Y.toString m.toList = .ok yaml →
  Y.RoundTrips m yaml

section

variable (D : Diffy) (Y : SerdeYaml) (item path : String)

def liveColumn (f : Files) : Option String :=
  (f.data item).live.bind (columnOf Y item path)

def TaskStep.Step (first : String) (s : Files × Whereabouts) (op : TaskStep)
    (s' : Files × Whereabouts) : Prop :=
  s'.1 = op.exec D Y item path s.1 ∧ s'.2 = s.2.next first op.now (liveColumn Y item path s'.1)

def cursorOf (log : Changelog) : Except StoreError String :=
  log.foldlM (fun text r => applyPatch D text r.forwardPatch) ""

def InStep (f : Files) : Prop := ∀ text log, (f.data item).live = some text →
  (f.log item).live = some log → cursorOf D log = .ok text

def ColumnKept (arm : ChangelogEntry → Arm) (f : Files) (entry : UndoEntryId) : Prop :=
  ∀ r, (((restoreLogs f item entry).log item).live.getD []).findEntry entry = some r →
    ∀ patch conflict, arm r = .rewrite patch conflict →
      ∀ current, (f.data item).live = some current →
        ∀ target, applyPatch D current patch = .ok target →
          columnOf Y item path target = columnOf Y item path current

def TaskStep.Meets (f : Files) : TaskStep → Prop
  | .move _ column _ => OneLine column ∧ InStep D item f
  | .edit _ _ => InStep D item f
  | .undo entry => ColumnKept D Y item path undoArm f entry
  | .redo entry => ColumnKept D Y item path redoArm f entry

def TaskStep.ClockKept (f : Files) : TaskStep → Prop
  | .move stamp _ _ => Entities.ClockKept item f stamp
  | .edit stamp _ => Entities.ClockKept item f stamp
  | _ => True

/-- While the task is live, the derived dates say where it is, since when, and whether it was
ever outside the first column. -/
def DatesAgree (rfc3339 : DateTime → String) (columns : List Fields) (terminal : String)
    (s : Files × Whereabouts) : Prop :=
  ∀ text, (s.1.data item).live = some text →
    (deriveCompleted columns (injectedChangelog D Y item path rfc3339 s.1) ≠ .null ↔
      columnOf Y item path text = some terminal) ∧
    (columnOf Y item path text = some terminal →
      deriveCompleted columns (injectedChangelog D Y item path rfc3339 s.1) =
        .string (rfc3339 s.2.since)) ∧
    (deriveStarted columns (injectedChangelog D Y item path rfc3339 s.1) = .null ↔
      s.2.outside = false)

end

section

variable {columns : List Fields} {id : String} {order : Nat}

structure OrderedColumns (columns : List Fields) : Prop where
  order : ∀ c ∈ columns, ∃ n, columnOrder? c = some n
  distinct : columns.Pairwise fun a b => columnOrder? a ≠ columnOrder? b

def IsFirst (columns : List Fields) (id : String) : Prop :=
  ∃ c ∈ columns, columnId? c = some id ∧
    ∀ other ∈ columns, (columnOrder? c).getD 0 ≤ (columnOrder? other).getD 0

def IsTerminal (columns : List Fields) (id : String) : Prop :=
  ∃ c ∈ columns, columnId? c = some id ∧
    ∀ other ∈ columns, (columnOrder? other).getD 0 ≤ (columnOrder? c).getD 0

theorem OrderedColumns.eq_of_order (h : OrderedColumns columns) {a b : Fields} (ha : a ∈ columns)
    (hb : b ∈ columns) (heq : columnOrder? a = columnOrder? b) : a = b := by
  by_contra hne
  have hsymm : Std.Symm fun a b : Fields => columnOrder? a ≠ columnOrder? b :=
    ⟨fun _ _ hdiffers => Ne.symm hdiffers⟩
  exact h.distinct.forall ha hb hne heq

theorem asU64_lt {v : Json} {n : Nat} (h : v.asU64 = some n) : n < 2 ^ 64 := by
  unfold Json.asU64 at h
  split at h
  · split at h
    · dsimp only at h
      split at h
      · rwa [← Option.some.inj h]
      · cases h
    · cases h
  · cases h

theorem pickColumnId_eq (h : OrderedColumns columns) {c : Fields} (hc : c ∈ columns)
    (hid : columnId? c = some id) {key : Fields → Nat} {fallback : String}
    (hkey : ∀ other ∈ columns, key c ≤ key other → columnOrder? other = columnOrder? c) :
    pickColumnId columns key fallback = id := by
  obtain ⟨x, hx, hmax, hle⟩ := maxByKey_spec key columns (List.ne_nil_of_mem hc)
  have hsame : x = c := h.eq_of_order hx hc (hkey x hx (hle c hc))
  rw [pickColumnId, hmax, hsame, Option.bind_some, hid]
  rfl

theorem terminalColumnId_eq (h : OrderedColumns columns) (hid : IsTerminal columns id) :
    terminalColumnId columns = id := by
  obtain ⟨c, hc, hid, hle⟩ := hid
  apply pickColumnId_eq h hc hid
  intro other hother hkey
  obtain ⟨n, hn⟩ := h.order c hc
  obtain ⟨k, hk⟩ := h.order other hother
  have hother := hle other hother
  rw [hn, hk, Option.getD_some, Option.getD_some] at hkey hother
  rw [hn, hk]
  congr 1
  omega

theorem firstColumnId_eq (h : OrderedColumns columns) (hid : IsFirst columns id) :
    firstColumnId columns = id := by
  obtain ⟨c, hc, hid, hle⟩ := hid
  apply pickColumnId_eq h hc hid
  intro other hother hkey
  obtain ⟨n, hn⟩ := h.order c hc
  obtain ⟨k, hk⟩ := h.order other hother
  have hother := hle other hother
  obtain ⟨v, -, hv⟩ := Option.bind_eq_some_iff.mp hk
  have hlt := asU64_lt hv
  rw [hn, hk, Option.getD_some, Option.getD_some] at hkey hother
  rw [hn, hk]
  congr 1
  omega

end

section

variable {column old new : String}

theorem OneLine.getLast? (h : OneLine column) : column.toList.getLast? ≠ some '\r' := by
  obtain ⟨-, -, htrim, -⟩ := h
  intro hlast
  obtain ⟨l, hl⟩ := List.getLast?_eq_some_iff.mp hlast
  rw [hl, Text.trimEnd, List.rdropWhile_concat_pos _ _ _ (by decide)] at htrim
  have hlength := congrArg List.length htrim
  have hle := (List.rdropWhile_prefix Text.isWhitespace (l := l)).length_le
  rw [List.length_append, List.length_singleton] at hlength
  omega

theorem lines_cons {l : List Char} (h : '\n' ∉ l) (hcr : l.getLast? ≠ some '\r')
    (s : List Char) : Text.lines (l ++ '\n' :: s) = l :: Text.lines s := by
  rw [Text.lines, Text.splitInclusive_line h, List.map_cons, Text.stripEol_concat_eq.mpr hcr]
  rfl

theorem OneLine.lines_cons (h : OneLine column) {mark : Char} (hmark : mark ≠ '\n')
    (s : List Char) : Text.lines (mark :: column.toList ++ '\n' :: s) =
      (mark :: column.toList) :: Text.lines s := by
  apply Kanban.lines_cons
  · intro hmem
    rcases List.mem_cons.mp hmem with heq | hmem
    · exact hmark heq.symm
    · exact h.2.1 hmem
  · have hne : column.toList ≠ [] := fun heq => h.1 (String.toList_eq_nil_iff.mp heq)
    rw [List.getLast?_cons_of_ne_nil hne]
    exact h.getLast?

theorem lines_unified (hold : OneLine old) (hnew : OneLine new) :
    Text.lines (unified old new) = [originalLine, modifiedLine, hunkLine, '-' :: old.toList,
      noNewline, '+' :: new.toList, noNewline] := by
  have hnone : ∀ s, Text.lines (noNewline ++ '\n' :: s) = noNewline :: Text.lines s :=
    lines_cons (by decide) (by decide)
  rw [unified, lines_cons (by decide) (by decide), lines_cons (by decide) (by decide),
    lines_cons (by decide) (by decide), hold.lines_cons (by decide), hnone,
    hnew.lines_cons (by decide)]
  rfl

theorem extract_unified (hold : OneLine old) (hnew : OneLine new) {patch : String}
    (h : patch.toList = unified old new) : extractTextDiffNewValue patch = some new := by
  have hplus : ['+', '+'].isPrefixOf new.toList = false := by
    apply Bool.eq_false_of_not_eq_true
    intro hstarts
    exact hnew.2.2.2 (List.isPrefixOf_iff_prefix.mp hstarts)
  have hthree : ['+', '+', '+'].isPrefixOf ('+' :: new.toList) = false := hplus
  rw [extractTextDiffNewValue, h, lines_unified hold hnew,
    List.find?_cons_of_neg (by decide), List.find?_cons_of_neg (by decide),
    List.find?_cons_of_neg (by decide), List.find?_cons_of_neg (by simp [List.isPrefixOf]),
    List.find?_cons_of_neg (by decide), List.find?_cons_of_pos (by rw [hthree]; rfl),
    Option.map_some, List.drop_one, List.tail_cons, hnew.2.2.1, String.ofList_toList]

end

end SwissArmyHammer.Kanban
