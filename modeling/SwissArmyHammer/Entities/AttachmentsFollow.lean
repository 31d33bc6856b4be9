import SwissArmyHammer.Entities.Attachments

/-! Attachments follow their entity where nothing that is still named is moved to the trash. -/

namespace SwissArmyHammer.Entities

open Store

def AttachmentField.Plain (field : AttachmentField) (e : Entity) : Prop :=
  match e.get field.name, field.multiple with
  | none, _ => True
  | some (.array elems), true => ∃ names, Json.array elems = .ofStrings names
  | some .null, true => True
  | some _, true => False
  | some (.object _), false => False
  | some _, false => True

namespace Setting

variable (W : Setting)

/-- Every stored name of a live entity names a file with the bytes that were copied in; and where
an entity of stored names is written back, only validation can refuse it, and its attachment fields
stay as they are. -/
def AttachmentsFollow (dir : Directory) : Prop :=
  (∀ id e, W.readEntity dir id = some e → ∀ name ∈ allNames W.fields e,
    ∃ bytes, dir.attachments name = some bytes ∧ dir.minted name = some bytes) ∧
  ∀ id e source result dir', W.readEntity dir id = some e →
    (∀ field ∈ W.fields, field.Plain e ∧ (W.prepared e).get field.name = e.get field.name) →
    W.validateForWrite source e dir = (result, dir') → dir' = dir ∧
      match result with
      | .ok new => ∀ field ∈ W.fields, new.get field.name = e.get field.name
      | .error err => ∃ message, err = .validationFailed message

def Unshared (dir : Directory) (id : String) (names : List String) : Prop :=
  ∀ other e, other ≠ id → W.readEntity dir other = some e →
    ∀ name ∈ names, name ∉ allNames W.fields e

def leavingNames (old e : Entity) : List String :=
  W.fields.flatMap fun field => (field.names old).filter fun name => name ∉ field.gives e

def Here (dir : Directory) (id text : String) : Prop :=
  ∀ e, W.readText id text = .ok e → ∀ name ∈ allNames W.fields e, dir.attachments name ≠ none

def ReplayMeets (dir : Directory) (arm : ChangelogEntry → Arm) (entry : UndoEntryId)
    (item : StoredItemId) : Prop :=
  ∀ r text, (((restoreLogs dir.files item entry).log item).live.getD []).findEntry entry = some r →
    (arm r).write W.diffy (restoreLogs dir.files item entry) r = some (some text) →
    W.Here dir r.itemId text

/-- A write that passes validation takes no name from another live entity and moves none from one
field to another, and none leaves where its store fails; a delete whose store fails has none; and a
version that is brought back names files that are still there. -/
def Meets (dir : Directory) : Operation → Prop
  | .write e source _ storeFails => ∀ new dir' old,
    W.validateForWrite source e dir = (.ok new, dir') → W.readEntity dir e.id = some old →
    W.Unshared dir e.id (W.leavingNames old (W.prepared e)) ∧
      (storeFails = true ∨ (∀ text, W.store.serialize W.yaml new ≠ .ok text) →
        W.leavingNames old (W.prepared e) = []) ∧
      ∀ name ∈ W.leavingNames old (W.prepared e), ∀ field ∈ W.fields,
        name ∉ field.gives (W.prepared e)
  | .delete id _ storeFails => ∀ old, W.readEntity dir id = some old →
    W.Unshared dir id (allNames W.fields old) ∧ (storeFails = true → allNames W.fields old = [])
  | .stage .archive _ _ => True
  | .stage .unarchive id _ => ∀ entry text,
    (dir.files.data id).findArchivedEntryId = some entry →
      ((dir.files.data id).bin .archive)[entry]? = some text → W.Here dir id text
  | .undo entry item => W.ReplayMeets dir undoArm entry item
  | .redo entry item => W.ReplayMeets dir redoArm entry item

def Found (dir : Directory) : Prop :=
  ∀ id e, W.readEntity dir id = some e → ∀ name ∈ allNames W.fields e, dir.attachments name ≠ none

end Setting

section

variable {D : Diffy} {S : TrackedStore} {f g : Files} {stamp : Stamp} {text : String}

structure LiveOnly (f g : Files) (item : StoredItemId) (P : Option String → Prop) : Prop where
  others : ∀ x, x ≠ item → (g.data x).live = (f.data x).live
  item : (g.data item).live = (f.data item).live ∨ P (g.data item).live

theorem LiveOnly.refl (f : Files) (item : StoredItemId) (P : Option String → Prop) :
    LiveOnly f f item P := ⟨fun _ _ => rfl, .inl rfl⟩

theorem LiveOnly.setData {item : StoredItemId} {s : Slots String} {P : Option String → Prop}
    (hdata : g.data = (f.setData item s).data) (hP : P s.live) : LiveOnly f g item P := by
  constructor
  · intro x hx
    rw [hdata, Files.setData_data_of_ne _ _ _ hx]
  · right
    rw [hdata, Files.setData_data]
    exact hP

theorem write_live (stamp : Stamp) {x : S.Item} (h : S.serialize x = .ok text) :
    (((write D S f stamp x).files.data (S.display (S.itemId x))).live = some text) ∧
      ∀ item, item ≠ S.display (S.itemId x) →
        ((write D S f stamp x).files.data item).live = (f.data item).live := by
  by_cases hlive : (f.data (S.display (S.itemId x))).live = some text
  · simp [write, h, hlive]
  · obtain ⟨-, hfiles⟩ := write_ok (D := D) stamp h hlive
    rw [hfiles]
    refine ⟨?_, fun item hitem => ?_⟩
    · simp
    · simp [Files.setData_data_of_ne _ _ _ hitem]

theorem moveAway_live (stamp : Stamp) (b : Bin) (op : ChangeOp) (id : S.ItemId) :
    LiveOnly f (moveAway D S b op f stamp id).files (S.display id) (· = none) ∧
      ((moveAway D S b op f stamp id).files.data (S.display id)).live = none := by
  cases hlive : (f.data (S.display id)).live with
  | none =>
    have hfiles : (moveAway D S b op f stamp id).files = f := by simp [moveAway, hlive, fail]
    rw [hfiles]
    exact ⟨.refl .., hlive⟩
  | some text =>
    obtain ⟨s, hs⟩ := Slots.exists_moveToBin hlive b stamp.id
    have hdata : (moveAway D S b op f stamp id).files.data = (f.setData (S.display id) s).data := by
      simp only [moveAway, hlive, Files.appendLog, Files.setLog_data, hs]
      split <;> rfl
    refine ⟨.setData hdata (Slots.moveToBin_live hs), ?_⟩
    rw [hdata, Files.setData_data]
    exact Slots.moveToBin_live hs

theorem unarchiveLatest_live (id : S.ItemId) :
    LiveOnly f (unarchiveLatest D S f stamp id).files (S.display id) fun live =>
      ∃ entry, (f.data (S.display id)).findArchivedEntryId = some entry ∧
        live = ((f.data (S.display id)).bin .archive)[entry]? := by
  cases hentry : (f.data (S.display id)).findArchivedEntryId with
  | none =>
    have hfiles : (unarchiveLatest D S f stamp id).files = f := by
      simp [unarchiveLatest, hentry, fail]
    rw [hfiles]
    exact .refl ..
  | some entry =>
    obtain ⟨text, htext⟩ := Slots.findArchivedEntryId_mem hentry
    obtain ⟨s, hs⟩ := Slots.exists_moveFromBin htext
    have hlive := Slots.moveFromBin_live hs
    have hfiles : (unarchiveLatest D S f stamp id).files =
        (unarchive D S f stamp id entry).files := by
      simp only [unarchiveLatest, hentry]
      split
      · rfl
      · split <;> rfl
    rw [hfiles]
    cases hlog : (f.log (S.display id)).restoreArchivedFile entry with
    | none =>
      have hsame : (unarchive D S f stamp id entry).files = f := by simp [unarchive, hlog, fail]
      rw [hsame]
      exact .refl ..
    | some l =>
      refine .setData (s := s) ?_ ⟨entry, rfl, hlive⟩
      rw [htext] at hlive
      have hback : (f.data (S.display id)).restoreArchivedFile entry = some s := hs
      simp [unarchive, hlog, hback, hlive, Files.appendLog, ← Files.setLog_setData]

theorem replay_live (arm : ChangelogEntry → Arm) (entry : UndoEntryId) (item : StoredItemId) :
    (replay D S arm f entry item).files.data = f.data ∨ ∃ r,
      (((restoreLogs f item entry).log item).live.getD []).findEntry entry = some r ∧
        LiveOnly f (replay D S arm f entry item).files r.itemId fun live =>
          live = none ∨ (arm r).write D (restoreLogs f item entry) r = some live := by
  have hdata : (restoreLogs f item entry).data = f.data := rfl
  cases hfind : (((restoreLogs f item entry).log item).live.getD []).findEntry entry with
  | none =>
    simp [replay, hfind, fail, hdata]
  | some r =>
    right
    refine ⟨r, rfl, ?_⟩
    have hfiles : (replay D S arm f entry item).files =
        (runArm D S (restoreLogs f item entry) r (arm r)).files := by simp [replay, hfind]
    have hleaves := runArm_leaves (D := D) (S := S) (restoreLogs f item entry) r (arm r)
    rw [← hfiles] at hleaves
    generalize (replay D S arm f entry item).files = g at hleaves ⊢
    generalize arm r = a at hleaves ⊢
    cases hleaves with
    | unchanged => exact ⟨fun _ _ => rfl, .inl rfl⟩
    | halfSent hwrite hs => exact .setData rfl (.inl (Slots.moveToBin_live hs))
    | sent hwrite hs => exact .setData rfl (.inl (Slots.moveToBin_live hs))
    | @brought b patch s hs =>
      refine .setData (s := s) rfl (.inr ?_)
      obtain ⟨x, hx, rfl⟩ := Slots.moveFromBin_eq_some.mp hs
      simp [Arm.write, hx]
    | rewritten hcurrent happly =>
      refine .setData (s := { (restoreLogs f item entry).data r.itemId with live := _ }) rfl
        (.inr ?_)
      simp [Arm.write, hcurrent, happly, Except.toOption]

end

section

variable {W : Setting} {dir dir' : Directory} {e old new : Entity} {id : String}
  {source : String → Option Bytes} {field : AttachmentField}

theorem mem_allNames {fields : List AttachmentField} {name : String} :
    name ∈ allNames fields e ↔ ∃ field ∈ fields, name ∈ field.names e := by
  simp [allNames]

theorem mem_allNames_congr {name : String}
    (h : ∀ field ∈ W.fields, field.names e = field.names old) :
    name ∈ allNames W.fields e ↔ name ∈ allNames W.fields old := by
  constructor
  · intro hname
    obtain ⟨field, hfield, hmem⟩ := mem_allNames.mp hname
    exact mem_allNames.mpr ⟨field, hfield, h field hfield ▸ hmem⟩
  · intro hname
    obtain ⟨field, hfield, hmem⟩ := mem_allNames.mp hname
    exact mem_allNames.mpr ⟨field, hfield, (h field hfield).symm ▸ hmem⟩

theorem readEntity_congr (h : (dir'.files.data id).live = (dir.files.data id).live) :
    W.readEntity dir' id = W.readEntity dir id := by
  rw [Setting.readEntity, Setting.readEntity, h]

theorem readEntity_of_live {live : Option String} (h : (dir.files.data id).live = live) :
    W.readEntity dir id = live.bind fun text => (W.readText id text).toOption := by
  rw [Setting.readEntity, h]

theorem Grows.readEntity (h : Grows dir dir') (id : String) :
    W.readEntity dir' id = W.readEntity dir id :=
  readEntity_congr (by rw [h.files])

theorem Grows.found (h : Grows dir dir') (hfound : W.Found dir) : W.Found dir' := by
  intro id e hread name hname
  rw [h.readEntity] at hread
  exact h.kept name (hfound id e hread name hname)

theorem Setting.Held.trashNames (h : W.Held dir) (names : List String) :
    W.Held (dir.trashNames names) where
  minted name bytes hname := by
    simp only [Directory.trashNames] at hname
    split at hname
    · cases hname
    · exact h.minted name bytes hname
  separators name hname := by
    simp only [Directory.trashNames] at hname
    split at hname
    · exact absurd rfl hname
    · exact h.separators name hname
  drawn := h.drawn

theorem Setting.Held.files (h : W.Held dir) (files : Store.Files) :
    W.Held { dir with files := files } :=
  ⟨h.minted, h.separators, h.drawn⟩

theorem trashNames_attachments {names : List String} {name : String} (h : name ∉ names) :
    (dir.trashNames names).attachments name = dir.attachments name := if_neg h

theorem trashNames_nil : dir.trashNames [] = dir := by
  simp [Directory.trashNames]

theorem prepared_id (e : Entity) : (W.prepared e).id = e.id := by
  have hfold : ∀ (defaults : List (String × Json)) (e : Entity),
      (defaults.foldl (fun e d => if (e.get d.1).isSome then e else e.set d.1 d.2) e).id = e.id := by
    intro defaults
    induction defaults with
    | nil => exact fun e => rfl
    | cons d defaults ih =>
      intro e
      rw [List.foldl_cons, ih]
      split
      · rfl
      · rfl
  exact hfold _ _

theorem validateForWrite_spec (hlawful : W.Lawful) (hheld : W.Held dir)
    {result : Except AttachmentError Entity}
    (h : W.validateForWrite source e dir = (result, dir')) :
    W.Held dir' ∧ Grows dir dir' ∧ ∀ new, result = .ok new → new.id = e.id ∧
      ∀ field ∈ W.fields, Processed field (W.prepared e) new dir dir' := by
  unfold Setting.validateForWrite at h
  cases hprocess : W.processAttachments source W.fields (W.prepared e) dir with
  | mk processed dir₁ =>
    obtain ⟨hheld', hgrows, hspec⟩ :=
      processAttachments_spec hlawful hlawful.fields hheld hprocess
    rw [hprocess] at h
    cases processed with
    | error err =>
      obtain ⟨rfl, rfl⟩ := Prod.mk.inj h
      exact ⟨hheld', hgrows, fun _ h => by cases h⟩
    | ok e' =>
      obtain ⟨hid, hprocessed, -⟩ := hspec e' rfl
      dsimp only at h
      cases hvalidate : W.validate e'.fields with
      | error message =>
        grind
      | ok fields =>
        rw [hvalidate] at h
        obtain ⟨rfl, rfl⟩ := Prod.mk.inj h
        refine ⟨hheld', hgrows, fun new hnew => ?_⟩
        obtain rfl := Except.ok.inj hnew
        refine ⟨hid.trans (prepared_id e), fun field hfield => ?_⟩
        have hnames : field.names { e' with fields := fields } = field.names e' :=
          names_congr (hlawful.validated _ _ hvalidate field hfield)
        rw [Processed, hnames]
        exact hprocessed field hfield

theorem removedNames_subset
    (hprocessed : ∀ field ∈ W.fields, Processed field (W.prepared e) new dir dir')
    (hthere : ∀ name ∈ allNames W.fields old, dir.attachments name ≠ none) :
    removedNames W.fields old new ⊆ W.leavingNames old (W.prepared e) := by
  intro name hname
  obtain ⟨field, hfield, hmem⟩ := List.mem_flatMap.mp hname
  obtain ⟨hold, hnew⟩ := List.mem_filter.mp hmem
  refine List.mem_flatMap.mpr ⟨field, hfield, List.mem_filter.mpr ⟨hold, ?_⟩⟩
  apply decide_eq_true
  intro hgiven
  have hne := hthere name (mem_allNames.mpr ⟨field, hfield, hold⟩)
  exact of_decide_eq_true hnew ((hprocessed field hfield).2 name hgiven hne)

theorem new_names_kept
    (hprocessed : ∀ field ∈ W.fields, Processed field (W.prepared e) new dir dir')
    (hheld : W.Held dir) {names : List String}
    (hnames : names ⊆ W.leavingNames old (W.prepared e))
    (hthere : ∀ name ∈ allNames W.fields old, dir.attachments name ≠ none)
    (hmeets : ∀ name ∈ W.leavingNames old (W.prepared e), ∀ field ∈ W.fields,
      name ∉ field.gives (W.prepared e)) :
    ∀ name ∈ allNames W.fields new, (dir'.trashNames names).attachments name ≠ none := by
  intro name hname
  obtain ⟨field, hfield, hmem⟩ := mem_allNames.mp hname
  obtain ⟨hfile, hgiven⟩ := (hprocessed field hfield).1 name hmem
  have hkeep : name ∉ names := by
    intro hin
    rcases hgiven with hgiven | hfresh
    · exact hmeets name (hnames hin) field hfield hgiven
    · obtain ⟨field', hfield', hold⟩ := List.mem_flatMap.mp (hnames hin)
      have hne := hthere name (mem_allNames.mpr ⟨field', hfield', (List.mem_filter.mp hold).1⟩)
      obtain ⟨bytes, hbytes⟩ := Option.ne_none_iff_exists'.mp hne
      rw [hheld.minted name bytes hbytes] at hfresh
      cases hfresh
  rw [trashNames_attachments hkeep]
  exact hfile

theorem kept_of_unshared {names : List String} (hfound : W.Found dir)
    (hunshared : W.Unshared dir id names) {other : String} (hother : other ≠ id)
    (hread : W.readEntity dir other = some e) :
    ∀ name ∈ allNames W.fields e, (dir.trashNames names).attachments name ≠ none := by
  intro name hname
  have hkeep : name ∉ names := fun hin => hunshared other e hother hread name hin hname
  rw [trashNames_attachments hkeep]
  exact hfound other e hread name hname

theorem found_store_write (hlawful : W.Lawful) {names : List String} {stamp : Stamp}
    {storeFails : Bool} (hfound : W.Found dir) (hunshared : W.Unshared dir new.id names)
    (hkeeps : storeFails = true ∨ (∀ text, W.store.serialize W.yaml new ≠ .ok text) → names = [])
    (hnew : ∀ name ∈ allNames W.fields new, (dir.trashNames names).attachments name ≠ none) :
    W.Found (if storeFails then dir.trashNames names
      else { dir.trashNames names with
        files := (Store.write W.diffy W.tracked (dir.trashNames names).files stamp new).files }) := by
  have hsame : names = [] → W.Found (dir.trashNames names) := by
    rintro rfl
    rw [trashNames_nil]
    exact hfound
  cases storeFails with
  | true => exact hsame (hkeeps (.inl rfl))
  | false =>
    cases hserialize : W.store.serialize W.yaml new with
    | error err =>
      have hfiles : (Store.write W.diffy W.tracked (dir.trashNames names).files stamp new).files =
          (dir.trashNames names).files := by
        have htracked : W.tracked.serialize new = .error err := hserialize
        simp [Store.write, htracked, fail]
      rw [hfiles]
      exact hsame (hkeeps (.inr fun text htext => by rw [hserialize] at htext; cases htext))
    | ok text =>
      obtain ⟨hlive, hothers⟩ := write_live (D := W.diffy) (S := W.tracked)
        (f := (dir.trashNames names).files) stamp (x := new) hserialize
      intro id x hread
      by_cases hid : id = new.id
      · subst hid
        obtain ⟨e', hreads, hsameNames⟩ := hlawful.reads new text hserialize
        rw [readEntity_of_live hlive, Option.bind_some, hreads] at hread
        obtain rfl := Option.some.inj hread
        intro name hname
        exact hnew name ((mem_allNames_congr hsameNames).mp hname)
      · have hsameRead : W.readEntity dir id = some x := by
          rw [← hread]
          exact (readEntity_congr (hothers id hid)).symm
        exact kept_of_unshared hfound hunshared hid hsameRead

theorem found_writeInternal (hlawful : W.Lawful) (hheld : W.Held dir) (hfound : W.Found dir)
    {stamp : Stamp} {storeFails : Bool} (hmeets : W.Meets dir (.write e source stamp storeFails)) :
    W.Held (W.writeInternal e source stamp storeFails dir) ∧
      W.Found (W.writeInternal e source stamp storeFails dir) := by
  unfold Setting.writeInternal
  cases hvalidate : W.validateForWrite source e dir with
  | mk result dir₁ =>
    obtain ⟨hheld₁, hgrows, hspec⟩ := validateForWrite_spec hlawful hheld hvalidate
    have hfound₁ : W.Found dir₁ := hgrows.found hfound
    cases result with
    | error err => exact ⟨hheld₁, hfound₁⟩
    | ok new =>
      obtain ⟨hid, hprocessed⟩ := hspec new rfl
      have hstore : ∀ names, W.Unshared dir₁ new.id names →
          (storeFails = true ∨ (∀ text, W.store.serialize W.yaml new ≠ .ok text) → names = []) →
          (∀ name ∈ allNames W.fields new, (dir₁.trashNames names).attachments name ≠ none) →
          W.Held (if storeFails then dir₁.trashNames names else { dir₁.trashNames names with
            files := (Store.write W.diffy W.tracked (dir₁.trashNames names).files stamp new).files })
          ∧ W.Found (if storeFails then dir₁.trashNames names else { dir₁.trashNames names with
            files :=
              (Store.write W.diffy W.tracked (dir₁.trashNames names).files stamp new).files }) := by
        intro names hunshared hkeeps hnew
        refine ⟨?_, found_store_write hlawful hfound₁ hunshared hkeeps hnew⟩
        split
        · exact hheld₁.trashNames names
        · exact (hheld₁.trashNames names).files _
      dsimp only
      cases hold : W.readEntity dir₁ new.id with
      | none =>
        have hnil := hstore [] (fun _ _ _ _ _ h => by cases h) (fun _ => rfl) fun name hname => by
          obtain ⟨field, hfield, hmem⟩ := mem_allNames.mp hname
          exact ((hprocessed field hfield).1 name hmem).1
        exact hnil
      | some old =>
        have hread : W.readEntity dir e.id = some old := by
          rw [← hold, hgrows.readEntity, hid]
        obtain ⟨hunshared, hkeeps, hmoves⟩ := hmeets new dir₁ old hvalidate hread
        have hthere := hfound e.id old hread
        have hsub := removedNames_subset hprocessed hthere
        apply hstore
        · intro other x hother hx name hname
          rw [hgrows.readEntity] at hx
          exact hunshared other x (hid ▸ hother) hx name (hsub hname)
        · intro hfails
          have hnil := hkeeps hfails
          rw [hnil] at hsub
          exact List.eq_nil_of_subset_nil hsub
        · exact new_names_kept hprocessed hheld hsub hthere hmoves

theorem found_of_liveOnly {files : Store.Files} {item : StoredItemId} {P : Option String → Prop}
    (hfound : W.Found dir) (h : LiveOnly dir.files files item P)
    (hP : ∀ text, P (some text) → W.Here dir item text) : W.Found { dir with files := files } := by
  intro id x hread
  by_cases hid : id = item
  · subst hid
    rcases h.item with hsame | hlive
    · exact hfound id x ((readEntity_congr hsame).symm.trans hread)
    · obtain ⟨text, htext, hparse⟩ := Option.bind_eq_some_iff.mp hread
      rw [htext] at hlive
      refine hP text hlive x ?_
      cases hresult : W.readText id text with
      | error err =>
        rw [hresult] at hparse
        cases hparse
      | ok y =>
        rw [hresult] at hparse
        rw [Option.some.inj hparse]
  · exact hfound id x ((readEntity_congr (h.others id hid)).symm.trans hread)

theorem found_replay (hfound : W.Found dir) {arm : ChangelogEntry → Arm} {entry : UndoEntryId}
    {item : StoredItemId} (hmeets : W.ReplayMeets dir arm entry item) :
    W.Found { dir with files := (replay W.diffy W.tracked arm dir.files entry item).files } := by
  rcases replay_live (D := W.diffy) (S := W.tracked) (f := dir.files) arm entry item with
    hsame | ⟨r, hfind, hlive⟩
  · intro id x hread
    refine hfound id x (Eq.trans ?_ hread)
    exact (readEntity_congr (by rw [hsame])).symm
  · apply found_of_liveOnly hfound hlive
    intro text htext
    rcases htext with hnone | hwrite
    · cases hnone
    · exact hmeets r text hfind hwrite

theorem found_deleteInternal (hfound : W.Found dir) {stamp : Stamp} {storeFails : Bool}
    (hmeets : W.Meets dir (.delete id stamp storeFails)) :
    W.Found (W.deleteInternal id stamp storeFails dir) := by
  have hstore : ∀ names, W.Unshared dir id names → (storeFails = true → names = []) →
      W.Found (if storeFails then dir.trashNames names else { dir.trashNames names with
        files := (Store.delete W.diffy W.tracked (dir.trashNames names).files stamp id).files }) := by
    intro names hunshared hkeeps
    cases storeFails with
    | true =>
      rw [hkeeps rfl]
      exact hfound
    | false =>
      obtain ⟨hlive, hgone⟩ := moveAway_live (D := W.diffy) (S := W.tracked)
        (f := (dir.trashNames names).files) stamp .trash .delete id
      intro other x hread
      by_cases hother : other = id
      · subst hother
        rw [readEntity_of_live hgone] at hread
        cases hread
      · have hsame : W.readEntity dir other = some x := by
          rw [← hread]
          exact (readEntity_congr (hlive.others other hother)).symm
        exact kept_of_unshared hfound hunshared hother hsame
  unfold Setting.deleteInternal
  cases hread : W.readEntity dir id with
  | none =>
    have hnil := hstore [] (fun _ _ _ _ _ h => by cases h) (fun _ => rfl)
    exact hnil
  | some old =>
    obtain ⟨hunshared, hkeeps⟩ := hmeets old hread
    exact hstore _ hunshared hkeeps

theorem held_apply (hlawful : W.Lawful) (hheld : W.Held dir) (hfound : W.Found dir)
    {op : Operation} (hmeets : W.Meets dir op) :
    W.Held (W.apply dir op) ∧ W.Found (W.apply dir op) := by
  cases op with
  | write e source stamp storeFails => exact found_writeInternal hlawful hheld hfound hmeets
  | delete id stamp storeFails =>
    refine ⟨?_, found_deleteInternal hfound hmeets⟩
    simp only [Setting.apply, Setting.deleteInternal]
    cases W.readEntity dir id with
    | none =>
      split
      · exact hheld
      · exact hheld.files _
    | some old =>
      split
      · exact hheld.trashNames _
      · exact (hheld.trashNames _).files _
  | stage op id stamp =>
    cases op with
    | archive =>
      refine ⟨hheld.files _, ?_⟩
      apply found_of_liveOnly hfound (moveAway_live (S := W.tracked) stamp .archive .archive id).1
      intro text htext
      cases htext
    | unarchive =>
      refine ⟨hheld.files _, ?_⟩
      apply found_of_liveOnly hfound (unarchiveLatest_live (S := W.tracked) id)
      rintro text ⟨entry, hentry, htext⟩
      exact hmeets entry text hentry htext.symm
  | undo entry item => exact ⟨hheld.files _, found_replay hfound hmeets⟩
  | redo entry item => exact ⟨hheld.files _, found_replay hfound hmeets⟩

theorem Setting.Held.stored (h : W.Held dir) {name : String} (hname : dir.attachments name ≠ none) :
    W.resolveAttachmentValue source name field dir = (.ok name, dir) :=
  if_pos ⟨h.separators name hname, Option.isSome_iff_ne_none.mpr hname⟩

theorem resolveAll_of_there (hheld : W.Held dir) {names : List String}
    (hthere : ∀ name ∈ names, dir.attachments name ≠ none) :
    W.resolveAll source field (names.map .string) dir = (.ok names, dir) := by
  induction names with
  | nil => rfl
  | cons name names ih =>
    obtain ⟨hname, hnames⟩ := List.forall_mem_cons.mp hthere
    rw [List.map_cons, Setting.resolveAll, Setting.resolveSingleAttachment, hheld.stored hname]
    dsimp only
    rw [ih hnames]
    rfl

theorem set_of_get {value : Json} {key : String} (h : e.get key = some value) :
    e.set key value = e := by
  have hfields : e.fields.insert key value = e.fields := by
    apply Std.ExtTreeMap.ext_getElem?
    intro k
    rw [Std.ExtTreeMap.getElem?_insert]
    split
    · rename_i hk
      rw [← compare_eq_iff_eq.mp hk]
      exact h.symm
    · rfl
  rw [Entity.set, hfields]

theorem processAttachmentField_of_there (hheld : W.Held dir) (hplain : field.Plain e)
    (hthere : ∀ name ∈ field.names e, dir.attachments name ≠ none) :
    W.processAttachmentField source field e dir = (.ok e, dir) := by
  unfold Setting.processAttachmentField
  unfold AttachmentField.Plain at hplain
  rw [AttachmentField.names] at hthere
  cases hvalue : e.get field.name with
  | none => rfl
  | some value =>
    rw [hvalue] at hplain hthere
    cases hmultiple : field.multiple with
    | true =>
      rw [hmultiple] at hplain hthere
      cases value with
      | array elems =>
        obtain ⟨names, hnames⟩ := hplain
        rw [hnames] at hthere hvalue ⊢
        have hall : ∀ name ∈ names, dir.attachments name ≠ none := by
          intro name hname
          apply hthere
          simpa [extractAttachmentFilenames, Json.ofStrings, Json.asStr, List.mem_filterMap]
            using hname
        have hset := set_of_get hvalue
        rw [Json.ofStrings] at hset ⊢
        dsimp only
        rw [if_pos rfl, resolveAll_of_there hheld hall]
        dsimp only
        rw [Json.ofStrings, hset]
      | null => rfl
      | _ => exact absurd hplain not_false
    | false =>
      rw [hmultiple] at hplain hthere
      dsimp only
      rw [if_neg Bool.false_ne_true]
      cases value with
      | string s =>
        have hs : dir.attachments s ≠ none := hthere s (List.mem_singleton_self s)
        rw [Setting.resolveSingleAttachment, hheld.stored hs]
        dsimp only
        rw [set_of_get hvalue]
      | object fields => exact absurd hplain not_false
      | _ => rfl

theorem processAttachments_of_there (hheld : W.Held dir) {fields : List AttachmentField}
    (hfields : ∀ field ∈ fields, field.Plain e ∧
      ∀ name ∈ field.names e, dir.attachments name ≠ none) :
    W.processAttachments source fields e dir = (.ok e, dir) := by
  induction fields with
  | nil => rfl
  | cons field fields ih =>
    obtain ⟨⟨hplain, hthere⟩, hrest⟩ := List.forall_mem_cons.mp hfields
    rw [Setting.processAttachments, processAttachmentField_of_there hheld hplain hthere]
    exact ih hrest

theorem plain_congr (h : e.get field.name = old.get field.name) :
    field.Plain e ↔ field.Plain old := by
  rw [AttachmentField.Plain, AttachmentField.Plain, h]

theorem Setting.Held.attachmentsFollow (hlawful : W.Lawful) (hheld : W.Held dir)
    (hfound : W.Found dir) : W.AttachmentsFollow dir := by
  constructor
  · intro id e hread name hname
    obtain ⟨bytes, hbytes⟩ := Option.ne_none_iff_exists'.mp (hfound id e hread name hname)
    exact ⟨bytes, hbytes, hheld.minted name bytes hbytes⟩
  · intro id e source result dir' hread hplain h
    have hprocess : W.processAttachments source W.fields (W.prepared e) dir =
        (.ok (W.prepared e), dir) := by
      apply processAttachments_of_there hheld
      intro field hfield
      obtain ⟨hfieldPlain, hget⟩ := hplain field hfield
      refine ⟨(plain_congr hget).mpr hfieldPlain, fun name hname => ?_⟩
      rw [names_congr hget] at hname
      exact hfound id e hread name (mem_allNames.mpr ⟨field, hfield, hname⟩)
    rw [Setting.validateForWrite, hprocess] at h
    dsimp only at h
    cases hvalidate : W.validate (W.prepared e).fields with
    | error message =>
      grind
    | ok fields =>
      rw [hvalidate] at h
      obtain ⟨rfl, rfl⟩ := Prod.mk.inj h
      refine ⟨rfl, fun field hfield => ?_⟩
      rw [← (hplain field hfield).2]
      exact hlawful.validated _ _ hvalidate field hfield

theorem Setting.Held.empty : W.Held .empty where
  minted _ _ h := by cases h
  separators _ h := absurd rfl h
  drawn _ h := absurd rfl h

theorem found_empty : W.Found .empty := by
  intro id e hread
  cases hread

/-- Where every operation moves to the trash only what no live entity names afterwards, and brings
back only what names files that are there, attachments follow their entity. -/
theorem attachments_follow (W : Setting) (hlawful : W.Lawful)
    (steps : List (Operation × Directory)) (h : Trace W.Step .empty steps)
    (hmeets : Trace.Every (fun dir op _ => W.Meets dir op) .empty steps) :
    Trace.Every (fun _ _ dir' => W.AttachmentsFollow dir') .empty steps := by
  refine Trace.every_of_invariant (I := fun dir => W.Held dir ∧ W.Found dir) ?_ h
    ⟨.empty, found_empty⟩ hmeets
  rintro dir op dir' ⟨hheld, hfound⟩ hop rfl
  obtain ⟨hheld', hfound'⟩ := held_apply hlawful hheld hfound hop
  exact ⟨⟨hheld', hfound'⟩, hheld'.attachmentsFollow hlawful hfound'⟩

end

def notes : Setting where
  yaml := .table [([("files", .ofStrings ["0-a.png"])], "files:\n- 0-a.png\n")]
  diffy := .verbatim
  store := ⟨"note", ⟨none⟩, []⟩
  fields := [⟨"files", 100, true⟩]
  defaults := []
  validate := .ok
  ulid i := String.ofList (List.replicate (i + 1) '0')

theorem replicate_dash_inj {i j : Nat} {a b : List Char}
    (h : List.replicate i '0' ++ '-' :: a = List.replicate j '0' ++ '-' :: b) : i = j := by
  induction i generalizing j with
  | zero =>
    cases j with
    | zero => rfl
    | succ j =>
      have hhead := (List.cons.inj h).1
      exact absurd hhead (by decide)
  | succ i ih =>
    cases j with
    | zero =>
      have hhead := (List.cons.inj h).1
      exact absurd hhead (by decide)
    | succ j => rw [ih (List.cons.inj h).2]

theorem notes_lawful : notes.Lawful where
  fields := by decide
  ulids i j a b h := by
    have hchars := congrArg String.toList h
    simp only [storedName, notes, String.toList_append, String.toList_ofList,
      List.append_assoc] at hchars
    have hsucc := replicate_dash_inj hchars
    omega
  separators i := by
    simp only [notes, hasSeparator, String.toList_ofList, List.any_eq_false]
    intro c hc
    rw [List.eq_of_mem_replicate hc]
    decide
  validated fields fields' h field _ := by rw [Except.ok.inj h]
  reads e text h := by
    have hfilter : notes.store.written e = e.fields := by
      apply Std.ExtTreeMap.ext_getElem?
      intro k
      cases hk : e.fields[k]? <;>
        simp [EntityTypeStore.written, notes, EntityTypeStore.isComputed, hk]
    have hrow : e.fields.toList = [("files", Json.ofStrings ["0-a.png"])] ∧
        text = "files:\n- 0-a.png\n" := by
      by_cases hrow : e.fields.toList = [("files", Json.ofStrings ["0-a.png"])]
      · simp only [EntityTypeStore.serialize, hfilter] at h
        simp [notes, SerdeYaml.table, hrow] at h
        exact ⟨hrow, h.symm⟩
      · simp only [EntityTypeStore.serialize, hfilter] at h
        simp [notes, SerdeYaml.table, Ne.symm hrow] at h
    obtain ⟨hlist, rfl⟩ := hrow
    refine ⟨_, rfl, fun field hfield => names_congr ?_⟩
    have hflat : Flat e.fields := by
      intro k fields hk
      have hmem := Std.ExtTreeMap.mem_toList_iff_getElem?_eq_some.mpr hk
      rw [hlist, List.mem_singleton] at hmem
      cases (Prod.mk.inj hmem).2
    have hfields : (buildEntityFromYaml "note" e.id
        [("files", Json.ofStrings ["0-a.png"])]).fields = e.fields :=
      buildEntityFromYaml_fields hflat (List.Perm.of_eq hlist.symm)
    exact congrArg (fun fields : Fields => fields[field.name]?) hfields

theorem attachments_follow_archived :
    let e := (Entity.new "note" "n").set "files" (.ofStrings ["a.png"])
    let kept := (Entity.new "note" "n").set "files" (.ofStrings ["0-a.png"])
    let source : String → Option Bytes := fun path => if path = "a.png" then some [1, 2] else none
    let write := Operation.write e source ⟨1, 10⟩ false
    let d₁ := notes.apply .empty write
    let d₂ := notes.apply d₁ (.stage .archive "n" ⟨2, 20⟩)
    let d₃ := notes.apply d₂ (.stage .unarchive "n" ⟨3, 30⟩)
    let d₄ := notes.apply d₃ (.write kept source ⟨4, 40⟩ false)
    Trace.Every (fun _ _ dir' => notes.AttachmentsFollow dir') .empty [(write, d₁),
      (.stage .archive "n" ⟨2, 20⟩, d₂), (.stage .unarchive "n" ⟨3, 30⟩, d₃),
      (.write kept source ⟨4, 40⟩ false, d₄)] := by
  intro e kept source write d₁ d₂ d₃ d₄
  apply attachments_follow notes notes_lawful _
    (.cons rfl (.cons rfl (.cons rfl (.cons rfl (.nil _)))))
  refine ⟨?_, trivial, ?_, ?_, trivial⟩
  · intro new dir' old _ hold
    cases hold
  · intro entry text hentry htext x hx name hname
    have hbin : ((d₂.files.data "n").findArchivedEntryId.bind fun entry =>
        ((d₂.files.data "n").bin .archive)[entry]?) = some "files:\n- 0-a.png\n" := by
      decide +kernel
    have hall : (notes.readText "n" "files:\n- 0-a.png\n").toOption.all (fun x =>
        (allNames notes.fields x).all fun name => (d₂.attachments name).isSome) = true := by
      decide +kernel
    rw [hentry, Option.bind_some, htext] at hbin
    rw [← Option.some.inj hbin, hx] at hall
    exact Option.isSome_iff_ne_none.mp (List.all_eq_true.mp hall name hname)
  · intro new dir' old _ hold
    have hnone : (notes.readEntity d₃ "n").map
        (fun old => notes.leavingNames old (notes.prepared kept)) = some [] := by
      decide +kernel
    have hread : notes.readEntity d₃ "n" = some old := hold
    rw [hread] at hnone
    have hnil : notes.leavingNames old (notes.prepared kept) = [] := Option.some.inj hnone
    rw [hnil]
    refine ⟨fun _ _ _ _ name hname => ?_, fun _ => rfl, fun name hname => ?_⟩
    · cases hname
    · cases hname

theorem undone_delete_lacks_attachment : ¬ ∀ W : Setting, W.Lawful →
    ∀ steps : List (Operation × Directory), Trace W.Step .empty steps →
      Trace.Every (fun _ _ dir' => W.AttachmentsFollow dir') .empty steps := by
  intro hall
  let e := (Entity.new "note" "n").set "files" (.ofStrings ["a.png"])
  let source : String → Option Bytes := fun path => if path = "a.png" then some [1, 2] else none
  let d₁ := notes.apply .empty (.write e source ⟨1, 10⟩ false)
  let d₂ := notes.apply d₁ (.delete "n" ⟨2, 20⟩ false)
  let d₃ := notes.apply d₂ (.undo 2 "n")
  have htrace : Trace notes.Step .empty [(.write e source ⟨1, 10⟩ false, d₁),
      (.delete "n" ⟨2, 20⟩ false, d₂), (.undo 2 "n", d₃)] :=
    .cons rfl (.cons rfl (.cons rfl (.nil _)))
  have hfollow := (hall notes notes_lawful _ htrace).2.2.1.1
  have hread : (notes.readEntity d₃ "n").map (allNames notes.fields) = some ["0-a.png"] := by
    decide +kernel
  have hgone : d₃.attachments "0-a.png" = none := by decide +kernel
  obtain ⟨x, hx, hnames⟩ := Option.map_eq_some_iff.mp hread
  obtain ⟨bytes, hbytes, -⟩ := hfollow "n" x hx "0-a.png" (hnames ▸ List.mem_singleton_self _)
  rw [hgone] at hbytes
  cases hbytes

end SwissArmyHammer.Entities
