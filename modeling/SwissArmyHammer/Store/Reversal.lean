import SwissArmyHammer.History.UndoLine
import SwissArmyHammer.Store.Handle

/-! Two file states that differ only in bin files and log records of some entries. Undo
and redo of any other entry cannot tell them apart. -/

namespace SwissArmyHammer.Store

section

variable {α β : Type*} {R Q P : α → α → Prop} {x y z : Option α}

theorem optionRel_none {R : α → β → Prop} {y : Option β} (h : Option.Rel R none y) : y = none := by
  cases h; rfl

theorem optionRel_some {R : α → β → Prop} {a : α} {y : Option β} (h : Option.Rel R (some a) y) :
    ∃ b, y = some b ∧ R a b := by
  cases h with | some hh => exact ⟨_, rfl, hh⟩

theorem optionRel_some_right {R : α → β → Prop} {x : Option α} {b : β}
    (h : Option.Rel R x (some b)) : ∃ a, x = some a ∧ R a b := by
  cases h with | some hh => exact ⟨_, rfl, hh⟩

theorem optionRel_refl (hR : ∀ a, R a a) : ∀ x : Option α, Option.Rel R x x
  | none => .none
  | some a => .some (hR a)

theorem optionRel_trans (hP : ∀ a b c, R a b → Q b c → P a c) (hxy : Option.Rel R x y)
    (hyz : Option.Rel Q y z) : Option.Rel P x z := by
  cases hxy with
  | none => cases hyz; exact .none
  | some hr => cases hyz with | some hq => exact .some (hP _ _ _ hr hq)

end

section

variable {α : Type} {R : α → α → Prop} {F G : Set UndoEntryId} {s s' t u : Slots α}

structure Slots.SameBut (R : α → α → Prop) (F : Set UndoEntryId) (s t : Slots α) : Prop where
  live : Option.Rel R s.live t.live
  bin : ∀ b, ∀ e ∉ F, Option.Rel R (s.bin b)[e]? (t.bin b)[e]?

theorem Slots.SameBut.of_eq (hR : ∀ a, R a a) (hl : Option.Rel R s.live t.live)
    (hb : ∀ b, ∀ e ∉ F, (t.bin b)[e]? = (s.bin b)[e]?) : s.SameBut R F t :=
  ⟨hl, fun b e he => hb b e he ▸ optionRel_refl hR _⟩

theorem Slots.SameBut.moveToBin (h : s.SameBut R F t) (b : Bin) (e : UndoEntryId) :
    Option.Rel (Slots.SameBut R F) (s.moveToBin b e) (t.moveToBin b e) := by
  obtain ⟨hl, hb⟩ := h
  unfold Slots.moveToBin
  cases hs : s.live with
  | none => rw [hs] at hl; rw [optionRel_none hl]; exact .none
  | some x =>
    rw [hs] at hl
    obtain ⟨y, ht, hxy⟩ := optionRel_some hl
    rw [ht]
    refine .some ⟨.none, fun b' e' he' => ?_⟩
    by_cases hbb : b' = b
    · grind
    · simpa [Function.update_of_ne hbb] using hb b' e' he'

theorem Slots.SameBut.moveFromBin (h : s.SameBut R F t) (b : Bin) {e : UndoEntryId}
    (he : e ∉ F) : Option.Rel (Slots.SameBut R F) (s.moveFromBin b e) (t.moveFromBin b e) := by
  obtain ⟨hl, hb⟩ := h
  have hm := hb b e he
  unfold Slots.moveFromBin
  cases hs : (s.bin b)[e]? with
  | none => rw [hs] at hm; rw [optionRel_none hm]; exact .none
  | some x =>
    rw [hs] at hm
    obtain ⟨y, ht, hxy⟩ := optionRel_some hm
    rw [ht]
    refine .some ⟨.some hxy, fun b' e' he' => ?_⟩
    by_cases hbb : b' = b
    · subst b'
      by_cases hee : e = e'
      · subst e'; simp
      · simpa [Std.ExtTreeMap.getElem?_erase, hee] using hb b e' he'
    · simpa [Function.update_of_ne hbb] using hb b' e' he'

theorem Slots.SameBut.of_moveToBin (hR : ∀ a, R a a) {b : Bin} {e : UndoEntryId}
    (hu : t.moveToBin b e = some u) (he : e ∈ F) (hl : s.live = none)
    (hb : ∀ b, ∀ e ∉ F, (t.bin b)[e]? = (s.bin b)[e]?) : s.SameBut R F u := by
  refine .of_eq hR (by rw [hl, Slots.moveToBin_live hu]; exact .none) fun b' e' he' => ?_
  have hne : e' ≠ e := fun hh => he' (hh ▸ he)
  simp [Slots.moveToBin_get hu, hne, hb b' e' he']

theorem Slots.SameBut.of_moveFromBin (hR : ∀ a, R a a) {b : Bin} {e : UndoEntryId}
    (hu : t.moveFromBin b e = some u) (he : e ∈ F) (hl : Option.Rel R s.live (t.bin b)[e]?)
    (hb : ∀ b, ∀ e ∉ F, (t.bin b)[e]? = (s.bin b)[e]?) : s.SameBut R F u := by
  refine .of_eq hR (by rwa [Slots.moveFromBin_live hu]) fun b' e' he' => ?_
  have hne : e' ≠ e := fun hh => he' (hh ▸ he)
  simp [Slots.moveFromBin_get hu, hne, hb b' e' he']

theorem Slots.SameBut.getD {x y : Option (Slots α)} (h : s.SameBut R F t)
    (hxy : Option.Rel (Slots.SameBut R F) x y) : (x.getD s).SameBut R F (y.getD t) := by
  cases hxy with
  | none => exact h
  | some hh => exact hh

end

def LogGrows (F : Set UndoEntryId) (log log' : Changelog) : Prop :=
  ∃ extra, log' = log ++ extra ∧ ∀ r ∈ extra, r.id ∈ F

theorem LogGrows.refl (F : Set UndoEntryId) (log : Changelog) : LogGrows F log log :=
  ⟨[], by simp, by simp⟩

theorem LogGrows.append (log : Changelog) (r : ChangelogEntry) :
    LogGrows {r.id} log (log ++ [r]) :=
  ⟨[r], rfl, by simp⟩

theorem LogGrows.findEntry {F : Set UndoEntryId} {log log' : Changelog} {e : UndoEntryId}
    (h : LogGrows F log log') (he : e ∉ F) : log'.findEntry e = log.findEntry e := by
  obtain ⟨extra, rfl, hx⟩ := h
  exact Changelog.findEntry_append_of_ne fun r hr hre => he (hre ▸ hx r hr)

structure Files.SameBut (F : Set UndoEntryId) (f g : Files) : Prop where
  data : ∀ item, (f.data item).SameBut Eq F (g.data item)
  log : ∀ item, (f.log item).SameBut (LogGrows F) F (g.log item)

section

variable {F G : Set UndoEntryId} {f g k : Files}

theorem Files.SameBut.refl (F : Set UndoEntryId) (f : Files) : f.SameBut F f where
  data _ := ⟨optionRel_refl (fun _ => rfl) _, fun _ _ _ => optionRel_refl (fun _ => rfl) _⟩
  log _ := ⟨optionRel_refl (LogGrows.refl F) _, fun _ _ _ => optionRel_refl (LogGrows.refl F) _⟩

theorem LogGrows.trans (x y z : Changelog) (hxy : LogGrows F x y) (hyz : LogGrows G y z) :
    LogGrows (F ∪ G) x z := by
  obtain ⟨p, rfl, hp⟩ := hxy
  obtain ⟨q, rfl, hq⟩ := hyz
  refine ⟨p ++ q, by simp, fun r hr => ?_⟩
  rcases List.mem_append.mp hr with hr | hr
  · exact Or.inl (hp r hr)
  · exact Or.inr (hq r hr)

theorem Slots.SameBut.trans {α : Type} {R Q P : α → α → Prop} {s t u : Slots α}
    (hP : ∀ a b c, R a b → Q b c → P a c) (hst : s.SameBut R F t) (htu : t.SameBut Q G u) :
    s.SameBut P (F ∪ G) u where
  live := optionRel_trans hP hst.live htu.live
  bin b e he := optionRel_trans hP (hst.bin b e fun h => he (Or.inl h))
    (htu.bin b e fun h => he (Or.inr h))

theorem Files.SameBut.trans (hfg : f.SameBut F g) (hgk : g.SameBut G k) :
    f.SameBut (F ∪ G) k where
  data item := (hfg.data item).trans (fun _ _ _ h h' => h.trans h') (hgk.data item)
  log item := (hfg.log item).trans LogGrows.trans (hgk.log item)

theorem Files.SameBut.setData (h : f.SameBut F g) (item : StoredItemId) {s t : Slots String}
    (hst : s.SameBut Eq F t) : (f.setData item s).SameBut F (g.setData item t) where
  data x := by
    by_cases hx : x = item
    · subst x; simpa [Files.setData] using hst
    · simpa [Files.setData, hx] using h.data x
  log := h.log

theorem Files.SameBut.setLog (h : f.SameBut F g) (item : StoredItemId) {s t : Slots Changelog}
    (hst : s.SameBut (LogGrows F) F t) : (f.setLog item s).SameBut F (g.setLog item t) where
  data := h.data
  log x := by
    by_cases hx : x = item
    · subst x; simpa [Files.setLog] using hst
    · simpa [Files.setLog, hx] using h.log x

theorem Files.SameBut.writeText (h : f.SameBut F g) (item : StoredItemId) (text : String) :
    (f.writeText item text).SameBut F (g.writeText item text) :=
  h.setData item ⟨.some rfl, (h.data item).bin⟩

theorem Files.SameBut.of_item {f : Files} {item : StoredItemId} {s : Slots String}
    {l : Slots Changelog} (hs : (f.data item).SameBut Eq F s)
    (hl : (f.log item).SameBut (LogGrows F) F l) :
    f.SameBut F ((f.setData item s).setLog item l) := by
  simpa [Files.setLog_setData] using
    ((Files.SameBut.refl F f).setLog item hl).setData item hs

theorem Files.SameBut.liveData (h : f.SameBut F g) (item : StoredItemId) :
    (g.data item).live = (f.data item).live := by
  have hl := (h.data item).live
  cases hf : (f.data item).live with
  | none => rw [hf] at hl; exact optionRel_none hl
  | some x =>
    rw [hf] at hl
    obtain ⟨y, hy, rfl⟩ := optionRel_some hl
    exact hy

theorem Files.SameBut.restoreLogs (h : f.SameBut F g) (item : StoredItemId) {e : UndoEntryId}
    (he : e ∉ F) : (restoreLogs f item e).SameBut F (restoreLogs g item e) := by
  have ht := (h.log item).getD ((h.log item).moveFromBin .trash he)
  exact h.setLog item (ht.getD (ht.moveFromBin .archive he))

theorem Files.SameBut.findEntry (h : f.SameBut F g) (item : StoredItemId) {e : UndoEntryId}
    (he : e ∉ F) : Changelog.findEntry ((g.log item).live.getD []) e =
      Changelog.findEntry ((f.log item).live.getD []) e := by
  have hl := (h.log item).live
  cases hf : (f.log item).live with
  | none => rw [hf] at hl; rw [optionRel_none hl]
  | some x =>
    rw [hf] at hl
    obtain ⟨y, hy, hxy⟩ := optionRel_some hl
    simpa [hy] using hxy.findEntry he

end

def Outcome.okFiles {α : Type} (o : Outcome α) : Option Files :=
  match o.result with
  | .ok _ => some o.files
  | .error _ => none

theorem Outcome.files_of_okFiles {α : Type} {o : Outcome α} {g : Files}
    (h : o.okFiles = some g) : o.files = g := by
  unfold okFiles at h
  split at h
  · exact Option.some.inj h
  · simp at h

section

variable {D : Diffy} {S : TrackedStore} {F : Set UndoEntryId} {f g : Files}

theorem runArm_sameBut (h : f.SameBut F g) {r : ChangelogEntry} (hr : r.id ∉ F) (a : Arm) :
    Option.Rel (Files.SameBut F) (runArm D S f r a).okFiles (runArm D S g r a).okFiles := by
  cases a with
  | sendAway b patch =>
    have hd := (h.data r.itemId).moveToBin b r.id
    simp only [runArm]
    cases applyPatch D "" patch with
    | error e => exact .none
    | ok text =>
      cases hs : (f.data r.itemId).moveToBin b r.id with
      | none => rw [hs] at hd; rw [optionRel_none hd]; exact .none
      | some s =>
        rw [hs] at hd
        obtain ⟨t, ht, hst⟩ := optionRel_some hd
        have h' := h.setData r.itemId hst
        have hl := (h'.log r.itemId).moveToBin b r.id
        simp only [ht]
        cases hs' : ((f.setData r.itemId s).log r.itemId).moveToBin b r.id with
        | none => rw [hs'] at hl; rw [optionRel_none hl]; exact .none
        | some l =>
          rw [hs'] at hl
          obtain ⟨m, hm, hlm⟩ := optionRel_some hl
          simp only [hm]
          cases hread : S.read r.itemId text with
          | error e => exact .none
          | ok x => exact .some (h'.setLog r.itemId hlm)
  | bringBack b patch =>
    have hd := (h.data r.itemId).moveFromBin b hr
    simp only [runArm]
    cases hs : (f.data r.itemId).moveFromBin b r.id with
    | none => rw [hs] at hd; rw [optionRel_none hd]; exact .none
    | some s =>
      rw [hs] at hd
      obtain ⟨t, ht, hst⟩ := optionRel_some hd
      simp only [ht]
      cases applyPatch D "" patch with
      | error e => exact .none
      | ok text =>
        simp only [Outcome.okFiles]
        cases S.read r.itemId text with
        | error e => exact .none
        | ok x => exact .some (h.setData r.itemId hst)
  | rewrite patch conflict =>
    simp only [runArm, h.liveData r.itemId]
    cases (f.data r.itemId).live with
    | none => exact .none
    | some current =>
      simp only
      cases applyPatch D current patch with
      | error e => exact .none
      | ok target =>
        simp only [Outcome.okFiles]
        cases S.read r.itemId target with
        | error e => exact .none
        | ok x => exact .some (h.writeText r.itemId target)

theorem replay_sameBut (h : f.SameBut F g) {e : UndoEntryId} (he : e ∉ F)
    (arm : ChangelogEntry → Arm) (item : StoredItemId) :
    Option.Rel (Files.SameBut F) (replay D S arm f e item).okFiles
      (replay D S arm g e item).okFiles := by
  have h' := h.restoreLogs item he
  simp only [replay, h'.findEntry item he]
  cases hf : Changelog.findEntry (((restoreLogs f item e).log item).live.getD []) e with
  | none => exact .none
  | some r => exact runArm_sameBut h' (Changelog.findEntry_id hf ▸ he) _

end
end SwissArmyHammer.Store

/-! When the undo of one entry succeeds, and that its redo then returns exactly to the
files before the undo. -/

namespace SwissArmyHammer.Store

section

variable {f : Files} {item : StoredItemId} {e : UndoEntryId}

theorem Slots.moveFromBin_of_none {α : Type} {s : Slots α} {b : Bin}
    (h : (s.bin b)[e]? = none) : s.moveFromBin b e = none := by
  simp [moveFromBin, h]

theorem restoreLogs_of_none (h : ∀ b, ((f.log item).bin b)[e]? = none) :
    restoreLogs f item e = f := by
  simp [restoreLogs, Slots.restoreFile, Slots.restoreArchivedFile,
    Slots.moveFromBin_of_none (h _)]

theorem restoreLogs_of_bin {b : Bin} {l : Slots Changelog}
    (h : (f.log item).moveFromBin b e = some l)
    (hn : ∀ b' ≠ b, ((f.log item).bin b')[e]? = none) :
    restoreLogs f item e = f.setLog item l := by
  obtain ⟨x, hx, rfl⟩ := Slots.moveFromBin_eq_some.mp h
  cases b with
  | trash =>
    have ha := hn .archive (by decide)
    have hm : Slots.moveFromBin .archive
        ⟨some x, Function.update (f.log item).bin .trash (((f.log item).bin .trash).erase e)⟩ e =
        none := Slots.moveFromBin_of_none (by simpa using ha)
    simp [restoreLogs, Slots.restoreFile, Slots.restoreArchivedFile, h, hm]
  | archive =>
    have ht := hn .trash (by decide)
    simp [restoreLogs, Slots.restoreFile, Slots.restoreArchivedFile,
      Slots.moveFromBin_of_none ht, h]

end

section

variable (D : Diffy) (S : TrackedStore)

def Rebuilds (r : ChangelogEntry) (patch : String) : Prop :=
  ∃ text x, applyPatch D "" patch = .ok text ∧ S.read r.itemId text = .ok x

/-- The operation of record `r` is the last one done on its item: its files stand where
the undo of `r` looks for them, and nothing else lies under its entry id. -/
def Done (f : Files) (r : ChangelogEntry) : Prop :=
  match undoArm r with
  | .sendAway _ patch =>
    (f.data r.itemId).live.isSome ∧
      (∃ log, (f.log r.itemId).live = some log ∧ log.findEntry r.id = some r) ∧
      (∀ b, ((f.data r.itemId).bin b)[r.id]? = none ∧ ((f.log r.itemId).bin b)[r.id]? = none) ∧
      Rebuilds D S r patch
  | .bringBack b patch =>
    (f.data r.itemId).live = none ∧ (f.log r.itemId).live = none ∧
      (((f.data r.itemId).bin b)[r.id]?).isSome ∧
      (∃ log, ((f.log r.itemId).bin b)[r.id]? = some log ∧ log.findEntry r.id = some r) ∧
      (∀ b' ≠ b, ((f.log r.itemId).bin b')[r.id]? = none) ∧ Rebuilds D S r patch
  | .rewrite _ _ =>
    (∃ log, (f.log r.itemId).live = some log ∧ log.findEntry r.id = some r) ∧
      (∀ b, ((f.log r.itemId).bin b)[r.id]? = none) ∧
      ∃ old new x y, (f.data r.itemId).live = some new ∧
        r.forwardPatch = (createPatches D old new).1 ∧
        r.reversePatch = (createPatches D old new).2 ∧
        S.read r.itemId old = .ok x ∧ S.read r.itemId new = .ok y

variable {D S}

theorem Done.of_sameBut {F : Set UndoEntryId} {f g : Files} {r : ChangelogEntry}
    (hd : Done D S f r) (h : f.SameBut F g) (hr : r.id ∉ F) : Done D S g r := by
  have hlive := h.liveData r.itemId
  have hfind : ∀ log, (f.log r.itemId).live = some log → log.findEntry r.id = some r →
      ∃ log', (g.log r.itemId).live = some log' ∧ log'.findEntry r.id = some r := by
    intro log hl hf
    have hg := (h.log r.itemId).live
    rw [hl] at hg
    obtain ⟨log', hl', hgrow⟩ := optionRel_some hg
    exact ⟨log', hl', by rw [hgrow.findEntry hr, hf]⟩
  have hnone : ∀ b, ((f.log r.itemId).bin b)[r.id]? = none →
      ((g.log r.itemId).bin b)[r.id]? = none := by
    intro b hb
    exact optionRel_none (hb ▸ (h.log r.itemId).bin b r.id hr)
  unfold Done at hd ⊢
  cases ha : undoArm r with
  | sendAway b patch =>
    rw [ha] at hd
    obtain ⟨hs, ⟨log, hl, hf⟩, hn, hp⟩ := hd
    refine ⟨by rwa [hlive], hfind log hl hf, fun b => ⟨?_, hnone b (hn b).2⟩, hp⟩
    exact optionRel_none ((hn b).1 ▸ (h.data r.itemId).bin b r.id hr)
  | bringBack b patch =>
    rw [ha] at hd
    obtain ⟨hs, hl, hb, ⟨log, hlog, hf⟩, hn, hp⟩ := hd
    have hll := (h.log r.itemId).live
    have hbb := (h.data r.itemId).bin b r.id hr
    have hlb := (h.log r.itemId).bin b r.id hr
    rw [hl] at hll
    rw [hlog] at hlb
    obtain ⟨log', hlog', hgrow⟩ := optionRel_some hlb
    refine ⟨by rw [hlive, hs], optionRel_none hll, ?_,
      ⟨log', hlog', by rw [hgrow.findEntry hr, hf]⟩, fun b' hb' => hnone b' (hn b' hb'), hp⟩
    obtain ⟨text, ht⟩ := Option.isSome_iff_exists.mp hb
    rw [ht] at hbb
    obtain ⟨text', ht', -⟩ := optionRel_some hbb
    simp [ht']
  | rewrite patch conflict =>
    grind

theorem redoArm_of_sendAway {r : ChangelogEntry} {b : Bin} {patch : String}
    (h : undoArm r = .sendAway b patch) : redoArm r = .bringBack b patch := by
  cases ho : r.op <;> simp_all [undoArm, redoArm]

theorem redoArm_of_bringBack {r : ChangelogEntry} {b : Bin} {patch : String}
    (h : undoArm r = .bringBack b patch) : redoArm r = .sendAway b patch := by
  cases ho : r.op <;> simp_all [undoArm, redoArm]

theorem replay_of_find {f g : Files} {item : StoredItemId} {e : UndoEntryId} {log : Changelog}
    {r : ChangelogEntry} (hg : restoreLogs f item e = g) (hl : (g.log item).live = some log)
    (hf : log.findEntry e = some r) (arm : ChangelogEntry → Arm) :
    replay D S arm f e item = runArm D S g r (arm r) := by
  simp [replay, hg, hl, hf]

theorem runArm_sendAway {f : Files} {r : ChangelogEntry} {b : Bin} {patch text : String}
    {x : S.Item} {s : Slots String} {l : Slots Changelog}
    (hp : applyPatch D "" patch = .ok text) (hx : S.read r.itemId text = .ok x)
    (hs : (f.data r.itemId).moveToBin b r.id = some s)
    (hl : (f.log r.itemId).moveToBin b r.id = some l) :
    (runArm D S f r (.sendAway b patch)).okFiles =
      some ((f.setData r.itemId s).setLog r.itemId l) := by
  simp [runArm, hp, hs, hl, Outcome.okFiles, hx]

theorem runArm_bringBack {f : Files} {r : ChangelogEntry} {b : Bin} {patch text : String}
    {x : S.Item} {s : Slots String}
    (hp : applyPatch D "" patch = .ok text) (hx : S.read r.itemId text = .ok x)
    (hs : (f.data r.itemId).moveFromBin b r.id = some s) :
    (runArm D S f r (.bringBack b patch)).okFiles = some (f.setData r.itemId s) := by
  simp [runArm, hp, hs, Outcome.okFiles, hx]

theorem runArm_rewrite {f : Files} {r : ChangelogEntry} {patch conflict c target : String}
    {x : S.Item} (hc : (f.data r.itemId).live = some c)
    (hp : applyPatch D c patch = .ok target) (hx : S.read r.itemId target = .ok x) :
    (runArm D S f r (.rewrite patch conflict)).okFiles = some (f.writeText r.itemId target) := by
  simp [runArm, hc, hp, Outcome.okFiles, hx]

theorem undo_of_sendAway {f : Files} {r : ChangelogEntry} {b : Bin} {patch : String}
    (hd : Done D S f r) (ha : undoArm r = .sendAway b patch) :
    ∃ s l, (f.data r.itemId).moveToBin b r.id = some s ∧
      (f.log r.itemId).moveToBin b r.id = some l ∧
      (undo D S f r.id r.itemId).okFiles = some ((f.setData r.itemId s).setLog r.itemId l) := by
  rw [Done, ha] at hd
  obtain ⟨hs, ⟨log, hl, hf⟩, hn, text, x, hp, hx⟩ := hd
  obtain ⟨content, hc⟩ := Option.isSome_iff_exists.mp hs
  obtain ⟨s, hs⟩ := Slots.exists_moveToBin hc b r.id
  obtain ⟨l, hl'⟩ := Slots.exists_moveToBin hl b r.id
  refine ⟨s, l, hs, hl', ?_⟩
  rw [undo, replay_of_find (restoreLogs_of_none fun b => (hn b).2) hl hf, ha]
  exact runArm_sendAway hp hx hs hl'

theorem undo_of_bringBack {f : Files} {r : ChangelogEntry} {b : Bin} {patch : String}
    (hd : Done D S f r) (ha : undoArm r = .bringBack b patch) :
    ∃ s l, (f.data r.itemId).moveFromBin b r.id = some s ∧
      (f.log r.itemId).moveFromBin b r.id = some l ∧
      (undo D S f r.id r.itemId).okFiles = some ((f.setData r.itemId s).setLog r.itemId l) := by
  rw [Done, ha] at hd
  obtain ⟨-, -, hb, ⟨log, hlog, hf⟩, hn, text, x, hp, hx⟩ := hd
  obtain ⟨content, hc⟩ := Option.isSome_iff_exists.mp hb
  obtain ⟨s, hs⟩ := Slots.exists_moveFromBin hc
  obtain ⟨l, hl⟩ := Slots.exists_moveFromBin hlog
  have hlive : l.live = some log := by rw [Slots.moveFromBin_live hl, hlog]
  refine ⟨s, l, hs, hl, ?_⟩
  rw [undo, replay_of_find (restoreLogs_of_bin hl hn) (by simpa using hlive) hf, ha]
  exact runArm_bringBack hp hx (by simpa using hs)

theorem undoArm_rewrite {r : ChangelogEntry} {patch conflict : String}
    (h : undoArm r = .rewrite patch conflict) : patch = r.reversePatch ∧
      redoArm r = .rewrite r.forwardPatch
        "forward patch failed to apply — file was concurrently modified" := by
  cases ho : r.op <;> simp_all [undoArm, redoArm]

theorem undo_of_rewrite {f : Files} {r : ChangelogEntry} {patch conflict old new : String}
    {x : S.Item} (hd : Done D S f r) (ha : undoArm r = .rewrite patch conflict)
    (hnew : (f.data r.itemId).live = some new)
    (hrp : r.reversePatch = (createPatches D old new).2) (hx : S.read r.itemId old = .ok x) :
    (undo D S f r.id r.itemId).okFiles = some (f.writeText r.itemId old) := by
  rw [Done, ha] at hd
  obtain ⟨⟨log, hl, hf⟩, hn, -⟩ := hd
  obtain ⟨rfl, -⟩ := undoArm_rewrite ha
  rw [undo, replay_of_find (restoreLogs_of_none hn) hl hf, ha]
  exact runArm_rewrite hnew (hrp ▸ applyPatch_reverse D old new) hx

theorem redo_of_undo {f g : Files} {r : ChangelogEntry} (hd : Done D S f r)
    (hu : (undo D S f r.id r.itemId).okFiles = some g) :
    (redo D S g r.id r.itemId).okFiles = some f := by
  cases ha : undoArm r with
  | sendAway b patch =>
    obtain ⟨s, l, hs, hl, hg⟩ := undo_of_sendAway hd ha
    obtain rfl := Option.some.inj (hu.symm.trans hg)
    rw [Done, ha] at hd
    obtain ⟨-, ⟨log, hlog, hf⟩, hn, text, x, hp, hx⟩ := hd
    have hrest : restoreLogs ((f.setData r.itemId s).setLog r.itemId l) r.itemId r.id =
        f.setData r.itemId s := by
      have hother : ∀ b' ≠ b, (l.bin b')[r.id]? = none := fun b' hb' => by
        simp [Slots.moveToBin_get hl, hb', (hn b').2]
      rw [restoreLogs_of_bin (b := b) (l := f.log r.itemId)
          (by simpa using Slots.moveFromBin_moveToBin (hn b).2 hl) (by simpa using hother),
        Files.setLog_setLog, Files.setLog_setData, Files.setLog_self]
    rw [redo, replay_of_find hrest (by simpa using hlog) hf, redoArm_of_sendAway ha,
      runArm_bringBack hp hx (s := f.data r.itemId)
        (by simpa using Slots.moveFromBin_moveToBin (hn b).1 hs)]
    simp
  | bringBack b patch =>
    obtain ⟨s, l, hs, hl, hg⟩ := undo_of_bringBack hd ha
    obtain rfl := Option.some.inj (hu.symm.trans hg)
    rw [Done, ha] at hd
    obtain ⟨hlive, hlog, -, ⟨log, hlogb, hf⟩, hn, text, x, hp, hx⟩ := hd
    have hlive' : l.live = some log := by rw [Slots.moveFromBin_live hl, hlogb]
    have hgone : ∀ b', (l.bin b')[r.id]? = none := by
      intro b'
      rw [Slots.moveFromBin_get hl]
      by_cases hb' : b' = b
      · simp [hb']
      · simp [hb', hn b' hb']
    rw [redo, replay_of_find (restoreLogs_of_none (by simpa using hgone))
        (by simpa using hlive') hf, redoArm_of_bringBack ha,
      runArm_sendAway hp hx (s := f.data r.itemId) (l := f.log r.itemId)
        (by simpa using Slots.moveToBin_moveFromBin hlive hs)
        (by simpa using Slots.moveToBin_moveFromBin hlog hl)]
    rw [Files.setLog_setData, Files.setLog_setLog, Files.setLog_setData, Files.setLog_self,
      Files.setData_setData, Files.setData_self]
  | rewrite patch conflict =>
    have hd' := hd
    rw [Done, ha] at hd
    obtain ⟨⟨log, hl, hf⟩, hn, old, new, x, y, hnew, hfp, hrp, hx, hy⟩ := hd
    obtain rfl := Option.some.inj (hu.symm.trans (undo_of_rewrite hd' ha hnew hrp hx))
    obtain ⟨-, hre⟩ := undoArm_rewrite ha
    rw [redo, replay_of_find (restoreLogs_of_none (by simpa [Files.writeText] using hn))
      (by simpa [Files.writeText] using hl) hf, hre,
      runArm_rewrite (c := old) (by simp [Files.writeText])
        (hfp ▸ applyPatch_forward D old new) hy]
    have hs : (⟨some new, (f.data r.itemId).bin⟩ : Slots String) = f.data r.itemId := by
      rw [← hnew]
    simp [Files.writeText, hs]

def undoSystem (D : Diffy) (S : TrackedStore) :
    History.UndoSystem Files (UndoEntryId × StoredItemId) UndoEntryId where
  key := Prod.fst
  undo e f := (undo D S f e.1 e.2).okFiles
  redo e f := (redo D S f e.1 e.2).okFiles
  done e f := ∃ r, r.id = e.1 ∧ r.itemId = e.2 ∧ Done D S f r
  sameBut := Files.SameBut
  sameBut_refl := Files.SameBut.refl ∅
  sameBut_trans := Files.SameBut.trans
  done_sameBut := by
    rintro F f g ⟨e, item⟩ h he ⟨r, rfl, rfl, hd⟩
    exact ⟨r, rfl, rfl, hd.of_sameBut h he⟩
  undo_sameBut := by
    rintro F f g ⟨e, item⟩ f' h he - hu
    exact optionRel_some (hu ▸ replay_sameBut h he undoArm item)
  redo_undo := by
    rintro f ⟨e, item⟩ f' ⟨r, rfl, rfl, hd⟩ hu
    exact redo_of_undo hd hu

end
end SwissArmyHammer.Store
