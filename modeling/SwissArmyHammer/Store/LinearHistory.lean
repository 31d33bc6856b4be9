import SwissArmyHammer.Store.Records
import SwissArmyHammer.Store.Session

/-! The last steps of a run can be undone and redone exactly when none of them restores an
archived item over a live one, or one that another of them archived. -/

namespace SwissArmyHammer.Store
namespace Session

variable {D : Diffy} {S : TrackedStore} {n m : UndoEntryId} {s t : Session S} {p : Step S}
  {pre post steps : List (Step S)}

structure Traced (n : UndoEntryId) (s : Session S) : Prop extends Settled n s where
  filed : s.files.Filed
  recordBelow : ∀ x, (s.files.log x).Every fun log => ∀ r ∈ log, r.id < n
  owned : ∀ x b e, ((s.files.data x).bin b)[e]? ≠ none → (e, x) ∈ s.stack.entries.map nameOf

theorem Traced.start (maxSize : Nat) : (Session.start S maxSize).Traced n where
  toSettled := .start maxSize
  filed := by
    refine ⟨fun x => .empty, fun x p log hp => ?_⟩
    cases p <;> simp [Session.start, Files.empty, Slots.empty, Slots.at?] at hp
  recordBelow := by
    intro x p log hp
    cases p <;> simp [Session.start, Files.empty, Slots.empty, Slots.at?] at hp
  owned := by
    intro x b e he
    simp [Session.start, Files.empty, Slots.empty] at he

theorem Traced.mono (h : s.Traced n) (hnm : n ≤ m) : s.Traced m where
  kept item := (h.kept item).mono hnm
  pointer := h.pointer
  ungrouped := h.ungrouped
  below e he := (h.below e he).trans_le hnm
  filed := h.filed
  recordBelow x p log hp r hr := (h.recordBelow x p log hp r hr).trans_le hnm
  owned := h.owned

theorem Traced.exec (hS : S.Lawful) (h : s.Traced n) (hn : n ≤ p.id)
    (hroom : s.stack.entries.length + (entryOf D s p).toList.length ≤ s.stack.maxSize) :
    (exec D s p).Traced (p.id + 1) := by
  have hsettled := h.toSettled.exec hS hn hroom
  have hstack := h.toSettled.exec_stack hS hn hroom
  rcases h.toSettled.entryOf_cases (D := D) hS hn with ⟨he, hf⟩ | ⟨he, hr⟩
  · refine ⟨hsettled, hf ▸ h.filed, fun x => ?_, fun x b e hb => ?_⟩
    · rw [hf]
      exact (h.mono (hn.trans (Nat.le_succ _))).recordBelow x
    · rw [hf] at hb
      rw [hstack]
      simpa [he] using h.owned x b e hb
  · obtain ⟨r, hid, hitem, heff⟩ := runCommand_effect h.kept hr
    have hfresh : ∀ x, (s.files.log x).Every fun log => ∀ y ∈ log, y.id ≠ r.id := by
      intro x q log hq y hy hyr
      have hlt := h.recordBelow x q log hq y hy
      rw [hyr, hid] at hlt
      exact absurd (hlt.trans_le hn) (lt_irrefl _)
    refine ⟨hsettled, ⟨fun x => ?_, fun x => ?_⟩, fun x => ?_, fun x b e hb => ?_⟩
    · by_cases hx : x = p.command.item
      · subst x
        obtain ⟨a, l, hl, hg⟩ := heff.log
        exact (((h.filed.filed _).moves hl).appended ((hfresh _).moves hl)).moves hg
      · have hlog := (heff.other x hx).2
        exact hlog ▸ h.filed.filed x
    · by_cases hx : x = p.command.item
      · subst x
        exact heff.every (h.filed.itemId _) (by simp) fun log r' _ hr' hlog =>
          Changelog.forall_mem_concat hlog (hr'.trans hitem)
      · have hlog := (heff.other x hx).2
        exact hlog ▸ h.filed.itemId x
    · refine heff.every ((h.mono (hn.trans (Nat.le_succ _))).recordBelow x) (by simp)
        fun log r' hr' _ hlog => Changelog.forall_mem_concat hlog ?_
      rw [hr', hid]
      exact Nat.lt_succ_self _
    · rw [hstack]
      simp only [he, Option.toList_some, List.map_append, List.mem_append]
      by_cases hx : x = p.command.item
      · subst x
        rcases heff.bin b e hb with rfl | hb'
        · exact Or.inr (by simp [nameOf, hid])
        · exact Or.inl (h.owned _ b e hb')
      · have hdata : (Session.exec D s p).files.data x = s.files.data x := (heff.other x hx).1
        rw [hdata] at hb
        exact Or.inl (h.owned x b e hb)

def Room (D : Diffy) (s : Session S) (steps : List (Step S)) : Prop :=
  s.stack.entries.length + (pushed D s steps).length ≤ s.stack.maxSize

theorem Traced.run (hS : S.Lawful) (h : s.Traced n) (hfresh : Fresh n steps) (hnm : n ≤ m)
    (hm : ∀ p ∈ steps, p.id < m) (hroom : Room D s steps) :
    (run D s steps).Traced m ∧
      (run D s steps).stack.entries = s.stack.entries ++ pushed D s steps ∧
      (run D s steps).stack.maxSize = s.stack.maxSize := by
  induction steps generalizing s n with
  | nil => exact ⟨h.mono hnm, by simp [Session.run, pushed], rfl⟩
  | cons p steps ih =>
    have hlt : ∀ q ∈ steps, p.id < q.id := by
      have hp := hfresh.2
      simp only [List.map_cons, List.pairwise_cons, List.mem_map] at hp
      exact fun q hq => hp.1 q.id ⟨q, hq, rfl⟩
    simp only [Room, pushed, List.length_append] at hroom
    have hn : n ≤ p.id := hfresh.1 p (by simp)
    have hone : s.stack.entries.length + (entryOf D s p).toList.length ≤ s.stack.maxSize := by
      omega
    have hs := h.exec (D := D) hS hn hone
    have hstack := h.toSettled.exec_stack (D := D) hS hn hone
    obtain ⟨hs', he', hmax'⟩ := ih hs
      ⟨fun q hq => hlt q hq, (List.pairwise_cons.mp hfresh.2).2⟩ (hm p (by simp))
      (fun q hq => hm q (by simp [hq])) (by
        simp only [Room, hstack, List.length_append]
        omega)
    refine ⟨hs', ?_, hmax'.trans (by rw [hstack])⟩
    rw [hstack] at he'
    rw [pushed, ← List.append_assoc]
    exact he'

theorem exists_above (n : UndoEntryId) (steps : List (Step S)) :
    ∃ m, n ≤ m ∧ (∀ p ∈ steps, p.id < m) ∧
      ∀ k, n ≤ k → (∀ p ∈ steps, p.id < k) → m ≤ k := by
  induction steps with
  | nil => exact ⟨n, le_rfl, by simp, fun k hk _ => hk⟩
  | cons p steps ih =>
    obtain ⟨m, hnm, hm, hleast⟩ := ih
    refine ⟨max m (p.id + 1), hnm.trans (le_max_left _ _), fun q hq => ?_, fun k hk hsteps => ?_⟩
    · grind
    · exact max_le (hleast k hk fun q hq => hsteps q (by simp [hq])) (hsteps p (by simp))

theorem Room.left (h : Room D s (pre ++ post)) : Room D s pre := by
  simp only [Room, pushed_append, List.length_append] at h ⊢
  omega

theorem Traced.around (pre : List (Step S)) (hS : S.Lawful) (h : s.Traced n)
    (hfresh : Fresh n (pre ++ p :: post)) (hroom : Room D s (pre ++ p :: post)) :
    (Session.run D s pre).Traced p.id ∧
      (Session.run D s pre).stack.entries = s.stack.entries ++ pushed D s pre ∧
      (Session.exec D (Session.run D s pre) p).Traced (p.id + 1) ∧
      Fresh (p.id + 1) post ∧ Room D (Session.exec D (Session.run D s pre) p) post := by
  obtain ⟨hpre, hpost, hlt⟩ := hfresh.append
  have hn : n ≤ p.id := hpost.1 p (by simp)
  obtain ⟨ht, hentries, hmax⟩ := h.run (D := D) hS hpre hn (fun q hq => hlt q hq p (by simp))
    hroom.left
  have hafter : ∀ q ∈ post, p.id + 1 ≤ q.id := by
    intro q hq
    have hp := hpost.2
    simp only [List.map_cons, List.pairwise_cons, List.mem_map] at hp
    exact hp.1 q.id ⟨q, hq, rfl⟩
  simp only [Room, pushed_append, pushed, List.length_append] at hroom
  have hone : (Session.run D s pre).stack.entries.length +
      (entryOf D (Session.run D s pre) p).toList.length ≤
        (Session.run D s pre).stack.maxSize := by
    rw [hentries, hmax, List.length_append]
    omega
  have hstack := ht.toSettled.exec_stack (D := D) hS le_rfl hone
  refine ⟨ht, hentries, ht.exec hS le_rfl hone,
    ⟨hafter, (List.pairwise_cons.mp hpost.2).2⟩, ?_⟩
  simp only [Room, hstack, hentries, hmax, List.length_append]
  omega

theorem Traced.mem_pushed (hS : S.Lawful) (h : s.Traced n) (hfresh : Fresh n steps)
    (hroom : Room D s steps) {e : UndoEntry} (he : e ∈ pushed D s steps) :
    ∃ p ∈ steps, e.id = p.id := by
  induction steps generalizing s n with
  | nil => simp [pushed] at he
  | cons p steps ih =>
    obtain ⟨ht, -, hs, hf, hr⟩ := h.around (D := D) [] hS hfresh hroom
    rcases List.mem_append.mp he with he | he
    · rcases h.toSettled.entryOf_cases (D := D) hS (hfresh.1 p (by simp)) with ⟨hp, -⟩ | ⟨hp, -⟩
      · simp [hp] at he
      · obtain rfl : e = _ := by simpa [hp] using he
        exact ⟨p, by simp, rfl⟩
    · obtain ⟨q, hq, heq⟩ := ih hs hf hr he
      exact ⟨q, by simp [hq], heq⟩

theorem mem_lost {e : UndoEntryId} (h : e ∈ lost s.files p.stamp p.command) :
    e = p.id ∨ e ∈ restores s p := by
  unfold lost at h
  unfold restores
  split at h
  · rename_i id hc
    simpa [hc] using h
  · exact Or.inl h

theorem Reversible.vacant {keys : List UndoEntryId} (h : Reversible D keys s [p]) :
    Vacant s.files p.command := by
  have hlive := h.1
  unfold restores at hlive
  unfold Vacant
  split
  · rename_i id hc
    intro hsome
    obtain ⟨a, ha⟩ := Option.isSome_iff_exists.mp hsome
    simp only [hc] at hlive
    exact (hlive a ha).1
  · trivial

theorem Traced.line (hS : S.Lawful) (h : s.Traced n) (hfresh : Fresh n post)
    (hroom : Room D s post) {keys : List UndoEntryId} (hkeys : ∀ p ∈ post, p.id ∈ keys)
    (hrev : Reversible D keys s post) :
    ∃ F, (undoSystem D S).Line s.files ((pushed D s post).map nameOf).reverse
      (Session.run D s post).files F := by
  induction post using List.reverseRecOn with
  | nil => exact ⟨∅, .nil⟩
  | append_singleton post p ih =>
    obtain ⟨ht, -, -, -, -⟩ := h.around _ hS hfresh hroom
    obtain ⟨hrevPost, hrevStep⟩ := Reversible.append.mp hrev
    obtain ⟨F, hline⟩ := ih hfresh.append.1 hroom.left (fun q hq => hkeys q (by simp [hq])) hrevPost
    rw [run_concat, pushed_append]
    simp only [pushed, List.append_nil]
    rcases ht.toSettled.entryOf_cases (D := D) hS le_rfl with ⟨he, hf⟩ | ⟨he, hr⟩
    · exact ⟨F, by simpa [he, hf] using hline⟩
    · -- what the undo of `p` does not give back is under its own id or the one it restored
      have hvacant := hrevStep.vacant
      rcases runCommand_cases (D := D) hS ht.kept le_rfl p.command with ⟨hne, -⟩ | ⟨-, -, hpushed⟩
      · exact absurd hr (hne p.id)
      · obtain ⟨-, hdone, u, hu, hsame⟩ := hpushed hvacant
        have hclear : ∀ x ∈ ((pushed D s post).map nameOf).reverse,
            x.1 ∉ lost (Session.run D s post).files p.stamp p.command := by
          intro x hx hlost
          obtain ⟨e, hmem, rfl⟩ := List.mem_map.mp (List.mem_reverse.mp hx)
          obtain ⟨q, hq, heq⟩ := h.mem_pushed hS hfresh.append.1 hroom.left hmem
          have hqp : q.id ≠ p.id := (hfresh.append.2.2 q hq p (by simp)).ne
          have hkey : e.id ∈ keys := heq ▸ hkeys q (by simp [hq])
          rcases mem_lost hlost with hid | hrest
          · exact hqp (heq.symm.trans hid)
          · exact (hrevStep.1 e.id hrest).2 hkey
        have hcons := History.UndoSystem.Line.cons (U := undoSystem D S)
          (e := (p.id, p.command.item)) hline hdone hu hsame hclear
        exact ⟨_, by simpa [he, nameOf, exec_files] using hcons⟩

theorem Traced.every_run (hS : S.Lawful) (h : s.Traced n) (hfresh : Fresh n steps)
    (hroom : Room D s steps) {x : StoredItemId} {P : Changelog → Prop}
    (hx : (s.files.log x).Every P) (hnil : P [])
    (hP : ∀ log, ∀ r, n ≤ r.id → P log → P (log ++ [r])) :
    ((Session.run D s steps).files.log x).Every P := by
  induction steps generalizing s n with
  | nil => exact hx
  | cons p steps ih =>
    obtain ⟨-, -, hs, hf, hr⟩ := h.around (D := D) [] hS hfresh hroom
    have hn : n ≤ p.id := hfresh.1 p (by simp)
    refine ih hs hf hr ?_ fun log r hid => hP log r (hn.trans ((Nat.le_succ _).trans hid))
    rcases h.toSettled.entryOf_cases (D := D) hS hn with ⟨-, hfiles⟩ | ⟨-, hres⟩
    · rw [hfiles]
      exact hx
    · obtain ⟨r, hid, -, heff⟩ := runCommand_effect h.kept hres
      exact heff.every hx hnil fun log r' hr' _ => hP log r' (by rw [hr', hid]; exact hn)

theorem Traced.lastOn (hS : S.Lawful) (h : s.Traced n) (hfresh : Fresh n steps)
    (hroom : Room D s steps) (x : StoredItemId) :
    ((∀ e ∈ pushed D s steps, e.itemId ≠ x) ∧
      ((Session.run D s steps).files.data x).live = (s.files.data x).live) ∨
    ((Session.run D s steps).files.data x).live = none ∨
    ∃ e ∈ pushed D s steps, e.itemId = x ∧
      ∃ log, ((Session.run D s steps).files.log x).live = some log ∧ ∃ r ∈ log, r.id = e.id := by
  induction steps using List.reverseRecOn with
  | nil => exact Or.inl ⟨by simp [pushed], rfl⟩
  | append_singleton steps p ih =>
    obtain ⟨ht, -, -, -, -⟩ := h.around _ hS hfresh hroom
    have hbefore := ih hfresh.append.1 hroom.left
    rw [run_concat, pushed_append]
    simp only [pushed, List.append_nil]
    rcases ht.toSettled.entryOf_cases (D := D) hS le_rfl with ⟨he, hf⟩ | ⟨he, hres⟩
    · simpa [he, hf] using hbefore
    · obtain ⟨r, hid, -, heff⟩ := runCommand_effect ht.kept hres
      simp only [he, Option.toList_some, List.mem_append, List.mem_singleton]
      by_cases hx : x = p.command.item
      · subst x
        rcases heff.last with hnone | ⟨log, hlog, hr⟩
        · exact Or.inr (Or.inl hnone)
        · exact Or.inr (Or.inr ⟨_, Or.inr rfl, rfl, log, hlog, r, hr, hid⟩)
      · obtain ⟨hdata, hlog⟩ := heff.other x hx
        rw [exec_files, hdata, hlog]
        rcases hbefore with ⟨hnot, hsame⟩ | hnone | ⟨e, hmem, hitem, hrest⟩
        · grind
        · exact Or.inr (Or.inl hnone)
        · exact Or.inr (Or.inr ⟨e, Or.inl hmem, hitem, hrest⟩)

end Session

section

variable {D : Diffy} {S : TrackedStore} {f g : Files} {x : StoredItemId} {e a : UndoEntryId}
  {es es' : List (UndoEntryId × StoredItemId)}

theorem undoAll_invariant {Q : Files → Prop} (hf : f.Filed) (hQ : Q f)
    (hstep : ∀ k ∈ es, ∀ f : Files, f.Filed → Q f → Q (undo D S f k.1 k.2).files)
    (h : (undoSystem D S).undoAll es f = some g) : g.Filed ∧ Q g := by
  induction es generalizing f with
  | nil =>
    obtain rfl : f = g := by simpa [History.UndoSystem.undoAll] using h
    exact ⟨hf, hQ⟩
  | cons k es ih =>
    obtain ⟨m, hm, hrest⟩ := Option.bind_eq_some_iff.mp h
    obtain rfl : (undo D S f k.1 k.2).files = m := Outcome.files_of_okFiles hm
    exact ih (hf.replay undoArm) (hstep k (by simp) f hf hQ)
      (fun j hj => hstep j (by simp [hj])) hrest

theorem undoAll_every (hf : f.Filed) {P : Changelog → Prop} (hx : (f.log x).Every P)
    (h : (undoSystem D S).undoAll es f = some g) : g.Filed ∧ (g.log x).Every P :=
  undoAll_invariant (Q := fun f => (f.log x).Every P) hf hx
    (fun _ _ _ hf hx => hx.replay hf undoArm) h

theorem undoAll_of_gone (es : List (UndoEntryId × StoredItemId)) (hf : f.Filed)
    (hx : (f.log x).Every fun log => ∀ r ∈ log, r.id ≠ e) (hmem : (e, x) ∈ es) :
    (undoSystem D S).undoAll es f = none := by
  obtain ⟨es₁, es₂, rfl⟩ := List.append_of_mem hmem
  rw [History.UndoSystem.undoAll_append]
  cases h : (undoSystem D S).undoAll es₁ f with
  | none => rfl
  | some k =>
    obtain ⟨hk, hgone⟩ := undoAll_every hf hx h
    have hundo : (undo D S k e x).okFiles = none := replay_of_stuck hk
      (fun p log hp ⟨r, hr, hre⟩ => absurd hre (hgone p log hp r hr)) undoArm
    change ((undo D S k e x).okFiles.bind _) = none
    rw [hundo]
    rfl

theorem undoAll_bin (hf : f.Filed) (he : ∀ k ∈ es, k.1 ≠ e)
    (h : (undoSystem D S).undoAll es f = some g) (b : Bin) :
    ((g.log x).bin b)[e]? = ((f.log x).bin b)[e]? := by
  refine (undoAll_invariant (Q := fun k => ((k.log x).bin b)[e]? = ((f.log x).bin b)[e]?) hf rfl
    (fun k hk m hm hbin => ?_) h).2
  obtain ⟨hmoves, hother⟩ := replay_effect (D := D) (S := S) hm undoArm k.1 k.2
  rw [← hbin]
  by_cases hx : x = k.2
  · subst x
    exact hmoves.bin_of_ne (he k hk).symm b
  · exact congrArg (fun l => (l.bin b)[e]?) (hother x hx).2

theorem undoAll_data (hf : f.Filed) (hes : ∀ k ∈ es, k.2 ≠ x)
    (h : (undoSystem D S).undoAll es f = some g) : g.data x = f.data x := by
  refine (undoAll_invariant (Q := fun k => k.data x = f.data x) hf rfl
    (fun k hk m hm hdata => ?_) h).2
  rw [← hdata]
  exact ((replay_effect (D := D) (S := S) hm undoArm k.1 k.2).2 x (hes k hk).symm).1

theorem undoAll_of_tied (es es' : List (UndoEntryId × StoredItemId)) (hf : f.Filed)
    (hop : (f.log x).Every fun log => ∀ r ∈ log, r.id = e → r.op = .unarchive)
    (htied : (f.log x).Every fun log => (∃ r ∈ log, r.id = a) → ∃ r ∈ log, r.id = e)
    (hne : e ≠ a) (hes : ∀ k ∈ es', k.1 ≠ e) (hmem : (a, x) ∈ es') :
    (undoSystem D S).undoAll (es ++ (e, x) :: es') f = none := by
  obtain ⟨es₁, es₂, rfl⟩ := List.append_of_mem hmem
  by_contra hsome
  obtain ⟨g, hg⟩ := Option.ne_none_iff_exists'.mp hsome
  rw [History.UndoSystem.undoAll_append] at hg
  obtain ⟨k, hk, hg⟩ := Option.bind_eq_some_iff.mp hg
  obtain ⟨m, hm, hg⟩ := Option.bind_eq_some_iff.mp hg
  rw [History.UndoSystem.undoAll_append] at hg
  obtain ⟨w, hw, hg⟩ := Option.bind_eq_some_iff.mp hg
  obtain ⟨v, hv, -⟩ := Option.bind_eq_some_iff.mp hg
  obtain ⟨hkf, hkop⟩ := undoAll_every hf hop hk
  obtain ⟨-, hktied⟩ := undoAll_every hf htied hk
  obtain ⟨-, log, hlog, r, hr, hre⟩ := undo_unarchive hkf hkop hm
  have hmf : m.Filed := Outcome.files_of_okFiles hm ▸ hkf.replay undoArm
  have hmtied : (m.log x).Every fun log => (∃ r ∈ log, r.id = a) → ∃ r ∈ log, r.id = e :=
    Outcome.files_of_okFiles hm ▸ hktied.replay hkf undoArm
  obtain ⟨hwf, hwtied⟩ := undoAll_every hmf hmtied hw
  have hwlog : (w.log x).at? (.bin .archive e) = some log := by
    rw [← hlog]
    exact undoAll_bin hmf (fun j hj => hes j (by simp [hj])) hw .archive
  -- the record of `a` is now in the bin, beside the one of `e`
  have hstuck : (undo D S w a x).okFiles = none := by
    refine replay_of_stuck hwf (fun p log' hp ha => ?_) undoArm
    obtain ⟨r', hr', hre'⟩ := hwtied p log' hp ha
    have hplace := (hwf.filed x).unique p _ log' log hp hwlog r' hr' r hr (hre'.trans hre.symm)
    exact ⟨.archive, e, hplace, hne⟩
  change (undo D S w a x).okFiles = some v at hv
  rw [hstuck] at hv
  simp at hv

theorem undoAll_live_none (hf : f.Filed)
    (hop : (f.log x).Every fun log => ∀ r ∈ log, r.id = e → r.op = .unarchive)
    (hes : ∀ k ∈ es', k.2 ≠ x) (h : (undoSystem D S).undoAll (es ++ (e, x) :: es') f = some g) :
    (g.data x).live = none := by
  rw [History.UndoSystem.undoAll_append] at h
  obtain ⟨k, hk, h⟩ := Option.bind_eq_some_iff.mp h
  obtain ⟨m, hm, h⟩ := Option.bind_eq_some_iff.mp h
  obtain ⟨hkf, hkop⟩ := undoAll_every hf hop hk
  have hmf : m.Filed := Outcome.files_of_okFiles hm ▸ hkf.replay undoArm
  have hnone : (m.data x).live = none := (undo_unarchive hkf hkop hm).1
  rw [undoAll_data hmf hes h, hnone]

end
namespace Session

variable {D : Diffy} {S : TrackedStore} {n : UndoEntryId} {s t : Session S} {p : Step S}
  {pre post steps : List (Step S)} {keys : List UndoEntryId} {a : UndoEntryId}

theorem reversible_of_forall (h : ∀ l p r, steps = l ++ p :: r → ∀ a ∈ restores (run D s l) p,
    ((run D s l).files.data p.command.item).live = none ∧ a ∉ keys) :
    Reversible D keys s steps := by
  induction steps generalizing s with
  | nil => trivial
  | cons p steps ih =>
    refine ⟨h [] p steps rfl, ih fun l q r hq => ?_⟩
    exact h (p :: l) q r (by rw [hq]; rfl)

structure Restored (D : Diffy) (t : Session S) (p : Step S) (a : UndoEntryId) : Prop where
  archived : ((t.files.data p.command.item).bin .archive)[a]? ≠ none
  pushed : entryOf D t p = some ⟨p.id, p.label, p.command.item, none⟩
  log : ∃ l log r, (t.files.log p.command.item).moveFromBin .archive a = some l ∧
    l.live = some log ∧ r.id = p.id ∧ r.op = .unarchive ∧
    (exec D t p).files.log p.command.item = l.appended r

theorem Traced.restored (h : t.Traced n) (ha : a ∈ restores t p) : Restored D t p a := by
  cases hc : p.command with
  | unarchiveLatest id =>
    simp only [restores, hc, Option.mem_def] at ha
    obtain ⟨text, log, d, l, x, hd, hl, hdl, hll, -, hr, hf⟩ :=
      unarchiveLatest_ok (D := D) p.stamp h.kept ha
    obtain ⟨old, hold⟩ := Slots.findArchivedEntryId_mem ha
    have hres : (runCommand D t.files p.stamp p.command).result = .ok (some p.id) := by
      rw [hc]
      simp [runCommand, hr, Except.map]
    refine ⟨by simp [hc, Command.item, hold], by simp [entryOf, hres],
      l, log,
      record D p.stamp .unarchive (S.display id) "" text, by rw [hc]; exact hl, hll, rfl, rfl, ?_⟩
    rw [exec_files, hc]
    simp only [runCommand, hf, Command.item, Files.setLog_log, Slots.appended, hll,
      Option.getD_some]
  | write x => simp [restores, hc] at ha
  | delete id => simp [restores, hc] at ha
  | archive id => simp [restores, hc] at ha

theorem Restored.gone (h : Restored D t p a) (ht : t.Traced p.id) {log : Changelog}
    (hlog : (t.files.log p.command.item).live = some log) {r : ChangelogEntry} (hr : r ∈ log) :
    ((exec D t p).files.log p.command.item).Every fun log => ∀ x ∈ log, x.id ≠ r.id := by
  obtain ⟨l, -, r', hl, -, hid, -, hafter⟩ := h.log
  have hbins : Slots.Every (fun log => ∀ x ∈ log, x.id ≠ r.id)
      { t.files.log p.command.item with live := none } := by
    intro q log' hq x hx hxr
    cases q with
    | live => simp [Slots.at?] at hq
    | bin b e =>
      have hplace := (ht.filed.filed p.command.item).unique (.bin b e) .live log' log hq hlog
        x hx r hr hxr
      simp at hplace
  have hmove : LogMove a { t.files.log p.command.item with live := none } l := .back hl
  rw [hafter]
  refine (hbins.move hmove).appended (by simp) fun log' hlog' =>
    Changelog.forall_mem_concat hlog' ?_
  rw [hid]
  exact (ht.recordBelow p.command.item .live log hlog r hr).ne'

theorem Restored.tied (h : Restored D t p a) (ht : t.Traced p.id)
    (hu : (exec D t p).files.Filed) :
    ((exec D t p).files.log p.command.item).Every fun log =>
      (∃ r ∈ log, r.id = a) → ∃ r ∈ log, r.id = p.id := by
  obtain ⟨l, log, r', hl, hlive, hid, -, hafter⟩ := h.log
  have hlog : (t.files.log p.command.item).at? (.bin .archive a) = some log := by
    rw [Slots.at?, ← Slots.moveFromBin_live hl, hlive]
  obtain ⟨r, hr, hra⟩ := (ht.filed.filed p.command.item).named .archive a log hlog
  have hnow : ((exec D t p).files.log p.command.item).at? .live = some (log ++ [r']) := by
    simp [hafter, Slots.at?, Slots.appended, hlive]
  rintro q log' hq ⟨x, hx, hxa⟩
  have hplace := (hu.filed p.command.item).unique q .live log' (log ++ [r']) hq hnow x hx r
    (by simp [hr]) (hxa.trans hra.symm)
  subst hplace
  obtain rfl : log' = log ++ [r'] := Option.some.inj (hq.symm.trans hnow)
  exact ⟨r', by simp, hid⟩

theorem Restored.unarchive (h : Restored D t p a) (ht : t.Traced p.id) :
    ((exec D t p).files.log p.command.item).Every fun log =>
      ∀ r ∈ log, r.id = p.id → r.op = .unarchive := by
  obtain ⟨l, log, r', hl, -, -, hop, hafter⟩ := h.log
  have hold : (t.files.log p.command.item).Every fun log =>
      ∀ r ∈ log, r.id = p.id → r.op = .unarchive := by
    intro q log hq r hr hrp
    exact absurd hrp (ht.recordBelow p.command.item q log hq r hr).ne
  have hmove : LogMove a (t.files.log p.command.item) l := .back hl
  rw [hafter]
  exact (hold.move hmove).appended (by simp) fun log hlog =>
    Changelog.forall_mem_concat hlog fun _ => hop

theorem run_around : Session.run D s (pre ++ p :: post) =
    Session.run D (Session.exec D (Session.run D s pre) p) post := by
  rw [run_append]
  rfl

theorem Restored.names (h : Restored D (Session.run D s pre) p a) :
    ((Session.pushed D s (pre ++ p :: post)).map nameOf).reverse =
      ((Session.pushed D (Session.exec D (Session.run D s pre) p) post).map nameOf).reverse ++
        (p.id, p.command.item) :: ((Session.pushed D s pre).map nameOf).reverse := by
  rw [pushed_append]
  simp [Session.pushed, h.pushed, nameOf]

theorem Restored.unarchive_run (h : Restored D t p a) (hS : S.Lawful) (ht : t.Traced p.id)
    (hu : (exec D t p).Traced (p.id + 1)) (hfresh : Fresh (p.id + 1) post)
    (hroom : Room D (exec D t p) post) :
    ((Session.run D (exec D t p) post).files.log p.command.item).Every fun log =>
      ∀ r ∈ log, r.id = p.id → r.op = .unarchive := by
  refine hu.every_run hS hfresh hroom (h.unarchive ht) (by simp) fun log r hr hlog =>
    Changelog.forall_mem_concat hlog fun hrp => ?_
  exact absurd hrp (Nat.lt_of_succ_le hr).ne'

theorem Restored.live_none (h : Restored D (Session.run D s pre) p a) (hS : S.Lawful)
    (hs : s.Traced n) (hfresh : Fresh n (pre ++ p :: post)) (hroom : Room D s (pre ++ p :: post))
    {g : Files} (hg : (undoSystem D S).undoAll
      ((Session.pushed D s (pre ++ p :: post)).map nameOf).reverse
      (Session.run D s (pre ++ p :: post)).files = some g)
    (hlive : (g.data p.command.item).live = (s.files.data p.command.item).live) :
    ((Session.run D s pre).files.data p.command.item).live = none := by
  obtain ⟨ht, -, hu, hfr, hr⟩ := hs.around _ hS hfresh hroom
  obtain ⟨m, hm, hrm, -⟩ := exists_above (p.id + 1) post
  obtain ⟨hend, -, -⟩ := hu.run (D := D) hS hfr hm hrm hr
  rw [h.names, run_around] at hg
  rcases hs.lastOn hS hfresh.append.1 hroom.left p.command.item with
    ⟨hnot, hsame⟩ | hnone | ⟨e, hmem, hitem, log, hlog, y, hy, hye⟩
  · rw [hsame, ← hlive]
    refine undoAll_live_none hend.filed (h.unarchive_run hS ht hu hfr hr) (fun k hk => ?_) hg
    obtain ⟨e, hmem, rfl⟩ := List.mem_map.mp (List.mem_reverse.mp hk)
    exact hnot e hmem
  · exact hnone
  · have hbelow : y.id < p.id := ht.recordBelow p.command.item .live log hlog y hy
    have hgone := hu.every_run hS hfr hr (h.gone ht hlog hy) (by simp) fun log' z hz hlog' =>
      Changelog.forall_mem_concat hlog' (hbelow.trans (Nat.lt_of_succ_le hz)).ne'
    have hin : (y.id, p.command.item) ∈ ((Session.pushed D s pre).map nameOf).reverse := by
      rw [List.mem_reverse, List.mem_map]
      exact ⟨e, hmem, by rw [nameOf, hitem, hye]⟩
    rw [undoAll_of_gone _ hend.filed hgone
      (List.mem_append_right _ (List.mem_cons_of_mem _ hin))] at hg
    simp at hg

theorem Restored.not_mem (h : Restored D (Session.run D s pre) p a) (hS : S.Lawful)
    (hs : s.Traced n) (hfresh : Fresh n (pre ++ p :: post)) (hroom : Room D s (pre ++ p :: post))
    {g : Files} (hg : (undoSystem D S).undoAll
      ((Session.pushed D s (pre ++ p :: post)).map nameOf).reverse
      (Session.run D s (pre ++ p :: post)).files = some g) :
    a ∉ (pre ++ p :: post).map Step.id := by
  intro hkey
  obtain ⟨ht, hentries, hu, hfr, hr⟩ := hs.around _ hS hfresh hroom
  obtain ⟨m, hm, hrm, -⟩ := exists_above (p.id + 1) post
  obtain ⟨hend, -, -⟩ := hu.run (D := D) hS hfr hm hrm hr
  obtain ⟨q, hq, rfl⟩ := List.mem_map.mp hkey
  have hmem : (q.id, p.command.item) ∈ (Session.pushed D s pre).map nameOf := by
    have hin := ht.owned p.command.item .archive q.id h.archived
    rw [hentries, List.map_append, List.mem_append] at hin
    refine hin.resolve_left fun hin => ?_
    obtain ⟨e, he, hname⟩ := List.mem_map.mp hin
    have hid : e.id = q.id := congrArg Prod.fst hname
    exact absurd (hid ▸ hs.below e he) (not_lt.mpr (hfresh.1 q hq))
  have hbelow : ∀ k ∈ (Session.pushed D s pre).map nameOf, k.1 < p.id := by
    intro k hk
    obtain ⟨e, he, rfl⟩ := List.mem_map.mp hk
    exact ht.below e (by rw [hentries]; exact List.mem_append_right _ he)
  have hap : q.id < p.id := hbelow (q.id, p.command.item) hmem
  have htied := hu.every_run hS hfr hr (h.tied ht hu.filed) (by simp) fun log z hz hlog => by
    rintro ⟨w, hw, hwa⟩
    rcases List.mem_append.mp hw with hw | hw
    · obtain ⟨v, hv, hvp⟩ := hlog ⟨w, hw, hwa⟩
      exact ⟨v, by simp [hv], hvp⟩
    · rw [List.mem_singleton.mp hw] at hwa
      exact absurd hwa (hap.trans (Nat.lt_of_succ_le hz)).ne'
  rw [h.names, run_around, undoAll_of_tied _ _ hend.filed (h.unarchive_run hS ht hu hfr hr) htied
    hap.ne' (fun k hk => (hbelow k (List.mem_reverse.mp hk)).ne) (List.mem_reverse.mpr hmem)] at hg
  simp at hg

theorem Traced.reversible (hS : S.Lawful) (h : s.Traced n) (hfresh : Fresh n post)
    (hroom : Room D s post) {g : Files}
    (hg : (undoSystem D S).undoAll ((pushed D s post).map nameOf).reverse
      (Session.run D s post).files = some g)
    (hlive : ∀ x, (g.data x).live = (s.files.data x).live) :
    Reversible D (post.map Step.id) s post := by
  apply reversible_of_forall
  rintro pre p post rfl a ha
  have hrestored := (h.around _ hS hfresh hroom).1.restored (D := D) ha
  exact ⟨hrestored.live_none hS h hfresh hroom hg (hlive p.command.item),
    hrestored.not_mem hS h hfresh hroom hg⟩

theorem Traced.between (hS : S.Lawful) {pre : List (Step S)} (h : s.Traced n)
    (hfresh : Fresh n (pre ++ post)) (hroom : Room D s (pre ++ post)) :
    ∃ m, (Session.run D s pre).Traced m ∧ Fresh m post ∧ Room D (Session.run D s pre) post := by
  obtain ⟨hpre, hpost, hlt⟩ := hfresh.append
  obtain ⟨m, hnm, hm, hleast⟩ := exists_above n pre
  obtain ⟨ht, hentries, hmax⟩ := h.run (D := D) hS hpre hnm hm hroom.left
  refine ⟨m, ht, ⟨fun q hq => hleast q.id (hpost.1 q hq) fun p hp => hlt p hp q hq, hpost.2⟩, ?_⟩
  simp only [Room, pushed_append, List.length_append] at hroom
  simp only [Room, hentries, hmax, List.length_append]
  omega

theorem Traced.undoN (hS : S.Lawful) (h : s.Traced n) (hfresh : Fresh n post)
    (hroom : Room D s post) :
    Option.Rel (fun g c => ∃ events, c = context (S := S) ⟨g, events,
        { (Session.run D s post).stack with pointer := s.stack.entries.length }⟩)
      ((undoSystem D S).undoAll ((pushed D s post).map nameOf).reverse
        (Session.run D s post).files)
      ((Session.run D s post).context.undoN D (pushed D s post).length) := by
  obtain ⟨m, hnm, hm, -⟩ := exists_above n post
  obtain ⟨ht, hentries, -⟩ := h.run (D := D) hS hfresh hnm hm hroom
  refine undoN_context D s.stack.entries (pushed D s post) [] (by simp [hentries]) ?_ fun e he => ?_
  · rw [ht.pointer, hentries, List.length_append]
  · exact ht.ungrouped e (by rw [hentries]; exact List.mem_append_right _ he)

/-- The last steps of a run can be undone to the live files before them, and redone to the
live files after them, exactly when they are reversible. -/
theorem undoN_redoN_iff (D : Diffy) {S : TrackedStore} (hS : S.Lawful) (maxSize : Nat)
    (pre post : List (Step S)) (hids : ((pre ++ post).map Step.id).Pairwise (· < ·))
    (hsize : (pushed D (start S maxSize) (pre ++ post)).length < maxSize) :
    let before := run D (start S maxSize) pre
    let after := run D before post
    let k := (pushed D before post).length
    (∃ c c', after.context.undoN D k = some c ∧ c.liveData = before.context.liveData ∧
        c.redoN D k = some c' ∧ c'.liveData = after.context.liveData) ↔
      Reversible D (post.map Step.id) before post := by
  intro before after k
  have hroom : Room D (start S maxSize) (pre ++ post) := by
    simpa [Room, start, UndoStack.withMaxSize] using hsize.le
  have hall : Fresh 0 (pre ++ post) := ⟨fun p _ => Nat.zero_le p.id, hids⟩
  obtain ⟨n, ht, hfresh, hroom⟩ := (Traced.start maxSize).between (D := D) hS hall hroom
  have hundo := ht.undoN hS hfresh hroom
  constructor
  · rintro ⟨c, -, hc, hlive, -⟩
    change Option.Rel _ _ (after.context.undoN D k) at hundo
    rw [hc] at hundo
    cases hg : (undoSystem D S).undoAll ((pushed D before post).map nameOf).reverse
        after.files with
    | none =>
      rw [hg] at hundo
      simpa using optionRel_none hundo
    | some g =>
      rw [hg] at hundo
      obtain ⟨c', hc', events, rfl⟩ := optionRel_some hundo
      obtain rfl := Option.some.inj hc'
      refine ht.reversible hS hfresh hroom hg fun x => ?_
      have hhead := (List.cons.inj hlive).1
      exact congrFun hhead x
  · intro hrev
    obtain ⟨F, hline⟩ := ht.line hS hfresh hroom (fun p hp => List.mem_map_of_mem hp) hrev
    obtain ⟨g, hg, hsame, hredo⟩ := hline.undoAll
    rw [hg] at hundo
    obtain ⟨c, hc, events, rfl⟩ := optionRel_some hundo
    obtain ⟨m, hnm, hm, -⟩ := exists_above n post
    obtain ⟨hend, hentries, -⟩ := ht.run (D := D) hS hfresh hnm hm hroom
    rw [List.reverse_reverse] at hredo
    have hback := redoN_context (S := S) D (s := ⟨g, events,
        { after.stack with pointer := before.stack.entries.length }⟩)
      before.stack.entries (pushed D before post) [] (by simpa using hentries) rfl
      fun e he => hend.ungrouped e (by rw [hentries]; exact List.mem_append_right _ he)
    change Option.Rel _ ((undoSystem D S).redoAll _ g) _ at hback
    rw [hredo] at hback
    obtain ⟨c', hc', events', rfl⟩ := optionRel_some hback
    refine ⟨_, _, hc, ?_, hc', rfl⟩
    have hlive : ∀ x, (g.data x).live = (before.files.data x).live := fun x => hsame.liveData x
    exact congrArg (fun l => [l]) (funext hlive)

theorem plain_lawful : TrackedStore.plain.Lawful := by
  rintro ⟨name, text⟩ _ ⟨⟩
  exact ⟨(name, text), rfl⟩

def plainStep (id : Nat) (c : Command .plain) : Step .plain := ⟨⟨id, id⟩, "", c⟩

theorem undoN_redoN_iff_plain :
    let before := run .verbatim (start .plain 100)
      [plainStep 1 (.write ("a", "one")), plainStep 2 (.archive "a")]
    let after := run .verbatim before
      [plainStep 3 (.unarchiveLatest "a"), plainStep 4 (.write ("a", "two"))]
    ∃ c c', after.context.undoN .verbatim 2 = some c ∧ c.liveData = before.context.liveData ∧
      c.redoN .verbatim 2 = some c' ∧ c'.liveData = after.context.liveData :=
  (undoN_redoN_iff .verbatim plain_lawful 100
    [plainStep 1 (.write ("a", "one")), plainStep 2 (.archive "a")]
    [plainStep 3 (.unarchiveLatest "a"), plainStep 4 (.write ("a", "two"))]
    (by decide) (by decide)).mpr (by decide)

theorem undoN_archive_unarchive :
    let before := run .verbatim (start .plain 100) [plainStep 1 (.write ("a", "one"))]
    let after := run .verbatim before
      [plainStep 2 (.archive "a"), plainStep 3 (.unarchiveLatest "a")]
    after.stack.entries.length = 3 ∧ (after.context.undoN .verbatim 1).isSome ∧
      (after.context.undoN .verbatim 2).isNone := by
  decide

end Session
end SwissArmyHammer.Store
