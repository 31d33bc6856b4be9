import Mathlib.Data.List.Induction
import SwissArmyHammer.Store.Context

/-! Guards of undo groups, nested in one another, and the group ids of the entries pushed
under them. -/

namespace SwissArmyHammer.Store

inductive GroupEvent
  | openGuard (fresh : UndoEntryId)
  | closeGuard
  | push (id : UndoEntryId) (label : String) (itemId : StoredItemId)
  deriving DecidableEq, Repr

inductive Mark
  | opened (fresh : UndoEntryId)
  | closed
  | entry (e : UndoEntry)
  deriving DecidableEq, Repr

/-- A run falls into entries pushed outside every guard, and what happens from the
beginning of an outermost guard to its end. -/
inductive Part
  | free (e : UndoEntry)
  | guarded (marks : List Mark)
  deriving DecidableEq, Repr

def StoreContext.pushed (c : StoreContext) (id : UndoEntryId) (label : String)
    (itemId : StoredItemId) : Option UndoEntry :=
  if c.stack.top.map (·.id) = some id then none else (c.push id label itemId).stack.top

def StoreContext.parts (c : StoreContext) : Nat → List Mark → List GroupEvent → List Part
  | 0, _, [] => []
  | _ + 1, marks, [] => [.guarded marks]
  | 0, _, .openGuard fresh :: rest => parts (c.beginUndoGroup fresh) 1 [.opened fresh] rest
  | depth + 1, marks, .openGuard fresh :: rest =>
    parts (c.beginUndoGroup fresh) (depth + 2) (marks ++ [.opened fresh]) rest
  | 0, _, .closeGuard :: rest => parts c.endUndoGroup 0 [] rest
  | 1, marks, .closeGuard :: rest =>
    .guarded (marks ++ [.closed]) :: parts c.endUndoGroup 0 [] rest
  | depth + 2, marks, .closeGuard :: rest =>
    parts c.endUndoGroup (depth + 1) (marks ++ [.closed]) rest
  | 0, _, .push id label itemId :: rest =>
    ((c.pushed id label itemId).map .free).toList ++ parts (c.push id label itemId) 0 [] rest
  | depth + 1, marks, .push id label itemId :: rest =>
    parts (c.push id label itemId) (depth + 1)
      (marks ++ ((c.pushed id label itemId).map .entry).toList) rest

def freshIds (events : List GroupEvent) : List UndoEntryId :=
  events.filterMap fun
    | .openGuard fresh => some fresh
    | _ => none

def openedIds (marks : List Mark) : List UndoEntryId :=
  marks.filterMap fun
    | .opened fresh => some fresh
    | _ => none

/-- All entries come after one opening, and no guard ends between it and the last of them. -/
def Whole (marks : List Mark) : Prop :=
  ∃ a fresh b d, marks = a ++ .opened fresh :: (b ++ d) ∧ (∀ e, .entry e ∉ a) ∧
    .closed ∉ b ∧ ∀ e, .entry e ∉ d

/-- The entries of an outermost guard carry one id, those outside every guard carry none,
and those of two outermost guards carry different ids. -/
structure OneGroupEach (parts : List Part) : Prop where
  same : ∀ marks, .guarded marks ∈ parts → ∃ g, ∀ e, .entry e ∈ marks → e.groupId = some g
  free : ∀ e, .free e ∈ parts → e.groupId = none
  apart : parts.Pairwise fun p q => ∀ m m', p = .guarded m → q = .guarded m' →
    ∀ e e', .entry e ∈ m → .entry e' ∈ m' → e.groupId ≠ e'.groupId

def openGroup (marks : List Mark) : Option UndoEntryId :=
  marks.foldl (fun g m =>
    match m with
    | .opened fresh => if g.isNone then some fresh else g
    | .closed => none
    | .entry _ => g) none

def Stamped (marks : List Mark) : Prop :=
  ∀ u e v, marks = u ++ .entry e :: v → e.groupId = openGroup u

section

variable {marks u v : List Mark} {g fresh : UndoEntryId}

@[simp] theorem openGroup_opened :
    openGroup (u ++ [.opened fresh]) = some ((openGroup u).getD fresh) := by
  unfold openGroup
  rw [List.foldl_concat]
  cases List.foldl _ none u <;> rfl

@[simp] theorem openGroup_closed : openGroup (u ++ [.closed]) = none := by
  simp [openGroup]

@[simp] theorem openGroup_entry (e : UndoEntry) : openGroup (u ++ [.entry e]) = openGroup u := by
  simp [openGroup]

theorem openGroup_append (hu : openGroup u = some g) (hv : .closed ∉ v) :
    openGroup (u ++ v) = some g := by
  induction v using List.reverseRecOn with
  | nil => simpa using hu
  | append_singleton v m ih =>
    have hm := ih fun h => hv (by simp [h])
    rw [← List.append_assoc]
    cases m with
    | opened fresh =>
      rw [openGroup_opened, hm]
      rfl
    | closed => simp at hv
    | entry e => rw [openGroup_entry, hm]

theorem openGroup_some (h : openGroup marks = some g) :
    ∃ a b, marks = a ++ .opened g :: b ∧ .closed ∉ b := by
  induction marks using List.reverseRecOn with
  | nil => simp [openGroup] at h
  | append_singleton marks m ih =>
    cases m with
    | opened fresh =>
      rw [openGroup_opened] at h
      cases hm : openGroup marks with
      | none =>
        rw [hm] at h
        exact ⟨marks, [], by simpa using h, by simp⟩
      | some g' =>
        rw [hm] at h
        obtain ⟨a, b, rfl, hb⟩ := ih (by rw [hm, ← h]; rfl)
        exact ⟨a, b ++ [.opened fresh], by simp, by simp [hb]⟩
    | closed => simp at h
    | entry e =>
      obtain ⟨a, b, rfl, hb⟩ := ih (by simpa using h)
      exact ⟨a, b ++ [.entry e], by simp, by simp [hb]⟩

theorem openedIds_append : openedIds (u ++ v) = openedIds u ++ openedIds v := by
  simp [openedIds]

theorem opened_prefix_nil {c b b' : List Mark} (hids : (openedIds (.opened g :: b)).Nodup)
    (h : Mark.opened g :: b = c ++ .opened g :: b') : c = [] := by
  cases c with
  | nil => rfl
  | cons m c =>
    obtain ⟨rfl, rfl⟩ := List.cons.inj h
    have hmem : g ∈ openedIds (c ++ .opened g :: b') := by simp [openedIds]
    exact absurd hmem (List.nodup_cons.mp hids).1

theorem opened_unique (a a' b b' : List Mark) (hids : (openedIds (a ++ .opened g :: b)).Nodup)
    (h : a ++ .opened g :: b = a' ++ .opened g :: b') : a = a' := by
  have hids' := h ▸ hids
  rw [openedIds_append] at hids hids'
  rcases List.append_eq_append_iff.mp h with ⟨c, rfl, hc⟩ | ⟨c, rfl, hc⟩
  · rw [opened_prefix_nil (List.nodup_append.mp hids).2.1 hc, List.append_nil]
  · rw [opened_prefix_nil (List.nodup_append.mp hids').2.1 hc, List.append_nil]

theorem exists_last_entry (h : ∃ e, .entry e ∈ marks) :
    ∃ u e v, marks = u ++ .entry e :: v ∧ ∀ e', .entry e' ∉ v := by
  induction marks using List.reverseRecOn with
  | nil => simp at h
  | append_singleton marks m ih =>
    cases m with
    | entry e => exact ⟨marks, e, [], rfl, by simp⟩
    | opened fresh =>
      obtain ⟨u, e, v, rfl, hv⟩ := ih (by simpa using h)
      exact ⟨u, e, v ++ [.opened fresh], by simp, by simpa using hv⟩
    | closed =>
      obtain ⟨u, e, v, rfl, hv⟩ := ih (by simpa using h)
      exact ⟨u, e, v ++ [.closed], by simp, by simpa using hv⟩

theorem same_iff_whole (hs : Stamped marks) (hids : (openedIds marks).Nodup)
    (hhead : ∃ fresh rest, marks = .opened fresh :: rest) :
    (∃ g, ∀ e, .entry e ∈ marks → e.groupId = some g) ↔ Whole marks := by
  constructor
  · rintro ⟨g, hg⟩
    by_cases hentry : ∃ e, .entry e ∈ marks
    · obtain ⟨u, e, v, rfl, hv⟩ := exists_last_entry hentry
      have hlast : openGroup u = some g := by rw [← hs u e v rfl, hg e (by simp)]
      obtain ⟨a, b, rfl, hb⟩ := openGroup_some hlast
      refine ⟨a, g, b ++ [.entry e], v, by simp, fun e' he' => ?_, by simpa using hb, hv⟩
      obtain ⟨a₁, a₂, rfl⟩ := List.append_of_mem he'
      have hearly : openGroup a₁ = some g := by
        rw [← hs a₁ e' (a₂ ++ .opened g :: b ++ .entry e :: v) (by simp), hg e' (by simp)]
      obtain ⟨x, y, rfl, -⟩ := openGroup_some hearly
      -- the group of an earlier entry would have to be opened a second time
      have heq := opened_unique (g := g) x (x ++ .opened g :: (y ++ .entry e' :: a₂))
        (y ++ .entry e' :: a₂ ++ .opened g :: b ++ .entry e :: v) (b ++ .entry e :: v)
        (by simpa using hids) (by simp)
      have hlen := congrArg List.length heq
      simp at hlen
    · obtain ⟨fresh, rest, rfl⟩ := hhead
      refine ⟨[], fresh, [], rest, by simp, by simp, by simp, fun e he => ?_⟩
      exact hentry ⟨e, by simp [he]⟩
  · rintro ⟨a, fresh, b, d, rfl, ha, hb, hd⟩
    have hopen : openGroup (a ++ [.opened fresh]) = some ((openGroup a).getD fresh) :=
      openGroup_opened
    refine ⟨(openGroup a).getD fresh, fun e he => ?_⟩
    have hin : .entry e ∈ b := by
      simp only [List.mem_append, List.mem_cons, reduceCtorEq, false_or] at he
      rcases he with he | he | he
      · exact absurd he (ha e)
      · exact he
      · exact absurd he (hd e)
    obtain ⟨b₁, b₂, rfl⟩ := List.append_of_mem hin
    rw [hs (a ++ .opened fresh :: b₁) e (b₂ ++ d) (by simp)]
    have hclosed : .closed ∉ b₁ := fun h => hb (by simp [h])
    have happ := openGroup_append hopen hclosed
    simpa using happ

theorem groupId_mem_openedIds (hs : Stamped marks) {e : UndoEntry} (he : .entry e ∈ marks)
    (hg : e.groupId = some g) : g ∈ openedIds marks := by
  obtain ⟨u, v, rfl⟩ := List.append_of_mem he
  rw [hs u e v rfl] at hg
  obtain ⟨a, b, rfl, -⟩ := openGroup_some hg
  simp [openedIds]

end

section

variable {c : StoreContext} {k : Nat} {marks : List Mark} {events : List GroupEvent}
  {parts : List Part} {ids ids' : List UndoEntryId}

theorem StoreContext.pushed_groupId {id : UndoEntryId} {label : String} {itemId : StoredItemId}
    {e : UndoEntry} (h : c.pushed id label itemId = some e) : e.groupId = c.currentGroup := by
  unfold pushed at h
  split at h
  · simp at h
  · rename_i hne
    rw [UndoStack.top_pushWithGroup hne h]

theorem Stamped.nil : Stamped [] := by
  intro u e v h
  simp at h

theorem Stamped.concat (hs : Stamped marks) {m : Mark}
    (hm : ∀ e, m = .entry e → e.groupId = openGroup marks) : Stamped (marks ++ [m]) := by
  intro u e v h
  rcases List.eq_nil_or_concat v with rfl | ⟨v, x, rfl⟩
  · obtain ⟨rfl, heq⟩ := List.append_inj' h rfl
    exact hm e (List.cons.inj heq).1
  · have heq : marks ++ [m] = (u ++ .entry e :: v) ++ [x] := by simpa using h
    obtain ⟨rfl, -⟩ := List.append_inj' heq rfl
    exact hs u e v rfl

structure Sound (ids : List UndoEntryId) (parts : List Part) : Prop where
  guarded : ∀ m, .guarded m ∈ parts → Stamped m ∧ (openedIds m).Nodup ∧
    (∃ fresh rest, m = .opened fresh :: rest) ∧ openedIds m ⊆ ids
  free : ∀ e, .free e ∈ parts → e.groupId = none
  disjoint : parts.Pairwise fun p q => ∀ m m', p = .guarded m → q = .guarded m' →
    (openedIds m).Disjoint (openedIds m')

theorem Sound.nil : Sound ids [] := ⟨by simp, by simp, .nil⟩

theorem Sound.mono (h : Sound ids parts) (hids : ids ⊆ ids') : Sound ids' parts where
  guarded m hm := by
    obtain ⟨hs, hn, hh, hsub⟩ := h.guarded m hm
    exact ⟨hs, hn, hh, fun g hg => hids (hsub hg)⟩
  free := h.free
  disjoint := h.disjoint

theorem Sound.cons_free (h : Sound ids parts) {e : UndoEntry} (he : e.groupId = none) :
    Sound ids (.free e :: parts) where
  guarded m hm := h.guarded m (by simpa using hm)
  free x hx := by
    simp only [List.mem_cons, Part.free.injEq] at hx
    rcases hx with rfl | hx
    · exact he
    · exact h.free x hx
  disjoint := List.pairwise_cons.mpr ⟨fun q _ m m' hp => by simp at hp, h.disjoint⟩

theorem Sound.cons_guarded (h : Sound ids parts) (hs : Stamped marks)
    (hhead : ∃ fresh rest, marks = .opened fresh :: rest)
    (hn : (openedIds marks ++ ids).Nodup) :
    Sound (openedIds marks ++ ids) (.guarded marks :: parts) where
  guarded m hm := by
    simp only [List.mem_cons, Part.guarded.injEq] at hm
    rcases hm with rfl | hm
    · exact ⟨hs, (List.nodup_append.mp hn).1, hhead, List.subset_append_left _ _⟩
    · exact (h.mono (List.subset_append_right _ _)).guarded m hm
  free e he := h.free e (by simpa using he)
  disjoint := by
    refine List.pairwise_cons.mpr ⟨fun q hq m m' hp hq' => ?_, h.disjoint⟩
    obtain rfl := Part.guarded.inj hp
    subst hq'
    obtain ⟨-, -, -, hsub⟩ := h.guarded m' hq
    intro g hg hg'
    exact (List.nodup_append.mp hn).2.2 g hg g (hsub hg') rfl

/-- The part under way at depth `k`: its marks begin with the outermost opening, and the
group they leave open is the one of the context. -/
structure Underway (c : StoreContext) (k : Nat) (marks : List Mark) : Prop where
  stamped : Stamped marks
  group : c.currentGroup = openGroup marks
  zero : k = 0 → marks = []
  head : k ≠ 0 → ∃ fresh rest, marks = .opened fresh :: rest

theorem Underway.start (hc : c.currentGroup = none) : Underway c 0 [] :=
  ⟨.nil, hc, fun _ => rfl, by simp⟩

theorem Underway.closing (h : Underway c (k + 1) marks) :
    Stamped (marks ++ [.closed]) ∧ ∃ fresh rest, marks ++ [.closed] = .opened fresh :: rest := by
  obtain ⟨fresh, rest, rfl⟩ := h.head (by simp)
  exact ⟨h.stamped.concat (by simp), fresh, rest ++ [.closed], rfl⟩

theorem Underway.concat (h : Underway c (k + 1) marks) {c' : StoreContext} {m : Mark}
    (hm : ∀ e, m = .entry e → e.groupId = openGroup marks)
    (hc : c'.currentGroup = openGroup (marks ++ [m])) (k' : Nat) :
    Underway c' (k' + 1) (marks ++ [m]) := by
  obtain ⟨fresh, rest, rfl⟩ := h.head (by simp)
  exact ⟨h.stamped.concat hm, hc, by simp, fun _ => ⟨fresh, rest ++ [m], rfl⟩⟩

theorem Underway.opened (h : Underway c k marks) (fresh : UndoEntryId) :
    Underway (c.beginUndoGroup fresh) (k + 1) (marks ++ [.opened fresh]) := by
  have hgroup : (c.beginUndoGroup fresh).currentGroup =
      openGroup (marks ++ [.opened fresh]) := by
    rw [openGroup_opened, ← h.group, StoreContext.beginUndoGroup]
    cases hg : c.currentGroup with
    | none => simp
    | some g => simp [hg]
  cases k with
  | zero =>
    obtain rfl := h.zero rfl
    exact ⟨h.stamped.concat (by simp), hgroup, by simp, fun _ => ⟨fresh, [], rfl⟩⟩
  | succ d => exact h.concat (by simp) hgroup (d + 1)

theorem Underway.closed (h : Underway c (k + 2) marks) :
    Underway c.endUndoGroup (k + 1) (marks ++ [.closed]) :=
  h.concat (by simp) openGroup_closed.symm k

theorem Underway.skipped (h : Underway c k marks) (id : UndoEntryId) (label : String)
    (itemId : StoredItemId) : Underway (c.push id label itemId) k marks :=
  ⟨h.stamped, h.group, h.zero, h.head⟩

theorem Underway.entry (h : Underway c (k + 1) marks) {id : UndoEntryId} {label : String}
    {itemId : StoredItemId} {e : UndoEntry} (he : c.pushed id label itemId = some e) :
    Underway (c.push id label itemId) (k + 1) (marks ++ [.entry e]) := by
  have hgroup : (c.push id label itemId).currentGroup = openGroup (marks ++ [.entry e]) :=
    h.group.trans (openGroup_entry e).symm
  refine h.concat (fun x hx => ?_) hgroup k
  obtain rfl := Mark.entry.inj hx
  exact (StoreContext.pushed_groupId he).trans h.group

theorem sound_parts (h : Underway c k marks) (hids : (openedIds marks ++ freshIds events).Nodup) :
    Sound (openedIds marks ++ freshIds events) (c.parts k marks events) := by
  induction events generalizing c k marks with
  | nil =>
    cases k with
    | zero => exact .nil
    | succ d => exact .cons_guarded .nil h.stamped (h.head (by simp)) hids
  | cons event rest ih =>
    cases event with
    | openGuard fresh =>
      have heq : openedIds marks ++ freshIds (.openGuard fresh :: rest) =
          openedIds (marks ++ [.opened fresh]) ++ freshIds rest := by
        simp [openedIds, freshIds]
      rw [heq] at hids ⊢
      cases k with
      | zero =>
        obtain rfl := h.zero rfl
        exact ih (h.opened fresh) hids
      | succ d => exact ih (h.opened fresh) hids
    | closeGuard =>
      have heq : openedIds marks = openedIds (marks ++ [.closed]) := by simp [openedIds]
      have hrest : (openedIds [] ++ freshIds rest).Nodup := (List.nodup_append.mp hids).2.1
      match k with
      | 0 =>
        obtain rfl := h.zero rfl
        exact ih (.start rfl) hrest
      | 1 =>
        have hdone := ih (c := c.endUndoGroup) (k := 0) (.start rfl) hrest
        rw [heq] at hids ⊢
        exact .cons_guarded hdone h.closing.1 h.closing.2 hids
      | d + 2 =>
        rw [heq] at hids ⊢
        exact ih h.closed hids
    | push id label itemId =>
      change Sound (openedIds marks ++ freshIds rest) _
      have hskip := ih (h.skipped id label itemId) hids
      cases he : c.pushed id label itemId with
      | none =>
        cases k with
        | zero =>
          obtain rfl := h.zero rfl
          simpa [StoreContext.parts, he] using hskip
        | succ d => simpa [StoreContext.parts, he] using hskip
      | some e =>
        cases k with
        | zero =>
          obtain rfl := h.zero rfl
          have hnone : e.groupId = none := (StoreContext.pushed_groupId he).trans h.group
          simpa [StoreContext.parts, he] using hskip.cons_free hnone
        | succ d =>
          have heq : openedIds marks = openedIds (marks ++ [.entry e]) := by simp [openedIds]
          rw [heq] at hids ⊢
          simpa [StoreContext.parts, he] using ih (h.entry he) hids

/-- The groups of a run are the outermost guards exactly when under each of these the
entries come after one opening, with no guard ending before the last of them. -/
theorem oneGroupEach_iff (c : StoreContext) (events : List GroupEvent)
    (hc : c.currentGroup = none) (hids : (freshIds events).Nodup) :
    OneGroupEach (c.parts 0 [] events) ↔
      ∀ marks, .guarded marks ∈ c.parts 0 [] events → Whole marks := by
  have hsound : Sound (openedIds [] ++ freshIds events) (c.parts 0 [] events) :=
    sound_parts (.start hc) hids
  have hiff : ∀ marks, .guarded marks ∈ c.parts 0 [] events →
      ((∃ g, ∀ e, .entry e ∈ marks → e.groupId = some g) ↔ Whole marks) := by
    intro marks hm
    obtain ⟨hs, hn, hhead, -⟩ := hsound.guarded marks hm
    exact same_iff_whole hs hn hhead
  constructor
  · intro h marks hm
    exact (hiff marks hm).mp (h.same marks hm)
  · intro h
    have hsame : ∀ marks, .guarded marks ∈ c.parts 0 [] events →
        ∃ g, ∀ e, .entry e ∈ marks → e.groupId = some g :=
      fun marks hm => (hiff marks hm).mpr (h marks hm)
    refine ⟨hsame, hsound.free, ?_⟩
    refine hsound.disjoint.imp_of_mem ?_
    rintro p q hp hq hdisj m m' rfl rfl e e' he he' heq
    obtain ⟨g, hg⟩ := hsame m hp
    obtain ⟨hs, -⟩ := hsound.guarded m hp
    obtain ⟨hs', -⟩ := hsound.guarded m' hq
    have hin := groupId_mem_openedIds hs he (hg e he)
    have hin' := groupId_mem_openedIds hs' he' (heq ▸ hg e he)
    exact hdisj m m' rfl rfl hin hin'

theorem oneGroupEach_nested : OneGroupEach (StoreContext.parts ⟨.new, [], none⟩ 0 []
    [.openGuard 7, .push 1 "" "a", .openGuard 8, .push 2 "" "b", .closeGuard, .closeGuard,
      .push 3 "" "c"]) := by
  have hparts : StoreContext.parts ⟨.new, [], none⟩ 0 []
      [.openGuard 7, .push 1 "" "a", .openGuard 8, .push 2 "" "b", .closeGuard, .closeGuard,
        .push 3 "" "c"] =
      [.guarded [.opened 7, .entry ⟨1, "", "a", some 7⟩, .opened 8, .entry ⟨2, "", "b", some 7⟩,
        .closed, .closed], .free ⟨3, "", "c", none⟩] := by
    decide
  refine (oneGroupEach_iff ⟨.new, [], none⟩ _ rfl (by decide)).mpr fun marks hm => ?_
  rw [hparts] at hm
  obtain rfl : marks = _ := by simpa using hm
  exact ⟨[], 7, [.entry ⟨1, "", "a", some 7⟩, .opened 8, .entry ⟨2, "", "b", some 7⟩],
    [.closed, .closed], rfl, by simp, by simp, by simp⟩

theorem not_oneGroupEach_after_inner : ¬ OneGroupEach (StoreContext.parts ⟨.new, [], none⟩ 0 []
    [.openGuard 7, .push 1 "" "a", .openGuard 8, .closeGuard, .push 2 "" "b", .closeGuard]) := by
  intro h
  obtain ⟨g, hg⟩ := h.same [.opened 7, .entry ⟨1, "", "a", some 7⟩, .opened 8, .closed,
    .entry ⟨2, "", "b", none⟩, .closed] (by decide)
  have hnone := hg ⟨2, "", "b", none⟩ (by simp)
  simp at hnone

end
end SwissArmyHammer.Store
