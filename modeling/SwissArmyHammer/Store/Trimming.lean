import SwissArmyHammer.Store.StackRuns

/-! Trimming to capacity and the groups of the undo stack: which pushes leave a group in part. -/

namespace SwissArmyHammer.Store

namespace UndoStack

def Grouped (entries : List UndoEntry) : Prop :=
  ∀ x y z group, [x, y, z].Sublist entries → x.groupId = some group → z.groupId = some group →
    y.groupId = some group

variable {s : UndoStack} {x y e : UndoEntry} {group : UndoEntryId} {entries : List UndoEntry}
  {r : Nat × Nat}

theorem Grouped.sublist (h : Grouped entries) {kept : List UndoEntry} (hsub : kept.Sublist entries) :
    Grouped kept :=
  fun x y z group hxyz => h x y z group (hxyz.trans hsub)

theorem Grouped.concat (h : Grouped entries)
    (hjoin : ∀ group, e.groupId = some group → (∃ x ∈ entries, x.groupId = some group) →
      ∃ last, entries.getLast? = some last ∧ last.groupId = some group) :
    Grouped (entries ++ [e]) := by
  intro x y z group hxyz hx hz
  obtain ⟨l₁, l₂, hl, hl₁, hl₂⟩ := List.sublist_append_iff.mp hxyz
  rcases List.sublist_singleton.mp hl₂ with rfl | rfl
  · rw [List.append_nil] at hl
    subst hl
    exact h x y z group hl₁ hx hz
  · have hlast : l₁ ++ [e] = [x, y] ++ [z] := hl.symm
    obtain ⟨rfl, hze⟩ := List.append_inj' hlast rfl
    obtain rfl := List.singleton_inj.mp hze
    have hxmem : x ∈ entries := hl₁.subset List.mem_cons_self
    obtain ⟨last, hgetLast, hgroup⟩ := hjoin group hz ⟨x, hxmem, hx⟩
    obtain ⟨init, rfl⟩ := List.getLast?_eq_some_iff.mp hgetLast
    obtain ⟨m₁, m₂, hm, hm₁, hm₂⟩ := List.sublist_append_iff.mp hl₁
    rcases List.sublist_singleton.mp hm₂ with rfl | rfl
    · rw [List.append_nil] at hm
      subst hm
      exact h x y last group (hm₁.append (List.Sublist.refl [last])) hx hgroup
    · have hylast : m₁ ++ [last] = [x] ++ [y] := hm.symm
      obtain ⟨-, heq⟩ := List.append_inj' hylast rfl
      obtain rfl := List.singleton_inj.mp heq
      exact hgroup

theorem WellPlaced.no_cross (h : s.WellPlaced) (hgrouped : Grouped s.entries)
    (hx : x ∈ s.entries.take s.pointer) (hy : y ∈ s.entries.drop s.pointer)
    (hgx : x.groupId = some group) : y.groupId ≠ some group := by
  intro hgy
  have hlt : s.pointer < s.entries.length := by
    have hpos := List.length_pos_of_mem hy
    rw [List.length_drop] at hpos
    omega
  have hpos : 0 < s.pointer := by
    have hpos := List.length_pos_of_mem hx
    rw [List.length_take] at hpos
    omega
  have hbefore : s.pointer - 1 < s.entries.length := by omega
  have htake : s.entries.take s.pointer =
      s.entries.take (s.pointer - 1) ++ [s.entries[s.pointer - 1]] := by
    rw [List.take_append_getElem, Nat.sub_add_cancel hpos]
  have hdrop : s.entries.drop s.pointer =
      s.entries[s.pointer] :: s.entries.drop (s.pointer + 1) :=
    List.drop_eq_getElem_cons hlt
  have hsub : ∀ {l₁ l₂ : List UndoEntry}, l₁.Sublist (s.entries.take s.pointer) →
      l₂.Sublist (s.entries.drop s.pointer) → (l₁ ++ l₂).Sublist s.entries := by
    intro l₁ l₂ h₁ h₂
    have hboth := h₁.append h₂
    rwa [List.take_append_drop] at hboth
  have hleft : s.entries[s.pointer - 1].groupId = some group := by
    rw [htake] at hx
    rcases List.mem_append.mp hx with hx | hx
    · have hpair : [x, s.entries[s.pointer - 1]].Sublist (s.entries.take s.pointer) := by
        rw [htake]
        exact (List.singleton_sublist.mpr hx).append (List.Sublist.refl [_])
      exact hgrouped _ _ _ group (hsub hpair (List.singleton_sublist.mpr hy)) hgx hgy
    · rw [← List.mem_singleton.mp hx]
      exact hgx
  have hright : s.entries[s.pointer].groupId = some group := by
    rw [hdrop] at hy
    rcases List.mem_cons.mp hy with hy | hy
    · rw [← hy]
      exact hgy
    · have hpair : [s.entries[s.pointer], y].Sublist (s.entries.drop s.pointer) := by
        rw [hdrop]
        exact (List.singleton_sublist.mpr hy).cons_cons _
      exact hgrouped _ _ _ group (hsub (List.singleton_sublist.mpr hx) hpair) hgx hgy
  apply h.boundary group hpos
  · rw [groupAt, List.getElem?_eq_getElem hbefore]
    exact hleft
  · rw [groupAt, List.getElem?_eq_getElem hlt]
    exact hright

theorem top_mem (h : s.top = some e) : e ∈ s.entries := by
  rw [top] at h
  split at h
  · exact List.mem_of_getElem? h
  · cases h

end UndoStack

structure PushRun where
  stack : UndoStack
  pushed : List UndoEntry
  deriving DecidableEq, Repr

/-- A push has an id of its own, and joins the group of the push before it or none there is. -/
def StackCall.Fresh (pushed : List UndoEntry) : StackCall → Prop
  | .push e => e.id ∉ pushed.map (·.id) ∧
      ∀ group, e.groupId = some group → (∃ x ∈ pushed, x.groupId = some group) →
        ∃ last, pushed.getLast? = some last ∧ last.groupId = some group
  | .undo => True
  | .redo => True

namespace PushRun

def start (maxSize : Nat) : PushRun := ⟨.withMaxSize maxSize, []⟩

def next (s : PushRun) : StackCall → PushRun
  | .push e => ⟨s.stack.apply (.push e), s.pushed ++ [e]⟩
  | .undo => ⟨s.stack.apply .undo, s.pushed⟩
  | .redo => ⟨s.stack.apply .redo, s.pushed⟩

/-- Groups on the done side are retained as a whole, and one undo reverses the whole of one. -/
structure Unsplit (s : PushRun) : Prop where
  retained : ∀ group, (∃ x ∈ s.stack.entries.take s.stack.pointer, x.groupId = some group) →
    ∀ x ∈ s.pushed, x.groupId = some group → x ∈ s.stack.entries
  undone : ∀ r top group, s.stack.groupUndoRange = some r → s.stack.top = some top →
    top.groupId = some group →
      ∀ x ∈ s.pushed, x.groupId = some group → x ∈ s.stack.range r

/-- The push drops one of two oldest entries of a group, or discards undone entries of the group
that it joins. -/
def Splits (s : UndoStack) : StackCall → Prop
  | .push e =>
    (s.maxSize ≤ s.pointer ∧ ∃ a b rest group, s.entries.take s.pointer ++ [e] = a :: b :: rest ∧
      a.groupId = some group ∧ b.groupId = some group) ∨
    ∃ x ∈ s.entries.drop s.pointer, ∃ group, x.groupId = some group ∧ e.groupId = some group
  | .undo => False
  | .redo => False

/-- The entries were pushed in this order, each under its own id, the last one still there. -/
structure Orderly (s : PushRun) : Prop where
  placed : s.stack.WellPlaced
  sub : s.stack.entries.Sublist s.pushed
  nodup : (s.pushed.map (·.id)).Nodup
  grouped : UndoStack.Grouped s.pushed
  last : 0 < s.stack.maxSize → s.stack.entries.getLast? = s.pushed.getLast?

def Whole (s : PushRun) : Prop :=
  ∀ group, (∃ x ∈ s.stack.entries, x.groupId = some group) →
    ∀ x ∈ s.pushed, x.groupId = some group → x ∈ s.stack.entries

variable {s s' : PushRun} {e x : UndoEntry} {maxSize : Nat} {c : StackCall}

theorem orderly_start (maxSize : Nat) : (start maxSize).Orderly where
  placed := UndoStack.wellPlaced_withMaxSize maxSize
  sub := List.nil_sublist _
  nodup := List.nodup_nil
  grouped x y z group h := by
    have hlength := h.length_le
    simp [start] at hlength
  last _ := rfl

theorem whole_start (maxSize : Nat) : (start maxSize).Whole := by
  intro group _ x hx
  cases hx

def kept (s : PushRun) (e : UndoEntry) : List UndoEntry :=
  (s.stack.entries.take s.stack.pointer ++ [e]).drop (s.stack.pointer + 1 - s.stack.maxSize)

theorem Orderly.next_push (h : s.Orderly) (hfresh : e.id ∉ s.pushed.map (·.id)) :
    s.next (.push e) = ⟨⟨s.kept e, (s.kept e).length, s.stack.maxSize⟩, s.pushed ++ [e]⟩ := by
  have hne : s.stack.top.map (·.id) ≠ some e.id := by
    intro heq
    obtain ⟨top, htop, hid⟩ := Option.map_eq_some_iff.mp heq
    have hmem : top ∈ s.pushed := h.sub.subset (UndoStack.top_mem htop)
    exact hfresh (hid ▸ List.mem_map_of_mem hmem)
  have hpush := UndoStack.pushWithGroup_eq h.placed.pointer_le hne
  rw [next, UndoStack.apply, hpush]
  rfl

theorem kept_sublist (s : PushRun) (e : UndoEntry) :
    (s.kept e).Sublist (s.stack.entries.take s.stack.pointer ++ [e]) :=
  List.drop_sublist _ _

theorem Orderly.done_sublist (h : s.Orderly) (e : UndoEntry) :
    (s.stack.entries.take s.stack.pointer ++ [e]).Sublist (s.pushed ++ [e]) :=
  ((List.take_sublist _ _).trans h.sub).append (List.Sublist.refl [e])

theorem Orderly.kept_getLast (h : s.Orderly) (e : UndoEntry) (hpos : 0 < s.stack.maxSize) :
    (s.kept e).getLast? = some e := by
  have hle := h.placed.pointer_le
  have hlength : s.stack.pointer + 1 - s.stack.maxSize ≤
      (s.stack.entries.take s.stack.pointer).length := by
    rw [List.length_take_of_le hle]
    omega
  rw [kept, List.drop_append_of_le_length hlength, List.getLast?_concat]

theorem next_entries (s : PushRun) (hc : c = .undo ∨ c = .redo) :
    (s.next c).stack.entries = s.stack.entries ∧
      (s.next c).stack.maxSize = s.stack.maxSize := by
  rcases hc with rfl | rfl
  · rw [next, UndoStack.apply]
    split
    · exact ⟨rfl, rfl⟩
    · exact ⟨rfl, rfl⟩
  · rw [next, UndoStack.apply]
    split
    · exact ⟨rfl, rfl⟩
    · exact ⟨rfl, rfl⟩

theorem Orderly.next (h : s.Orderly) (hfresh : c.Fresh s.pushed) : (s.next c).Orderly := by
  have hplaced : (s.next c).stack.WellPlaced := by
    cases c with
    | push e => exact h.placed.apply (.push e)
    | undo => exact h.placed.apply .undo
    | redo => exact h.placed.apply .redo
  cases c with
  | push e =>
    have hgrouped : UndoStack.Grouped (s.pushed ++ [e]) := h.grouped.concat hfresh.2
    rw [h.next_push hfresh.1] at hplaced ⊢
    refine ⟨hplaced, (kept_sublist s e).trans (h.done_sublist e), ?_, hgrouped, fun hpos => ?_⟩
    · rw [List.map_append]
      exact List.Nodup.append h.nodup (List.nodup_singleton _) fun id hid hide => by
        rw [List.map_singleton, List.mem_singleton] at hide
        exact hfresh.1 (hide ▸ hid)
    · rw [h.kept_getLast e hpos, List.getLast?_concat]
  | undo =>
    obtain ⟨hentries, hmax⟩ := next_entries s (.inl rfl)
    exact ⟨hplaced, hentries.symm ▸ h.sub, h.nodup, h.grouped, hentries.symm ▸ hmax.symm ▸ h.last⟩
  | redo =>
    obtain ⟨hentries, hmax⟩ := next_entries s (.inr rfl)
    exact ⟨hplaced, hentries.symm ▸ h.sub, h.nodup, h.grouped, hentries.symm ▸ hmax.symm ▸ h.last⟩

theorem mem_side (s : PushRun) (hx : x ∈ s.stack.entries) :
    x ∈ s.stack.entries.take s.stack.pointer ∨ x ∈ s.stack.entries.drop s.stack.pointer := by
  rw [← List.take_append_drop s.stack.pointer s.stack.entries] at hx
  exact List.mem_append.mp hx

theorem Orderly.done_whole (h : s.Orderly) (hwhole : s.Whole) (hpos : 0 < s.stack.maxSize)
    (hfresh : (StackCall.push e).Fresh s.pushed)
    (hundone : ¬ ∃ x ∈ s.stack.entries.drop s.stack.pointer, ∃ group,
      x.groupId = some group ∧ e.groupId = some group) {group : UndoEntryId} {y : UndoEntry}
    (hy : y ∈ s.stack.entries.take s.stack.pointer ++ [e]) (hgy : y.groupId = some group)
    (hx : x ∈ s.pushed ++ [e]) (hgx : x.groupId = some group) :
    x ∈ s.stack.entries.take s.stack.pointer ++ [e] := by
  rcases List.mem_append.mp hx with hpushed | hxe
  · apply List.mem_append_left
    rcases List.mem_append.mp hy with hy | hy
    · have hentry : x ∈ s.stack.entries :=
        hwhole group ⟨y, List.mem_of_mem_take hy, hgy⟩ x hpushed hgx
      rcases s.mem_side hentry with hdone | hredo
      · exact hdone
      · exact absurd hgx (h.placed.no_cross (h.grouped.sublist h.sub) hy hredo hgy)
    · obtain rfl := List.mem_singleton.mp hy
      obtain ⟨last, hgetLast, hlast⟩ := hfresh.2 group hgy ⟨x, hpushed, hgx⟩
      have hretained : last ∈ s.stack.entries := by
        rw [← h.last hpos] at hgetLast
        exact List.mem_of_getLast? hgetLast
      have hentry : x ∈ s.stack.entries := hwhole group ⟨last, hretained, hlast⟩ x hpushed hgx
      rcases s.mem_side hentry with hdone | hredo
      · exact hdone
      · exact absurd ⟨x, hredo, group, hgx, hgy⟩ hundone
  · exact List.mem_append_right _ hxe

theorem Orderly.whole_push (h : s.Orderly) (hwhole : s.Whole)
    (hfresh : (StackCall.push e).Fresh s.pushed) (hsplits : ¬ Splits s.stack (.push e)) :
    (s.next (.push e)).Whole := by
  have hnext := h.next hfresh
  rw [h.next_push hfresh.1] at hnext ⊢
  intro group hsome x hx hgx
  obtain ⟨y, hy, hgy⟩ := hsome
  have hpos : 0 < s.stack.maxSize := by
    by_contra hzero
    have hle := h.placed.pointer_le
    have hlength := h.placed.length_le
    have hmem := List.length_pos_of_mem hy
    rw [kept, List.length_drop, List.length_append, List.length_take_of_le hle,
      List.length_singleton] at hmem
    omega
  have hundone : ¬ ∃ x ∈ s.stack.entries.drop s.stack.pointer, ∃ group,
      x.groupId = some group ∧ e.groupId = some group := fun hex => hsplits (.inr hex)
  have hdone : x ∈ s.stack.entries.take s.stack.pointer ++ [e] :=
    h.done_whole hwhole hpos hfresh hundone ((kept_sublist s e).subset hy) hgy hx hgx
  by_cases hroom : s.stack.pointer < s.stack.maxSize
  · rw [kept, Nat.sub_eq_zero_of_le hroom]
    exact hdone
  · have hone : s.stack.pointer + 1 - s.stack.maxSize = 1 := by
      have hle := h.placed.pointer_le
      have hlength := h.placed.length_le
      omega
    have hgrouped : UndoStack.Grouped (s.stack.entries.take s.stack.pointer ++ [e]) :=
      hnext.grouped.sublist (h.done_sublist e)
    rw [kept, hone] at hy ⊢
    cases hlist : s.stack.entries.take s.stack.pointer ++ [e] with
    | nil =>
      rw [hlist] at hdone
      cases hdone
    | cons a rest =>
      rw [hlist] at hdone hy hgrouped
      rcases List.mem_cons.mp hdone with rfl | hmem
      · exfalso
        cases rest with
        | nil => cases hy
        | cons b rest =>
          have hb : b.groupId = some group := by
            rcases List.mem_cons.mp hy with rfl | hy
            · exact hgy
            · have hsub : [x, b, y].Sublist (x :: b :: rest) :=
                ((List.singleton_sublist.mpr hy).cons_cons b).cons_cons x
              exact hgrouped x b y group hsub hgx hgy
          exact hsplits (.inl ⟨Nat.le_of_not_lt hroom, x, b, rest, group, hlist, hgx, hb⟩)
      · exact hmem

theorem Orderly.whole_next (h : s.Orderly) (hwhole : s.Whole) (hfresh : c.Fresh s.pushed)
    (hsplits : ¬ Splits s.stack c) : (s.next c).Whole := by
  cases c with
  | push e => exact h.whole_push hwhole hfresh hsplits
  | undo =>
    obtain ⟨hentries, -⟩ := next_entries s (.inl rfl)
    rw [Whole, hentries]
    exact hwhole
  | redo =>
    obtain ⟨hentries, -⟩ := next_entries s (.inr rfl)
    rw [Whole, hentries]
    exact hwhole

theorem Orderly.unsplit (h : s.Orderly) (hwhole : s.Whole) : s.Unsplit where
  retained group hdone := by
    obtain ⟨y, hy, hgy⟩ := hdone
    exact hwhole group ⟨y, List.mem_of_mem_take hy, hgy⟩
  undone r top group hr htop hgroup x hx hgx := by
    obtain ⟨hblock, hend⟩ := h.placed.block_of_undo hr
    have hlt := hblock.lt
    have hgrouped := h.grouped.sublist h.sub
    have hentry : s.stack.entries[s.stack.pointer - 1]? = some top := by
      rw [UndoStack.top] at htop
      split at htop
      · exact htop
      · cases htop
    have htopDone : top ∈ s.stack.entries.take s.stack.pointer := by
      apply List.mem_of_getElem? (i := s.stack.pointer - 1)
      rw [List.getElem?_take_of_lt (by omega)]
      exact hentry
    have hmem : x ∈ s.stack.entries :=
      hwhole group ⟨top, List.mem_of_mem_take htopDone, hgroup⟩ x hx hgx
    have hdone : x ∈ s.stack.entries.take r.2 := by
      rw [hend]
      rcases s.mem_side hmem with hdone | hredo
      · exact hdone
      · exact absurd hgx (h.placed.no_cross hgrouped htopDone hredo hgroup)
    rw [← List.take_append_drop r.1 (s.stack.entries.take r.2)] at hdone
    rcases List.mem_append.mp hdone with hbefore | hin
    · exfalso
      have hplaced := h.placed.withPointer hblock (.inl rfl)
      rw [List.take_take, Nat.min_eq_left hlt.le] at hbefore
      have htopAfter : top ∈ s.stack.entries.drop r.1 := by
        apply List.mem_of_getElem? (i := s.stack.pointer - 1 - r.1)
        rw [List.getElem?_drop,
          show r.1 + (s.stack.pointer - 1 - r.1) = s.stack.pointer - 1 by omega]
        exact hentry
      exact hplaced.no_cross hgrouped hbefore htopAfter hgx hgroup
    · exact hin

theorem Orderly.not_unsplit (h : s.Orderly) (hfresh : c.Fresh s.pushed)
    (hsplits : Splits s.stack c) : ¬ (s.next c).Unsplit := by
  intro hunsplit
  have hnext := h.next hfresh
  cases c with
  | undo => exact hsplits
  | redo => exact hsplits
  | push e =>
    rw [h.next_push hfresh.1] at hunsplit hnext
    have hretained := hunsplit.retained
    rw [List.take_length] at hretained
    have hnodup : (s.pushed ++ [e]).Nodup := List.Nodup.of_map _ hnext.nodup
    have hle := h.placed.pointer_le
    have hlength := h.placed.length_le
    rcases hsplits with ⟨hfull, a, b, rest, group, hlist, ha, hb⟩ | ⟨x, hx, group, hgx, hge⟩
    · have hone : s.stack.pointer + 1 - s.stack.maxSize = 1 := by
        have hsize := congrArg List.length hlist
        rw [List.length_append, List.length_take_of_le hle, List.length_singleton,
          List.length_cons, List.length_cons] at hsize
        omega
      have hkept : s.kept e = b :: rest := by
        rw [kept, hone, hlist, List.drop_one, List.tail_cons]
      have hsub := h.done_sublist e
      rw [hlist] at hsub
      have hain : a ∈ s.kept e := by
        apply hretained group
        · rw [hkept]
          exact ⟨b, List.mem_cons_self, hb⟩
        · exact hsub.subset List.mem_cons_self
        · exact ha
      rw [hkept] at hain
      exact (List.nodup_cons.mp (hnodup.sublist hsub)).1 hain
    · have hpos : 0 < s.stack.maxSize := by
        have hmem := List.length_pos_of_mem hx
        rw [List.length_drop] at hmem
        omega
      have hlast : e ∈ s.kept e := List.mem_of_getLast? (h.kept_getLast e hpos)
      have hxpushed : x ∈ s.pushed := h.sub.subset (List.mem_of_mem_drop hx)
      have hxin : x ∈ s.kept e := by
        apply hretained group ⟨e, hlast, hge⟩
        · exact List.mem_append_left _ hxpushed
        · exact hgx
      rcases List.mem_append.mp ((kept_sublist s e).subset hxin) with hxdone | hxe
      · have hentries : s.stack.entries.Nodup :=
          (List.Nodup.of_map _ h.nodup).sublist h.sub
        rw [← List.take_append_drop s.stack.pointer s.stack.entries] at hentries
        exact (List.nodup_append.mp hentries).2.2 x hxdone x hx rfl
      · rw [List.mem_singleton.mp hxe] at hxpushed
        exact hfresh.1 (List.mem_map_of_mem hxpushed)

/-- A run keeps the groups of its done side whole when no push of it splits a group, and only
then. -/
theorem unsplit_iff {steps : List (StackCall × PushRun)}
    (h : Trace (fun s c s' => s' = s.next c) (start maxSize) steps)
    (hfresh : Trace.Every (fun s c _ => c.Fresh s.pushed) (start maxSize) steps) :
    Trace.Every (fun _ _ s' => s'.Unsplit) (start maxSize) steps ↔
      Trace.Every (fun s c _ => ¬ Splits s.stack c) (start maxSize) steps := by
  constructor
  · intro hunsplit
    have horderly : Trace.Every (fun s c s' => s.Orderly ∧ c.Fresh s.pushed ∧ s' = s.next c)
        (start maxSize) steps := by
      refine Trace.every_of_invariant (I := Orderly) (fun s c s' hs hc hstep => ?_) h
        (orderly_start maxSize) hfresh
      exact ⟨hstep ▸ hs.next hc, hs, hc, hstep⟩
    refine (horderly.and hunsplit).imp fun s c s' hboth hsplits => ?_
    obtain ⟨⟨hs, hc, rfl⟩, hs'⟩ := hboth
    exact hs.not_unsplit hc hsplits hs'
  · intro hkeeps
    refine Trace.every_of_invariant (I := fun s => s.Orderly ∧ s.Whole)
      (G := fun s c => c.Fresh s.pushed ∧ ¬ Splits s.stack c) (fun s c s' hs hc hstep => ?_) h
      ⟨orderly_start maxSize, whole_start maxSize⟩ (hfresh.and hkeeps)
    subst hstep
    have horderly := hs.1.next hc.1
    have hwhole := hs.1.whole_next hs.2 hc.1 hc.2
    exact ⟨⟨horderly, hwhole⟩, horderly.unsplit hwhole⟩

def writeEntry (id : UndoEntryId) (groupId : Option UndoEntryId) : UndoEntry :=
  ⟨id, "update task", "t", groupId⟩

def states (s : PushRun) : List StackCall → List (StackCall × PushRun)
  | [] => []
  | c :: rest => (c, s.next c) :: (s.next c).states rest

theorem trace_states (s : PushRun) (calls : List StackCall) :
    Trace (fun s c s' => s' = s.next c) s (s.states calls) := by
  induction calls generalizing s with
  | nil => exact .nil s
  | cons c rest ih => exact .cons rfl (ih (s.next c))

def pairCalls : List StackCall :=
  [.push (writeEntry 1 (some 7)), .push (writeEntry 2 (some 7)), .undo]

theorem fresh_pairCalls :
    Trace.Every (fun s c _ => c.Fresh s.pushed) (start 2) ((start 2).states pairCalls) := by
  refine ⟨?_, ?_, trivial, trivial⟩
  · refine ⟨by decide, fun group _ hex => ?_⟩
    obtain ⟨x, hx, -⟩ := hex
    cases hx
  · refine ⟨by decide, fun group hgroup _ => ?_⟩
    exact ⟨writeEntry 1 (some 7), rfl, hgroup⟩

theorem pair_unsplit :
    Trace.Every (fun _ _ s' => s'.Unsplit) (start 2) ((start 2).states pairCalls) := by
  refine (unsplit_iff (trace_states _ _) fresh_pairCalls).mpr ⟨?_, ?_, fun h => h, trivial⟩
  · rintro (⟨hfull, -⟩ | ⟨x, hx, -⟩)
    · exact absurd hfull (by decide)
    · cases hx
  · rintro (⟨hfull, -⟩ | ⟨x, hx, -⟩)
    · exact absurd hfull (by decide)
    · cases hx

theorem pair_split_by_third :
    ∃ calls, Trace.Every (fun s c _ => c.Fresh s.pushed) (start 2) ((start 2).states calls) ∧
      ¬ Trace.Every (fun _ _ s' => s'.Unsplit) (start 2) ((start 2).states calls) := by
  refine ⟨[.push (writeEntry 1 (some 7)), .push (writeEntry 2 (some 7)),
    .push (writeEntry 3 none)], ⟨fresh_pairCalls.1, fresh_pairCalls.2.1, ?_, trivial⟩, fun h => ?_⟩
  · refine ⟨by decide, fun group hgroup _ => ?_⟩
    cases hgroup
  · have hsome : ∃ x ∈ [writeEntry 2 (some 7), writeEntry 3 none], x.groupId = some 7 :=
      ⟨writeEntry 2 (some 7), List.mem_cons_self, rfl⟩
    have hlost := h.2.2.1.retained 7 hsome (writeEntry 1 (some 7)) List.mem_cons_self rfl
    exact absurd hlost (by decide)

end PushRun

end SwissArmyHammer.Store
