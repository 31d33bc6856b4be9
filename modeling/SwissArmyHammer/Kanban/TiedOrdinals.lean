import SwissArmyHammer.Kanban.MoveOrder

/-! Moves before and after a task where ordinals of the column are tied. -/

namespace SwissArmyHammer.Kanban

open Entities

section

variable {F : FractionalIndex} {tasks l : List Entity} {column id refId : String}
  {a b r t : Entity}

theorem pair_sublist_sortByOrdinal (h : [a, b].Sublist l) (hle : rawOrdinal a ≤ rawOrdinal b) :
    [a, b].Sublist (sortByOrdinal l) :=
  pair_sublist_mergeSort_value rawOrdinal h hle

theorem pair_sublist_or (ha : a ∈ l) (hb : b ∈ l) (hne : a ≠ b) :
    [a, b].Sublist l ∨ [b, a].Sublist l := by
  induction l with
  | nil => cases ha
  | cons x l ih =>
    grind

theorem not_pair_sublist (hnodup : l.Nodup) (h : [a, b].Sublist l) : ¬ [b, a].Sublist l := by
  induction l with
  | nil => cases h
  | cons x l ih =>
    obtain ⟨hx, hl⟩ := List.nodup_cons.mp hnodup
    intro h'
    rcases List.sublist_cons_iff.mp h with hl₁ | ⟨l₁, heq, h₁⟩
    · rcases List.sublist_cons_iff.mp h' with hl₂ | ⟨l₂, heq', h₂⟩
      · exact ih hl hl₁ hl₂
      · obtain ⟨rfl, rfl⟩ := List.cons.inj heq'
        exact hx (hl₁.subset (List.mem_cons_of_mem _ List.mem_cons_self))
    · obtain ⟨rfl, rfl⟩ := List.cons.inj heq
      have hb : b ∈ l := List.singleton_sublist.mp h₁
      rcases List.sublist_cons_iff.mp h' with hl₂ | ⟨l₂, heq', h₂⟩
      · exact hx (hl₂.subset (List.mem_cons_of_mem _ List.mem_cons_self))
      · obtain ⟨rfl, rfl⟩ := List.cons.inj heq'
        exact hx hb

def TiedAfter (tasks : List Entity) (column id : String) (r : Entity) : Prop :=
  ∃ t, [r, t].Sublist tasks ∧ inColumn column t = true ∧ t.id ≠ id ∧ rawOrdinal t = rawOrdinal r

theorem head_tied_iff {left right : List Entity} (hnodup : tasks.Nodup)
    (hr : inColumn column r = true) (hrid : r.id ≠ id)
    (hsplit : loadSortedColumnTasks tasks column id = left ++ r :: right) :
    (∃ y, right.head? = some y ∧ rawOrdinal y = rawOrdinal r) ↔ TiedAfter tasks column id r := by
  have hsorted := pairwise_sortByOrdinal
    (tasks.filter fun t => inColumn column t && decide (t.id ≠ id))
  have hloaded : sortByOrdinal (tasks.filter fun t => inColumn column t && decide (t.id ≠ id)) =
      left ++ r :: right := hsplit
  rw [hloaded] at hsorted
  have hnodup' : (left ++ r :: right).Nodup := by
    rw [← hloaded]
    exact (sortByOrdinal_perm _).nodup_iff.mpr (hnodup.filter _)
  have hin : ∀ {x : Entity}, x ∈ r :: right →
      x ∈ tasks.filter fun t => inColumn column t && decide (t.id ≠ id) := by
    intro x hx
    rw [← (sortByOrdinal_perm _).mem_iff, hloaded]
    exact List.mem_append_right _ hx
  have hpair : ∀ {x : Entity}, x ∈ right → [r, x].Sublist (left ++ r :: right) := fun hx =>
    ((List.singleton_sublist.mpr hx).cons_cons r).trans (List.sublist_append_right _ _)
  constructor
  · intro h
    obtain ⟨y, hy, htied⟩ := h
    have hyr : y ∈ right := List.mem_of_head? hy
    have hymem := hin (List.mem_cons_of_mem _ hyr)
    have hne : r ≠ y := by
      intro heq
      have htail := (List.nodup_append.mp hnodup').2.1
      exact (List.nodup_cons.mp htail).1 (heq ▸ hyr)
    have hcol := (List.mem_filter.mp hymem).2
    rw [Bool.and_eq_true, decide_eq_true_eq] at hcol
    rcases pair_sublist_or (hin List.mem_cons_self) hymem hne with hlisted | hlisted
    · exact ⟨y, hlisted.trans List.filter_sublist, hcol.1, hcol.2, htied⟩
    · have hback := pair_sublist_sortByOrdinal hlisted htied.le
      rw [hloaded] at hback
      exact absurd hback (not_pair_sublist hnodup' (hpair hyr))
  · intro h
    obtain ⟨t, hlisted, hcol, hid, htied⟩ := h
    have hfiltered : [r, t].Sublist
        (tasks.filter fun t => inColumn column t && decide (t.id ≠ id)) := by
      have hboth := hlisted.filter fun t => inColumn column t && decide (t.id ≠ id)
      rwa [List.filter_cons_of_pos (by simp [hr, hrid]),
        List.filter_cons_of_pos (by simp [hcol, hid]), List.filter_nil] at hboth
    have hsub := pair_sublist_sortByOrdinal hfiltered htied.ge
    rw [hloaded] at hsub
    have htr : t ∈ right := by
      have hmem : t ∈ left ++ r :: right := hsub.subset (List.mem_cons_of_mem _ List.mem_cons_self)
      have hne : r ≠ t := by
        intro heq
        have hnd := hnodup'.sublist hsub
        rw [heq] at hnd
        exact (List.nodup_cons.mp hnd).1 List.mem_cons_self
      rcases List.mem_append.mp hmem with hleft | hright
      · have hback : [t, r].Sublist (left ++ r :: right) :=
          (List.singleton_sublist.mpr hleft).append
            (List.singleton_sublist.mpr List.mem_cons_self)
        exact absurd hback (not_pair_sublist hnodup' hsub)
      · grind
    cases right with
    | nil => cases htr
    | cons y right =>
      refine ⟨y, rfl, le_antisymm ?_ ?_⟩
      · rw [← htied]
        rcases List.mem_cons.mp htr with rfl | htr
        · exact le_rfl
        · have htail := (List.pairwise_append.mp hsorted).2.1
          exact (List.pairwise_cons.mp (List.pairwise_cons.mp htail).2).1 t htr
      · have htail := (List.pairwise_append.mp hsorted).2.1
        exact (List.pairwise_cons.mp htail).1 y List.mem_cons_self

end

inductive Side
  | before
  | after
  deriving DecidableEq, Repr

def Side.move (side : Side) (id column refId : String) : MoveTask :=
  match side with
  | .before => { MoveTask.toColumn id column with beforeId := some refId }
  | .after => { MoveTask.toColumn id column with afterId := some refId }

def Side.Respects (side : Side) (ordinal reference : String) : Prop :=
  match side with
  | .before => ordinal < reference
  | .after => reference < ordinal

def KeepsSide (upper : Char → List Char) (F : FractionalIndex) (board : BoardFiles) (side : Side)
    (id column : String) (r : Entity) : Prop :=
  ∃ next ack moved, (side.move id column r.id).execute upper F board = some (next, ack) ∧
    moved ∈ next.tasks ∧ moved.id = id ∧ side.Respects (rawOrdinal moved) (rawOrdinal r)

section

variable {F : FractionalIndex} {board : BoardFiles} {tasks left right : List Entity}
  {column id : String} {r : Entity} {o p : Ordinal F}

theorem execute_side (upper : Char → List Char) (side : Side)
    (hmoved : ∃ t ∈ board.tasks, t.id = id) :
    ∃ entity ∈ board.tasks, entity.id = id ∧
      (side.move id column r.id).execute upper F board =
        some (⟨ensureColumn upper board.columns column, writeTask board.tasks
          (setPosition entity column
            (moveOrdinal F board.tasks (side.move id column r.id)).strRepr)⟩,
          taskMutationAck (setPosition entity column
            (moveOrdinal F board.tasks (side.move id column r.id)).strRepr)) := by
  obtain ⟨t, ht, hid⟩ := hmoved
  have hmove : (side.move id column r.id).id = id ∧
      (side.move id column r.id).column = column := by
    cases side with
    | before => exact ⟨rfl, rfl⟩
    | after => exact ⟨rfl, rfl⟩
  cases hfind : board.tasks.find? fun t => t.id = id with
  | none =>
    have hnone := List.find?_eq_none.mp hfind t ht
    simp [hid] at hnone
  | some entity =>
    have hfound := List.find?_some hfind
    refine ⟨entity, List.mem_of_find?_eq_some hfind, of_decide_eq_true hfound, ?_⟩
    simp only [MoveTask.execute, hmove, hfind]

variable [LinearOrder F.Key]

theorem between_lt (hF : F.Contract) (o p : Ordinal F) :
    (Ordinal.between o p).strRepr < p.strRepr := by
  unfold Ordinal.between
  cases hk : F.newBetween o.fi p.fi with
  | none => exact Ordinal.before_lt hF p
  | some k => exact (Ordinal.strRepr_lt hF).mpr (hF.newBetween_some hk).2

theorem lt_between_iff (hF : F.Contract) (o p : Ordinal F) :
    o.strRepr < (Ordinal.between o p).strRepr ↔ o.strRepr < p.strRepr := by
  constructor
  · intro h
    exact lt_trans h (between_lt hF o p)
  · intro h
    exact (Ordinal.between_bounds hF h).1

theorem ordinalBefore_lt (hF : F.Contract) (hleft : ∀ t ∈ left, t.id ≠ r.id)
    (hr : Canonical F (rawOrdinal r)) :
    (ordinalBefore F (left ++ r :: right) r.id).strRepr < rawOrdinal r := by
  rw [ordinalBefore_eq hleft, ← strRepr_taskOrdinal hr]
  cases left.getLast? with
  | none => exact Ordinal.before_lt hF _
  | some y => exact between_lt hF _ _

theorem lt_ordinalAfter_iff (hF : F.Contract) (hleft : ∀ t ∈ left, t.id ≠ r.id)
    (hr : Canonical F (rawOrdinal r)) (hright : ∀ t ∈ right, Canonical F (rawOrdinal t))
    (hle : ∀ t ∈ right, rawOrdinal r ≤ rawOrdinal t) :
    rawOrdinal r < (ordinalAfter F (left ++ r :: right) r.id).strRepr ↔
      ¬ ∃ y, right.head? = some y ∧ rawOrdinal y = rawOrdinal r := by
  rw [ordinalAfter_eq hleft, List.getLast?_concat]
  cases right with
  | nil =>
    have hlast := Ordinal.lt_after hF (taskOrdinal F r)
    rw [strRepr_taskOrdinal hr] at hlast
    constructor
    · intro _ hex
      obtain ⟨y, hy, -⟩ := hex
      cases hy
    · exact fun _ => hlast
  | cons y right =>
    have hbetween := lt_between_iff hF (taskOrdinal F r) (taskOrdinal F y)
    rw [strRepr_taskOrdinal hr, strRepr_taskOrdinal (hright y List.mem_cons_self)] at hbetween
    refine hbetween.trans ⟨fun hlt hex => ?_, fun hnot => ?_⟩
    · grind
    · grind

omit [LinearOrder F.Key] in
theorem keepsSide_iff_respects (upper : Char → List Char)
    (hids : (board.tasks.map Entity.id).Nodup) (hmoved : ∃ t ∈ board.tasks, t.id = id)
    (side : Side) :
    KeepsSide upper F board side id column r ↔
      side.Respects (moveOrdinal F board.tasks (side.move id column r.id)).strRepr
        (rawOrdinal r) := by
  obtain ⟨entity, hmem, hid, hexec⟩ := @execute_side F board column id r upper side hmoved
  have hwritten : setPosition entity column
      (moveOrdinal F board.tasks (side.move id column r.id)).strRepr ∈
        writeTask board.tasks (setPosition entity column
          (moveOrdinal F board.tasks (side.move id column r.id)).strRepr) :=
    List.mem_map.mpr ⟨entity, hmem, if_pos rfl⟩
  constructor
  · intro h
    obtain ⟨next, ack, moved, hnext, hin, hmovedId, hrespects⟩ := h
    rw [hexec] at hnext
    obtain ⟨rfl, -⟩ := Prod.mk.inj (Option.some.inj hnext)
    have hsame : moved = setPosition entity column
        (moveOrdinal F board.tasks (side.move id column r.id)).strRepr := by
      have hnodup := hids
      rw [← map_id_writeTask] at hnodup
      exact List.inj_on_of_nodup_map hnodup hin hwritten (hmovedId.trans hid.symm)
    rw [hsame, rawOrdinal_setPosition] at hrespects
    exact hrespects
  · intro hrespects
    refine ⟨_, _, _, hexec, hwritten, hid, ?_⟩
    rw [rawOrdinal_setPosition]
    exact hrespects

theorem respects_iff (hF : F.Contract) (hids : (board.tasks.map Entity.id).Nodup)
    (hcanon : ∀ t ∈ board.tasks, inColumn column t = true → Canonical F (rawOrdinal t))
    (hr : r ∈ board.tasks) (hcol : inColumn column r = true) (hne : r.id ≠ id) (side : Side) :
    side.Respects (moveOrdinal F board.tasks (side.move id column r.id)).strRepr (rawOrdinal r) ↔
      (side = .after → ¬ TiedAfter board.tasks column id r) := by
  have hloaded : r ∈ loadSortedColumnTasks board.tasks column id := mem_loadSorted.mpr ⟨hr, hcol, hne⟩
  obtain ⟨left, x, right, hsplit, hxid, hleft⟩ := exists_first ⟨r, hloaded, rfl⟩
  have hload : ∀ t ∈ left ++ x :: right,
      t ∈ board.tasks ∧ inColumn column t = true ∧ t.id ≠ id := by
    intro t ht
    rw [← hsplit] at ht
    exact mem_loadSorted.mp ht
  have hxmem := hload x (List.mem_append_right _ List.mem_cons_self)
  obtain rfl : x = r := List.inj_on_of_nodup_map hids hxmem.1 hr hxid
  have hsorted : (left ++ x :: right).Pairwise fun a b => rawOrdinal a ≤ rawOrdinal b := by
    rw [← hsplit]
    exact pairwise_sortByOrdinal _
  have hle := (List.pairwise_cons.mp (List.pairwise_append.mp hsorted).2.1).1
  have hrcanon := hcanon x hr hcol
  have hrightCanon : ∀ t ∈ right, Canonical F (rawOrdinal t) := by
    intro t ht
    have hin := hload t (List.mem_append_right _ (List.mem_cons_of_mem _ ht))
    exact hcanon t hin.1 hin.2.1
  cases side with
  | before =>
    have hlt : (ordinalBefore F (loadSortedColumnTasks board.tasks column id) x.id).strRepr <
        rawOrdinal x := by
      rw [hsplit]
      exact ordinalBefore_lt hF hleft hrcanon
    refine ⟨fun _ heq => ?_, fun _ => hlt⟩
    cases heq
  | after =>
    have hiff : rawOrdinal x < (ordinalAfter F (loadSortedColumnTasks board.tasks column id)
        x.id).strRepr ↔ ¬ TiedAfter board.tasks column id x := by
      rw [hsplit, lt_ordinalAfter_iff hF hleft hrcanon hrightCanon hle,
        head_tied_iff (List.Nodup.of_map _ hids) hcol hne hsplit]
    exact hiff.trans ⟨fun hnot _ => hnot, fun hnot => hnot rfl⟩

/-- A move before a task stores a smaller ordinal; a move after it stores a greater one exactly when
no task listed after it has its ordinal. -/
theorem keepsSide_iff (hF : F.Contract) (upper : Char → List Char)
    (hids : (board.tasks.map Entity.id).Nodup)
    (hcanon : ∀ t ∈ board.tasks, inColumn column t = true → Canonical F (rawOrdinal t))
    (hmoved : ∃ t ∈ board.tasks, t.id = id) (hr : r ∈ board.tasks)
    (hcol : inColumn column r = true) (hne : r.id ≠ id) (side : Side) :
    KeepsSide upper F board side id column r ↔
      (side = .after → ¬ TiedAfter board.tasks column id r) :=
  (keepsSide_iff_respects upper hids hmoved side).trans
    (respects_iff hF hids hcanon hr hcol hne side)

def tiedBoard : BoardFiles where
  columns := [.new "column" "todo"]
  tasks := [placed "a" "todo" "80", placed "b" "todo" "80", placed "c" "doing" "80"]

theorem canonical_tiedBoard : ∀ t ∈ tiedBoard.tasks, Canonical binaryIndex (rawOrdinal t) := by
  have hdefault : Canonical binaryIndex "80" := ⟨[], by decide⟩
  intro t ht
  simp only [tiedBoard, List.mem_cons, List.not_mem_nil, or_false] at ht
  rcases ht with rfl | rfl | rfl
  · exact (rawOrdinal_setPosition _ "todo" "80").symm ▸ hdefault
  · exact (rawOrdinal_setPosition _ "todo" "80").symm ▸ hdefault
  · exact (rawOrdinal_setPosition _ "doing" "80").symm ▸ hdefault

theorem b_mem_tiedBoard : placed "b" "todo" "80" ∈ tiedBoard.tasks :=
  List.mem_cons_of_mem _ List.mem_cons_self

theorem c_mem_tiedBoard : placed "c" "doing" "80" ∈ tiedBoard.tasks :=
  List.mem_cons_of_mem _ (List.mem_cons_of_mem _ List.mem_cons_self)

theorem keepsSide_before_b :
    KeepsSide (fun c => [c.toUpper]) binaryIndex tiedBoard .before "c" "todo"
      (placed "b" "todo" "80") := by
  refine (keepsSide_iff binaryIndex_contract _ (by decide)
    (fun t ht _ => canonical_tiedBoard t ht) ⟨_, c_mem_tiedBoard, rfl⟩ b_mem_tiedBoard
    (inColumn_setPosition _ _ _) (by decide) .before).mpr fun heq => ?_
  cases heq

theorem tied_after_goes_before : ∃ board id column r,
    (board.tasks.map Entity.id).Nodup ∧
      (∀ t ∈ board.tasks, inColumn column t = true → Canonical binaryIndex (rawOrdinal t)) ∧
      (∃ t ∈ board.tasks, t.id = id) ∧ r ∈ board.tasks ∧ inColumn column r = true ∧ r.id ≠ id ∧
      ¬ KeepsSide (fun c => [c.toUpper]) binaryIndex board .after id column r := by
  have hcanon : ∀ t ∈ tiedBoard.tasks, inColumn "todo" t = true →
      Canonical binaryIndex (rawOrdinal t) :=
    fun t ht _ => canonical_tiedBoard t ht
  have hcol : inColumn "todo" (placed "a" "todo" "80") = true := inColumn_setPosition _ _ _
  refine ⟨tiedBoard, "c", "todo", placed "a" "todo" "80", by decide, hcanon,
    ⟨_, c_mem_tiedBoard, rfl⟩, List.mem_cons_self, hcol, by decide, fun h => ?_⟩
  have hrespects := (keepsSide_iff_respects _ (by decide) ⟨_, c_mem_tiedBoard, rfl⟩ .after).mp h
  have hnot := (respects_iff binaryIndex_contract (by decide) hcanon List.mem_cons_self hcol
    (by decide) .after).mp hrespects rfl
  apply hnot
  refine ⟨placed "b" "todo" "80", ?_, inColumn_setPosition _ _ _, by decide, ?_⟩
  · exact (List.singleton_sublist.mpr List.mem_cons_self).cons_cons _
  · rw [placed, placed, rawOrdinal_setPosition, rawOrdinal_setPosition]

end

end SwissArmyHammer.Kanban
