import SwissArmyHammer.Common.StableSort
import SwissArmyHammer.Kanban.TaskHelpers

/-! A moved task lands where it was asked to, and the ordinals of its column stay distinct. -/

namespace SwissArmyHammer.Kanban

open Entities

section

variable {l l' : List Entity}

def Ordered (l : List Entity) : Prop := l.Pairwise fun a b => rawOrdinal a < rawOrdinal b

theorem sortByOrdinal_perm (l : List Entity) : (sortByOrdinal l).Perm l := List.mergeSort_perm _ _

theorem pairwise_sortByOrdinal (l : List Entity) :
    (sortByOrdinal l).Pairwise fun a b => rawOrdinal a ≤ rawOrdinal b :=
  pairwise_mergeSort_value rawOrdinal l

theorem ordered_sortByOrdinal (h : l.Pairwise fun a b => rawOrdinal a ≠ rawOrdinal b) :
    Ordered (sortByOrdinal l) := by
  have hsorted := pairwise_sortByOrdinal l
  have hdistinct : (sortByOrdinal l).Pairwise fun a b => rawOrdinal a ≠ rawOrdinal b :=
    h.perm (sortByOrdinal_perm l).symm fun hab => hab.symm
  exact (hsorted.and hdistinct).imp fun hab => lt_of_le_of_ne hab.1 hab.2

theorem sortByOrdinal_eq (hperm : l'.Perm l) (h : Ordered l) : sortByOrdinal l' = l := by
  have hdistinct : l.Pairwise fun a b => rawOrdinal a ≠ rawOrdinal b := h.imp fun hab => ne_of_lt hab
  have hsorted := ordered_sortByOrdinal (hdistinct.perm hperm.symm fun hab => hab.symm)
  refine List.Perm.eq_of_pairwise ?_ hsorted h ((sortByOrdinal_perm l').trans hperm)
  intro a b _ _ hab hba
  exact absurd (lt_trans hab hba) (lt_irrefl _)

end

section

variable {F : FractionalIndex} {tasks tasks' : List Entity} {column id : String}

structure ColumnOk (F : FractionalIndex) (tasks : List Entity) (column : String) : Prop where
  canonical : ∀ t ∈ tasks, inColumn column t = true → Canonical F (rawOrdinal t)
  distinct : (tasks.filter (inColumn column)).Pairwise fun a b => rawOrdinal a ≠ rawOrdinal b

theorem ColumnOk.perm (h : ColumnOk F tasks column) (hperm : tasks'.Perm tasks) :
    ColumnOk F tasks' column :=
  ⟨fun t ht => h.canonical t (hperm.mem_iff.mp ht),
    h.distinct.perm (hperm.symm.filter _) fun hab => hab.symm⟩

theorem filter_other (tasks : List Entity) (column id : String) :
    tasks.filter (fun t => inColumn column t && decide (t.id ≠ id)) =
      (tasks.filter (inColumn column)).filter fun t => decide (t.id ≠ id) := by
  rw [List.filter_filter]
  congr 1
  funext t
  exact Bool.and_comm _ _

theorem loadSorted_eq (h : ColumnOk F tasks column) (id : String) :
    loadSortedColumnTasks tasks column id =
      (sortByOrdinal (tasks.filter (inColumn column))).filter fun t => decide (t.id ≠ id) := by
  rw [loadSortedColumnTasks, filter_other]
  exact sortByOrdinal_eq ((sortByOrdinal_perm _).symm.filter _)
    ((ordered_sortByOrdinal h.distinct).filter _)

theorem ordered_loadSorted (h : ColumnOk F tasks column) (id : String) :
    Ordered (loadSortedColumnTasks tasks column id) := by
  rw [loadSorted_eq h]
  exact (ordered_sortByOrdinal h.distinct).filter _

theorem mem_loadSorted {t : Entity} : t ∈ loadSortedColumnTasks tasks column id ↔
    t ∈ tasks ∧ inColumn column t = true ∧ t.id ≠ id := by
  rw [loadSortedColumnTasks, (sortByOrdinal_perm _).mem_iff, List.mem_filter, Bool.and_eq_true,
    decide_eq_true_eq]

end

section

variable {F : FractionalIndex} {tasks left right : List Entity} {column id refId : String}
  {t x : Entity} {o : Ordinal F}

structure Separates (o : Ordinal F) (left right : List Entity) : Prop where
  left : ∀ t ∈ left, rawOrdinal t < o.strRepr
  right : ∀ t ∈ right, o.strRepr < rawOrdinal t

theorem strRepr_taskOrdinal (h : Canonical F (rawOrdinal t)) :
    (taskOrdinal F t).strRepr = rawOrdinal t :=
  Ordinal.strRepr_fromString h

theorem Ordered.lt_of_last {left : List Entity} (h : Ordered (left ++ [x])) :
    ∀ t ∈ left, rawOrdinal t < rawOrdinal x := by
  intro t ht
  exact (List.pairwise_append.mp h).2.2 t ht x (by simp)

theorem Ordered.lt_of_head (h : Ordered (x :: right)) : ∀ t ∈ right, rawOrdinal x < rawOrdinal t :=
  (List.pairwise_cons.mp h).1

theorem findIdx?_append {left right : List Entity} (hleft : ∀ t ∈ left, t.id ≠ x.id) :
    (left ++ x :: right).findIdx? (fun t => t.id = x.id) = some left.length := by grind

theorem ordinalBefore_eq (hleft : ∀ t ∈ left, t.id ≠ x.id) :
    ordinalBefore F (left ++ x :: right) x.id =
      computeOrdinalForNeighbors (left.getLast?.map (taskOrdinal F))
        ((x :: right).head?.map (taskOrdinal F)) := by
  rw [ordinalBefore, findIdx?_append hleft]
  rcases List.eq_nil_or_concat left with rfl | ⟨left, y, rfl⟩
  · rfl
  · simp

theorem ordinalAfter_eq (hleft : ∀ t ∈ left, t.id ≠ x.id) :
    ordinalAfter F (left ++ x :: right) x.id =
      computeOrdinalForNeighbors ((left ++ [x]).getLast?.map (taskOrdinal F))
        (right.head?.map (taskOrdinal F)) := by
  rw [ordinalAfter, findIdx?_append hleft]
  cases right with
  | nil => simp
  | cons y right => simp

variable [LinearOrder F.Key]

theorem separates_after (hF : F.Contract) (h : Ordered (left ++ [x]))
    (hx : Canonical F (rawOrdinal x)) : Separates (.after (taskOrdinal F x)) (left ++ [x]) [] := by
  have hlast := Ordinal.lt_after hF (taskOrdinal F x)
  rw [strRepr_taskOrdinal hx] at hlast
  refine ⟨fun t ht => ?_, by simp⟩
  rcases List.mem_append.mp ht with ht | ht
  · exact lt_trans (h.lt_of_last t ht) hlast
  · rw [List.mem_singleton.mp ht]
    exact hlast

theorem separates_before (hF : F.Contract) (h : Ordered (x :: right))
    (hx : Canonical F (rawOrdinal x)) : Separates (.before (taskOrdinal F x)) [] (x :: right) := by
  have hfirst := Ordinal.before_lt hF (taskOrdinal F x)
  rw [strRepr_taskOrdinal hx] at hfirst
  refine ⟨by simp, fun t ht => ?_⟩
  rcases List.mem_cons.mp ht with rfl | ht
  · exact hfirst
  · exact lt_trans hfirst (h.lt_of_head t ht)

theorem separates_between (hF : F.Contract) {y : Entity} (h : Ordered (left ++ x :: y :: right))
    (hx : Canonical F (rawOrdinal x)) (hy : Canonical F (rawOrdinal y)) :
    Separates (.between (taskOrdinal F x) (taskOrdinal F y)) (left ++ [x]) (y :: right) := by
  have hleft : Ordered (left ++ [x]) := by
    refine List.Pairwise.sublist ?_ h
    exact List.Sublist.append_left (by simp) left
  have hright : Ordered (x :: y :: right) := (List.pairwise_append.mp h).2.1
  have hxy := hright.lt_of_head y (by simp)
  have hbounds := Ordinal.between_bounds (o := taskOrdinal F x) (p := taskOrdinal F y) hF (by
    rwa [strRepr_taskOrdinal hx, strRepr_taskOrdinal hy])
  rw [strRepr_taskOrdinal hx, strRepr_taskOrdinal hy] at hbounds
  constructor
  · intro t ht
    rcases List.mem_append.mp ht with ht | ht
    · exact lt_trans (hleft.lt_of_last t ht) hbounds.1
    · rw [List.mem_singleton.mp ht]
      exact hbounds.1
  · intro t ht
    rcases List.mem_cons.mp ht with rfl | ht
    · exact hbounds.2
    · exact lt_trans hbounds.2 (Ordered.lt_of_head (List.pairwise_cons.mp hright).2 t ht)

theorem separates_neighbors (hF : F.Contract) (h : Ordered (left ++ right))
    (hcanon : ∀ t ∈ left ++ right, Canonical F (rawOrdinal t)) :
    Separates (computeOrdinalForNeighbors (left.getLast?.map (taskOrdinal F))
      (right.head?.map (taskOrdinal F))) left right := by
  rcases List.eq_nil_or_concat left with rfl | ⟨left, x, rfl⟩
  · cases right with
    | nil => exact ⟨by simp, by simp⟩
    | cons y right => exact separates_before hF h (hcanon y (by simp))
  · rw [List.concat_eq_append] at *
    rw [List.getLast?_concat]
    cases right with
    | nil =>
      rw [List.append_nil] at h
      exact separates_after hF h (hcanon x (by simp))
    | cons y right =>
      refine separates_between hF ?_ (hcanon x (by simp)) (hcanon y (by simp))
      simpa using h

theorem getOrdinal_eq (hF : F.Contract) (t : Entity) :
    ((t.getStr "position_ordinal").map Ordinal.fromString).getD .first = taskOrdinal F t := by
  cases hord : t.getStr "position_ordinal" with
  | none =>
    have hdefault : F.fromString Ordinal.defaultStr = some F.default := by
      rw [← hF.toString_default, hF.fromString_toString]
    simp [taskOrdinal, rawOrdinal, hord, Ordinal.fromString, hdefault, Ordinal.first]
  | some s => simp [taskOrdinal, rawOrdinal, hord]

theorem computeOrdinalForDrop_eq (hF : F.Contract) (tasks : List Entity) (index : Nat) :
    computeOrdinalForDrop F tasks index =
      computeOrdinalForNeighbors ((tasks.take index).getLast?.map (taskOrdinal F))
        ((tasks.drop index).head?.map (taskOrdinal F)) := by
  simp only [computeOrdinalForDrop, getOrdinal_eq hF]
  split
  · rename_i hlen
    rw [List.take_of_length_le hlen, List.drop_eq_nil_of_le hlen]
    cases tasks.getLast? <;> rfl
  · have hlt : index < tasks.length := by omega
    cases index with
    | zero =>
      cases tasks with
      | nil => simp at hlt
      | cons x tasks => rfl
    | succ i =>
      have hi : i < tasks.length := by omega
      rw [List.getLast?_take]
      simp [List.getElem?_eq_getElem hlt, List.getElem?_eq_getElem hi, computeOrdinalForNeighbors]

omit [LinearOrder F.Key] in
theorem laterOrdinal_ge (column id : String) (last : Option (Ordinal F)) (t : Entity) :
    (∀ o, last = some o → ∃ r, laterOrdinal F column id last t = some r ∧
        o.strRepr ≤ r.strRepr) ∧
      (t.id ≠ id → inColumn column t = true →
        ∃ r, laterOrdinal F column id last t = some r ∧
          (taskOrdinal F t).strRepr ≤ r.strRepr) := by
  unfold laterOrdinal
  by_cases hid : t.id = id
  · rw [if_pos hid]
    exact ⟨fun o ho => ⟨o, ho, le_rfl⟩, fun hne => absurd hid hne⟩
  · rw [if_neg hid]
    by_cases hcol : (t.getStr "position_column").getD "" = column
    · rw [if_pos hcol]
      cases last with
      | none => simp
      | some o =>
        by_cases hgt : (taskOrdinal F t).cmp o = .gt
        · have hlt : o.strRepr < (taskOrdinal F t).strRepr := compare_gt_iff_gt.mp hgt
          simp [hgt, hlt.le]
        · have hle : (taskOrdinal F t).strRepr ≤ o.strRepr :=
            not_lt.mp fun hlt => hgt (compare_gt_iff_gt.mpr hlt)
          simp [hgt, hle]
    · rw [if_neg hcol]
      refine ⟨fun o ho => ⟨o, ho, le_rfl⟩, fun _ hin => ?_⟩
      refine absurd ?_ hcol
      rw [of_decide_eq_true hin]
      rfl

omit [LinearOrder F.Key] in
theorem foldl_laterOrdinal_ge (column id : String) (tasks : List Entity) :
    ∀ last : Option (Ordinal F),
      (∀ o, last = some o → ∃ r, tasks.foldl (laterOrdinal F column id) last = some r ∧
        o.strRepr ≤ r.strRepr) ∧
      ∀ t ∈ tasks, t.id ≠ id → inColumn column t = true →
        ∃ r, tasks.foldl (laterOrdinal F column id) last = some r ∧
          (taskOrdinal F t).strRepr ≤ r.strRepr := by
  induction tasks with
  | nil => exact fun last => ⟨fun o ho => ⟨o, ho, le_rfl⟩, by simp⟩
  | cons x tasks ih =>
    intro last
    obtain ⟨hold, hnew⟩ := laterOrdinal_ge column id last x
    obtain ⟨hkeep, hrest⟩ := ih (laterOrdinal F column id last x)
    constructor
    · grind
    · grind

theorem separates_last (hF : F.Contract) (tasks : List Entity)
    (hcanon : ∀ t ∈ loadSortedColumnTasks tasks column id, Canonical F (rawOrdinal t)) :
    Separates (match lastOrdinal F tasks column id with
      | some last => .after last
      | none => .first) (loadSortedColumnTasks tasks column id) [] := by
  refine ⟨fun t ht => ?_, by simp⟩
  obtain ⟨hmem, hcol, hid⟩ := mem_loadSorted.mp ht
  obtain ⟨last, hlast, hle⟩ := (foldl_laterOrdinal_ge column id tasks none).2 t hmem hid hcol
  rw [strRepr_taskOrdinal (hcanon t ht)] at hle
  have heq : lastOrdinal F tasks column id = some last := hlast
  rw [heq]
  exact lt_of_le_of_lt hle (Ordinal.lt_after hF last)

end

section

variable {others : List Entity} {moved : Entity} {refId : String}

def insertBefore (refId : String) (moved : Entity) : List Entity → List Entity
  | [] => [moved]
  | t :: others => if t.id = refId then moved :: t :: others else t :: insertBefore refId moved others

def insertAfter (refId : String) (moved : Entity) : List Entity → List Entity
  | [] => [moved]
  | t :: others => if t.id = refId then t :: moved :: others else t :: insertAfter refId moved others

def Placement.place (p : Placement) (moved : Entity) (others : List Entity) : List Entity :=
  match p with
  | .before refId => insertBefore refId moved others
  | .after refId => insertAfter refId moved others
  | .last => others ++ [moved]
  | .drop index => others.take index ++ moved :: others.drop index

def Placement.Valid (p : Placement) (others : List Entity) : Prop :=
  match p with
  | .before refId => ∃ t ∈ others, t.id = refId
  | .after refId => ∃ t ∈ others, t.id = refId
  | .last => True
  | .drop _ => True

theorem exists_first {others : List Entity} (h : ∃ t ∈ others, t.id = refId) :
    ∃ left x right, others = left ++ x :: right ∧ x.id = refId ∧ ∀ t ∈ left, t.id ≠ x.id := by
  induction others with
  | nil => simp at h
  | cons y others ih =>
    by_cases hy : y.id = refId
    · exact ⟨[], y, others, rfl, hy, by simp⟩
    · have hrest : ∃ t ∈ others, t.id = refId := by
        obtain ⟨t, ht, hid⟩ := h
        rcases List.mem_cons.mp ht with rfl | ht
        · exact absurd hid hy
        · exact ⟨t, ht, hid⟩
      obtain ⟨left, x, right, rfl, hx, hleft⟩ := ih hrest
      refine ⟨y :: left, x, right, rfl, hx, fun t ht => ?_⟩
      rcases List.mem_cons.mp ht with rfl | ht
      · rwa [hx]
      · exact hleft t ht

theorem insertBefore_append {left right : List Entity} {x : Entity}
    (hleft : ∀ t ∈ left, t.id ≠ x.id) :
    insertBefore x.id moved (left ++ x :: right) = left ++ moved :: x :: right := by
  induction left with
  | nil => simp [insertBefore]
  | cons y left ih =>
    have hy := hleft y (by simp)
    simp [insertBefore, hy, ih fun t ht => hleft t (by simp [ht])]

theorem insertAfter_append {left right : List Entity} {x : Entity}
    (hleft : ∀ t ∈ left, t.id ≠ x.id) :
    insertAfter x.id moved (left ++ x :: right) = left ++ x :: moved :: right := by
  induction left with
  | nil => simp [insertAfter]
  | cons y left ih =>
    have hy := hleft y (by simp)
    simp [insertAfter, hy, ih fun t ht => hleft t (by simp [ht])]

end

section

variable {F : FractionalIndex} [LinearOrder F.Key] {tasks : List Entity} {column id : String}

theorem strRepr_fromString_strRepr (hF : F.Contract) (o : Ordinal F) :
    (Ordinal.fromString o.strRepr : Ordinal F).strRepr = o.strRepr :=
  Ordinal.strRepr_fromString (Ordinal.canonical_strRepr hF o)

theorem moveOrdinal_separates (hF : F.Contract) (hok : ColumnOk F tasks column) (p : Placement)
    (hp : p.Valid (loadSortedColumnTasks tasks column id)) :
    ∃ left right, loadSortedColumnTasks tasks column id = left ++ right ∧
      (∀ moved, p.place moved (loadSortedColumnTasks tasks column id) = left ++ moved :: right) ∧
      Separates (moveOrdinal F tasks (p.move F tasks id column)) left right := by
  have hordered := ordered_loadSorted hok id
  have hcanon : ∀ t ∈ loadSortedColumnTasks tasks column id, Canonical F (rawOrdinal t) := by
    intro t ht
    obtain ⟨hmem, hcol, -⟩ := mem_loadSorted.mp ht
    exact hok.canonical t hmem hcol
  cases p with
  | before refId =>
    obtain ⟨left, x, right, heq, rfl, hleft⟩ := exists_first hp
    refine ⟨left, x :: right, heq, fun moved => ?_, ?_⟩
    · rw [heq]
      exact insertBefore_append hleft
    · show Separates (ordinalBefore F (loadSortedColumnTasks tasks column id) x.id) _ _
      rw [heq] at hordered hcanon ⊢
      rw [ordinalBefore_eq hleft]
      exact separates_neighbors hF hordered hcanon
  | after refId =>
    obtain ⟨left, x, right, heq, rfl, hleft⟩ := exists_first hp
    refine ⟨left ++ [x], right, by simp [heq], fun moved => ?_, ?_⟩
    · rw [heq, List.append_assoc]
      exact insertAfter_append hleft
    · show Separates (ordinalAfter F (loadSortedColumnTasks tasks column id) x.id) _ _
      rw [heq] at hordered hcanon ⊢
      rw [ordinalAfter_eq hleft]
      exact separates_neighbors hF (by simpa using hordered) (by simpa using hcanon)
  | last =>
    exact ⟨loadSortedColumnTasks tasks column id, [], by simp, fun moved => rfl,
      separates_last hF tasks hcanon⟩
  | drop index =>
    have hsplit := List.take_append_drop index (loadSortedColumnTasks tasks column id)
    refine ⟨_, _, hsplit.symm, fun moved => rfl, ?_⟩
    have hneighbors := separates_neighbors hF (hsplit.symm ▸ hordered) (hsplit.symm ▸ hcanon)
    rw [← computeOrdinalForDrop_eq hF] at hneighbors
    have hsame : (moveOrdinal F tasks (Placement.move F (.drop index) tasks id column)).strRepr =
        (computeOrdinalForDrop F (loadSortedColumnTasks tasks column id) index).strRepr :=
      strRepr_fromString_strRepr hF _
    exact ⟨fun t ht => hsame ▸ hneighbors.left t ht, fun t ht => hsame ▸ hneighbors.right t ht⟩

omit [LinearOrder F.Key] in
theorem mem_writeTask {tasks : List Entity} {entity t : Entity} (h : t ∈ writeTask tasks entity) :
    t = entity ∨ t ∈ tasks := by
  obtain ⟨u, hu, rfl⟩ := List.mem_map.mp h
  split
  · exact .inl rfl
  · exact .inr hu

end

section

variable {tasks : List Entity} {column other id ordinal : String} {entity t : Entity}

theorem inColumn_setPosition (entity : Entity) (column ordinal : String) :
    inColumn column (setPosition entity column ordinal) = true := by
  apply decide_eq_true
  rw [setPosition, Entity.getStr_set_of_ne (by decide)]
  simp [Entity.getStr, Json.asStr]

theorem rawOrdinal_setPosition (entity : Entity) (column ordinal : String) :
    rawOrdinal (setPosition entity column ordinal) = ordinal := by
  simp [rawOrdinal, setPosition, Entity.getStr, Json.asStr]

theorem not_inColumn (hcol : inColumn column t = true) (hne : other ≠ column) :
    inColumn other t = false := by
  apply decide_eq_false
  intro hother
  rw [of_decide_eq_true hcol] at hother
  exact hne (Option.some.inj hother).symm

theorem writeTask_of_not_mem (h : ∀ t ∈ tasks, t.id ≠ entity.id) :
    writeTask tasks entity = tasks := by
  refine (List.map_congr_left fun t ht => ?_).trans (List.map_id tasks)
  exact if_neg (h t ht)

theorem filter_writeTask_perm (hids : (tasks.map Entity.id).Nodup) (ht : t ∈ tasks)
    (hid : t.id = entity.id) (hcol : inColumn column entity = true) :
    ((writeTask tasks entity).filter (inColumn column)).Perm
      (entity :: tasks.filter fun t => inColumn column t && decide (t.id ≠ entity.id)) := by
  induction tasks with
  | nil => simp at ht
  | cons x tasks ih =>
    rw [List.map_cons, List.nodup_cons] at hids
    by_cases hx : x.id = entity.id
    · have hrest : ∀ t ∈ tasks, t.id ≠ entity.id := by
        intro t ht heq
        exact hids.1 (List.mem_map.mpr ⟨t, ht, heq.trans hx.symm⟩)
      have hfilter : tasks.filter (fun t => inColumn column t && decide (t.id ≠ entity.id)) =
          tasks.filter (inColumn column) :=
        List.filter_congr fun t ht => by simp [hrest t ht]
      have hhead : writeTask (x :: tasks) entity = entity :: writeTask tasks entity := by
        simp [writeTask, hx]
      rw [hhead, writeTask_of_not_mem hrest, List.filter_cons_of_pos hcol,
        List.filter_cons_of_neg (by simp [hx]), hfilter]
    · have htail : t ∈ tasks := by
        rcases List.mem_cons.mp ht with rfl | ht
        · exact absurd hid hx
        · exact ht
      have hhead : writeTask (x :: tasks) entity = x :: writeTask tasks entity := by
        simp [writeTask, hx]
      have hperm := ih hids.2 htail
      rw [hhead, List.filter_cons, List.filter_cons]
      by_cases hxcol : inColumn column x = true
      · simp only [hxcol, hx, ne_eq, not_false_eq_true, decide_true, Bool.and_self, if_true]
        exact (hperm.cons x).trans (List.Perm.swap entity x _)
      · simpa only [hxcol, Bool.false_and, Bool.false_eq_true, if_false] using hperm

theorem filter_writeTask_sublist (hcol : inColumn other entity = false) (tasks : List Entity) :
    ((writeTask tasks entity).filter (inColumn other)).Sublist (tasks.filter (inColumn other)) := by
  induction tasks with
  | nil => exact List.Sublist.refl _
  | cons x tasks ih =>
    by_cases hx : x.id = entity.id
    · have hhead : writeTask (x :: tasks) entity = entity :: writeTask tasks entity := by
        simp [writeTask, hx]
      rw [hhead, List.filter_cons_of_neg (by simp [hcol])]
      exact ih.trans ((List.sublist_cons_self x tasks).filter _)
    · have hhead : writeTask (x :: tasks) entity = x :: writeTask tasks entity := by
        simp [writeTask, hx]
      rw [hhead, List.filter_cons, List.filter_cons]
      split
      · exact ih.cons_cons x
      · exact ih

theorem map_id_writeTask (tasks : List Entity) (entity : Entity) :
    (writeTask tasks entity).map Entity.id = tasks.map Entity.id := by
  rw [writeTask, List.map_map]
  apply List.map_congr_left
  intro t _
  show (if t.id = entity.id then entity else t).id = t.id
  split
  · rename_i heq
    exact heq.symm
  · rfl

end

section

variable {F : FractionalIndex} {tasks : List Entity} {column id : String}

/-- However its files are listed, the column reads as the old one with the task put where the
placement asks. -/
def Lands (cmd : MoveTaskCmd) (tasks tasks' : List Entity) : Prop :=
  ∃ moved ∈ tasks', moved.id = cmd.id ∧ ∀ listed : List Entity, listed.Perm tasks' →
    sortByOrdinal (listed.filter (inColumn cmd.column)) =
      cmd.placement.place moved ((sortByOrdinal (tasks.filter (inColumn cmd.column))).filter
        fun t => decide (t.id ≠ cmd.id))

/-- The task exists, and the one it is placed by is another of the target column. -/
def MoveTaskCmd.Valid (cmd : MoveTaskCmd) (tasks : List Entity) : Prop :=
  (∃ t ∈ tasks, t.id = cmd.id) ∧
    cmd.placement.Valid (tasks.filter fun t =>
      inColumn cmd.column t && decide (t.id ≠ cmd.id))

theorem Placement.Valid.perm {p : Placement} {others others' : List Entity} (h : p.Valid others)
    (hperm : others.Perm others') : p.Valid others' := by
  cases p with
  | before refId =>
    obtain ⟨t, ht, hid⟩ := h
    exact ⟨t, hperm.mem_iff.mp ht, hid⟩
  | after refId =>
    obtain ⟨t, ht, hid⟩ := h
    exact ⟨t, hperm.mem_iff.mp ht, hid⟩
  | last => trivial
  | drop index => trivial

theorem ordered_insert {left right : List Entity} {moved : Entity} {o : Ordinal F}
    (h : Ordered (left ++ right)) (ho : Separates o left right)
    (hmoved : rawOrdinal moved = o.strRepr) : Ordered (left ++ moved :: right) := by
  obtain ⟨hleft, hright, hacross⟩ := List.pairwise_append.mp h
  refine List.pairwise_append.mpr ⟨hleft, List.pairwise_cons.mpr ⟨?_, hright⟩, ?_⟩
  · intro t ht
    rw [hmoved]
    exact ho.right t ht
  · intro t ht u hu
    rcases List.mem_cons.mp hu with rfl | hu
    · rw [hmoved]
      exact ho.left t ht
    · exact hacross t ht u hu

theorem execute_eq (upper : Char → List Char) {cmd : MoveTaskCmd} {board : BoardFiles}
    (h : cmd.Valid board.tasks) :
    ∃ entity ∈ board.tasks, entity.id = cmd.id ∧
      cmd.execute upper F board =
        let moved := setPosition entity cmd.column
          (moveOrdinal F board.tasks
            (cmd.placement.move F board.tasks cmd.id cmd.column)).strRepr
        some (⟨ensureColumn upper board.columns cmd.column, writeTask board.tasks moved⟩,
          taskMutationAck moved) := by
  obtain ⟨⟨t, ht, hid⟩, -⟩ := h
  have hmove : (cmd.placement.move F board.tasks cmd.id cmd.column).id = cmd.id ∧
      (cmd.placement.move F board.tasks cmd.id cmd.column).column = cmd.column := by
    cases cmd.placement <;> exact ⟨rfl, rfl⟩
  cases hfind : board.tasks.find? fun t => t.id = cmd.id with
  | none =>
    have hnone := List.find?_eq_none.mp hfind t ht
    simp [hid] at hnone
  | some entity =>
    have hfound := List.find?_some hfind
    refine ⟨entity, List.mem_of_find?_eq_some hfind, by simpa using hfound, ?_⟩
    simp only [MoveTaskCmd.execute, MoveTask.execute, hmove, hfind]

variable [LinearOrder F.Key]

theorem execute_lands (hF : F.Contract) (upper : Char → List Char) {cmd : MoveTaskCmd}
    {board : BoardFiles} (hids : (board.tasks.map Entity.id).Nodup)
    (hok : ColumnOk F board.tasks cmd.column) (h : cmd.Valid board.tasks) :
    ∃ board' ack, cmd.execute upper F board = some (board', ack) ∧
      Lands cmd board.tasks board'.tasks ∧
      (board'.tasks.map Entity.id).Nodup ∧
      ∀ column, ColumnOk F board.tasks column → ColumnOk F board'.tasks column := by
  obtain ⟨entity, hmem, hid, hexec⟩ := execute_eq (F := F) upper h
  have hloaded : (loadSortedColumnTasks board.tasks cmd.column cmd.id).Perm _ :=
    sortByOrdinal_perm _
  obtain ⟨left, right, hsplit, hplace, hsep⟩ :=
    moveOrdinal_separates hF hok cmd.placement (h.2.perm hloaded.symm)
  set ordinal := moveOrdinal F board.tasks
    (cmd.placement.move F board.tasks cmd.id cmd.column) with hordinal
  set moved := setPosition entity cmd.column ordinal.strRepr with hmoved
  have hmovedId : moved.id = cmd.id := hid
  have hmovedCol : inColumn cmd.column moved = true := inColumn_setPosition _ _ _
  have hmovedOrd : rawOrdinal moved = ordinal.strRepr := rawOrdinal_setPosition _ _ _
  have hordered : Ordered (left ++ moved :: right) := by
    refine ordered_insert ?_ hsep hmovedOrd
    rw [← hsplit]
    exact ordered_loadSorted hok cmd.id
  have hperm : ((writeTask board.tasks moved).filter (inColumn cmd.column)).Perm
      (left ++ moved :: right) := by
    refine (filter_writeTask_perm hids hmem (hid.trans hmovedId.symm) hmovedCol).trans ?_
    refine (List.Perm.cons moved ?_).trans List.perm_middle.symm
    rw [← hsplit, hmovedId]
    exact hloaded.symm
  refine ⟨_, _, hexec, ⟨moved, ?_, hmovedId, ?_⟩, ?_, ?_⟩
  · have hin : moved ∈ (writeTask board.tasks moved).filter (inColumn cmd.column) :=
      hperm.mem_iff.mpr (by simp)
    exact (List.mem_filter.mp hin).1
  · intro listed hlisted
    rw [← loadSorted_eq hok, hplace]
    exact sortByOrdinal_eq ((hlisted.filter _).trans hperm) hordered
  · rw [map_id_writeTask]
    exact hids
  · intro column hcolumn
    constructor
    · intro t ht hcol
      rcases mem_writeTask ht with rfl | ht
      · rw [hmovedOrd]
        exact Ordinal.canonical_strRepr hF ordinal
      · exact hcolumn.canonical t ht hcol
    · by_cases hsame : column = cmd.column
      · subst hsame
        exact (hordered.imp fun hab => ne_of_lt hab).perm hperm.symm fun hab => hab.symm
      · exact hcolumn.distinct.sublist
          (filter_writeTask_sublist (not_inColumn hmovedCol hsame) board.tasks)

/-- The boards that moves into the columns `C` lead to; between two of them the files may be
listed in another order. -/
inductive Reachable (upper : Char → List Char) (F : FractionalIndex) (C : String → Prop)
    (board : BoardFiles) : BoardFiles → Prop
  | refl : Reachable upper F C board board
  | list {current listed : BoardFiles} (h : Reachable upper F C board current)
      (hperm : listed.tasks.Perm current.tasks) : Reachable upper F C board listed
  | move {current next : BoardFiles} {cmd : MoveTaskCmd} {ack : Json}
      (h : Reachable upper F C board current) (hcolumn : C cmd.column)
      (hvalid : cmd.Valid current.tasks)
      (hexec : cmd.execute upper F current = some (next, ack)) : Reachable upper F C board next

theorem reachable_ok (hF : F.Contract) {upper : Char → List Char} {C : String → Prop}
    {board current : BoardFiles} (hids : (board.tasks.map Entity.id).Nodup)
    (hok : ∀ column, C column → ColumnOk F board.tasks column)
    (h : Reachable upper F C board current) :
    (current.tasks.map Entity.id).Nodup ∧
      ∀ column, C column → ColumnOk F current.tasks column := by
  induction h with
  | refl => exact ⟨hids, hok⟩
  | list h hperm ih =>
    exact ⟨(hperm.map Entity.id).nodup_iff.mpr ih.1, fun column hc => (ih.2 column hc).perm hperm⟩
  | move h hcolumn hvalid hexec ih =>
    obtain ⟨board', ack', hexec', -, hids', hok'⟩ :=
      execute_lands hF upper ih.1 (ih.2 _ hcolumn) hvalid
    rw [hexec] at hexec'
    obtain ⟨rfl, rfl⟩ := Prod.mk.inj (Option.some.inj hexec')
    exact ⟨hids', fun column hc => hok' column (ih.2 column hc)⟩

/-- Along every run of moves each task lands where it was asked, and the columns keep distinct
ordinals. -/
theorem move_lands (hF : F.Contract) (upper : Char → List Char) {C : String → Prop}
    {board current : BoardFiles} (hids : (board.tasks.map Entity.id).Nodup)
    (hok : ∀ column, C column → ColumnOk F board.tasks column)
    (hrun : Reachable upper F C board current) (cmd : MoveTaskCmd) (hcolumn : C cmd.column)
    (hvalid : cmd.Valid current.tasks) :
    ∃ next ack, cmd.execute upper F current = some (next, ack) ∧
      Lands cmd current.tasks next.tasks ∧
      ∀ column, C column → ColumnOk F next.tasks column := by
  obtain ⟨hcurrentIds, hcurrentOk⟩ := reachable_ok hF hids hok hrun
  obtain ⟨next, ack, hexec, hlands, -, hnext⟩ :=
    execute_lands hF upper hcurrentIds (hcurrentOk _ hcolumn) hvalid
  exact ⟨next, ack, hexec, hlands, fun column hc => hnext column (hcurrentOk column hc)⟩

def placed (id column ordinal : String) : Entity := setPosition (.new "task" id) column ordinal

def twoColumns : BoardFiles where
  columns := [.new "column" "todo", .new "column" "doing"]
  tasks := [placed "a" "todo" "80", placed "b" "todo" "8180", placed "c" "doing" "80"]

theorem twoColumns_ok : ColumnOk binaryIndex twoColumns.tasks "todo" where
  canonical := by
    intro t ht hcol
    simp only [twoColumns, List.mem_cons, List.not_mem_nil, or_false] at ht
    rcases ht with rfl | rfl | rfl
    · exact ⟨[], by decide⟩
    · exact ⟨[true], by decide⟩
    · exact absurd hcol (by decide)
  distinct := by
    have hfilter : twoColumns.tasks.filter (inColumn "todo") =
        [placed "a" "todo" "80", placed "b" "todo" "8180"] := by
      simp only [twoColumns, placed, List.filter, inColumn_setPosition,
        not_inColumn (inColumn_setPosition _ "doing" _) (show "todo" ≠ "doing" by decide)]
    rw [hfilter]
    simp [placed, rawOrdinal_setPosition]

theorem move_lands_c_before_b :
    ∃ next ack, MoveTaskCmd.execute (fun c => [c.toUpper]) binaryIndex
        ⟨"c", "todo", .before "b"⟩ twoColumns = some (next, ack) ∧
      Lands ⟨"c", "todo", .before "b"⟩ twoColumns.tasks next.tasks ∧
      ∀ column, column = "todo" → ColumnOk binaryIndex next.tasks column := by
  refine move_lands binaryIndex_contract _ (by decide) ?_ .refl _ rfl ?_
  · rintro column rfl
    exact twoColumns_ok
  · refine ⟨⟨placed "c" "doing" "80", by simp [twoColumns], rfl⟩, placed "b" "todo" "8180", ?_, rfl⟩
    have hcol : inColumn "todo" (placed "b" "todo" "8180") = true := inColumn_setPosition _ _ _
    have hid : (placed "b" "todo" "8180").id ≠ "c" := by decide
    exact List.mem_filter.mpr ⟨by simp [twoColumns], by simp [hcol, hid]⟩

end

end SwissArmyHammer.Kanban
