import Mathlib.Data.Finmap
import Mathlib.Data.List.Sort
import SwissArmyHammer.Merge.Value
import SwissArmyHammer.Text.Lines

/-! `merge_jsonl`: the union of three logs by the ids of their lines. -/

namespace SwissArmyHammer.Merge.Jsonl

open Text

abbrev Entry := String × List Char

abbrev Merged := Std.ExtTreeMap String (List Char)

def entries (extractId : List Char → Option String) (content : List Char) : List Entry :=
  (lines content).filterMap fun line =>
    let line := trim line
    if line = [] then none else (extractId line).map fun id => (id, line)

def insertBase (st : Merged × Finset String) (e : Entry) : Merged × Finset String :=
  (st.1.insert e.1 e.2, insert e.1 st.2)

def insertOurs (baseIds : Finset String) (st : Merged × Finset String) (e : Entry) :
    Merged × Finset String :=
  (st.1.insert e.1 e.2, if e.1 ∈ baseIds then st.2 else insert e.1 st.2)

def insertTheirs (oursNewIds : Finset String) (st : Merged × List String) (e : Entry) :
    Merged × List String :=
  let conflictingIds :=
    if e.1 ∈ oursNewIds then
      match st.1[e.1]? with
      | some existing => if existing ≠ e.2 then st.2 ++ [e.1] else st.2
      | none => st.2
    else st.2
  (st.1.insert e.1 e.2, conflictingIds)

def output (merged : Merged) : List Char :=
  if merged.isEmpty then [] else joinLines (merged.toList.map Prod.snd) ++ ['\n']

def mergeEntries (base ours theirs : List Entry) : Except MergeError (List Char) :=
  let (merged, baseIds) := base.foldl insertBase (∅, ∅)
  let (merged, oursNewIds) := ours.foldl (insertOurs baseIds) (merged, ∅)
  let (merged, conflictingIds) := theirs.foldl (insertTheirs oursNewIds) (merged, [])
  if conflictingIds ≠ [] then .error (.conflict (conflictingIds.mergeSort fun a b => a ≤ b))
  else .ok (output merged)

def mergeJsonl (extractId : List Char → Option String) (base ours theirs : List Char) :
    Except MergeError (List Char) :=
  mergeEntries (entries extractId base) (entries extractId ours) (entries extractId theirs)

section

variable {base ours theirs es : List Entry} {m : Merged} {id : String} {line : List Char}

def lastLine (es : List Entry) (id : String) : Option (List Char) := es.reverse.lookup id

def linesOf (es : List Entry) (id : String) : List (List Char) :=
  (es.filter fun e => e.1 = id).map Prod.snd

def overlay (m : Merged) (es : List Entry) : Merged := es.foldl (fun m e => m.insert e.1 e.2) m

theorem lastLine_cons (e : Entry) (es : List Entry) :
    lastLine (e :: es) id = (lastLine es id).or (if e.1 = id then some e.2 else none) := by
  obtain ⟨k, line⟩ := e
  rw [lastLine, List.reverse_cons, List.lookup_append]
  by_cases h : k = id
  · simp [lastLine, h]
  · have h' : (id == k) = false := by simpa using Ne.symm h
    simp [lastLine, List.lookup_cons, h, h']

theorem lastLine_mem (h : lastLine es id = some line) : (id, line) ∈ es := by
  obtain ⟨before, after, heq, -⟩ := List.lookup_eq_some_iff.mp h
  rw [← List.mem_reverse, heq]
  simp

theorem lastLine_eq_none : lastLine es id = none ↔ id ∉ es.map Prod.fst := by
  rw [lastLine, List.lookup_eq_none_iff]
  constructor
  · rintro h hmem
    obtain ⟨e, he, rfl⟩ := List.mem_map.mp hmem
    simpa using h e (List.mem_reverse.mpr he)
  · grind

theorem lastLine_of_nodup (h : (es.map Prod.fst).Nodup) (hmem : (id, line) ∈ es) :
    lastLine es id = some line := by
  cases hlast : lastLine es id with
  | none =>
    rw [lastLine_eq_none] at hlast
    exact absurd (List.mem_map.mpr ⟨_, hmem, rfl⟩) hlast
  | some line' =>
    have heq := List.inj_on_of_nodup_map h (lastLine_mem hlast) hmem rfl
    rw [(Prod.mk.inj heq).2]

theorem overlay_get (m : Merged) (es : List Entry) (id : String) :
    (overlay m es)[id]? = (lastLine es id).or m[id]? := by
  induction es generalizing m with
  | nil => rfl
  | cons e es ih =>
    have hcons : overlay m (e :: es) = overlay (m.insert e.1 e.2) es := rfl
    rw [hcons, ih, lastLine_cons]
    by_cases h : e.1 = id
    · simp [h]
    · simp [h, Std.ExtTreeMap.getElem?_insert]

theorem foldl_insertBase (m : Merged) (ids : Finset String) :
    base.foldl insertBase (m, ids) = (overlay m base, ids ∪ (base.map Prod.fst).toFinset) := by
  induction base generalizing m ids with
  | nil => simp [overlay]
  | cons e base ih =>
    rw [List.foldl_cons, insertBase, ih]
    simp [overlay]

theorem foldl_insertOurs (baseIds ids : Finset String) (m : Merged) :
    ours.foldl (insertOurs baseIds) (m, ids) =
      (overlay m ours, ids ∪ ((ours.map Prod.fst).toFinset \ baseIds)) := by
  induction ours generalizing m ids with
  | nil => simp [overlay]
  | cons e ours ih =>
    rw [List.foldl_cons, insertOurs, ih]
    refine Prod.ext rfl (Finset.ext fun id => ?_)
    by_cases h : e.1 ∈ baseIds <;>
      simp only [h, if_true, if_false, List.map_cons, List.toFinset_cons, Finset.mem_union,
        Finset.mem_sdiff, Finset.mem_insert]
    · grind
    · grind

theorem foldl_insertTheirs_fst (oursNewIds : Finset String) (cs : List String) :
    (theirs.foldl (insertTheirs oursNewIds) (m, cs)).1 = overlay m theirs := by
  induction theirs generalizing m cs with
  | nil => rfl
  | cons e theirs ih =>
    rw [List.foldl_cons, ih]
    rfl

theorem mem_foldl_insertTheirs {oursNewIds : Finset String} {cs : List String}
    (hnew : id ∈ oursNewIds → ∃ line, m[id]? = some line) :
    id ∈ (theirs.foldl (insertTheirs oursNewIds) (m, cs)).2 ↔
      id ∈ cs ∨ id ∈ oursNewIds ∧ ∃ l ∈ linesOf theirs id, m[id]? ≠ some l := by
  induction theirs generalizing m cs with
  | nil => simp [linesOf]
  | cons e theirs ih =>
    obtain ⟨k, line⟩ := e
    have hnext : id ∈ oursNewIds → ∃ line', (m.insert k line)[id]? = some line' := by
      intro hid
      by_cases hk : k = id
      · exact ⟨line, by simp [hk]⟩
      · obtain ⟨line', hline'⟩ := hnew hid
        exact ⟨line', by simpa [Std.ExtTreeMap.getElem?_insert, hk] using hline'⟩
    rw [List.foldl_cons, insertTheirs, ih hnext]
    by_cases hk : k = id
    · subst hk
      by_cases hid : k ∈ oursNewIds
      · obtain ⟨line₀, hline₀⟩ := hnew hid
        by_cases heq : line₀ = line
        · simp [hid, hline₀, heq, linesOf]
        · simp [hid, hline₀, heq, linesOf]
      · simp [hid]
    · have hother : (linesOf ((k, line) :: theirs) id) = linesOf theirs id := by
        simp [linesOf, hk]
      have hne : ¬ id = k := fun h => hk h.symm
      rw [hother, Std.ExtTreeMap.getElem?_insert]
      simp only [Std.LawfulEqCmp.compare_eq_iff_eq, hk, if_false]
      split
      · split
        · split <;> simp [hne]
        · rfl
      · rfl

end

section

variable {base ours theirs : List Entry} {id : String} {line : List Char}

def union (base ours theirs : List Entry) : Merged := overlay (overlay (overlay ∅ base) ours) theirs

def reported (base ours theirs : List Entry) : List String :=
  (theirs.foldl (insertTheirs ((ours.map Prod.fst).toFinset \ (base.map Prod.fst).toFinset))
    (overlay (overlay ∅ base) ours, [])).2

/-- The id is new in ours, and its last line there and its lines in theirs are not all the
same. -/
def Conflicting (base ours theirs : List Entry) (id : String) : Prop :=
  id ∉ base.map Prod.fst ∧ ∃ line, lastLine ours id = some line ∧
    ¬ ∀ l ∈ line :: linesOf theirs id, ∀ l' ∈ line :: linesOf theirs id, l = l'

theorem mergeEntries_eq (base ours theirs : List Entry) :
    mergeEntries base ours theirs =
      if reported base ours theirs ≠ [] then
        .error (.conflict ((reported base ours theirs).mergeSort fun a b => a ≤ b))
      else .ok (output (union base ours theirs)) := by
  unfold mergeEntries
  rw [foldl_insertBase]
  simp only [Finset.empty_union]
  rw [foldl_insertOurs]
  have hunion : union base ours theirs = (theirs.foldl
      (insertTheirs ((ours.map Prod.fst).toFinset \ (base.map Prod.fst).toFinset))
      (overlay (overlay ∅ base) ours, [])).1 := (foldl_insertTheirs_fst _ []).symm
  rw [hunion]
  rfl

theorem union_get (base ours theirs : List Entry) (id : String) :
    (union base ours theirs)[id]? =
      (lastLine theirs id).or ((lastLine ours id).or (lastLine base id)) := by
  simp [union, overlay_get]

theorem mem_union_iff : id ∈ union base ours theirs ↔
    id ∈ base.map Prod.fst ∨ id ∈ ours.map Prod.fst ∨ id ∈ theirs.map Prod.fst := by
  have hlast : ∀ es : List Entry, id ∈ es.map Prod.fst ↔ (lastLine es id).isSome := by
    intro es
    rw [← not_iff_not, ← lastLine_eq_none, Option.not_isSome_iff_eq_none]
  rw [Std.ExtTreeMap.mem_iff_isSome_getElem?, union_get, hlast, hlast, hlast]
  cases lastLine theirs id <;> cases lastLine ours id <;> cases lastLine base id <;> simp

theorem not_constant_iff {l : List Char} {ls : List (List Char)} :
    (¬ ∀ x ∈ l :: ls, ∀ y ∈ l :: ls, x = y) ↔ ∃ x ∈ ls, x ≠ l := by
  constructor
  · grind
  · rintro ⟨x, hx, hne⟩ h
    exact hne (h x (by simp [hx]) l (by simp))

theorem mem_reported : id ∈ reported base ours theirs ↔ Conflicting base ours theirs id := by
  have hours : id ∈ (ours.map Prod.fst).toFinset \ (base.map Prod.fst).toFinset →
      ∃ line, lastLine ours id = some line := by
    intro h
    rw [Finset.mem_sdiff, List.mem_toFinset] at h
    cases hlast : lastLine ours id with
    | some line => exact ⟨line, rfl⟩
    | none => exact absurd h.1 (lastLine_eq_none.mp hlast)
  rw [reported, mem_foldl_insertTheirs]
  · simp only [List.not_mem_nil, false_or]
    constructor
    · rintro ⟨hid, l, hl, hne⟩
      obtain ⟨line, hline⟩ := hours hid
      rw [Finset.mem_sdiff, List.mem_toFinset, List.mem_toFinset] at hid
      refine ⟨hid.2, line, hline, not_constant_iff.mpr ⟨l, hl, ?_⟩⟩
      rintro rfl
      exact hne (by simp [overlay_get, hline])
    · rintro ⟨hbase, line, hline, hnot⟩
      obtain ⟨l, hl, hne⟩ := not_constant_iff.mp hnot
      have hmem : id ∈ ours.map Prod.fst := List.mem_map.mpr ⟨_, lastLine_mem hline, rfl⟩
      refine ⟨by simp [hbase, List.mem_toFinset.mpr hmem], l, hl, ?_⟩
      rw [overlay_get, hline]
      simpa using Ne.symm hne
  · intro h
    obtain ⟨line, hline⟩ := hours h
    exact ⟨line, by simp [overlay_get, hline]⟩

end

section

variable {extractId : List Char → Option String} {content : List Char} {id : String}
  {line : List Char}

structure Stored (extractId : List Char → Option String) (e : Entry) : Prop where
  id : extractId e.2 = some e.1
  trimmed : trim e.2 = e.2
  nonempty : e.2 ≠ []
  one_line : '\n' ∉ e.2

theorem stored_of_mem {e : Entry} (h : e ∈ entries extractId content) : Stored extractId e := by
  obtain ⟨l, hl, hentry⟩ := List.mem_filterMap.mp h
  obtain ⟨raw, hraw, rfl⟩ := List.mem_map.mp hl
  simp only at hentry
  split at hentry
  · simp at hentry
  · rename_i hne
    obtain ⟨k, hk, rfl⟩ := Option.map_eq_some_iff.mp hentry
    exact ⟨hk, trim_trim _, hne, fun hmem => not_mem_stripEol hraw (mem_of_mem_trim hmem)⟩

theorem stripEol_stored {e : Entry} (h : Stored extractId e) : stripEol (e.2 ++ ['\n']) = e.2 := by
  rw [stripEol_concat_eq]
  intro hlast
  rw [← h.trimmed] at hlast
  exact absurd (getLast?_trim hlast) (by decide)

theorem lines_joined {es : List Entry} (h : ∀ e ∈ es, Stored extractId e) :
    lines (es.flatMap fun e => e.2 ++ ['\n']) = es.map Prod.snd := by
  have hterm : ∀ raw ∈ es.map fun e => e.2 ++ ['\n'], Terminated raw := by
    intro raw hraw
    obtain ⟨e, he, rfl⟩ := List.mem_map.mp hraw
    exact ⟨e.2, (h e he).one_line, rfl⟩
  have hsplit := splitInclusive_flatten_append hterm []
  rw [List.append_nil, ← List.flatMap_def] at hsplit
  rw [lines, hsplit, splitInclusive_nil, List.append_nil, List.map_map]
  exact List.map_congr_left fun e he => stripEol_stored (h e he)

theorem entries_joined {es : List Entry} (h : ∀ e ∈ es, Stored extractId e) :
    entries extractId (es.flatMap fun e => e.2 ++ ['\n']) = es := by
  rw [entries, lines_joined h, List.filterMap_map]
  have hself : ∀ e ∈ es, ((fun line =>
      let line := trim line
      if line = [] then none else (extractId line).map fun id => (id, line)) ∘ Prod.snd) e =
        some e := by
    intro e he
    have hstored := h e he
    simp [hstored.trimmed, hstored.nonempty, hstored.id]
  rw [List.filterMap_congr hself, List.filterMap_some]

theorem output_eq (m : Merged) : output m = m.toList.flatMap fun e => e.2 ++ ['\n'] := by
  unfold output
  by_cases hempty : m.isEmpty
  · rw [Std.ExtTreeMap.isEmpty_iff.mp hempty]
    simp
  · rw [if_neg hempty]
    rcases List.eq_nil_or_concat m.toList with hnil | ⟨es, e, hes⟩
    · rw [Std.ExtTreeMap.toList_eq_nil_iff] at hnil
      simp [hnil] at hempty
    · rw [hes, List.concat_eq_append, List.map_append, List.map_singleton, joinLines_concat,
        List.flatMap_map]
      simp

theorem stored_of_union {base ours theirs : List Char} {e : Entry}
    (h : e ∈ (union (entries extractId base) (entries extractId ours)
      (entries extractId theirs)).toList) : Stored extractId e := by
  rw [Std.ExtTreeMap.mem_toList_iff_getElem?_eq_some, union_get] at h
  rcases Option.or_eq_some_iff.mp h with h | ⟨-, h⟩
  · exact stored_of_mem (lastLine_mem h)
  · rcases Option.or_eq_some_iff.mp h with h | ⟨-, h⟩
    · exact stored_of_mem (lastLine_mem h)
    · exact stored_of_mem (lastLine_mem h)

end

section

variable {base ours theirs left right : List Entry} {id : String} {line : List Char} {m : Merged}

structure AppendOnly (base side : List Entry) : Prop where
  keeps : ∀ e ∈ base, e ∈ side
  nodup : (side.map Prod.fst).Nodup

def Agrees (es : List Entry) (m : Merged) : Prop := ∀ e ∈ es, m[e.1]? = some e.2

theorem Agrees.lastLine {es : List Entry} (h : Agrees es m) (hlast : lastLine es id = some line) :
    m[id]? = some line := h _ (lastLine_mem hlast)

theorem mergeEntries_of_agrees (hbase : Agrees base m) (hleft : Agrees left m)
    (hright : Agrees right m)
    (hcover : ∀ k ∈ m, k ∈ base.map Prod.fst ∨ k ∈ left.map Prod.fst ∨ k ∈ right.map Prod.fst) :
    mergeEntries base left right = .ok (output m) := by
  have hreported : reported base left right = [] := by
    rw [List.eq_nil_iff_forall_not_mem]
    intro id hid
    obtain ⟨-, line, hline, hnot⟩ := mem_reported.mp hid
    obtain ⟨l, hl, hne⟩ := not_constant_iff.mp hnot
    obtain ⟨e, he, rfl⟩ := List.mem_map.mp hl
    rw [List.mem_filter, decide_eq_true_eq] at he
    have hl := hright e he.1
    rw [he.2, hleft.lastLine hline] at hl
    exact hne (Option.some.inj hl).symm
  have hunion : union base left right = m := by
    apply Std.ExtTreeMap.ext_getElem?
    intro k
    rw [union_get]
    cases hr : lastLine right k with
    | some line => exact (hright.lastLine hr).symm
    | none =>
      cases hl : lastLine left k with
      | some line => exact (hleft.lastLine hl).symm
      | none =>
        cases hb : lastLine base k with
        | some line => exact (hbase.lastLine hb).symm
        | none =>
          rw [lastLine_eq_none] at hr hl hb
          have hnot : k ∉ m := fun hmem => by grind
          simp [hnot]
  rw [mergeEntries_eq, hreported, hunion]
  simp

theorem agrees_union (ho : AppendOnly base ours) (ht : AppendOnly base theirs)
    (hno : reported base ours theirs = []) :
    Agrees base (union base ours theirs) ∧ Agrees ours (union base ours theirs) ∧
      Agrees theirs (union base ours theirs) := by
  have htheirs : Agrees theirs (union base ours theirs) := by
    intro e he
    rw [union_get, lastLine_of_nodup ht.nodup he]
    rfl
  have hours : Agrees ours (union base ours theirs) := by
    intro e he
    have hlast := lastLine_of_nodup ho.nodup he
    rw [union_get, hlast]
    cases hl : lastLine theirs e.1 with
    | none => rfl
    | some l =>
      -- both sides have the id: it is an old one with the line of the base, or the lines
      -- would conflict
      by_cases hb : e.1 ∈ base.map Prod.fst
      · obtain ⟨e', he', hid⟩ := List.mem_map.mp hb
        have h1 := lastLine_of_nodup ho.nodup (ho.keeps e' he')
        have h2 := lastLine_of_nodup ht.nodup (ht.keeps e' he')
        rw [hid] at h1 h2
        rw [hlast] at h1
        rw [hl] at h2
        rw [h1, h2]
        rfl
      · by_contra hne
        have hconflict : Conflicting base ours theirs e.1 := by
          refine ⟨hb, e.2, hlast, not_constant_iff.mpr ⟨l, ?_, ?_⟩⟩
          · exact List.mem_map.mpr ⟨_, List.mem_filter.mpr ⟨lastLine_mem hl, by simp⟩, rfl⟩
          · rintro rfl
            exact hne rfl
        rw [← mem_reported, hno] at hconflict
        simp at hconflict
  exact ⟨fun e he => htheirs e (ht.keeps e he), hours, htheirs⟩

theorem conflicting_swap (ht : AppendOnly base theirs)
    (h : Conflicting base ours theirs id) : Conflicting base theirs ours id := by
  obtain ⟨hb, line, hline, hnot⟩ := h
  obtain ⟨l, hl, hne⟩ := not_constant_iff.mp hnot
  obtain ⟨e, he, rfl⟩ := List.mem_map.mp hl
  rw [List.mem_filter, decide_eq_true_eq] at he
  obtain ⟨hmem, rfl⟩ := he
  refine ⟨hb, e.2, lastLine_of_nodup ht.nodup hmem, not_constant_iff.mpr ⟨line, ?_, Ne.symm hne⟩⟩
  exact List.mem_map.mpr ⟨_, List.mem_filter.mpr ⟨lastLine_mem hline, by simp⟩, rfl⟩

theorem reported_nodup (h : (theirs.map Prod.fst).Nodup) : (reported base ours theirs).Nodup := by
  have hsub : ∀ (oursNewIds : Finset String) (es : List Entry) (m : Merged) (cs : List String),
      ∃ ids, ids.Sublist (es.map Prod.fst) ∧
        (es.foldl (insertTheirs oursNewIds) (m, cs)).2 = cs ++ ids := by
    intro oursNewIds es
    induction es with
    | nil => exact fun m cs => ⟨[], .slnil, by simp⟩
    | cons e es ih =>
      intro m cs
      rw [List.foldl_cons, insertTheirs]
      split
      · split
        · split
          · obtain ⟨ids, hids, heq⟩ := ih (m.insert e.1 e.2) (cs ++ [e.1])
            exact ⟨e.1 :: ids, hids.cons_cons e.1, by simp [heq]⟩
          · obtain ⟨ids, hids, heq⟩ := ih (m.insert e.1 e.2) cs
            exact ⟨ids, hids.cons e.1, heq⟩
        · obtain ⟨ids, hids, heq⟩ := ih (m.insert e.1 e.2) cs
          exact ⟨ids, hids.cons e.1, heq⟩
      · obtain ⟨ids, hids, heq⟩ := ih (m.insert e.1 e.2) cs
        exact ⟨ids, hids.cons e.1, heq⟩
  obtain ⟨ids, hids, heq⟩ := hsub _ theirs (overlay (overlay ∅ base) ours) []
  rw [reported, heq]
  exact hids.nodup h

theorem mergeEntries_swap (ho : AppendOnly base ours) (ht : AppendOnly base theirs) :
    mergeEntries base theirs ours = mergeEntries base ours theirs := by
  by_cases hno : reported base ours theirs = []
  · obtain ⟨hbase, hours, htheirs⟩ := agrees_union ho ht hno
    have hcover : ∀ k ∈ union base ours theirs, k ∈ base.map Prod.fst ∨
        k ∈ theirs.map Prod.fst ∨ k ∈ ours.map Prod.fst := by
      intro k hk
      have := mem_union_iff.mp hk
      tauto
    rw [mergeEntries_of_agrees hbase htheirs hours hcover, mergeEntries_eq, hno]
    simp
  · have hperm : (reported base theirs ours).Perm (reported base ours theirs) := by
      rw [List.perm_ext_iff_of_nodup (reported_nodup ho.nodup) (reported_nodup ht.nodup)]
      intro id
      rw [mem_reported, mem_reported]
      exact ⟨conflicting_swap ho, conflicting_swap ht⟩
    have hno' : reported base theirs ours ≠ [] := fun hnil => hno (by simpa [hnil] using hperm)
    have hsort : (reported base theirs ours).mergeSort (fun a b => a ≤ b) =
        (reported base ours theirs).mergeSort (fun a b => a ≤ b) := by
      apply List.Perm.eq_of_pairwise' (List.pairwise_mergeSort' (· ≤ ·) _)
        (List.pairwise_mergeSort' (· ≤ ·) _)
      exact (List.mergeSort_perm _ _).trans (hperm.trans (List.mergeSort_perm _ _).symm)
    rw [mergeEntries_eq, mergeEntries_eq, if_pos hno', if_pos hno, hsort]

theorem mergeEntries_again (ho : AppendOnly base ours) (ht : AppendOnly base theirs)
    (hno : reported base ours theirs = []) {side : List Entry}
    (hside : side = ours ∨ side = theirs) :
    mergeEntries base (union base ours theirs).toList side = .ok (output (union base ours theirs)) ∧
      mergeEntries base side (union base ours theirs).toList =
        .ok (output (union base ours theirs)) := by
  obtain ⟨hbase, hours, htheirs⟩ := agrees_union ho ht hno
  have hagrees : Agrees side (union base ours theirs) := by
    rcases hside with rfl | rfl
    · exact hours
    · exact htheirs
  have hself : Agrees (union base ours theirs).toList (union base ours theirs) :=
    fun e he => Std.ExtTreeMap.mem_toList_iff_getElem?_eq_some.mp he
  have hkeys : ∀ k ∈ union base ours theirs, k ∈ (union base ours theirs).toList.map Prod.fst := by
    intro k hk
    rwa [Std.ExtTreeMap.map_fst_toList_eq_keys, Std.ExtTreeMap.mem_keys]
  exact ⟨mergeEntries_of_agrees hbase hself hagrees fun k hk => .inr (.inl (hkeys k hk)),
    mergeEntries_of_agrees hbase hagrees hself fun k hk => .inr (.inr (hkeys k hk))⟩

end

section

variable {extractId : List Char → Option String} {base ours theirs out : List Char}

theorem mergeJsonl_error (extractId : List Char → Option String) (base ours theirs : List Char)
    (ids : List String) :
    mergeJsonl extractId base ours theirs = .error (.conflict ids) ↔
      reported (entries extractId base) (entries extractId ours) (entries extractId theirs) ≠ [] ∧
        (reported (entries extractId base) (entries extractId ours)
          (entries extractId theirs)).mergeSort (fun a b => a ≤ b) = ids := by
  rw [mergeJsonl, mergeEntries_eq]
  split <;> simp_all

theorem mergeJsonl_ok : mergeJsonl extractId base ours theirs = .ok out ↔
    reported (entries extractId base) (entries extractId ours) (entries extractId theirs) = [] ∧
      output (union (entries extractId base) (entries extractId ours)
        (entries extractId theirs)) = out := by
  rw [mergeJsonl, mergeEntries_eq]
  split <;> simp_all

theorem keys_increasing (m : Merged) : (m.toList.map Prod.fst).Pairwise (· < ·) := by
  rw [Std.ExtTreeMap.map_fst_toList_eq_keys]
  exact (Std.ExtTreeMap.ordered_keys (t := m)).imp fun h => compare_lt_iff_lt.mp h

theorem entries_output (h : mergeJsonl extractId base ours theirs = .ok out) :
    entries extractId out = (union (entries extractId base) (entries extractId ours)
      (entries extractId theirs)).toList ∧ lines out = (entries extractId out).map Prod.snd := by
  obtain ⟨-, rfl⟩ := mergeJsonl_ok.mp h
  have hstored := fun e => @stored_of_union extractId base ours theirs e
  rw [output_eq, entries_joined hstored, lines_joined hstored]
  exact ⟨rfl, rfl⟩

end
end SwissArmyHammer.Merge.Jsonl
