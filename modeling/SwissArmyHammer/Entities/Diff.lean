import SwissArmyHammer.Common.Diffy
import SwissArmyHammer.Common.StableSort
import SwissArmyHammer.Entities.Entity

/-! Field-level diffs of entities, their inverses and their application. -/

namespace SwissArmyHammer.Entities

inductive FieldChange
  | set (value : Json)
  | removed (oldValue : Json)
  | changed (oldValue newValue : Json)
  | textDiff (forwardPatch reversePatch : String)
  deriving DecidableEq

abbrev Changes := List (String × FieldChange)

section

variable (D : Diffy)

def changeOf (old : Option Json) (new : Json) : Option FieldChange :=
  match old with
  | some old =>
    if old = new then none
    else
      match old.asStr, new.asStr with
      | some o, some n => some (.textDiff (D.toString (D.createPatch o n))
          (D.toString (D.createPatch n o)))
      | _, _ => some (.changed old new)
  | none => some (.set new)

def diffEntities (old new : Entity) : Changes :=
  let changes := new.fields.toList.filterMap fun f =>
    (changeOf D old.fields[f.1]? f.2).map fun c => (f.1, c)
  let removed := old.fields.toList.filterMap fun f =>
    if new.fields.contains f.1 then none else some (f.1, FieldChange.removed f.2)
  (changes ++ removed).mergeSort fun a b => a.1 ≤ b.1

def FieldChange.reverse : FieldChange → FieldChange
  | .set value => .removed value
  | .removed oldValue => .set oldValue
  | .changed oldValue newValue => .changed newValue oldValue
  | .textDiff forwardPatch reversePatch => .textDiff reversePatch forwardPatch

def reverseChanges (changes : Changes) : Changes :=
  changes.map fun c => (c.1, c.2.reverse)

/-- One turn of the loop in `apply_changes`. -/
def applyChange (e : Entity) (key : String) : FieldChange → Except EntityError Entity
  | .set value => .ok (e.set key value)
  | .removed _ => .ok (e.remove key)
  | .changed oldValue newValue =>
    match e.get key with
    | some current =>
      if current ≠ oldValue then .error (.staleChange key oldValue current)
      else .ok (e.set key newValue)
    | none => .ok (e.set key newValue)
  | .textDiff forwardPatch _ =>
    match D.fromStr forwardPatch with
    | .error err =>
      .error (.patchApply ("failed to parse patch for field '" ++ key ++ "': " ++ err))
    | .ok patch =>
      match D.apply ((e.getStr key).getD "") patch with
      | .error err =>
        .error (.patchApply ("failed to apply patch to field '" ++ key ++ "': " ++ err))
      | .ok result => .ok (e.set key (.string result))

def applyChanges (e : Entity) : Changes → Except EntityError Entity
  | [] => .ok e
  | c :: rest =>
    match applyChange D e c.1 c.2 with
    | .error err => .error err
    | .ok e => applyChanges e rest

end

variable {D : Diffy} {e old new : Entity} {key : String} {c : FieldChange}

def Turns (D : Diffy) : FieldChange → Option Json → Option Json → Prop
  | .set value, _, n => n = some value
  | .removed _, _, n => n = none
  | .changed oldValue newValue, o, n => (∀ v ∈ o, v = oldValue) ∧ n = some newValue
  | .textDiff forwardPatch _, o, n => ∃ p t, D.fromStr forwardPatch = .ok p ∧
      D.apply ((o.bind Json.asStr).getD "") p = .ok t ∧ n = some (.string t)

theorem applyChange_ok {o n : Option Json} (ho : e.get key = o) (hc : Turns D c o n) :
    ∃ e', applyChange D e key c = .ok e' ∧ e'.get key = n ∧
      ∀ k, k ≠ key → e'.get k = e.get k := by
  have hset : ∀ v, (e.set key v).get key = some v ∧
      ∀ k, k ≠ key → (e.set key v).get k = e.get k := by
    intro v
    refine ⟨by simp [Entity.get, Entity.set], fun k hk => ?_⟩
    have hne : ¬ key = k := fun h => hk h.symm
    simp [Entity.get, Entity.set, Std.ExtTreeMap.getElem?_insert, hne]
  cases c with
  | set value =>
    obtain rfl : n = some value := hc
    exact ⟨_, rfl, hset value⟩
  | removed oldValue =>
    obtain rfl : n = none := hc
    refine ⟨_, rfl, by simp [Entity.get, Entity.remove], fun k hk => ?_⟩
    have hne : ¬ key = k := fun h => hk h.symm
    simp [Entity.get, Entity.remove, Std.ExtTreeMap.getElem?_erase, hne]
  | changed oldValue newValue =>
    obtain ⟨hold, rfl⟩ := hc
    refine ⟨_, ?_, hset newValue⟩
    cases o with
    | none => simp [applyChange, ho]
    | some v => simp [applyChange, ho, hold v rfl]
  | textDiff forwardPatch reversePatch =>
    obtain ⟨p, t, hp, ht, rfl⟩ := hc
    refine ⟨_, ?_, hset (.string t)⟩
    have hstr : e.getStr key = o.bind Json.asStr := by rw [Entity.getStr, ho]
    simp [applyChange, hp, hstr, ht]

theorem applyChanges_ok {changes : Changes} {v : String → Option Json}
    (hkeys : (changes.map Prod.fst).Nodup)
    (h : ∀ x ∈ changes, Turns D x.2 (e.get x.1) (v x.1)) :
    ∃ e', applyChanges D e changes = .ok e' ∧
      ∀ k, e'.get k = if k ∈ changes.map Prod.fst then v k else e.get k := by
  induction changes generalizing e with
  | nil => exact ⟨e, rfl, by simp⟩
  | cons x rest ih =>
    obtain ⟨hx, hrest⟩ := List.nodup_cons.mp hkeys
    obtain ⟨e₁, he₁, hget, hother⟩ := applyChange_ok rfl (h x (by simp))
    have hne : ∀ y ∈ rest, y.1 ≠ x.1 := fun y hy heq =>
      hx (heq ▸ List.mem_map_of_mem hy)
    obtain ⟨e₂, he₂, hfinal⟩ := @ih e₁ hrest fun y hy => by
      rw [hother y.1 (hne y hy)]
      exact h y (by simp [hy])
    refine ⟨e₂, by simp [applyChanges, he₁, he₂], fun k => ?_⟩
    rw [hfinal k]
    by_cases hk : k = x.1
    · subst hk
      simp [hx, hget]
    · rw [hother k hk]
      simp only [List.map_cons, List.mem_cons, hk, false_or]

def changeBetween (D : Diffy) (old new : Option Json) : Option FieldChange :=
  match new with
  | some new => changeOf D old new
  | none => old.map .removed

theorem changeBetween_eq_none {o n : Option Json} : changeBetween D o n = none ↔ o = n := by
  cases n with
  | none => simp [changeBetween]
  | some n =>
    cases o with
    | none => simp [changeBetween, changeOf]
    | some o =>
      by_cases h : o = n
      · simp [changeBetween, changeOf, h]
      · simp only [changeBetween, changeOf, h, if_false, Option.some.injEq, iff_false]
        cases ho : o.asStr <;> cases hn : n.asStr <;> simp

theorem turns_of_changeBetween {o n : Option Json} (h : changeBetween D o n = some c) :
    Turns D c o n ∧ Turns D c.reverse n o := by
  cases n with
  | none =>
    cases o with
    | none => simp [changeBetween] at h
    | some o =>
      obtain rfl : FieldChange.removed o = c := by simpa [changeBetween] using h
      exact ⟨rfl, rfl⟩
  | some n =>
    cases o with
    | none =>
      obtain rfl : FieldChange.set n = c := by simpa [changeBetween, changeOf] using h
      exact ⟨rfl, rfl⟩
    | some o =>
      by_cases heq : o = n
      · simp [changeBetween, changeOf, heq] at h
      · simp only [changeBetween, changeOf, heq, if_false] at h
        split at h
        · rename_i s t hs ht
          obtain rfl := Json.asStr_eq_some.mp hs
          obtain rfl := Json.asStr_eq_some.mp ht
          obtain rfl := Option.some.inj h
          obtain ⟨p, hp, ha⟩ := D.round_trip s t
          obtain ⟨q, hq, hb⟩ := D.round_trip t s
          exact ⟨⟨p, t, hp, ha, rfl⟩, ⟨q, s, hq, hb, rfl⟩⟩
        · obtain rfl := Option.some.inj h
          exact ⟨⟨by simp, rfl⟩, ⟨by simp, rfl⟩⟩

theorem mem_diffEntities {x : String × FieldChange} : x ∈ diffEntities D old new ↔
    changeBetween D (old.get x.1) (new.get x.1) = some x.2 := by
  obtain ⟨k, c⟩ := x
  simp only [diffEntities, List.mem_mergeSort, List.mem_append, List.mem_filterMap,
    Option.map_eq_some_iff, Prod.mk.injEq, Prod.exists,
    Std.ExtTreeMap.mem_toList_iff_getElem?_eq_some, Entity.get]
  constructor
  · rintro (⟨j, n, hn, c', hc, rfl, rfl⟩ | ⟨j, o, ho, hnew⟩)
    · simpa [changeBetween, hn] using hc
    · split at hnew
      · simp at hnew
      · rename_i hk
        simp only [Option.some.injEq, Prod.mk.injEq] at hnew
        obtain ⟨rfl, rfl⟩ := hnew
        have hnone : new.fields[j]? = none := by simpa using hk
        simp [changeBetween, hnone, ho]
  · intro h
    cases hn : new.fields[k]? with
    | some n =>
      rw [hn] at h
      exact Or.inl ⟨k, n, hn, c, h, rfl, rfl⟩
    | none =>
      rw [hn] at h
      obtain ⟨o, ho, rfl⟩ := Option.map_eq_some_iff.mp h
      refine Or.inr ⟨k, o, ho, ?_⟩
      have hk : k ∉ new.fields := by simpa using hn
      simp [hk]

theorem filterMap_keys_nodup (fields : Fields) (f : String × Json → Option (String × FieldChange))
    (hf : ∀ x y, f x = some y → y.1 = x.1) : ((fields.toList.filterMap f).map Prod.fst).Nodup := by
  have hsub : ∀ l : List (String × Json),
      ((l.filterMap f).map Prod.fst).Sublist (l.map Prod.fst) := by
    intro l
    induction l with
    | nil => exact .slnil
    | cons x l ih =>
      grind
  exact (hsub fields.toList).nodup (keys_nodup fields)

theorem diffEntities_nodup (D : Diffy) (old new : Entity) :
    ((diffEntities D old new).map Prod.fst).Nodup := by
  have hperm := (List.mergeSort_perm
    (new.fields.toList.filterMap (fun f =>
        (changeOf D old.fields[f.1]? f.2).map fun c => (f.1, c)) ++
      old.fields.toList.filterMap (fun f =>
        if new.fields.contains f.1 then none else some (f.1, FieldChange.removed f.2)))
    fun a b => a.1 ≤ b.1).map Prod.fst
  refine hperm.nodup_iff.mpr ?_
  rw [List.map_append]
  refine List.nodup_append.mpr ⟨?_, ?_, ?_⟩
  · refine filterMap_keys_nodup new.fields _ fun x y hy => ?_
    obtain ⟨c, -, rfl⟩ := Option.map_eq_some_iff.mp hy
    rfl
  · refine filterMap_keys_nodup old.fields _ fun x y hy => ?_
    split at hy
    · simp at hy
    · obtain rfl := Option.some.inj hy
      rfl
  · rintro j hj k hk rfl
    obtain ⟨x, hx, rfl⟩ := List.mem_map.mp hj
    obtain ⟨y, hy, hyx⟩ := List.mem_map.mp hk
    obtain ⟨f, hf, hfx⟩ := List.mem_filterMap.mp hx
    obtain ⟨g, hg, hgy⟩ := List.mem_filterMap.mp hy
    obtain ⟨c, -, rfl⟩ := Option.map_eq_some_iff.mp hfx
    split at hgy
    · simp at hgy
    · grind

theorem diffEntities_keys (D : Diffy) (old new : Entity) :
    ((diffEntities D old new).map Prod.fst).Pairwise (· < ·) := by
  have hle : (diffEntities D old new).Pairwise fun a b => a.1 ≤ b.1 :=
    pairwise_mergeSort_value Prod.fst _
  have hne := List.pairwise_map.mp (diffEntities_nodup D old new)
  refine List.pairwise_map.mpr ((hle.and hne).imp fun h => ?_)
  exact lt_of_le_of_ne h.1 h.2

theorem FieldChange.reverse_reverse (c : FieldChange) : c.reverse.reverse = c := by
  cases c <;> rfl

theorem reverseChanges_reverseChanges (changes : Changes) :
    reverseChanges (reverseChanges changes) = changes := by
  simp [reverseChanges, Function.comp_def, FieldChange.reverse_reverse]

theorem mem_keys_diffEntities {k : String} :
    k ∈ (diffEntities D old new).map Prod.fst ↔ old.get k ≠ new.get k := by
  rw [ne_eq, ← changeBetween_eq_none (D := D)]
  constructor
  · intro h
    obtain ⟨x, hx, rfl⟩ := List.mem_map.mp h
    rw [mem_diffEntities.mp hx]
    simp
  · intro h
    obtain ⟨c, hc⟩ := Option.ne_none_iff_exists'.mp h
    exact List.mem_map.mpr ⟨(k, c), mem_diffEntities.mpr hc, rfl⟩

theorem fields_ext {e e' : Entity} (h : ∀ k, e.get k = e'.get k) : e.fields = e'.fields :=
  Std.ExtTreeMap.ext_getElem? fun k => h k

theorem apply_diffEntities (D : Diffy) (new : Entity) (he : e.fields = old.fields) :
    ∃ e', applyChanges D e (diffEntities D old new) = .ok e' ∧ e'.fields = new.fields := by
  have hold : ∀ k, e.get k = old.get k := fun k => by rw [Entity.get, Entity.get, he]
  obtain ⟨e', he', hget⟩ := applyChanges_ok (e := e) (v := new.get) (diffEntities_nodup D old new)
    fun x hx => by
      rw [hold]
      exact (turns_of_changeBetween (mem_diffEntities.mp hx)).1
  refine ⟨e', he', fields_ext fun k => ?_⟩
  rw [hget k]
  split
  · rfl
  · rename_i hk
    rw [hold]
    exact not_not.mp (mem_keys_diffEntities.not.mp hk)

theorem apply_reverse_diffEntities (D : Diffy) (old new : Entity) :
    ∃ e, applyChanges D new (reverseChanges (diffEntities D old new)) = .ok e ∧
      e.fields = old.fields := by
  have hkeys : (reverseChanges (diffEntities D old new)).map Prod.fst =
      (diffEntities D old new).map Prod.fst := by
    simp [reverseChanges, Function.comp_def]
  obtain ⟨e, he, hget⟩ := applyChanges_ok (D := D) (e := new) (v := old.get)
    (hkeys ▸ diffEntities_nodup D old new) fun x hx => by
      obtain ⟨y, hy, rfl⟩ := List.mem_map.mp hx
      exact (turns_of_changeBetween (mem_diffEntities.mp hy)).2
  refine ⟨e, he, fields_ext fun k => ?_⟩
  rw [hget k, hkeys]
  split
  · rfl
  · rename_i hk
    exact (not_not.mp (mem_keys_diffEntities.not.mp hk)).symm

/-- The changes between two entities lead from the one to the other, reversed they lead
back, and there is one for each field on which the entities differ. -/
theorem diff_apply_reverse (D : Diffy) (old new : Entity) :
    (∃ e, applyChanges D old (diffEntities D old new) = .ok e ∧ e.fields = new.fields) ∧
    (∃ e, applyChanges D new (reverseChanges (diffEntities D old new)) = .ok e ∧
      e.fields = old.fields) ∧
    (∀ changes, reverseChanges (reverseChanges changes) = changes) ∧
    ((diffEntities D old new).map Prod.fst).Pairwise (· < ·) ∧
    (∀ k, k ∈ (diffEntities D old new).map Prod.fst ↔ old.get k ≠ new.get k) ∧
    (diffEntities D old new = [] ↔ old.fields = new.fields) := by
  refine ⟨apply_diffEntities D new rfl, apply_reverse_diffEntities D old new,
    reverseChanges_reverseChanges, diffEntities_keys D old new,
    fun _ => mem_keys_diffEntities, ?_⟩
  constructor
  · intro h
    refine fields_ext fun k => ?_
    have hk := (@mem_keys_diffEntities D old new k).not.mp (by simp [h])
    exact not_not.mp hk
  · intro h
    refine List.eq_nil_iff_forall_not_mem.mpr fun x hx => ?_
    have hdiff := mem_keys_diffEntities.mp (List.mem_map_of_mem hx)
    exact hdiff (by rw [Entity.get, Entity.get, h])

end SwissArmyHammer.Entities
