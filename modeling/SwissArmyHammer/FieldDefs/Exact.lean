import SwissArmyHammer.Common.IndexedVec

/-! The registry of field definitions: the fields, the indexes by name and by id, and the files
that the definitions are kept in. -/

namespace SwissArmyHammer.FieldDefs

structure FieldDef where
  id : String
  name : String
  /-- What a definition says besides. -/
  body : String
  deriving DecidableEq

structure FieldsContext where
  fields : List FieldDef
  nameIndex : IndexMap String Nat
  idIndex : IndexMap String Nat
  /-- What is in the directory of definitions. -/
  files : IndexMap String FieldDef

structure FieldNotFoundById where
  id : String
  deriving DecidableEq

namespace FieldsContext

def empty : FieldsContext := ⟨[], .empty, .empty, .empty⟩

variable (ctx : FieldsContext)

def getFieldByName (name : String) : Option FieldDef :=
  (ctx.nameIndex.get? name).bind (ctx.fields[·]?)

def getFieldById (id : String) : Option FieldDef := (ctx.idIndex.get? id).bind (ctx.fields[·]?)

def writeField (file : String → String) (field : FieldDef) : FieldsContext :=
  let files := ctx.files.insert (file field.name) field
  match (ctx.idIndex.get? field.id).bind fun idx =>
      (ctx.fields[idx]?).map fun old => (idx, old) with
  | some (idx, old) =>
    if old.name ≠ field.name then
      { fields := ctx.fields.set idx field
        nameIndex := (ctx.nameIndex.shiftRemove old.name).insert field.name idx
        idIndex := ctx.idIndex
        files := files.shiftRemove (file old.name) }
    else
      { fields := ctx.fields.set idx field
        nameIndex := ctx.nameIndex.insert field.name idx
        idIndex := ctx.idIndex
        files := files }
  | none =>
    { fields := ctx.fields ++ [field]
      nameIndex := ctx.nameIndex.insert field.name ctx.fields.length
      idIndex := ctx.idIndex.insert field.id ctx.fields.length
      files := files }

def deleteField (file : String → String) (id : String) : Except FieldNotFoundById FieldsContext :=
  match (ctx.idIndex.get? id).bind fun idx => (ctx.fields[idx]?).map fun field => (idx, field) with
  | none => .error ⟨id⟩
  | some (idx, field) =>
    let nameIndex := ctx.nameIndex.shiftRemove field.name
    let idIndex := ctx.idIndex.shiftRemove field.id
    let fields := IndexedVec.swapRemove ctx.fields idx
    let files := ctx.files.shiftRemove (file field.name)
    match fields[idx]? with
    | some moved =>
      .ok ⟨fields, nameIndex.insert moved.name idx, idIndex.insert moved.id idx, files⟩
    | none => .ok ⟨fields, nameIndex, idIndex, files⟩

end FieldsContext

inductive Op
  | write (field : FieldDef)
  | delete (id : String)

def step (file : String → String) (ctx : FieldsContext) : Op → FieldsContext
  | .write field => ctx.writeField file field
  | .delete id =>
    match ctx.deleteField file id with
    | .ok next => next
    | .error _ => ctx

def run (file : String → String) (ctx : FieldsContext) (ops : List Op) : FieldsContext :=
  ops.foldl (step file) ctx

end SwissArmyHammer.FieldDefs

/-! When the indexes and the files of the registry are exact: as long as no write takes the name of
another field. -/

namespace SwissArmyHammer.FieldDefs

open IndexedVec

section

variable {κ ν : Type} [DecidableEq κ] {key : ν → κ} {v : IndexedVec κ ν} {x y : ν} {i : Nat}
  {index : IndexMap κ Nat}

theorem indexed_replace (h : v.Indexed key) (hx : v.items[i]? = some x)
    (hfree : ∀ z ∈ v.items, key z = key y → key x = key y)
    (hindex : ∀ k, index.get? k =
      if k = key y then some i else if k = key x then none else v.index.get? k) :
    (⟨v.items.set i y, index⟩ : IndexedVec κ ν).Indexed key := by
  have hlt := (List.getElem?_eq_some_iff.mp hx).1
  have hother : ∀ {j z}, v.items[j]? = some z → j ≠ i → key z ≠ key x ∧ key z ≠ key y := by
    intro j z hz hj
    have hne : key z ≠ key x := fun heq => hj (h.position_eq hz hx heq)
    exact ⟨hne, fun heq => hne (heq.trans (hfree z (List.mem_of_getElem? hz) heq).symm)⟩
  intro k j
  rw [hindex]
  by_cases hj : j = i
  · subst hj
    rw [List.getElem?_set_self hlt]
    by_cases hk : k = key y
    · simp [hk]
    · rw [if_neg hk]
      refine iff_of_false ?_ (by simp [Ne.symm hk])
      split
      · simp
      · rename_i hkx
        intro hget
        obtain ⟨z, hz, hkey⟩ := (h k j).mp hget
        rw [hx, Option.some.injEq] at hz
        exact hkx (hz ▸ hkey.symm)
  · rw [List.getElem?_set_ne (Ne.symm hj)]
    by_cases hk : k = key y
    · grind
    · rw [if_neg hk]
      by_cases hkx : k = key x
      · subst hkx
        refine iff_of_false (by simp) ?_
        rintro ⟨z, hz, hkey⟩
        exact (hother hz hj).1 hkey
      · rw [if_neg hkx, h]

theorem Indexed.nodup (h : v.Indexed key) : (v.items.map key).Nodup := by
  rw [List.nodup_iff_getElem?_ne_getElem?]
  intro i j hij hj heq
  rw [List.getElem?_map, List.getElem?_map] at heq
  obtain ⟨x, hx⟩ : ∃ x, v.items[i]? = some x :=
    ⟨_, List.getElem?_eq_getElem (by rw [List.length_map] at hj; omega)⟩
  obtain ⟨y, hy⟩ : ∃ y, v.items[j]? = some y :=
    ⟨_, List.getElem?_eq_getElem (by rw [List.length_map] at hj; omega)⟩
  rw [hx, hy, Option.map_some, Option.map_some, Option.some.injEq] at heq
  exact absurd (h.position_eq hx hy heq) (by omega)

end

variable {file : String → String} {ctx : FieldsContext} {field : FieldDef}

def FieldsContext.byId (ctx : FieldsContext) : IndexedVec String FieldDef :=
  ⟨ctx.fields, ctx.idIndex⟩

def FieldsContext.byName (ctx : FieldsContext) : IndexedVec String FieldDef :=
  ⟨ctx.fields, ctx.nameIndex⟩

structure Exact (file : String → String) (ctx : FieldsContext) : Prop where
  get_by_id : ∀ field ∈ ctx.fields, ctx.getFieldById field.id = some field
  get_by_name : ∀ field ∈ ctx.fields, ctx.getFieldByName field.name = some field
  id_index : ∀ id i, ctx.idIndex.get? id = some i →
    ∃ field, ctx.fields[i]? = some field ∧ field.id = id
  name_index : ∀ name i, ctx.nameIndex.get? name = some i →
    ∃ field, ctx.fields[i]? = some field ∧ field.name = name
  ids : (ctx.fields.map FieldDef.id).Nodup
  names : (ctx.fields.map FieldDef.name).Nodup
  files : ∀ path, (ctx.files.get? path).isSome ↔ ∃ field ∈ ctx.fields, file field.name = path
  one_file_each : (ctx.fields.map fun field => file field.name).Nodup

structure Inv (file : String → String) (ctx : FieldsContext) : Prop where
  byId : ctx.byId.Indexed FieldDef.id
  byName : ctx.byName.Indexed FieldDef.name
  files : ∀ path, (ctx.files.get? path).isSome ↔ ∃ field ∈ ctx.fields, file field.name = path
  one_file_each : ∀ f ∈ ctx.fields, ∀ g ∈ ctx.fields, file f.name = file g.name → f = g

theorem Inv.exact (h : Inv file ctx) : Exact file ctx where
  get_by_id field hfield := h.byId.get_iff.mpr ⟨hfield, rfl⟩
  get_by_name field hfield := h.byName.get_iff.mpr ⟨hfield, rfl⟩
  id_index id i hi := (h.byId id i).mp hi
  name_index name i hi := (h.byName name i).mp hi
  ids := Indexed.nodup h.byId
  names := Indexed.nodup h.byName
  files := h.files
  one_file_each := by
    have hnodup : ctx.fields.Nodup := List.Nodup.of_map _ (Indexed.nodup h.byId)
    exact hnodup.map_on h.one_file_each

theorem inv_empty : Inv file .empty where
  byId := indexed_empty
  byName := indexed_empty
  files path := by simp [FieldsContext.empty, IndexMap.get?, IndexMap.empty, IndexMap.lookup]
  one_file_each := by simp [FieldsContext.empty]

/-- No field has the file of the written name, but the field itself under that name. -/
def Clear (file : String → String) (ctx : FieldsContext) (field : FieldDef) : Prop :=
  ∀ other ∈ ctx.fields, file other.name = file field.name →
    other.id = field.id ∧ other.name = field.name

theorem writeField_of_new (h : Inv file ctx) (hnew : ∀ other ∈ ctx.fields, other.id ≠ field.id) :
    ctx.writeField file field =
      { fields := ctx.fields ++ [field]
        nameIndex := ctx.nameIndex.insert field.name ctx.fields.length
        idIndex := ctx.idIndex.insert field.id ctx.fields.length
        files := ctx.files.insert (file field.name) field } := by
  have hnone : ctx.idIndex.get? field.id = none := by
    refine Option.eq_none_iff_forall_ne_some.mpr fun i hi => ?_
    obtain ⟨other, hother, hid⟩ := (h.byId field.id i).mp hi
    exact hnew other (List.mem_of_getElem? hother) hid
  rw [FieldsContext.writeField, hnone]
  rfl

theorem writeField_of_old (field : FieldDef) (h : Inv file ctx) {idx : Nat} {old : FieldDef}
    (hold : ctx.fields[idx]? = some old) (hid : old.id = field.id) :
    (ctx.writeField file field).fields = ctx.fields.set idx field ∧
      (ctx.writeField file field).idIndex = ctx.idIndex ∧
      (∀ name, (ctx.writeField file field).nameIndex.get? name =
        if name = field.name then some idx
        else if name = old.name then none else ctx.nameIndex.get? name) ∧
      ∀ path, ((ctx.writeField file field).files.get? path).isSome ↔
        (path = file field.name ∨ (ctx.files.get? path).isSome) ∧
          (old.name ≠ field.name → path ≠ file old.name) := by
  have hidx : ctx.idIndex.get? field.id = some idx := (h.byId field.id idx).mpr ⟨old, hold, hid⟩
  have hinsert : ∀ path, ((ctx.files.insert (file field.name) field).get? path).isSome ↔
      path = file field.name ∨ (ctx.files.get? path).isSome := by
    intro path
    by_cases hpath : path = file field.name
    · simp [hpath]
    · simp [hpath, IndexMap.get?_insert_of_ne hpath]
  rw [FieldsContext.writeField, hidx, Option.bind_some, hold, Option.map_some]
  dsimp only
  by_cases hname : old.name = field.name
  · rw [if_neg (not_not.mpr hname)]
    refine ⟨rfl, rfl, fun name => ?_, fun path => ?_⟩
    · by_cases heq : name = field.name
      · simp [heq]
      · simp [heq, hname, IndexMap.get?_insert_of_ne heq]
    · simp only [hinsert]
      exact (and_iff_left fun hne => absurd hname hne).symm
  · rw [if_pos hname]
    refine ⟨rfl, rfl, fun name => ?_, fun path => ?_⟩
    · by_cases heq : name = field.name
      · simp [heq]
      · rw [if_neg heq, IndexMap.get?_insert_of_ne heq]
        by_cases hold : name = old.name
        · simp [hold]
        · rw [if_neg hold, IndexMap.get?_shiftRemove_of_ne hold]
    · by_cases hpath : path = file old.name
      · simp [hpath, hname]
      · rw [IndexMap.get?_shiftRemove_of_ne hpath, hinsert]
        simp [hpath]

theorem mem_set_of_indexed (h : Inv file ctx) {idx : Nat} {old : FieldDef}
    (hold : ctx.fields[idx]? = some old) (other : FieldDef) :
    other ∈ ctx.fields.set idx field ↔ other = field ∨ other ∈ ctx.fields ∧ other ≠ old := by
  have hlt := (List.getElem?_eq_some_iff.mp hold).1
  rw [List.mem_iff_getElem?]
  constructor
  · rintro ⟨j, hj⟩
    by_cases hji : j = idx
    · rw [hji, List.getElem?_set_self hlt, Option.some.injEq] at hj
      exact .inl hj.symm
    · rw [List.getElem?_set_ne (Ne.symm hji)] at hj
      refine .inr ⟨List.mem_of_getElem? hj, fun heq => hji ?_⟩
      exact h.byId.position_eq hj hold (congrArg FieldDef.id heq)
  · rintro (rfl | ⟨hmem, hne⟩)
    · exact ⟨idx, List.getElem?_set_self hlt⟩
    · obtain ⟨j, hj⟩ := List.mem_iff_getElem?.mp hmem
      refine ⟨j, ?_⟩
      rw [List.getElem?_set_ne]
      · exact hj
      · rintro rfl
        exact hne (Option.some.inj (hj.symm.trans hold))

theorem inv_writeField_of_new (h : Inv file ctx) (hclear : Clear file ctx field)
    (hnew : ∀ other ∈ ctx.fields, other.id ≠ field.id) : Inv file (ctx.writeField file field) := by
  have hname : ∀ other ∈ ctx.fields, other.name ≠ field.name := fun other hother heq =>
    hnew other hother (hclear other hother (congrArg file heq)).1
  rw [writeField_of_new h hnew]
  refine ⟨h.byId.push hnew, h.byName.push hname, fun path => ?_, fun f hf g hg heq => ?_⟩
  · simp only [List.mem_append, List.mem_singleton, or_and_right, exists_or, exists_eq_left,
      ← h.files]
    by_cases hpath : path = file field.name
    · simp [hpath]
    · simp [IndexMap.get?_insert_of_ne hpath, Ne.symm hpath]
  · simp only [List.mem_append, List.mem_singleton] at hf hg
    rcases hf with hf | rfl <;> rcases hg with hg | rfl
    · exact h.one_file_each f hf g hg heq
    · exact absurd (hclear f hf heq).1 (hnew f hf)
    · exact absurd (hclear g hg heq.symm).1 (hnew g hg)
    · rfl

theorem inv_writeField_of_old (h : Inv file ctx) (hclear : Clear file ctx field) {old : FieldDef}
    (hmem : old ∈ ctx.fields) (hid : old.id = field.id) :
    Inv file (ctx.writeField file field) := by
  obtain ⟨idx, hold⟩ := List.mem_iff_getElem?.mp hmem
  obtain ⟨hfields, hidIndex, hnameIndex, hfiles⟩ := writeField_of_old field h hold hid
  have hsame : ∀ other ∈ ctx.fields, file other.name = file field.name → other = old := by
    intro other hother heq
    obtain ⟨j, hj⟩ := List.mem_iff_getElem?.mp hother
    have hj' := h.byId.position_eq hj hold ((hclear other hother heq).1.trans hid.symm)
    exact Option.some.inj (hj.symm.trans (hj' ▸ hold))
  refine ⟨?_, ?_, fun path => ?_, fun f hf g hg heq => ?_⟩
  · rw [FieldsContext.byId, hfields, hidIndex]
    have hup := h.byId.upsert field
    have hidx : ctx.byId.index.get? field.id = some idx :=
      (h.byId field.id idx).mpr ⟨old, hold, hid⟩
    rw [IndexedVec.upsert, hidx] at hup
    exact hup
  · rw [FieldsContext.byName, hfields]
    exact indexed_replace h.byName hold
      (fun z hz heq => by rw [← hsame z hz (congrArg file heq)]; exact heq) hnameIndex
  · have hset : (∃ other ∈ ctx.fields.set idx field, file other.name = path) ↔
        file field.name = path ∨ ∃ other, (other ∈ ctx.fields ∧ other ≠ old) ∧
          file other.name = path := by
      simp only [mem_set_of_indexed h hold, or_and_right, exists_or, exists_eq_left]
    rw [hfiles, hfields, hset, h.files]
    constructor
    · grind
    · rintro (rfl | ⟨other, ⟨hother, hne⟩, rfl⟩)
      · refine ⟨.inl rfl, fun hname heq => hname (hclear old hmem heq.symm).2⟩
      · exact ⟨.inr ⟨other, hother, rfl⟩, fun _ heq => hne (h.one_file_each _ hother _ hmem heq)⟩
  · rw [hfields, mem_set_of_indexed h hold] at hf hg
    rcases hf with rfl | ⟨hf, hfne⟩ <;> rcases hg with rfl | ⟨hg, hgne⟩
    · rfl
    · exact absurd (hsame g hg heq.symm) hgne
    · exact absurd (hsame f hf heq) hfne
    · exact h.one_file_each f hf g hg heq

theorem inv_writeField (h : Inv file ctx) (hclear : Clear file ctx field) :
    Inv file (ctx.writeField file field) := by
  by_cases hnew : ∀ other ∈ ctx.fields, other.id ≠ field.id
  · exact inv_writeField_of_new h hclear hnew
  · obtain ⟨old, hmem, hid⟩ : ∃ old ∈ ctx.fields, old.id = field.id := by
      by_contra hno
      exact hnew fun other hother heq => hno ⟨other, hother, heq⟩
    exact inv_writeField_of_old h hclear hmem hid

theorem clear_of_exact (h : Inv file ctx) (hexact : Exact file (ctx.writeField file field)) :
    Clear file ctx field := by
  have hname : ∀ f ∈ (ctx.writeField file field).fields, ∀ g ∈ (ctx.writeField file field).fields,
      file f.name = file g.name → f = g := fun f hf g hg =>
    List.inj_on_of_nodup_map hexact.one_file_each hf hg
  intro other hother heq
  by_cases hnew : ∀ other ∈ ctx.fields, other.id ≠ field.id
  · rw [writeField_of_new h hnew] at hname
    have hsame := hname other (List.mem_append_left _ hother) field (by simp) heq
    exact absurd (congrArg FieldDef.id hsame) (hnew other hother)
  · obtain ⟨old, hmem, hid⟩ : ∃ old ∈ ctx.fields, old.id = field.id := by
      by_contra hno
      exact hnew fun other hother heq => hno ⟨other, hother, heq⟩
    obtain ⟨idx, hold⟩ := List.mem_iff_getElem?.mp hmem
    obtain ⟨hfields, -, -, hfiles⟩ := writeField_of_old field h hold hid
    have hmemNew : field ∈ ctx.fields.set idx field :=
      (mem_set_of_indexed h hold field).mpr (.inl rfl)
    by_cases hsame : other = old
    · subst hsame
      refine ⟨hid, ?_⟩
      by_contra hne
      have hfile := (hexact.files (file field.name)).mpr ⟨field, hfields ▸ hmemNew, rfl⟩
      exact ((hfiles _).mp hfile).2 hne heq.symm
    · rw [hfields] at hname
      have hboth := hname other ((mem_set_of_indexed h hold other).mpr (.inr ⟨hother, hsame⟩)) field
        hmemNew heq
      rw [hboth]
      exact ⟨rfl, rfl⟩

theorem inv_deleteField (h : Inv file ctx) (id : String) {next : FieldsContext}
    (hnext : ctx.deleteField file id = .ok next) : Inv file next := by
  rw [FieldsContext.deleteField] at hnext
  split at hnext
  · cases hnext
  · rename_i idx field hfound
    obtain ⟨i, hi, hfield⟩ := Option.bind_eq_some_iff.mp hfound
    obtain ⟨old, hold, heq⟩ := Option.map_eq_some_iff.mp hfield
    obtain ⟨rfl, rfl⟩ := Prod.mk.inj heq
    have hid := h.byId.removeAt hold
    have hname := h.byName.removeAt hold
    have hfields : next.fields = swapRemove ctx.fields i ∧
        next.files = ctx.files.shiftRemove (file old.name) ∧
        next.byId = ctx.byId.removeAt FieldDef.id i ∧
        next.byName = ctx.byName.removeAt FieldDef.name i := by
      rw [IndexedVec.removeAt, IndexedVec.removeAt, show ctx.byId.items[i]? = some old from hold,
        show ctx.byName.items[i]? = some old from hold]
      simp only [FieldsContext.byId, FieldsContext.byName] at hnext ⊢
      cases hmoved : (swapRemove ctx.fields i)[i]? with
      | none =>
        grind
      | some moved =>
        grind
    obtain ⟨hitems, hfiles, hbyId, hbyName⟩ := hfields
    have hmem : ∀ f, f ∈ next.fields ↔ f ∈ ctx.fields ∧ f ≠ old := by
      intro f
      rw [hitems, mem_swapRemove hold]
      constructor
      · rintro ⟨j, hj, hne⟩
        exact ⟨List.mem_of_getElem? hj, fun heq => hne (h.byId.position_eq hj hold (heq ▸ rfl))⟩
      · rintro ⟨hf, hne⟩
        obtain ⟨j, hj⟩ := List.mem_iff_getElem?.mp hf
        refine ⟨j, hj, ?_⟩
        rintro rfl
        exact hne (Option.some.inj (hj.symm.trans hold))
    refine ⟨hbyId ▸ hid, hbyName ▸ hname, fun path => ?_, fun f hf g hg => ?_⟩
    · rw [hfiles]
      simp only [hmem]
      by_cases hpath : path = file old.name
      · subst hpath
        refine iff_of_false (by simp) ?_
        rintro ⟨f, ⟨hf, hne⟩, heq⟩
        exact hne (h.one_file_each f hf old (List.mem_of_getElem? hold) heq)
      · rw [IndexMap.get?_shiftRemove_of_ne hpath, h.files]
        refine exists_congr fun f => and_congr_left fun hfile =>
          (and_iff_left_of_imp fun _ => ?_).symm
        rintro rfl
        exact hpath hfile.symm
    · exact h.one_file_each f ((hmem f).mp hf).1 g ((hmem g).mp hg).1

theorem inv_step_delete (h : Inv file ctx) (id : String) :
    Inv file (step file ctx (.delete id)) := by
  rw [step]
  split
  · rename_i next hnext
    exact inv_deleteField h id hnext
  · exact h

theorem exact_along_iff (h : Inv file ctx) (ops : List Op) :
    (∀ pre, pre <+: ops → Exact file (run file ctx pre)) ↔
      ∀ pre field post, ops = pre ++ .write field :: post →
        Clear file (run file ctx pre) field := by
  induction ops generalizing ctx with
  | nil =>
    refine iff_of_true (fun pre hpre => ?_) fun pre field post hsplit => ?_
    · rw [List.prefix_nil.mp hpre]
      exact h.exact
    · simp at hsplit
  | cons op ops ih =>
    have hsteps : Inv file (step file ctx op) →
        ((∀ pre, pre <+: op :: ops → Exact file (run file ctx pre)) ↔
          ∀ pre field post, ops = pre ++ .write field :: post →
            Clear file (run file (step file ctx op) pre) field) := by
      intro hstep
      rw [← ih hstep]
      constructor
      · exact fun hall pre hpre => hall (op :: pre) (List.cons_prefix_cons.mpr ⟨rfl, hpre⟩)
      · intro hall pre hpre
        cases pre with
        | nil => exact h.exact
        | cons first pre =>
          obtain ⟨rfl, hrest⟩ := List.cons_prefix_cons.mp hpre
          exact hall pre hrest
    cases op with
    | delete id =>
      rw [hsteps (inv_step_delete h id)]
      constructor
      · intro hall pre field post hsplit
        cases pre with
        | nil => simp at hsplit
        | cons first pre =>
          obtain ⟨rfl, hrest⟩ := List.cons.inj hsplit
          exact hall pre field post hrest
      · exact fun hall pre field post hsplit =>
          hall (.delete id :: pre) field post (by rw [hsplit]; rfl)
    | write written =>
      by_cases hclear : Clear file ctx written
      · rw [hsteps (inv_writeField h hclear)]
        constructor
        · intro hall pre field post hsplit
          cases pre with
          | nil =>
            obtain ⟨heq, -⟩ := List.cons.inj hsplit
            rw [← Op.write.inj heq]
            exact hclear
          | cons first pre =>
            obtain ⟨rfl, hrest⟩ := List.cons.inj hsplit
            exact hall pre field post hrest
        · exact fun hall pre field post hsplit =>
            hall (.write written :: pre) field post (by rw [hsplit]; rfl)
      · refine iff_of_false (fun hall => hclear ?_) fun hall => hclear (hall [] written ops rfl)
        exact clear_of_exact h
          (hall [.write written] (List.cons_prefix_cons.mpr ⟨rfl, List.nil_prefix⟩))

/-- The registry is exact in every state of a run from an empty one exactly when no write takes the
name, or the file, of another field. -/
theorem exact_iff_clear (file : String → String) (ops : List Op) :
    (∀ pre, pre <+: ops → Exact file (run file .empty pre)) ↔
      ∀ pre field post, ops = pre ++ .write field :: post →
        Clear file (run file .empty pre) field :=
  exact_along_iff inv_empty ops

def statusField : FieldDef := ⟨"1", "status", "select"⟩

def otherStatusField : FieldDef := ⟨"2", "status", "text"⟩

theorem not_exact_of_same_name :
    ¬ Exact id (run id .empty [.write statusField, .write otherStatusField]) := by
  intro h
  have hnames := h.names
  have hfields : (run id .empty [.write statusField, .write otherStatusField]).fields.map
    FieldDef.name = ["status", "status"] := by decide
  rw [hfields] at hnames
  simp at hnames

end SwissArmyHammer.FieldDefs
