import SwissArmyHammer.Entities.Codec
import Mathlib.Data.Finset.Max

/-! Reading an entity, writing it and reading it again: nested objects are flattened by each read,
and flattened names may collide. -/

namespace SwissArmyHammer.Entities

open Store

def flattenedOf (f : String × Json) : List (String × Json) :=
  match f.2 with
  | .object map => map.map fun s => (f.1 ++ "_" ++ s.1, s.2)
  | value => [(f.1, value)]

def setAll (e : Entity) (fields : List (String × Json)) : Entity :=
  fields.foldl (fun e f => e.set f.1 f.2) e

namespace EntityTypeStore

variable (Y : SerdeYaml) (S : EntityTypeStore)

def decode (text : String) : Except StoreError (List (String × Json) × String) :=
  match S.entityDef.bodyField with
  | some _ =>
    match splitFrontmatterBody text.toList with
    | none => .error (.deserialize "invalid frontmatter format")
    | some (frontmatter, body) =>
      match Y.toMap (String.ofList frontmatter) with
      | .error e => .error (.deserialize e)
      | .ok yamlMap => .ok (yamlMap, String.ofList body)
  | none =>
    match Y.toMap text with
    | .error e => .error (.deserialize e)
    | .ok yamlMap => .ok (yamlMap, "")

def assemble (id : String) (entries : List (String × Json)) (body : String) : Entity :=
  match S.entityDef.bodyField with
  | some bodyField => (buildEntityFromYaml S.entityTypeName id entries).set bodyField (.string body)
  | none => buildEntityFromYaml S.entityTypeName id entries

/-- Written and read again the entity is the same, and so is it for every order of the mapping. -/
structure RereadSame (id text : String) : Prop where
  same : ∃ e text', S.deserialize Y id text = .ok e ∧ S.serialize Y e = .ok text' ∧
    S.deserialize Y id text' = .ok e
  anyOrder : ∀ entries body, S.decode Y text = .ok (entries, body) →
    ∀ order : List (String × Json), order.Perm entries →
      S.deserialize Y id text = .ok (S.assemble id order body)

/-- Apart from the body, no field that the mapping gives is computed, an object or given two
values. -/
def Settled (entries : List (String × Json)) : Prop :=
  ∀ k v, (k, v) ∈ entries.flatMap flattenedOf → S.entityDef.bodyField ≠ some k →
    S.isComputed k = false ∧ (∀ fields, v ≠ .object fields) ∧
      ∀ v', (k, v') ∈ entries.flatMap flattenedOf → v' = v

end EntityTypeStore

section

variable {e : Entity} {l l' : List (String × Json)} {k entityType id : String} {v : Json}

theorem flattenInto_eq (e : Entity) (f : String × Json) :
    flattenInto e f.1 f.2 = setAll e (flattenedOf f) := by
  obtain ⟨key, value⟩ := f
  cases value with
  | object map =>
    rw [flattenInto, setAll, flattenedOf]
    rw [List.foldl_map]
  | null | bool | number | string | array => rfl

theorem setAll_append (e : Entity) (l l' : List (String × Json)) :
    setAll e (l ++ l') = setAll (setAll e l) l' :=
  List.foldl_append

theorem buildEntityFromYaml_eq (entityType id : String) (entries : List (String × Json)) :
    buildEntityFromYaml entityType id entries =
      setAll (Entity.new entityType id) (entries.flatMap flattenedOf) := by
  rw [buildEntityFromYaml]
  generalize Entity.new entityType id = e
  induction entries generalizing e with
  | nil => rfl
  | cons f entries ih =>
    rw [List.foldl_cons, ih, flattenInto_eq, List.flatMap_cons, setAll_append]

theorem setAll_kept (e : Entity) (l : List (String × Json)) :
    (setAll e l).entityType = e.entityType ∧ (setAll e l).id = e.id := by
  induction l generalizing e with
  | nil => exact ⟨rfl, rfl⟩
  | cons f l ih => exact ih (e.set f.1 f.2)

theorem get_setAll_of_not_mem (h : ∀ v, (k, v) ∉ l) : (setAll e l).get k = e.get k := by
  induction l generalizing e with
  | nil => rfl
  | cons f l ih =>
    have hne : f.1 ≠ k := by
      intro heq
      apply h f.2
      rw [← heq]
      exact List.mem_cons_self
    have hrest := @ih (e.set f.1 f.2) fun v hv => h v (List.mem_cons_of_mem _ hv)
    refine hrest.trans ?_
    rw [get_set, if_neg hne]

theorem get_setAll_of_unique (hmem : (k, v) ∈ l) (hunique : ∀ v', (k, v') ∈ l → v' = v) :
    (setAll e l).get k = some v := by
  induction l generalizing e with
  | nil => cases hmem
  | cons f l ih =>
    by_cases hrest : ∃ v', (k, v') ∈ l
    · obtain ⟨v', hv'⟩ := hrest
      obtain rfl := hunique v' (List.mem_cons_of_mem _ hv')
      exact ih hv' fun w hw => hunique w (List.mem_cons_of_mem _ hw)
    · have hlast : (setAll (e.set f.1 f.2) l).get k = (e.set f.1 f.2).get k :=
        get_setAll_of_not_mem fun v' hv' => hrest ⟨v', hv'⟩
      rcases List.mem_cons.mp hmem with heq | hin
      · refine hlast.trans ?_
        rw [← heq, get_set, if_pos rfl]
      · exact absurd ⟨v, hin⟩ hrest

theorem mem_of_get_setAll (h : (setAll e l).get k = some v) : (k, v) ∈ l ∨ e.get k = some v := by
  induction l generalizing e with
  | nil => exact .inr h
  | cons f l ih =>
    rcases ih h with hin | hset
    · exact .inl (List.mem_cons_of_mem _ hin)
    · rw [get_set] at hset
      split at hset
      · grind
      · exact .inr hset

theorem mem_of_get_build {entries : List (String × Json)}
    (h : (buildEntityFromYaml entityType id entries).get k = some v) :
    (k, v) ∈ entries.flatMap flattenedOf := by
  rw [buildEntityFromYaml_eq] at h
  rcases mem_of_get_setAll h with hin | hnew
  · exact hin
  · cases hnew

theorem mem_flattenedOf {f : String × Json} (h : (k, v) ∈ flattenedOf f) :
    (f = (k, v) ∧ ∀ fields, v ≠ .object fields) ∨
      ∃ map s, f.2 = .object map ∧ (s, v) ∈ map ∧ k = f.1 ++ "_" ++ s := by
  obtain ⟨key, value⟩ := f
  cases value with
  | object map =>
    right
    obtain ⟨s, hs, heq⟩ := List.mem_map.mp h
    obtain ⟨rfl, rfl⟩ := Prod.mk.inj heq
    exact ⟨map, s.1, rfl, hs, rfl⟩
  | null | bool | number | string | array =>
    left
    have heq := List.mem_singleton.mp h
    obtain ⟨rfl, rfl⟩ := Prod.mk.inj heq
    exact ⟨rfl, fun fields hobject => by cases hobject⟩

theorem sizeOf_nested {map : List (String × Json)} {s : String} (h : (s, v) ∈ map) :
    sizeOf v < sizeOf (Json.object map) := by
  have hlt := List.sizeOf_lt_of_mem h
  have hpair : sizeOf (s, v) = 1 + sizeOf s + sizeOf v := rfl
  have hobject : sizeOf (Json.object map) = 1 + sizeOf map := Json.object.sizeOf_spec map
  omega

end

section

variable {Y : SerdeYaml} {S : EntityTypeStore} {id text body yaml k : String}
  {entries order : List (String × Json)} {e : Entity} {v : Json}

theorem deserialize_of_decode (h : S.decode Y text = .ok (entries, body)) :
    S.deserialize Y id text = .ok (S.assemble id entries body) := by
  rw [EntityTypeStore.decode] at h
  rw [EntityTypeStore.deserialize, EntityTypeStore.assemble]
  cases hdef : S.entityDef.bodyField with
  | some bodyField =>
    rw [hdef] at h
    cases hsplit : splitFrontmatterBody text.toList with
    | none =>
      rw [hsplit] at h
      cases h
    | some parts =>
      obtain ⟨frontmatter, rest⟩ := parts
      rw [hsplit] at h
      dsimp only at h ⊢
      cases hmap : Y.toMap (String.ofList frontmatter) with
      | error err =>
        rw [hmap] at h
        cases h
      | ok yamlMap =>
        rw [hmap] at h
        obtain ⟨rfl, rfl⟩ := Prod.mk.inj (Except.ok.inj h)
        rfl
  | none =>
    rw [hdef] at h
    cases hmap : Y.toMap text with
    | error err =>
      rw [hmap] at h
      cases h
    | ok yamlMap =>
      rw [hmap] at h
      obtain ⟨rfl, rfl⟩ := Prod.mk.inj (Except.ok.inj h)
      rfl

theorem get_assemble (hk : S.entityDef.bodyField ≠ some k) :
    (S.assemble id entries body).get k =
      (buildEntityFromYaml S.entityTypeName id entries).get k := by
  rw [EntityTypeStore.assemble]
  split
  · rename_i bodyField hdef
    rw [get_set, if_neg]
    intro heq
    exact hk (heq ▸ hdef)
  · rfl

theorem assemble_congr (h : ∀ k, S.entityDef.bodyField ≠ some k →
    (buildEntityFromYaml S.entityTypeName id order).get k =
      (buildEntityFromYaml S.entityTypeName id entries).get k) :
    S.assemble id order body = S.assemble id entries body := by
  have hkept : ∀ l : List (String × Json),
      (S.assemble id l body).entityType = S.entityTypeName ∧ (S.assemble id l body).id = id := by
    intro l
    have hbuild := setAll_kept (Entity.new S.entityTypeName id) (l.flatMap flattenedOf)
    rw [← buildEntityFromYaml_eq] at hbuild
    rw [EntityTypeStore.assemble]
    split
    · exact hbuild
    · exact hbuild
  have hfields : (S.assemble id order body).fields = (S.assemble id entries body).fields := by
    apply Std.ExtTreeMap.ext_getElem?
    intro k
    change (S.assemble id order body).get k = (S.assemble id entries body).get k
    by_cases hk : S.entityDef.bodyField = some k
    · rw [EntityTypeStore.assemble, EntityTypeStore.assemble, hk]
      rw [get_set, get_set, if_pos rfl, if_pos rfl]
    · rw [get_assemble hk, get_assemble hk, h k hk]
  obtain ⟨hty, hid⟩ := hkept order
  obtain ⟨hty', hid'⟩ := hkept entries
  cases hleft : S.assemble id order body
  cases hright : S.assemble id entries body
  rw [hleft] at hfields hty hid
  rw [hright] at hfields hty' hid'
  dsimp only at hfields hty hid hty' hid'
  rw [hfields, hty, hid, hty', hid']

theorem rewritten (he : e = S.assemble id entries body) (hyaml : Y.RoundTrips (S.written e) yaml) :
    ∃ text' again, S.serialize Y e = .ok text' ∧ again.Perm (S.written e).toList ∧
      S.deserialize Y id text' = .ok (S.assemble id again body) := by
  obtain ⟨again, hread, hperm⟩ := hyaml.reads
  cases hdef : S.entityDef.bodyField with
  | some bodyField =>
    have hbody : (e.getStr bodyField).getD "" = body := by
      rw [he, EntityTypeStore.assemble, hdef]
      dsimp only
      rw [Entity.getStr, get_set, if_pos rfl]
      rfl
    have hsplit := splitFrontmatterBody_text hyaml body
    refine ⟨"---\n" ++ yaml ++ "---\n" ++ body, again, ?_, hperm, ?_⟩
    · rw [EntityTypeStore.serialize, hdef]
      dsimp only
      rw [hyaml.emits, hbody]
    · apply deserialize_of_decode
      rw [EntityTypeStore.decode, hdef]
      rw [hsplit]
      dsimp only
      rw [String.ofList_toList, hread, String.ofList_toList]
  | none =>
    refine ⟨yaml, again, ?_, hperm, ?_⟩
    · rw [EntityTypeStore.serialize, hdef]
      rw [hyaml.emits]
    · have hdecode : S.decode Y yaml = .ok (again, "") := by
        rw [EntityTypeStore.decode, hdef]
        dsimp only
        rw [hread]
      rw [deserialize_of_decode hdecode, EntityTypeStore.assemble, EntityTypeStore.assemble, hdef]

theorem written_get (S : EntityTypeStore) (e : Entity) (h : (S.written e)[k]? = some v) :
    S.entityDef.bodyField ≠ some k ∧ S.isComputed k = false ∧ e.get k = some v := by
  rw [EntityTypeStore.written, Std.ExtTreeMap.getElem?_filter', Option.filter_eq_some_iff] at h
  obtain ⟨hget, hkeep⟩ := h
  rw [Bool.and_eq_true, Bool.not_eq_true', Bool.not_eq_true', beq_eq_false_iff_ne] at hkeep
  exact ⟨hkeep.1, hkeep.2, hget⟩

theorem written_of_get (hk : S.entityDef.bodyField ≠ some k) (hcomputed : S.isComputed k = false) :
    (S.written e)[k]? = e.get k := by
  rw [EntityTypeStore.written, Std.ExtTreeMap.getElem?_filter', Entity.get]
  cases e.fields[k]? with
  | none => rfl
  | some v =>
    rw [hcomputed, beq_eq_false_iff_ne.mpr hk]
    rfl

theorem Settled.build_get (h : S.Settled entries) (hperm : order.Perm entries)
    (hk : S.entityDef.bodyField ≠ some k) :
    (buildEntityFromYaml S.entityTypeName id order).get k =
      (buildEntityFromYaml S.entityTypeName id entries).get k := by
  have hflat : (order.flatMap flattenedOf).Perm (entries.flatMap flattenedOf) := hperm.flatMap_right _
  rw [buildEntityFromYaml_eq, buildEntityFromYaml_eq]
  by_cases hmem : ∃ v, (k, v) ∈ entries.flatMap flattenedOf
  · obtain ⟨v, hv⟩ := hmem
    have hunique := (h k v hv hk).2.2
    rw [get_setAll_of_unique hv hunique, get_setAll_of_unique (hflat.mem_iff.mpr hv) fun v' hv' =>
      hunique v' (hflat.mem_iff.mp hv')]
  · rw [get_setAll_of_not_mem fun v hv => hmem ⟨v, hv⟩,
      get_setAll_of_not_mem fun v hv => hmem ⟨v, hflat.mem_iff.mp hv⟩]

theorem Settled.reread (h : S.Settled entries) (he : e = S.assemble id entries body)
    {again : List (String × Json)} (hperm : again.Perm (S.written e).toList) :
    S.assemble id again body = e := by
  have hgot : ∀ {k v}, S.entityDef.bodyField ≠ some k → e.get k = some v →
      (k, v) ∈ entries.flatMap flattenedOf := by
    intro k v hk hget
    rw [he, get_assemble hk] at hget
    exact mem_of_get_build hget
  have hflat : Flat (S.written e) := by
    intro k fields hwritten
    obtain ⟨hk, -, hget⟩ := written_get S e hwritten
    exact (h k _ (hgot hk hget) hk).2.1 fields rfl
  rw [he]
  apply assemble_congr
  intro k hk
  have hassembled : (S.assemble id entries body).get k = _ := get_assemble hk
  rw [Entity.get, buildEntityFromYaml_fields hflat hperm, ← hassembled, ← he]
  cases hget : e.get k with
  | none =>
    cases hwritten : (S.written e)[k]? with
    | none => rfl
    | some v =>
      rw [(written_get S e hwritten).2.2] at hget
      cases hget
  | some v => rw [written_of_get hk (h k v (hgot hk hget) hk).1, hget]

theorem no_object_of_reread {again fields : List (String × Json)}
    (hperm : again.Perm (S.written e).toList) (hsame : S.assemble id again body = e)
    (hk : S.entityDef.bodyField ≠ some k) :
    e.get k ≠ some (.object fields) := by
  intro hobject
  classical
  -- Of the objects take the largest: the second reading could only set it from a larger one.
  have hmem : (k, Json.object fields) ∈ e.fields.toList.toFinset.filter fun f =>
      S.entityDef.bodyField ≠ some f.1 ∧ ∃ map, f.2 = .object map :=
    Finset.mem_filter.mpr ⟨List.mem_toFinset.mpr
      (Std.ExtTreeMap.mem_toList_iff_getElem?_eq_some.mpr hobject), hk, fields, rfl⟩
  obtain ⟨largest, hlargest, hmax⟩ := Finset.exists_max_image _ (fun f => sizeOf f.2) ⟨_, hmem⟩
  obtain ⟨hin, hlk, map, hmap⟩ := Finset.mem_filter.mp hlargest
  obtain ⟨key, value⟩ := largest
  subst hmap
  have hget : e.get key = some (.object map) :=
    Std.ExtTreeMap.mem_toList_iff_getElem?_eq_some.mp (List.mem_toFinset.mp hin)
  rw [← hsame, get_assemble hlk] at hget
  obtain ⟨f, hf, hflat⟩ := List.mem_flatMap.mp (mem_of_get_build hget)
  rcases mem_flattenedOf hflat with ⟨-, hnot⟩ | ⟨outer, s, houter, hs, -⟩
  · exact hnot map rfl
  · have hwritten := Std.ExtTreeMap.mem_toList_iff_getElem?_eq_some.mp (hperm.subset hf)
    obtain ⟨hfk, -, hfget⟩ := written_get S e hwritten
    have hle := hmax f (Finset.mem_filter.mpr ⟨List.mem_toFinset.mpr
      (Std.ExtTreeMap.mem_toList_iff_getElem?_eq_some.mpr hfget), hfk, outer, houter⟩)
    have hlt := sizeOf_nested hs
    rw [houter] at hle
    dsimp only at hle
    omega

def DistinctKeys (entries : List (String × Json)) : Prop :=
  ∀ f ∈ entries, ∀ map, f.2 = .object map → (map.map Prod.fst).Nodup

theorem flattenedOf_unique (hkeys : DistinctKeys entries) {f : String × Json} (hf : f ∈ entries)
    {v' : Json} (hv : (k, v) ∈ flattenedOf f) (hv' : (k, v') ∈ flattenedOf f) : v' = v := by
  rcases mem_flattenedOf hv with ⟨rfl, hnot⟩ | ⟨map, s, hmap, hs, hk⟩
  · rcases mem_flattenedOf hv' with ⟨heq, -⟩ | ⟨map', s', hmap', -, -⟩
    · exact (Prod.mk.inj heq).2.symm
    · exact absurd hmap' (hnot map')
  · rcases mem_flattenedOf hv' with ⟨rfl, hnot⟩ | ⟨map', s', hmap', hs', hk'⟩
    · exact absurd hmap (hnot map)
    · obtain rfl := Json.object.inj (hmap.symm.trans hmap')
      have hsub : s = s' := by
        have hconcat := congrArg String.toList (hk.symm.trans hk')
        rw [String.toList_append, String.toList_append, String.toList_append,
          String.toList_append] at hconcat
        exact String.toList_inj.mp (List.append_cancel_left hconcat)
      subst hsub
      have hpair := List.inj_on_of_nodup_map (hkeys f hf map hmap) hs hs' rfl
      exact (Prod.mk.inj hpair).2.symm

theorem build_get_last {f : String × Json} (hkeys : DistinctKeys entries) (hf : f ∈ entries)
    (hv : (k, v) ∈ flattenedOf f) :
    (buildEntityFromYaml S.entityTypeName id (entries.erase f ++ [f])).get k = some v := by
  rw [buildEntityFromYaml_eq, List.flatMap_append, setAll_append]
  have hlast : [f].flatMap flattenedOf = flattenedOf f := by simp
  rw [hlast]
  exact get_setAll_of_unique hv fun v' hv' => flattenedOf_unique hkeys hf hv hv'

theorem erase_append_perm {f : String × Json} (hf : f ∈ entries) :
    (entries.erase f ++ [f]).Perm entries :=
  List.perm_append_comm.trans (List.perm_cons_erase hf).symm

/-- Reading, writing and reading again changes nothing, and the order of the mapping does not
matter, exactly when the mapping is settled. -/
theorem rereadSame_iff (hdecode : S.decode Y text = .ok (entries, body))
    (hkeys : DistinctKeys entries)
    (hyaml : ∃ yaml, Y.RoundTrips (S.written (S.assemble id entries body)) yaml) :
    S.RereadSame Y id text ↔ S.Settled entries := by
  obtain ⟨yaml, hyaml⟩ := hyaml
  have hread : S.deserialize Y id text = .ok (S.assemble id entries body) :=
    deserialize_of_decode hdecode
  obtain ⟨text', again, hserialize, hperm, hagain⟩ := rewritten rfl hyaml
  constructor
  · intro h
    have hsame : S.assemble id again body = S.assemble id entries body := by
      obtain ⟨e, written, he, hwritten, hback⟩ := h.same
      obtain rfl := Except.ok.inj (hread.symm.trans he)
      obtain rfl := Except.ok.inj (hserialize.symm.trans hwritten)
      exact Except.ok.inj (hagain.symm.trans hback)
    have hvalue : ∀ {k v}, (k, v) ∈ entries.flatMap flattenedOf →
        S.entityDef.bodyField ≠ some k → (S.assemble id entries body).get k = some v := by
      intro k v hv hk
      obtain ⟨f, hf, hfv⟩ := List.mem_flatMap.mp hv
      have horder := h.anyOrder entries body hdecode _ (erase_append_perm hf)
      rw [Except.ok.inj (hread.symm.trans horder), get_assemble hk]
      exact build_get_last hkeys hf hfv
    intro k v hv hk
    have hget := hvalue hv hk
    have hnot : ∀ {k fields}, S.entityDef.bodyField ≠ some k →
        (S.assemble id entries body).get k ≠ some (.object fields) := fun hk =>
      no_object_of_reread hperm hsame hk
    refine ⟨?_, fun fields heq => hnot hk (heq ▸ hget), fun v' hv' => ?_⟩
    · have hback := hget
      rw [← hsame, get_assemble hk] at hback
      obtain ⟨f, hf, hfv⟩ := List.mem_flatMap.mp (mem_of_get_build hback)
      have hwritten := Std.ExtTreeMap.mem_toList_iff_getElem?_eq_some.mp (hperm.subset hf)
      obtain ⟨hfk, hcomputed, hfget⟩ := written_get S _ hwritten
      rcases mem_flattenedOf hfv with ⟨rfl, -⟩ | ⟨map, s, hmap, -, -⟩
      · exact hcomputed
      · exact absurd (hmap ▸ hfget) (hnot hfk)
    · exact Option.some.inj ((hvalue hv' hk).symm.trans hget)
  · intro h
    refine ⟨⟨_, text', hread, hserialize, ?_⟩, fun entries' body' hdecode' order horder => ?_⟩
    · rw [hagain, Settled.reread h rfl hperm]
    · obtain ⟨rfl, rfl⟩ := Prod.mk.inj (Except.ok.inj (hdecode.symm.trans hdecode'))
      rw [hread, assemble_congr fun k hk => Settled.build_get h horder hk]

end

theorem rereadSame_nested :
    let Y := SerdeYaml.table
      [([("owner", .object [("name", .string "ada")]), ("title", .string "a")],
          "owner:\n  name: ada\ntitle: a\n"),
        ([("owner_name", .string "ada"), ("title", .string "a")], "owner_name: ada\ntitle: a\n")]
    let S : EntityTypeStore := ⟨"tag", ⟨none⟩, []⟩
    S.RereadSame Y "1" "owner:\n  name: ada\ntitle: a\n" ↔
      S.Settled [("owner", .object [("name", .string "ada")]), ("title", .string "a")] := by
  intro Y S
  apply @rereadSame_iff Y S "1" _ "" _ (by decide)
  · intro f hf map hmap
    rcases List.mem_pair.mp hf with heq | heq
    · rw [heq] at hmap
      rw [← Json.object.inj hmap]
      decide
    · rw [heq] at hmap
      cases hmap
  · exact ⟨"owner_name: ada\ntitle: a\n", by decide +kernel, by decide, by decide,
      ⟨_, rfl, by decide +kernel⟩, ⟨_, rfl, by decide +kernel⟩⟩

theorem rereading_flattens_further :
    let Y := SerdeYaml.table
      [([("a", .object [("b", .object [("c", .number "1")])])], "a:\n  b:\n    c: 1\n"),
        ([("a_b", .object [("c", .number "1")])], "a_b:\n  c: 1\n")]
    let S : EntityTypeStore := ⟨"tag", ⟨none⟩, []⟩
    (∃ e, S.deserialize Y "1" "a:\n  b:\n    c: 1\n" = .ok e ∧
      Y.RoundTrips (S.written e) "a_b:\n  c: 1\n") ∧
      ¬ S.RereadSame Y "1" "a:\n  b:\n    c: 1\n" := by
  intro Y S
  have hdecode : S.decode Y "a:\n  b:\n    c: 1\n" =
      .ok ([("a", .object [("b", .object [("c", .number "1")])])], "") := by decide
  have hdecode' : S.decode Y "a_b:\n  c: 1\n" =
      .ok ([("a_b", .object [("c", .number "1")])], "") := by decide
  have hread := @deserialize_of_decode Y S "1" _ _ _ hdecode
  have hread' := @deserialize_of_decode Y S "1" _ _ _ hdecode'
  have hyaml : Y.RoundTrips (S.written (S.assemble "1"
      [("a", .object [("b", .object [("c", .number "1")])])] "")) "a_b:\n  c: 1\n" :=
    ⟨by decide +kernel, by decide, by decide, ⟨_, rfl, by decide +kernel⟩,
      ⟨_, rfl, by decide +kernel⟩⟩
  refine ⟨⟨_, hread, hyaml⟩, fun h => ?_⟩
  obtain ⟨e, text', he, hwritten, hback⟩ := h.same
  obtain rfl := Except.ok.inj (hread.symm.trans he)
  obtain rfl : text' = "a_b:\n  c: 1\n" := by
    rw [EntityTypeStore.serialize] at hwritten
    dsimp only [S] at hwritten
    rw [hyaml.emits] at hwritten
    exact (Except.ok.inj hwritten).symm
  have hsame := Except.ok.inj (hread'.symm.trans hback)
  have hobject : (S.assemble "1" [("a", .object [("b", .object [("c", .number "1")])])] "").get
      "a_b" = some (.object [("c", .number "1")]) := by
    rw [EntityTypeStore.assemble]
    dsimp only [S]
    rw [buildEntityFromYaml_eq]
    exact get_setAll_of_unique List.mem_cons_self fun v' hv' =>
      (Prod.mk.inj (List.mem_singleton.mp hv')).2
  rw [← hsame] at hobject
  have hkey := (Prod.mk.inj (List.mem_singleton.mp (mem_of_get_build hobject))).1
  exact absurd hkey (by decide)

end SwissArmyHammer.Entities
