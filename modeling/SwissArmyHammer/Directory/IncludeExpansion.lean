import Mathlib.Data.List.Perm.Subperm
import SwissArmyHammer.Common.Folds
import SwissArmyHammer.Common.References
import SwissArmyHammer.Directory.YamlExpander

/-! What the expansion of includes leaves of a value, and where it leaves references in it. -/

namespace SwissArmyHammer.Directory

open References

variable {includes : Includes} {look : String → Except Failure Yaml} {v w r u p : Yaml}
  {items ws us ks vs xs : List Yaml} {entries es done : List (Yaml × Yaml)} {tags : Bool} {n : String}

inductive Plain : Yaml → Prop
  | null : Plain .null
  | bool (b : Bool) : Plain (.bool b)
  | number (text : String) : Plain (.number text)
  | string {s : String} (hs : includeName s = none) : Plain (.string s)

inductive Node : Yaml → Prop
  | sequence (items : List Yaml) : Node (.sequence items)
  | mapping (entries : List (Yaml × Yaml)) : Node (.mapping entries)

def keys : Yaml → List Yaml
  | .mapping entries => entries.map Prod.fst
  | _ => []

def parts : Yaml → List Yaml
  | .sequence items => items
  | .mapping entries => entries.map Prod.fst ++ entries.map Prod.snd
  | _ => []

theorem forall_parts {P : Yaml → Prop} :
    (∀ p ∈ parts (.mapping entries), P p) ↔ ∀ e ∈ entries, P e.1 ∧ P e.2 := by
  simp only [parts, List.forall_mem_append, List.forall_mem_map, forall_and]

theorem Yaml.induction {P : Yaml → Prop}
    (reference : ∀ s name, includeName s = some name → P (.string s))
    (plain : ∀ v, Plain v → P v) (tagged : ∀ tag v, P v → P (.tagged tag v))
    (node : ∀ v, Node v → (∀ p ∈ parts v, P p) → P v) (v : Yaml) : P v := by
  refine @Yaml.rec P (fun items => ∀ item ∈ items, P item) (fun entries => ∀ e ∈ entries,
    P e.1 ∧ P e.2) (fun e => P e.1 ∧ P e.2) (plain _ .null) (fun b => plain _ (.bool b))
    (fun text => plain _ (.number text)) ?_ (fun items => node _ (.sequence items))
    (fun entries h => node _ (.mapping entries) (forall_parts.mpr h)) tagged ?_ ?_ ?_ ?_ ?_ v
  · intro s
    cases hs : includeName s with
    | none => exact plain _ (.string hs)
    | some name => exact reference s name hs
  · exact fun item hitem => absurd hitem List.not_mem_nil
  · exact fun item items hitem hitems => List.forall_mem_cons.mpr ⟨hitem, hitems⟩
  · exact fun e he => absurd he List.not_mem_nil
  · exact fun e entries he hentries => List.forall_mem_cons.mpr ⟨he, hentries⟩
  · exact fun k v hk hv => ⟨hk, hv⟩

mutual

def refs (tags : Bool) : Yaml → List String
  | .null => []
  | .bool _ => []
  | .number _ => []
  | .string s => (includeName s).toList
  | .sequence items => refsItems tags items
  | .mapping entries => refsEntries tags entries
  | .tagged _ value => if tags then refs tags value else []

def refsItems (tags : Bool) : List Yaml → List String
  | [] => []
  | item :: rest => refs tags item ++ refsItems tags rest

def refsEntries (tags : Bool) : List (Yaml × Yaml) → List String
  | [] => []
  | (key, val) :: rest => refs tags key ++ refs tags val ++ refsEntries tags rest

end

inductive Expands (includes : Includes) : Yaml → Yaml → Prop
  | null : Expands includes .null .null
  | bool (b : Bool) : Expands includes (.bool b) (.bool b)
  | number (text : String) : Expands includes (.number text) (.number text)
  | string {s : String} (hs : includeName s = none) : Expands includes (.string s) (.string s)
  | reference {s name : String} {u r : Yaml} (hs : includeName s = some name)
      (hu : includes.files.get? name = some u) (hr : Expands includes u r) :
      Expands includes (.string s) r
  | sequence {items ws : List Yaml} (hitems : List.Forall₂ (Expands includes) items ws) :
      Expands includes (.sequence items) (.sequence (List.zipWith splice items ws).flatten)
  | mapping {entries : List (Yaml × Yaml)} {ks vs : List Yaml}
      (hkeys : List.Forall₂ (Expands includes) (entries.map Prod.fst) ks)
      (hvals : List.Forall₂ (Expands includes) (entries.map Prod.snd) vs)
      (hdistinct : ks.Pairwise fun a b => b.same a = false) :
      Expands includes (.mapping entries) (.mapping (ks.zip vs))
  | tagged {tag : String} {v r : Yaml} (hr : Expands includes v r) :
      Expands includes (.tagged tag v) (.tagged tag r)

/-- No tagged value in it has a reference, and no two keys of a mapping in it, outside of tagged
values, become equal. -/
inductive Clear (includes : Includes) : Yaml → Prop
  | null : Clear includes .null
  | bool (b : Bool) : Clear includes (.bool b)
  | number (text : String) : Clear includes (.number text)
  | string (s : String) : Clear includes (.string s)
  | sequence {items : List Yaml} (hitems : ∀ item ∈ items, Clear includes item) :
      Clear includes (.sequence items)
  | mapping {entries : List (Yaml × Yaml)} (hkeys : ∀ e ∈ entries, Clear includes e.1)
      (hvals : ∀ e ∈ entries, Clear includes e.2)
      (hdistinct : (entries.map Prod.fst).Pairwise fun a b =>
        ∀ ka kb, Expands includes a ka → Expands includes b kb → kb.same ka = false) :
      Clear includes (.mapping entries)
  | tagged {tag : String} {v : Yaml} (hv : refs true v = []) : Clear includes (.tagged tag v)

theorem mem_refs (h : Node v) : n ∈ refs tags v ↔ ∃ p ∈ parts v, n ∈ refs tags p := by
  cases h with
  | sequence items =>
    rw [refs, parts]
    induction items with
    | nil => simp [refsItems]
    | cons item items ih => simp [refsItems, ih]
  | mapping entries =>
    rw [refs]
    induction entries with
    | nil => simp [refsEntries, parts]
    | cons e entries ih =>
      obtain ⟨key, val⟩ := e
      rw [refsEntries, List.mem_append, ih]
      simp only [parts, List.map_cons, List.cons_append, List.mem_cons, List.mem_append]
      grind

theorem refs_eq_nil_iff (h : Node v) : refs tags v = [] ↔ ∀ p ∈ parts v, refs tags p = [] := by
  simp only [List.eq_nil_iff_forall_not_mem, mem_refs h]
  grind

theorem refs_of_reference {s : String} (hs : includeName s = some n) :
    refs tags (.string s) = [n] := by
  rw [refs, hs, Option.toList_some]

theorem Plain.refs (h : Plain v) (tags : Bool) : refs tags v = [] := by
  cases h with
  | string hs => rw [Directory.refs, hs, Option.toList_none]
  | null | bool _ | number _ => rfl

theorem refs_tagged (tag : String) (v : Yaml) : refs true (.tagged tag v) = refs true v := by
  rw [refs, if_pos rfl]

theorem refs_false_subset (v : Yaml) : ∀ n ∈ refs false v, n ∈ refs true v := by
  induction v using Yaml.induction with
  | reference s name hs => exact fun n hn => hn
  | plain v hv => simp [hv.refs]
  | tagged tag v ih => simp [refs]
  | node v hnode ih =>
    intro n hn
    obtain ⟨p, hp, hn⟩ := (mem_refs hnode).mp hn
    exact (mem_refs hnode).mpr ⟨p, hp, ih p hp n hn⟩

theorem parts_of_same (hv : Node v) (h : v.same w = true) :
    Node w ∧ ∀ p ∈ parts v, ∃ q ∈ parts w, p.same q = true := by
  cases hv with
  | sequence items =>
    cases w with
    | sequence bs =>
      rw [Yaml.same] at h
      refine ⟨.sequence bs, ?_⟩
      simp only [parts]
      induction items generalizing bs with
      | nil => simp
      | cons item items ih =>
        cases bs with
        | nil => simp [Yaml.sameItems] at h
        | cons b bs =>
          rw [Yaml.sameItems, Bool.and_eq_true] at h
          refine List.forall_mem_cons.mpr ⟨⟨b, List.mem_cons_self, h.1⟩, fun p hp => ?_⟩
          obtain ⟨q, hq, hsame⟩ := ih bs h.2 p hp
          exact ⟨q, List.mem_cons_of_mem b hq, hsame⟩
    | null | bool _ | number _ | string _ | mapping _ | tagged _ _ => simp [Yaml.same] at h
  | mapping entries =>
    cases w with
    | mapping bs =>
      rw [Yaml.same, Bool.and_eq_true] at h
      refine ⟨.mapping bs, forall_parts.mpr ?_⟩
      have hentries := h.2
      clear h
      induction entries with
      | nil => simp
      | cons e entries ih =>
        obtain ⟨key, val⟩ := e
        rw [Yaml.sameEntries, Bool.and_eq_true, List.any_eq_true] at hentries
        obtain ⟨⟨b, hb, hsame⟩, hrest⟩ := hentries
        rw [Bool.and_eq_true] at hsame
        refine List.forall_mem_cons.mpr ⟨⟨⟨b.1, ?_, hsame.1⟩, b.2, ?_, hsame.2⟩, ih hrest⟩
        · exact List.mem_append_left _ (List.mem_map_of_mem hb)
        · exact List.mem_append_right _ (List.mem_map_of_mem hb)
    | null | bool _ | number _ | string _ | sequence _ | tagged _ _ => simp [Yaml.same] at h

theorem refs_eq_nil_of_same (h : v.same w = true) (hw : refs true w = []) : refs true v = [] := by
  induction v using Yaml.induction generalizing w with
  | reference s name hs =>
    cases w with
    | string t =>
      have hst : s = t := by simpa [Yaml.same] using h
      rw [hst, hw]
    | null | bool _ | number _ | sequence _ | mapping _ | tagged _ _ => simp [Yaml.same] at h
  | plain v hv => exact hv.refs true
  | tagged tag v ih =>
    cases w with
    | tagged t w =>
      rw [Yaml.same, Bool.and_eq_true] at h
      rw [refs_tagged] at hw ⊢
      exact ih h.2 hw
    | null | bool _ | number _ | string _ | sequence _ | mapping _ => simp [Yaml.same] at h
  | node v hnode ih =>
    obtain ⟨hnode', hparts⟩ := parts_of_same hnode h
    rw [refs_eq_nil_iff hnode'] at hw
    rw [refs_eq_nil_iff hnode]
    intro p hp
    obtain ⟨q, hq, hsame⟩ := hparts p hp
    exact ih p hp hsame (hw q hq)

abbrev Distinct (ks : List Yaml) : Prop := ks.Pairwise fun a b => b.same a = false

def insertAll (done es : List (Yaml × Yaml)) : List (Yaml × Yaml) :=
  es.foldl (fun done e => insertEntry e.1 e.2 done) done

theorem insertEntry_cases (k v : Yaml) (done : List (Yaml × Yaml)) :
    (insertEntry k v done).map Prod.fst = done.map Prod.fst ∧ (∃ d ∈ done, k.same d.1 = true) ∨
      insertEntry k v done = done ++ [(k, v)] ∧ ∀ d ∈ done, k.same d.1 = false := by
  induction done with
  | nil => exact .inr ⟨rfl, by simp⟩
  | cons d done ih =>
    rw [insertEntry]
    split_ifs with hsame
    · exact .inl ⟨rfl, d, List.mem_cons_self, hsame⟩
    · rcases ih with ⟨hkeys, hsome⟩ | ⟨happend, hnone⟩
      · exact .inl ⟨by rw [List.map_cons, hkeys, List.map_cons], by simp [hsome]⟩
      · rw [happend]
        exact .inr ⟨rfl, List.forall_mem_cons.mpr ⟨Bool.eq_false_iff.mpr hsame, hnone⟩⟩

theorem distinct_insertEntry {k v : Yaml} (h : Distinct (done.map Prod.fst)) :
    Distinct ((insertEntry k v done).map Prod.fst) := by
  rcases insertEntry_cases k v done with ⟨hkeys, -⟩ | ⟨happend, hnone⟩
  · rwa [hkeys]
  · rw [happend, List.map_append]
    exact List.pairwise_append.mpr ⟨h, List.pairwise_singleton _ _, by simpa using hnone⟩

theorem forall_insertEntry {P : Yaml → Prop} {k v : Yaml} (hk : P k) (hv : P v)
    (h : ∀ d ∈ done, P d.1 ∧ P d.2) : ∀ e ∈ insertEntry k v done, P e.1 ∧ P e.2 := by
  induction done with
  | nil => simpa [insertEntry] using ⟨hk, hv⟩
  | cons d done ih =>
    obtain ⟨hd, hrest⟩ := List.forall_mem_cons.mp h
    rw [insertEntry]
    split_ifs
    · exact List.forall_mem_cons.mpr ⟨⟨hd.1, hv⟩, hrest⟩
    · exact List.forall_mem_cons.mpr ⟨hd, ih hrest⟩

theorem forall_insertAll {P : Yaml → Prop} (h : ∀ e ∈ es, P e.1 ∧ P e.2) :
    ∀ e ∈ insertAll [] es, P e.1 ∧ P e.2 :=
  foldl_keeps (I := fun done : List (Yaml × Yaml) => ∀ d ∈ done, P d.1 ∧ P d.2)
    (fun _ e he hdone => forall_insertEntry (h e he).1 (h e he).2 hdone) (by simp)

theorem distinct_insertAll (es : List (Yaml × Yaml)) :
    Distinct ((insertAll [] es).map Prod.fst) :=
  foldl_keeps (I := fun done : List (Yaml × Yaml) => Distinct (done.map Prod.fst))
    (fun _ _ _ hdone => distinct_insertEntry hdone) List.Pairwise.nil

theorem insertAll_of_distinct (h : Distinct ((done ++ es).map Prod.fst)) :
    insertAll done es = done ++ es := by
  induction es generalizing done with
  | nil => rw [insertAll, List.foldl_nil, List.append_nil]
  | cons e es ih =>
    have hstep : insertAll done (e :: es) = insertAll (insertEntry e.1 e.2 done) es := rfl
    rcases insertEntry_cases e.1 e.2 done with ⟨-, d, hd, hsame⟩ | ⟨happend, -⟩
    · rw [List.map_append] at h
      have hfresh := (List.pairwise_append.mp h).2.2 d.1 (List.mem_map_of_mem hd) e.1 (by simp)
      rw [hsame] at hfresh
      cases hfresh
    · rw [hstep, happend, ih (by simpa using h), List.append_assoc, List.singleton_append]

theorem exists_key_insertAll (done es : List (Yaml × Yaml)) :
    (∀ k ∈ es.map Prod.fst, ∃ e ∈ insertAll done es, k = e.1 ∨ k.same e.1 = true) ∧
      ∀ k ∈ done.map Prod.fst, ∃ e ∈ insertAll done es, k = e.1 := by
  induction es generalizing done with
  | nil => exact ⟨by simp, fun k hk => by simpa [insertAll, eq_comm] using hk⟩
  | cons f es ih =>
    have hstep : insertAll done (f :: es) = insertAll (insertEntry f.1 f.2 done) es := rfl
    obtain ⟨hrest, hlater⟩ := ih (insertEntry f.1 f.2 done)
    rw [hstep]
    rcases insertEntry_cases f.1 f.2 done with ⟨hkeys, d, hd, hsame⟩ | ⟨happend, -⟩
    · rw [hkeys] at hlater
      obtain ⟨e, he, heq⟩ := hlater d.1 (List.mem_map_of_mem hd)
      exact ⟨List.forall_mem_cons.mpr ⟨⟨e, he, .inr (heq ▸ hsame)⟩, hrest⟩, hlater⟩
    · have hboth := hlater
      rw [congrArg (List.map Prod.fst) happend, List.map_append, List.forall_mem_append] at hboth
      obtain ⟨e, he, heq⟩ := hboth.2 f.1 (by simp)
      exact ⟨List.forall_mem_cons.mpr ⟨⟨e, he, .inl heq⟩, hrest⟩, hboth.1⟩

section

variable {R S : Yaml → Yaml → Prop} {D D' : List Yaml → Prop} {P : Yaml → Prop}

theorem exists_of_forall₂ {α β : Type} {R : α → β → Prop} {xs : List α} {ws : List β} {x : α}
    (h : List.Forall₂ R xs ws) (hx : x ∈ xs) : ∃ w ∈ ws, R x w := by
  induction h with
  | nil => simp at hx
  | cons hfirst _ ih =>
    rcases List.mem_cons.mp hx with rfl | hx
    · exact ⟨_, List.mem_cons_self, hfirst⟩
    · obtain ⟨w, hw, hR⟩ := ih hx
      exact ⟨w, List.mem_cons_of_mem _ hw, hR⟩

theorem forall_of_forall₂ (h : List.Forall₂ R xs ws) (hP : ∀ x ∈ xs, ∀ w, R x w → P w) :
    ∀ w ∈ ws, P w := by
  intro w hw
  obtain ⟨x, hx, hR⟩ := exists_of_forall₂ h.flip hw
  exact hP x hx w hR

theorem forall₂_imp_mem (h : List.Forall₂ R xs ws) (himp : ∀ x ∈ xs, ∀ w, R x w → S x w) :
    List.Forall₂ S xs ws := by
  obtain ⟨hlen, hzip⟩ := List.forall₂_iff_zip.mp h
  exact List.forall₂_iff_zip.mpr ⟨hlen, fun hmem =>
    himp _ (List.of_mem_zip hmem).1 _ (hzip hmem)⟩

theorem eq_of_forall₂ (h : List.Forall₂ R xs ws) (h' : List.Forall₂ S xs vs)
    (heq : ∀ x ∈ xs, ∀ w u, R x w → S x u → u = w) : vs = ws := by
  induction h generalizing vs with
  | nil =>
    cases h'
    rfl
  | cons hfirst _ ih =>
    cases h' with
    | cons hfirst' hrest' =>
      rw [heq _ List.mem_cons_self _ _ hfirst hfirst', ih hrest']
      exact fun x hx => heq x (List.mem_cons_of_mem _ hx)

theorem insertAll_zip (hlen : ks.length = vs.length) (h : Distinct ks) :
    insertAll [] (ks.zip vs) = ks.zip vs := by
  rw [insertAll_of_distinct, List.nil_append]
  rwa [List.nil_append, List.map_fst_zip (Nat.le_of_eq hlen)]

inductive Layer (D : List Yaml → Prop) (R : Yaml → Yaml → Prop) : Yaml → Yaml → Prop
  | sequence {items ws : List Yaml} (hitems : List.Forall₂ R items ws) :
      Layer D R (.sequence items) (.sequence (List.zipWith splice items ws).flatten)
  | mapping {entries : List (Yaml × Yaml)} {ks vs : List Yaml}
      (hkeys : List.Forall₂ R (entries.map Prod.fst) ks)
      (hvals : List.Forall₂ R (entries.map Prod.snd) vs) (hD : D ks) :
      Layer D R (.mapping entries) (.mapping (insertAll [] (ks.zip vs)))

theorem Layer.node (h : Layer D R v r) : Node r := by
  cases h with
  | sequence _ => exact .sequence _
  | mapping _ _ _ => exact .mapping _

theorem Layer.exists (h : Layer D R v r) (hp : p ∈ parts v) : ∃ w, R p w := by
  cases h with
  | sequence hitems =>
    obtain ⟨w, -, hw⟩ := exists_of_forall₂ hitems hp
    exact ⟨w, hw⟩
  | mapping hkeys hvals _ =>
    obtain ⟨w, -, hw⟩ := exists_of_forall₂ (List.rel_append hkeys hvals) hp
    exact ⟨w, hw⟩

theorem Layer.imp (h : Layer D R v r) (himp : ∀ p ∈ parts v, ∀ w, R p w → S p w)
    (hD : ∀ ks, List.Forall₂ S (keys v) ks → D ks → D' ks) : Layer D' S v r := by
  cases h with
  | sequence hitems => exact .sequence (forall₂_imp_mem hitems himp)
  | mapping hkeys hvals hks =>
    obtain ⟨himpKeys, himpVals⟩ := List.forall_mem_append.mp himp
    have hkeys' := forall₂_imp_mem hkeys himpKeys
    exact .mapping hkeys' (forall₂_imp_mem hvals himpVals) (hD _ hkeys' hks)

theorem Layer.unique (h : Layer D R v r) (h' : Layer D' S v r')
    (heq : ∀ p ∈ parts v, ∀ w u, R p w → S p u → u = w) : r' = r := by
  cases h with
  | sequence hitems =>
    cases h' with
    | sequence hitems' => rw [eq_of_forall₂ hitems hitems' heq]
  | mapping hkeys hvals _ =>
    cases h' with
    | mapping hkeys' hvals' _ =>
      obtain ⟨heqKeys, heqVals⟩ := List.forall_mem_append.mp heq
      rw [eq_of_forall₂ hkeys hkeys' heqKeys, eq_of_forall₂ hvals hvals' heqVals]

theorem Layer.distinct (h : Layer D R v r) : Distinct (keys r) := by
  cases h with
  | sequence _ => exact .nil
  | mapping _ _ _ => exact distinct_insertAll _

theorem forall_spliced (hP : ∀ items, P (.sequence items) ↔ ∀ item ∈ items, P item)
    (h : List.Forall₂ R items ws) :
    (∀ x ∈ (List.zipWith splice items ws).flatten, P x) ↔ ∀ w ∈ ws, P w := by
  induction h with
  | nil => simp
  | @cons item w _ _ _ _ ih =>
    have hsplice : (∀ x ∈ splice item w, P x) ↔ P w := by
      rw [splice.eq_def]
      split
      · split_ifs
        · rw [hP]
        · simp
      · simp
    rw [List.zipWith_cons_cons, List.flatten_cons, List.forall_mem_append, ih, hsplice,
      List.forall_mem_cons]

theorem Layer.parts (h : Layer D R v r)
    (hP : ∀ items, P (.sequence items) ↔ ∀ item ∈ items, P item)
    (hparts : ∀ p ∈ parts v, ∀ w, R p w → P w) : ∀ q ∈ parts r, P q := by
  cases h with
  | sequence hitems => exact (forall_spliced hP hitems).mpr (forall_of_forall₂ hitems hparts)
  | mapping hkeys hvals _ =>
    obtain ⟨hpKeys, hpVals⟩ := List.forall_mem_append.mp hparts
    refine forall_parts.mpr (forall_insertAll fun e he => ?_)
    exact ⟨forall_of_forall₂ hkeys hpKeys _ (List.of_mem_zip he).1,
      forall_of_forall₂ hvals hpVals _ (List.of_mem_zip he).2⟩

theorem flatten_splice_self (h : ∀ item ∈ items, ∀ s, item = .string s → includeName s = none) :
    (List.zipWith splice items items).flatten = items := by
  induction items with
  | nil => rfl
  | cons item items ih =>
    obtain ⟨hfirst, hrest⟩ := List.forall_mem_cons.mp h
    have hone : splice item item = [item] := by
      cases item with
      | null | bool _ | number _ | string _ | sequence _ | mapping _ | tagged _ _ => rfl
    rw [List.zipWith_cons_cons, List.flatten_cons, hone, ih hrest, List.singleton_append]

theorem zip_fst_snd (entries : List (Yaml × Yaml)) :
    (entries.map Prod.fst).zip (entries.map Prod.snd) = entries := by
  rw [List.zip_map']
  exact List.map_id' entries

theorem Layer.self (hnode : Node v) (hR : ∀ p ∈ Directory.parts v, R p p)
    (hstring : ∀ p ∈ Directory.parts v, ∀ s, p = .string s → includeName s = none)
    (hD : D (keys v)) (hdistinct : Distinct (keys v)) : Layer D R v v := by
  cases hnode with
  | sequence items =>
    have hself := Layer.sequence (D := D) (List.forall₂_same.mpr hR)
    rwa [flatten_splice_self hstring] at hself
  | mapping entries =>
    obtain ⟨hkeys, hvals⟩ := List.forall_mem_append.mp hR
    have hself := Layer.mapping (List.forall₂_same.mpr hkeys) (List.forall₂_same.mpr hvals) hD
    have hall : insertAll [] entries = [] ++ entries := insertAll_of_distinct hdistinct
    rwa [zip_fst_snd, hall] at hself

end

abbrev Ran (look : String → Except Failure Yaml) (v w : Yaml) : Prop := expandWith look v = .ok w

theorem expandItems_eq :
    expandItems look xs items =
      (items.mapM (expandWith look)).map fun ws => xs ++ (List.zipWith splice items ws).flatten := by
  induction items generalizing xs with
  | nil =>
    rw [expandItems]
    simp [Except.map, pure, Except.pure]
  | cons item items ih =>
    rw [expandItems, List.mapM_cons]
    cases expandWith look item with
    | error e => rfl
    | ok expanded =>
      simp only [ih]
      cases items.mapM (expandWith look) with
      | error e => rfl
      | ok ws => simp [Except.map, bind, Except.bind, pure, Except.pure]

def expandEntry (look : String → Except Failure Yaml) (e : Yaml × Yaml) :
    Except Failure (Yaml × Yaml) :=
  expandWith look e.1 >>= fun k => (expandWith look e.2).map fun v => (k, v)

theorem expandEntries_eq :
    expandEntries look done entries = (entries.mapM (expandEntry look)).map (insertAll done) := by
  induction entries generalizing done with
  | nil => rfl
  | cons e entries ih =>
    obtain ⟨key, val⟩ := e
    rw [expandEntries, List.mapM_cons, expandEntry]
    cases expandWith look key with
    | error e => rfl
    | ok k =>
      cases expandWith look val with
      | error e => rfl
      | ok v =>
        simp only [ih]
        cases entries.mapM (expandEntry look) with
        | error e => rfl
        | ok es => rfl

theorem ran_reference {s : String} (hs : includeName s = some n) :
    Ran look (.string s) r ↔ look n = .ok r := by
  rw [Ran, expandWith, hs]

theorem ran_plain (h : Plain v) : Ran look v r ↔ r = v := by
  cases h with
  | string hs =>
    rw [Ran, expandWith, hs]
    exact ⟨fun h => (Except.ok.inj h).symm, fun h => congrArg Except.ok h.symm⟩
  | null | bool _ | number _ =>
    exact ⟨fun h => (Except.ok.inj h).symm, fun h => congrArg Except.ok h.symm⟩

theorem ran_tagged {tag : String} : Ran look (.tagged tag v) r ↔ r = .tagged tag v :=
  ⟨fun h => (Except.ok.inj h).symm, fun h => congrArg Except.ok h.symm⟩

theorem forall₂_expandEntry :
    List.Forall₂ (fun e e' => expandEntry look e = .ok e') entries es ↔
      List.Forall₂ (Ran look) (entries.map Prod.fst) (es.map Prod.fst) ∧
        List.Forall₂ (Ran look) (entries.map Prod.snd) (es.map Prod.snd) := by
  induction entries generalizing es with
  | nil => cases es with
    | nil => simp
    | cons e' es => simp
  | cons e entries ih =>
    cases es with
    | nil => simp
    | cons e' es =>
      have hone : expandEntry look e = .ok e' ↔ Ran look e.1 e'.1 ∧ Ran look e.2 e'.2 := by
        rw [expandEntry, Ran, Ran]
        cases expandWith look e.1 with
        | error err => simp [bind, Except.bind]
        | ok k =>
          cases expandWith look e.2 with
          | error err => simp [bind, Except.bind, Except.map]
          | ok v => simp [bind, Except.bind, Except.map, Prod.ext_iff]
      simp only [List.map_cons, List.forall₂_cons, ih, hone]
      exact and_and_and_comm

theorem ran_node (h : Node v) : Ran look v r ↔ Layer (fun _ => True) (Ran look) v r := by
  cases h with
  | sequence items =>
    rw [Ran, expandWith, expandItems_eq]
    constructor
    · intro h
      obtain ⟨ws, hws, rfl⟩ := exists_of_map h
      obtain ⟨us, hus, rfl⟩ := exists_of_map hws
      exact .sequence (mapM_eq_ok.mp hus)
    · rintro (hitems | _)
      rw [mapM_eq_ok.mpr hitems]
      rfl
  | mapping entries =>
    rw [Ran, expandWith, expandEntries_eq]
    constructor
    · intro h
      obtain ⟨es, hes, rfl⟩ := exists_of_map h
      obtain ⟨us, hus, rfl⟩ := exists_of_map hes
      obtain ⟨hkeys, hvals⟩ := forall₂_expandEntry.mp (mapM_eq_ok.mp hus)
      exact zip_fst_snd us ▸ Layer.mapping hkeys hvals trivial
    · rintro (_ | @⟨_, ks, vs, hkeys, hvals, -⟩)
      have hlen : ks.length = vs.length := by
        rw [← hkeys.length_eq, ← hvals.length_eq, List.length_map, List.length_map]
      rw [← List.map_fst_zip (Nat.le_of_eq hlen)] at hkeys
      rw [← List.map_snd_zip (Nat.le_of_eq hlen.symm)] at hvals
      rw [mapM_eq_ok.mpr (forall₂_expandEntry.mpr ⟨hkeys, hvals⟩)]
      rfl

theorem exists_of_error {e : Failure} (h : expandWith look v = .error e) :
    ∃ n ∈ refs false v, look n = .error e := by
  induction v using Yaml.induction generalizing e with
  | reference s name hs =>
    rw [expandWith, hs] at h
    exact ⟨name, by simp [refs_of_reference hs], h⟩
  | plain v hv =>
    have hok : Ran look v v := (ran_plain hv).mpr rfl
    cases h.symm.trans hok
  | tagged tag v _ => simp [expandWith] at h
  | node v hnode ih =>
    have hpart : ∃ p ∈ parts v, expandWith look p = .error e := by
      cases hnode with
      | sequence items =>
        rw [expandWith, expandItems_eq] at h
        cases hitems : items.mapM (expandWith look) with
        | ok ws => simp [hitems, Except.map] at h
        | error e' =>
          rw [hitems] at h
          obtain rfl := Except.error.inj h
          exact exists_of_mapM_error hitems
      | mapping entries =>
        rw [expandWith, expandEntries_eq] at h
        cases hentries : entries.mapM (expandEntry look) with
        | ok es => simp [hentries, Except.map] at h
        | error e' =>
          rw [hentries] at h
          obtain rfl := Except.error.inj h
          obtain ⟨entry, hentry, herror⟩ := exists_of_mapM_error hentries
          rw [expandEntry] at herror
          cases hkey : expandWith look entry.1 with
          | error e₁ =>
            rw [hkey] at herror
            obtain rfl := Except.error.inj herror
            exact ⟨_, List.mem_append_left _ (List.mem_map_of_mem hentry), hkey⟩
          | ok k =>
            cases hval : expandWith look entry.2 with
            | error e₂ =>
              rw [hkey, hval] at herror
              obtain rfl := Except.error.inj herror
              exact ⟨_, List.mem_append_right _ (List.mem_map_of_mem hentry), hval⟩
            | ok w => simp [hkey, hval, Except.map, bind, Except.bind] at herror
    obtain ⟨p, hp, herror⟩ := hpart
    obtain ⟨n, hn, hlook⟩ := ih p hp herror
    exact ⟨n, (mem_refs hnode).mpr ⟨p, hp, hn⟩, hlook⟩

theorem exists_of_ran (h : Ran look v r) (hn : n ∈ refs false v) : ∃ w, look n = .ok w := by
  induction v using Yaml.induction generalizing r with
  | reference s name hs =>
    rw [refs_of_reference hs, List.mem_singleton] at hn
    exact ⟨r, hn ▸ (ran_reference hs).mp h⟩
  | plain v hv => simp [hv.refs] at hn
  | tagged tag v _ => simp [refs] at hn
  | node v hnode ih =>
    obtain ⟨p, hp, hn⟩ := (mem_refs hnode).mp hn
    obtain ⟨w, hw⟩ := ((ran_node hnode).mp h).exists hp
    exact ih p hp hw hn

/-- No string outside of tagged values is a reference, and no two keys of a mapping are equal. -/
inductive Settled : Yaml → Prop
  | null : Settled .null
  | bool (b : Bool) : Settled (.bool b)
  | number (text : String) : Settled (.number text)
  | string {s : String} (hs : includeName s = none) : Settled (.string s)
  | sequence {items : List Yaml} (hitems : ∀ item ∈ items, Settled item) :
      Settled (.sequence items)
  | mapping {entries : List (Yaml × Yaml)} (hkeys : ∀ e ∈ entries, Settled e.1)
      (hvals : ∀ e ∈ entries, Settled e.2)
      (hdistinct : entries.Pairwise fun a b => b.1.same a.1 = false) :
      Settled (.mapping entries)
  | tagged (tag : String) (v : Yaml) : Settled (.tagged tag v)

theorem settled_node (h : Node v) :
    Settled v ↔ (∀ p ∈ parts v, Settled p) ∧ Distinct (keys v) := by
  cases h with
  | sequence items =>
    refine ⟨fun h => ?_, fun h => .sequence h.1⟩
    cases h with
    | sequence hitems => exact ⟨hitems, .nil⟩
  | mapping entries =>
    rw [forall_parts, keys, Distinct, List.pairwise_map]
    refine ⟨fun h => ?_, fun h => .mapping (fun e he => (h.1 e he).1) (fun e he => (h.1 e he).2) h.2⟩
    cases h with
    | mapping hkeys hvals hdistinct => exact ⟨fun e he => ⟨hkeys e he, hvals e he⟩, hdistinct⟩

theorem settled_of_ran (hlook : ∀ n w, look n = .ok w → Settled w) (h : Ran look v r) :
    Settled r := by
  induction v using Yaml.induction generalizing r with
  | reference s name hs => exact hlook name r ((ran_reference hs).mp h)
  | plain v hv =>
    obtain rfl := (ran_plain hv).mp h
    cases hv with
    | null => exact .null
    | bool b => exact .bool b
    | number text => exact .number text
    | string hs => exact .string hs
  | tagged tag v _ =>
    obtain rfl := ran_tagged.mp h
    exact .tagged tag v
  | node v hnode ih =>
    have hlayer := (ran_node hnode).mp h
    refine (settled_node hlayer.node).mpr ⟨hlayer.parts (fun items => ?_) ?_, hlayer.distinct⟩
    · rw [settled_node (.sequence items)]
      exact and_iff_left .nil
    · exact fun p hp w hw => ih p hp hw

theorem Settled.ran (h : Settled v) (look : String → Except Failure Yaml) : Ran look v v := by
  induction v using Yaml.induction with
  | reference s name hs =>
    cases h with
    | string hs' => simp [hs] at hs'
  | plain v hv => exact (ran_plain hv).mpr rfl
  | tagged tag v _ => exact ran_tagged.mpr rfl
  | node v hnode ih =>
    obtain ⟨hparts, hdistinct⟩ := (settled_node hnode).mp h
    refine (ran_node hnode).mpr (.self hnode (fun p hp => ih p hp (hparts p hp)) ?_ trivial hdistinct)
    rintro p hp s rfl
    cases hparts _ hp with
    | string hs => exact hs

theorem clear_node (h : Node v) :
    Clear includes v ↔ (∀ p ∈ parts v, Clear includes p) ∧
      (keys v).Pairwise fun a b =>
        ∀ ka kb, Expands includes a ka → Expands includes b kb → kb.same ka = false := by
  cases h with
  | sequence items =>
    refine ⟨fun h => ?_, fun h => .sequence h.1⟩
    cases h with
    | sequence hitems => exact ⟨hitems, .nil⟩
  | mapping entries =>
    rw [forall_parts]
    refine ⟨fun h => ?_, fun h => .mapping (fun e he => (h.1 e he).1) (fun e he => (h.1 e he).2) h.2⟩
    cases h with
    | mapping hkeys hvals hdistinct => exact ⟨fun e he => ⟨hkeys e he, hvals e he⟩, hdistinct⟩

theorem wellFormed_node (h : Node v) (hv : v.WellFormed) :
    (∀ p ∈ parts v, p.WellFormed) ∧ Distinct (keys v) := by
  cases h with
  | sequence items =>
    cases hv with
    | sequence hitems => exact ⟨hitems, .nil⟩
  | mapping entries =>
    cases hv with
    | mapping hkeys hvals hdistinct =>
      exact ⟨forall_parts.mpr fun e he => ⟨hkeys e he, hvals e he⟩, hdistinct⟩

theorem refs_eq_nil_of_ran (hlook : ∀ n ∈ refs false v, ∀ w, look n = .ok w → refs true w = [])
    (hclear : Clear includes v) (h : Ran look v r) : refs true r = [] := by
  induction v using Yaml.induction generalizing r with
  | reference s name hs =>
    exact hlook name (by simp [refs_of_reference hs]) r ((ran_reference hs).mp h)
  | plain v hv =>
    obtain rfl := (ran_plain hv).mp h
    exact hv.refs true
  | tagged tag v _ =>
    obtain rfl := ran_tagged.mp h
    cases hclear with
    | tagged hv => rw [refs_tagged, hv]
  | node v hnode ih =>
    have hlayer := (ran_node hnode).mp h
    rw [refs_eq_nil_iff hlayer.node]
    refine hlayer.parts (fun items => refs_eq_nil_iff (.sequence items)) fun p hp w hw => ?_
    exact ih p hp (fun n hn => hlook n ((mem_refs hnode).mpr ⟨p, hp, hn⟩))
      (((clear_node hnode).mp hclear).1 p hp) hw

theorem expands_node (h : Node v) :
    Expands includes v r ↔ Layer Distinct (Expands includes) v r := by
  cases h with
  | sequence items =>
    constructor
    · rintro (_ | _ | _ | _ | _ | hitems | _ | _)
      exact .sequence hitems
    · rintro (hitems | _)
      exact .sequence hitems
  | mapping entries =>
    have hlen : ∀ {ks vs}, List.Forall₂ (Expands includes) (entries.map Prod.fst) ks →
        List.Forall₂ (Expands includes) (entries.map Prod.snd) vs → ks.length = vs.length := by
      intro ks vs hkeys hvals
      rw [← hkeys.length_eq, ← hvals.length_eq, List.length_map, List.length_map]
    constructor
    · rintro (_ | _ | _ | _ | _ | _ | ⟨hkeys, hvals, hdistinct⟩ | _)
      rw [← insertAll_zip (hlen hkeys hvals) hdistinct]
      exact .mapping hkeys hvals hdistinct
    · rintro (_ | ⟨hkeys, hvals, hdistinct⟩)
      rw [insertAll_zip (hlen hkeys hvals) hdistinct]
      exact .mapping hkeys hvals hdistinct

theorem expands_plain (h : Plain v) : Expands includes v r ↔ r = v := by
  constructor
  · intro hr
    cases h with
    | string hs =>
      cases hr with
      | string _ => rfl
      | reference hname _ _ => simp [hs] at hname
    | null | bool _ | number _ =>
      cases hr
      rfl
  · rintro rfl
    cases h with
    | null => exact .null
    | bool b => exact .bool b
    | number text => exact .number text
    | string hs => exact .string hs

theorem pairwise_forall₂ {R : Yaml → Yaml → Prop} (h : List.Forall₂ R xs ks)
    (hxs : xs.Pairwise fun a b => ∀ ka kb, R a ka → R b kb → kb.same ka = false) : Distinct ks := by
  induction h with
  | nil => exact .nil
  | cons hfirst hrest ih =>
    obtain ⟨hhead, htail⟩ := List.pairwise_cons.mp hxs
    refine List.pairwise_cons.mpr ⟨fun k hk => ?_, ih htail⟩
    obtain ⟨x, hx, hR⟩ := exists_of_forall₂ hrest.flip hk
    exact hhead x hx _ _ hfirst hR

theorem pairwise_of_forall₂ {R : Yaml → Yaml → Prop} (h : List.Forall₂ R xs ks)
    (hunique : ∀ x ∈ xs, ∀ k k', R x k → R x k' → k' = k) (hks : Distinct ks) :
    xs.Pairwise fun a b => ∀ ka kb, R a ka → R b kb → kb.same ka = false := by
  induction h with
  | nil => exact .nil
  | cons hfirst hrest ih =>
    obtain ⟨hhead, htail⟩ := List.pairwise_cons.mp hks
    obtain ⟨hfirstUnique, hlater⟩ := List.forall_mem_cons.mp hunique
    refine List.pairwise_cons.mpr ⟨fun x hx ka kb hka hkb => ?_, ih hlater htail⟩
    obtain ⟨k, hk, hR⟩ := exists_of_forall₂ hrest hx
    rw [hfirstUnique _ _ hfirst hka, hlater x hx _ _ hR hkb]
    exact hhead k hk

theorem string_of_refs (hv : ∀ p ∈ parts v, refs true p = []) :
    ∀ p ∈ parts v, ∀ s, p = .string s → includeName s = none := by
  rintro p hp s rfl
  have hs := hv _ hp
  cases hname : includeName s with
  | none => rfl
  | some name => simp [refs_of_reference hname] at hs

theorem expands_self (hformed : v.WellFormed) (hv : refs true v = []) : Expands includes v v := by
  induction v using Yaml.induction with
  | reference s name hs => simp [refs_of_reference hs] at hv
  | plain v hplain => exact (expands_plain hplain).mpr rfl
  | tagged tag v ih =>
    rw [refs_tagged] at hv
    cases hformed with
    | tagged hformed => exact .tagged (ih hformed hv)
  | node v hnode ih =>
    rw [refs_eq_nil_iff hnode] at hv
    obtain ⟨hparts, hdistinct⟩ := wellFormed_node hnode hformed
    exact (expands_node hnode).mpr (.self hnode (fun p hp => ih p hp (hparts p hp) (hv p hp))
      (string_of_refs hv) hdistinct hdistinct)

theorem expands_of_ran
    (hlook : ∀ n ∈ refs false v, ∀ w, look n = .ok w →
      ∃ u, includes.files.get? n = some u ∧ Expands includes u w)
    (hformed : v.WellFormed) (hclear : Clear includes v) (h : Ran look v r) :
    Expands includes v r := by
  induction v using Yaml.induction generalizing r with
  | reference s name hs =>
    obtain ⟨u, hu, hw⟩ := hlook name (by simp [refs_of_reference hs]) r ((ran_reference hs).mp h)
    exact .reference hs hu hw
  | plain v hv => exact (expands_plain hv).mpr ((ran_plain hv).mp h)
  | tagged tag v _ =>
    obtain rfl := ran_tagged.mp h
    cases hclear with
    | tagged hv =>
      cases hformed with
      | tagged hformed => exact .tagged (expands_self hformed hv)
  | node v hnode ih =>
    obtain ⟨hclearParts, hkeys⟩ := (clear_node hnode).mp hclear
    refine (expands_node hnode).mpr (((ran_node hnode).mp h).imp (fun p hp w hw => ?_) ?_)
    · exact ih p hp (fun n hn => hlook n ((mem_refs hnode).mpr ⟨p, hp, hn⟩))
        ((wellFormed_node hnode hformed).1 p hp) (hclearParts p hp) hw
    · exact fun ks hks _ => pairwise_forall₂ hks hkeys

theorem eq_of_expands_of_refs (hv : refs true v = []) (h : Expands includes v r) : r = v := by
  induction v using Yaml.induction generalizing r with
  | reference s name hs => simp [refs_of_reference hs] at hv
  | plain v hplain => exact (expands_plain hplain).mp h
  | tagged tag v ih =>
    rw [refs_tagged] at hv
    cases h with
    | tagged hr => rw [ih hv hr]
  | node v hnode ih =>
    rw [refs_eq_nil_iff hnode] at hv
    have hlayer := (expands_node hnode).mp h
    have hsame : ∀ p ∈ parts v, ∀ w u, p = w → Expands includes p u → u = w := by
      rintro p hp w u rfl hu
      exact ih p hp (hv p hp) hu
    have hdistinct : Distinct (keys v) := by
      cases hlayer with
      | sequence _ => exact .nil
      | mapping hkeys _ hD =>
        rwa [eq_of_forall₂ (List.forall₂_same.mpr fun _ _ => rfl) hkeys
          fun x hx => hsame x (List.mem_append_left _ hx)] at hD
    have hself : Layer Distinct Eq v v :=
      .self hnode (fun _ _ => rfl) (string_of_refs hv) hdistinct hdistinct
    exact hself.unique hlayer hsame

def ClearBelow (includes : Includes) (v : Yaml) : Prop :=
  ∀ n ∈ refs false v, ∀ u, includes.files.get? n = some u →
    ∀ w, Reached (refs false) includes.files.get? u w → Clear includes w

theorem forall_ran {P : Yaml → Prop} (h : List.Forall₂ (Ran look) xs ws) (hP : ∀ w ∈ ws, P w) :
    ∀ x ∈ xs, ∀ w, Ran look x w → P w := by
  intro x hx w hw
  obtain ⟨u, hu, hran⟩ := exists_of_forall₂ h hx
  obtain rfl := Except.ok.inj (hran.symm.trans hw)
  exact hP u hu

theorem clear_of_ran
    (hlook : ∀ n w, look n = .ok w → refs true w = [] → ∀ u, includes.files.get? n = some u →
      ∀ w', Expands includes u w' →
        w' = w ∧ ∀ x, Reached (refs false) includes.files.get? u x → Clear includes x)
    (hran : Ran look v r) (hfree : refs true r = []) (hexp : Expands includes v r') :
    r' = r ∧ Clear includes v ∧ ClearBelow includes v := by
  induction v using Yaml.induction generalizing r r' with
  | reference s name hs =>
    cases hexp with
    | string hs' => simp [hs] at hs'
    | @reference _ name' u _ hs' hu hr =>
      obtain rfl := Option.some.inj (hs.symm.trans hs')
      obtain ⟨hunique, hbelow⟩ := hlook name r ((ran_reference hs).mp hran) hfree u hu r' hr
      refine ⟨hunique, .string s, fun n hn u' hu' => ?_⟩
      rw [refs_of_reference hs, List.mem_singleton] at hn
      obtain rfl := Option.some.inj (hu.symm.trans (hn ▸ hu'))
      exact hbelow
  | plain v hv =>
    obtain rfl := (ran_plain hv).mp hran
    refine ⟨(expands_plain hv).mp hexp, ?_, by simp [ClearBelow, hv.refs]⟩
    cases hv with
    | null => exact .null
    | bool b => exact .bool b
    | number text => exact .number text
    | string _ => exact .string _
  | tagged tag v _ =>
    obtain rfl := ran_tagged.mp hran
    rw [refs_tagged] at hfree
    cases hexp with
    | tagged hr =>
      refine ⟨by rw [eq_of_expands_of_refs hfree hr], .tagged hfree, ?_⟩
      simp [ClearBelow, refs]
  | node v hnode ih =>
    have hlayer := (ran_node hnode).mp hran
    have hlayer' := (expands_node hnode).mp hexp
    have hfreeParts : ∀ p ∈ parts v, ∀ w, Ran look p w → refs true w = [] := by
      cases hlayer with
      | sequence hitems =>
        rw [refs_eq_nil_iff (.sequence _)] at hfree
        exact forall_ran hitems
          ((forall_spliced (fun items => refs_eq_nil_iff (.sequence items)) hitems).mp hfree)
      | @mapping entries ks vs hkeys hvals _ =>
        cases hlayer' with
        | @mapping _ ks' vs' hkeys' _ hdistinct =>
          have hlen : ks.length = vs.length := by
            rw [← hkeys.length_eq, ← hvals.length_eq, List.length_map, List.length_map]
          rw [refs_eq_nil_iff (.mapping _), forall_parts] at hfree
          -- A key that was merged into an earlier one is equal to a key that is still there.
          have hkey : ∀ x ∈ entries.map Prod.fst, ∀ k, Ran look x k → refs true k = [] := by
            refine forall_ran hkeys fun k hk => ?_
            rw [← List.map_fst_zip (Nat.le_of_eq hlen)] at hk
            obtain ⟨e, he, heq | hsame⟩ := (exists_key_insertAll [] (ks.zip vs)).1 k hk
            · rw [heq]
              exact (hfree e he).1
            · exact refs_eq_nil_of_same hsame (hfree e he).1
          obtain rfl : ks' = ks := eq_of_forall₂ hkeys hkeys' fun x hx w u hw hu =>
            (ih x (List.mem_append_left _ hx) hw (hkey x hx w hw) hu).1
          rw [insertAll_zip hlen hdistinct] at hfree
          refine List.forall_mem_append.mpr ⟨hkey, forall_ran hvals fun w hw => ?_⟩
          rw [← List.map_snd_zip (Nat.le_of_eq hlen.symm)] at hw
          obtain ⟨e, he, rfl⟩ := List.mem_map.mp hw
          exact (hfree e he).2
    have hpart : ∀ p ∈ parts v, ∀ w w', Ran look p w → Expands includes p w' →
        w' = w ∧ Clear includes p ∧ ClearBelow includes p :=
      fun p hp w w' hw hw' => ih p hp hw (hfreeParts p hp w hw) hw'
    have hclear : ∀ p ∈ parts v, Clear includes p ∧ ClearBelow includes p := by
      intro p hp
      obtain ⟨w, hw⟩ := hlayer.exists hp
      obtain ⟨w', hw'⟩ := hlayer'.exists hp
      exact (hpart p hp w w' hw hw').2
    refine ⟨hlayer.unique hlayer' fun p hp w w' hw hw' => (hpart p hp w w' hw hw').1,
      (clear_node hnode).mpr ⟨fun p hp => (hclear p hp).1, ?_⟩, fun n hn => ?_⟩
    · cases hlayer' with
      | sequence _ => exact .nil
      | @mapping entries _ _ hkeys _ hdistinct =>
        refine pairwise_of_forall₂ hkeys (fun x hx k k' hk hk' => ?_) hdistinct
        have hx : x ∈ parts (.mapping entries) := List.mem_append_left _ hx
        obtain ⟨w, hw⟩ := hlayer.exists hx
        rw [(hpart x hx w k hw hk).1, (hpart x hx w k' hw hk').1]
    · obtain ⟨p, hp, hn⟩ := (mem_refs hnode).mp hn
      exact (hclear p hp).2 n hn

section

/-- What `expand_value` does with a reference. -/
def lookInclude (includes : Includes) (fuel : Nat) (visited : List String) (name : String) :
    Except Failure Yaml :=
  if name ∈ visited then
    .error (.other ("Circular include detected: " ++ " -> ".intercalate visited ++ " -> " ++ name))
  else
    match includes.files.get? name with
    | none => .error (.other ("Include not found: @" ++ name))
    | some included =>
      match fuel with
      | 0 => .error .cutOff
      | fuel + 1 => expandValue includes fuel (visited ++ [name]) included

theorem expandValue_eq (fuel : Nat) (visited : List String) :
    expandValue includes fuel visited v = expandWith (lookInclude includes fuel visited) v := by
  rw [expandValue.eq_def]
  rfl

structure Room (includes : Includes) (fuel : Nat) (visited : List String) : Prop where
  nodup : visited.Nodup
  known : ∀ name ∈ visited, name ∈ includes.files.entries.map Prod.fst
  enough : includes.files.entries.length ≤ fuel + visited.length

variable {fuel fuel' : Nat} {visited : List String} {name : String}

theorem Room.enter (h : Room includes fuel visited) (hname : name ∉ visited)
    (hu : includes.files.get? name = some u) :
    ∃ rest, fuel = rest + 1 ∧ Room includes rest (visited ++ [name]) := by
  have hkey : name ∈ includes.files.entries.map Prod.fst :=
    List.mem_map.mpr ⟨(name, u), IndexMap.get?_eq_some_iff.mp hu, rfl⟩
  have hnodup : (visited ++ [name]).Nodup := by
    refine h.nodup.append (List.nodup_singleton name) ?_
    rwa [List.disjoint_singleton]
  have hknown : ∀ n ∈ visited ++ [name], n ∈ includes.files.entries.map Prod.fst := by
    intro n hn
    rcases List.mem_append.mp hn with hn | hn
    · exact h.known n hn
    · rwa [List.mem_singleton.mp hn]
  have hlen := (List.subperm_of_subset hnodup hknown).length_le
  rw [List.length_append, List.length_singleton, List.length_map] at hlen
  have henough := h.enough
  obtain ⟨rest, rfl⟩ := Nat.exists_eq_succ_of_ne_zero (show fuel ≠ 0 by omega)
  refine ⟨rest, rfl, hnodup, hknown, ?_⟩
  rw [List.length_append, List.length_singleton]
  omega

theorem lookInclude_of_enter (hname : name ∉ visited) (hu : includes.files.get? name = some u) :
    lookInclude includes (fuel + 1) visited name =
      expandValue includes fuel (visited ++ [name]) u := by
  rw [lookInclude, if_neg hname, hu]

theorem lookInclude_eq_ok (h : lookInclude includes fuel visited name = .ok w) :
    ∃ u rest, includes.files.get? name = some u ∧
      expandValue includes rest (visited ++ [name]) u = .ok w ∧ fuel = rest + 1 := by
  rw [lookInclude] at h
  split_ifs at h
  cases hu : includes.files.get? name with
  | none =>
    rw [hu] at h
    cases h
  | some u =>
    rw [hu] at h
    cases fuel with
    | zero => cases h
    | succ rest => exact ⟨u, rest, rfl, h, rfl⟩

theorem Room.induction {P : ℕ → List String → Yaml → Prop}
    (step : ∀ {fuel visited v}, Room includes fuel visited →
      (∀ name u, name ∉ visited → includes.files.get? name = some u →
        ∃ rest, fuel = rest + 1 ∧ Room includes rest (visited ++ [name]) ∧
          P rest (visited ++ [name]) u) → P fuel visited v)
    (h : Room includes fuel visited) (v : Yaml) : P fuel visited v := by
  induction fuel generalizing visited v with
  | zero =>
    refine step h fun name u hname hu => ?_
    obtain ⟨rest, hrest, -⟩ := h.enter hname hu
    cases hrest
  | succ fuel ih =>
    refine step h fun name u hname hu => ?_
    obtain ⟨rest, hrest, hroom⟩ := h.enter hname hu
    obtain rfl := Nat.succ.inj hrest
    exact ⟨fuel, rfl, hroom, ih hroom u⟩

theorem expandValue_eq_of_room (h : Room includes fuel visited)
    (h' : Room includes fuel' visited) :
    expandValue includes fuel visited v = expandValue includes fuel' visited v := by
  refine h.induction (P := fun fuel visited v => ∀ {fuel'}, Room includes fuel' visited →
    expandValue includes fuel visited v = expandValue includes fuel' visited v) ?_ v h'
  intro fuel visited v _ ih fuel' h'
  rw [expandValue_eq, expandValue_eq]
  congr 1
  funext name
  by_cases hname : name ∈ visited
  · rw [lookInclude, lookInclude, if_pos hname, if_pos hname]
  · cases hu : includes.files.get? name with
    | none => rw [lookInclude, lookInclude, if_neg hname, if_neg hname, hu]
    | some u =>
      obtain ⟨rest, rfl, -, heq⟩ := ih name u hname hu
      obtain ⟨rest', rfl, hroom'⟩ := h'.enter hname hu
      rw [lookInclude_of_enter hname hu, lookInclude_of_enter hname hu, heq hroom']

theorem expandValue_ne_cutOff (h : Room includes fuel visited) (v : Yaml) :
    expandValue includes fuel visited v ≠ .error .cutOff := by
  refine h.induction (P := fun fuel visited v =>
    expandValue includes fuel visited v ≠ .error .cutOff) ?_ v
  intro fuel visited v _ ih hcut
  rw [expandValue_eq] at hcut
  obtain ⟨name, -, hlook⟩ := exists_of_error hcut
  by_cases hname : name ∈ visited
  · rw [lookInclude, if_pos hname] at hlook
    cases hlook
  · cases hu : includes.files.get? name with
    | none =>
      rw [lookInclude, if_neg hname, hu] at hlook
      cases hlook
    | some u =>
      obtain ⟨rest, rfl, -, hne⟩ := ih name u hname hu
      exact hne (lookInclude_of_enter hname hu ▸ hlook)

theorem error_iff_broken (h : Room includes fuel visited) (v : Yaml) :
    (∃ e, expandValue includes fuel visited v = .error e) ↔
      Broken (refs false) includes.files.get? visited v := by
  refine h.induction (P := fun fuel visited v =>
    (∃ e, expandValue includes fuel visited v = .error e) ↔
      Broken (refs false) includes.files.get? visited v) ?_ v
  intro fuel visited v hroom ih
  have hlook : ∀ name, (∃ e, lookInclude includes fuel visited name = .error e) ↔
      name ∈ visited ∨ includes.files.get? name = none ∨
        ∃ u, includes.files.get? name = some u ∧
          Broken (refs false) includes.files.get? (visited ++ [name]) u := by
    intro name
    by_cases hname : name ∈ visited
    · exact ⟨fun _ => .inl hname, fun _ => ⟨_, by rw [lookInclude, if_pos hname]⟩⟩
    · cases hu : includes.files.get? name with
      | none =>
        exact ⟨fun _ => .inr (.inl rfl), fun _ => ⟨_, by rw [lookInclude, if_neg hname, hu]⟩⟩
      | some u =>
        obtain ⟨rest, rfl, -, hbroken⟩ := ih name u hname hu
        rw [lookInclude_of_enter hname hu, hbroken]
        simp [hname]
  rw [broken_iff hroom.nodup, expandValue_eq]
  constructor
  · rintro ⟨e, he⟩
    obtain ⟨name, hname, herror⟩ := exists_of_error he
    exact ⟨name, hname, (hlook name).mp ⟨e, herror⟩⟩
  · rintro ⟨name, hname, hbreaks⟩
    obtain ⟨e, he⟩ := (hlook name).mpr hbreaks
    cases hrun : expandWith (lookInclude includes fuel visited) v with
    | error e' => exact ⟨e', rfl⟩
    | ok r =>
      obtain ⟨w, hw⟩ := exists_of_ran hrun hname
      rw [hw] at he
      cases he

theorem room_start (includes : Includes) : Room includes includes.files.entries.length [] where
  nodup := List.nodup_nil
  known := fun _ h => absurd h List.not_mem_nil
  enough := Nat.le_refl _

theorem settled_of_expandValue (h : expandValue includes fuel visited v = .ok r) : Settled r := by
  induction fuel generalizing visited v r with
  | zero =>
    rw [expandValue_eq] at h
    refine settled_of_ran (fun n w hw => ?_) h
    obtain ⟨_, _, -, -, hrest⟩ := lookInclude_eq_ok hw
    cases hrest
  | succ fuel ih =>
    rw [expandValue_eq] at h
    refine settled_of_ran (fun n w hw => ?_) h
    obtain ⟨u, rest, -, hrun, hrest⟩ := lookInclude_eq_ok hw
    obtain rfl := Nat.succ.inj hrest
    exact ih hrun

theorem expands_of_expandValue (hformed : v.WellFormed)
    (hclear : ∀ w, Reached (refs false) includes.files.get? v w → Clear includes w)
    (h : expandValue includes fuel visited v = .ok r) :
    Expands includes v r ∧ refs true r = [] := by
  induction fuel generalizing visited v r with
  | zero =>
    rw [expandValue_eq] at h
    have hnone : ∀ n ∈ refs false v, ∀ w, lookInclude includes 0 visited n ≠ .ok w := by
      intro n _ w hw
      obtain ⟨_, _, -, -, hrest⟩ := lookInclude_eq_ok hw
      cases hrest
    have hv := hclear v .refl
    exact ⟨expands_of_ran (fun n hn w hw => absurd hw (hnone n hn w)) hformed hv h,
      refs_eq_nil_of_ran (fun n hn w hw => absurd hw (hnone n hn w)) hv h⟩
  | succ fuel ih =>
    rw [expandValue_eq] at h
    obtain ⟨hv, hbelow⟩ := forall_reached_iff.mp hclear
    have hlook : ∀ n ∈ refs false v, ∀ w, lookInclude includes (fuel + 1) visited n = .ok w →
        ∃ u, includes.files.get? n = some u ∧ Expands includes u w ∧ refs true w = [] := by
      intro n hn w hw
      obtain ⟨u, rest, hu, hrun, hrest⟩ := lookInclude_eq_ok hw
      obtain rfl := Nat.succ.inj hrest
      exact ⟨u, hu, ih (includes.wellFormed n u hu) (hbelow n hn u hu) hrun⟩
    refine ⟨expands_of_ran (fun n hn w hw => ?_) hformed hv h,
      refs_eq_nil_of_ran (fun n hn w hw => ?_) hv h⟩
    · obtain ⟨u, hu, hexp, -⟩ := hlook n hn w hw
      exact ⟨u, hu, hexp⟩
    · obtain ⟨_, -, -, hfree⟩ := hlook n hn w hw
      exact hfree

theorem clear_of_expandValue {r' : Yaml} (h : expandValue includes fuel visited v = .ok r)
    (hfree : refs true r = []) (hexp : Expands includes v r') :
    r' = r ∧ ∀ w, Reached (refs false) includes.files.get? v w → Clear includes w := by
  induction fuel generalizing visited v r r' with
  | zero =>
    rw [expandValue_eq] at h
    rw [forall_reached_iff]
    refine clear_of_ran (fun n w hw => ?_) h hfree hexp
    obtain ⟨_, _, -, -, hrest⟩ := lookInclude_eq_ok hw
    cases hrest
  | succ fuel ih =>
    rw [expandValue_eq] at h
    rw [forall_reached_iff]
    refine clear_of_ran (fun n w hw hwfree u hu w' hw' => ?_) h hfree hexp
    obtain ⟨u', rest, hu', hrun, hrest⟩ := lookInclude_eq_ok hw
    obtain rfl := Nat.succ.inj hrest
    obtain rfl := Option.some.inj (hu.symm.trans hu')
    exact ih hrun hwfree hw'

end

theorem Clear.refs_subset (h : Clear includes v) : ∀ n ∈ refs true v, n ∈ refs false v := by
  induction v using Yaml.induction with
  | reference s name hs => exact fun n hn => hn
  | plain v hv => simp [hv.refs]
  | tagged tag v _ =>
    cases h with
    | tagged hv => simp [refs_tagged, hv]
  | node v hnode ih =>
    intro n hn
    obtain ⟨p, hp, hn⟩ := (mem_refs hnode).mp hn
    exact (mem_refs hnode).mpr ⟨p, hp, ih p hp (((clear_node hnode).mp h).1 p hp) n hn⟩

/-- The expansion ends, fails on the broken chains of references alone, and else gives the value
with every reference replaced. -/
structure ExpandsExactly (includes : Includes) (v : Yaml) : Prop where
  terminates : ∀ fuel ≥ includes.files.entries.length,
    expandValue includes fuel [] v = expand includes v ∧ expand includes v ≠ .error .cutOff
  fails : (∃ e, expand includes v = .error e) ↔ Broken (refs true) includes.files.get? [] v
  exact : ∀ r, expand includes v = .ok r →
    Expands includes v r ∧ refs true r = [] ∧ expand includes r = .ok r

theorem expandsExactly_iff (includes : Includes) (v : Yaml) (hformed : v.WellFormed) :
    ExpandsExactly includes v ↔
      Broken (refs false) includes.files.get? [] v ∨
        ∀ w, Reached (refs false) includes.files.get? v w → Clear includes w := by
  have hfails := error_iff_broken (room_start includes) v
  constructor
  · intro h
    cases hrun : expand includes v with
    | error e => exact .inl (hfails.mp ⟨e, hrun⟩)
    | ok r =>
      obtain ⟨hexp, hfree, -⟩ := h.exact r hrun
      exact .inr (clear_of_expandValue hrun hfree hexp).2
  · intro h
    refine ⟨fun fuel hfuel => ?_, ?_, fun r hr => ?_⟩
    · have hroom : Room includes fuel [] := { room_start includes with enough := by simpa using hfuel }
      exact ⟨expandValue_eq_of_room hroom (room_start includes),
        expandValue_ne_cutOff (room_start includes) v⟩
    · rw [expand, hfails]
      constructor
      · exact fun hbroken => hbroken.of_reached fun w _ => refs_false_subset w
      · intro hbroken
        rcases h with h | hclear
        · exact h
        · exact hbroken.of_reached fun w hw => (hclear w hw).refs_subset
    · rcases h with hbroken | hclear
      · obtain ⟨e, he⟩ := hfails.mpr hbroken
        rw [expand, he] at hr
        cases hr
      · obtain ⟨hexp, hfree⟩ := expands_of_expandValue hformed hclear hr
        refine ⟨hexp, hfree, ?_⟩
        rw [expand, expandValue_eq]
        exact (settled_of_expandValue hr).ran _

def frontendGroups : Includes where
  files := ⟨[("base/js", .sequence [.string "*.js", .string "*.mjs"]),
    ("file_groups/frontend", .sequence [.string "@base/js", .string "*.css"])], by decide⟩
  wellFormed := by
    intro name v hv
    have hmem := IndexMap.get?_eq_some_iff.mp hv
    simp only [List.mem_cons, Prod.mk.injEq, List.not_mem_nil, or_false] at hmem
    rcases hmem with ⟨-, rfl⟩ | ⟨-, rfl⟩
    · exact .sequence (by simp [Yaml.WellFormed.string])
    · exact .sequence (by simp [Yaml.WellFormed.string])

theorem frontend_expandsExactly :
    ExpandsExactly frontendGroups (.string "@file_groups/frontend") := by
  refine (expandsExactly_iff frontendGroups (.string "@file_groups/frontend") (.string _)).mpr
    (.inr ?_)
  have hclear : ∀ a b : String, Clear frontendGroups (.sequence [.string a, .string b]) :=
    fun a b => .sequence (by simp [Clear.string])
  have hfiles : frontendGroups.files.get? "file_groups/frontend" =
      some (.sequence [.string "@base/js", .string "*.css"]) := rfl
  have hbase : frontendGroups.files.get? "base/js" =
      some (.sequence [.string "*.js", .string "*.mjs"]) := rfl
  rw [forall_reached_iff]
  refine ⟨.string _, fun n hn u hu => ?_⟩
  obtain rfl : n = "file_groups/frontend" := List.mem_singleton.mp hn
  obtain rfl := Option.some.inj (hfiles.symm.trans hu)
  rw [forall_reached_iff]
  refine ⟨hclear _ _, fun n hn u hu => ?_⟩
  obtain rfl : n = "base/js" := List.mem_singleton.mp hn
  obtain rfl := Option.some.inj (hbase.symm.trans hu)
  rw [forall_reached_iff]
  exact ⟨hclear _ _, fun n hn => absurd hn List.not_mem_nil⟩

theorem tagged_reference_stays :
    ¬ ∀ (includes : Includes) (v : Yaml), v.WellFormed → ExpandsExactly includes v := by
  intro h
  let v : Yaml := .tagged "list" (.string "@nonexistent/file")
  have hnone : (IndexMap.empty : IndexMap String Yaml).get? "nonexistent/file" = none := rfl
  have hexact := h ⟨.empty, fun _ _ hv => by cases hv⟩ v (.tagged (.string _))
  obtain ⟨e, he⟩ := hexact.fails.mpr ⟨["nonexistent/file"], .one (List.mem_singleton_self _),
    .inl ⟨"nonexistent/file", rfl, hnone⟩⟩
  cases he

end SwissArmyHammer.Directory
