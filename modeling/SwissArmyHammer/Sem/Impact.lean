import SwissArmyHammer.Common.BreadthFirst
import SwissArmyHammer.Sem.GraphViews

/-! Impact analysis: the transitive dependents of an entity, the nearest ones first, and how many
there are. -/

namespace SwissArmyHammer.Sem

open BreadthFirst

variable {T : CharTables} {g : EntityGraph} {start x y : String}

namespace EntityGraph

def impactAnalysisCapped (fuel : Nat) (g : EntityGraph) (entityId : String) (maxVisited : Nat) :
    Option (List EntityInfo) :=
  match g.entities.get? entityId with
  | none => some []
  | some _ => search ⟨fun result dep => result ++ (g.entities.get? dep).toList, List.length⟩
      g.dependents.values [] maxVisited fuel entityId

def impactCount (fuel : Nat) (g : EntityGraph) (entityId : String) (maxCount : Nat) : Option Nat :=
  match g.entities.get? entityId with
  | none => some 0
  | some _ => search ⟨fun count _ => count + 1, fun count => count⟩ g.dependents.values 0 maxCount
      fuel entityId

def DependsOn (g : EntityGraph) (x y : String) : Prop :=
  ∃ e ∈ g.edges, e.fromEntity = x ∧ e.toEntity = y

def transitiveDependents (g : EntityGraph) (id : String) : Set String :=
  {x | x ≠ id ∧ Relation.TransGen (fun a b => g.DependsOn b a) id x}

def NearerTo (g : EntityGraph) (id x y : String) : Prop := Nearer g.dependents.values id x y

namespace Consistent

theorem mem_dependents (h : g.Consistent) : x ∈ g.dependents.values y ↔ g.DependsOn x y := by
  rw [← List.count_pos_iff, h.backward, List.count_pos_iff, edgePairs, List.mem_map]
  simp only [DependsOn, Prod.ext_iff]

theorem reaches_iff (h : g.Consistent) :
    Reaches g.dependents.values start x ↔ Relation.TransGen (fun a b => g.DependsOn b a) start x := by
  have hstep : (fun a b => b ∈ g.dependents.values a) = fun a b => g.DependsOn b a := by
    funext a b
    exact propext h.mem_dependents
  rw [Reaches, hstep]

theorem isSome_of_reaches (h : g.Consistent) (hx : Reaches g.dependents.values start x) :
    (g.entities.get? x).isSome := by
  have hlast : ∃ y, x ∈ g.dependents.values y := by
    cases hx with
    | single hstep => exact ⟨start, hstep⟩
    | tail _ hstep => exact ⟨_, hstep⟩
  obtain ⟨y, hy⟩ := hlast
  obtain ⟨e, he, rfl, -⟩ := h.mem_dependents.mp hy
  exact (h.ends e he).1

theorem mem_keys_of_reaches (h : g.Consistent) (hx : Reaches g.dependents.values start x) :
    x ∈ g.entities.entries.map Prod.fst := by
  obtain ⟨info, hinfo⟩ := Option.isSome_iff_exists.mp (h.isSome_of_reaches hx)
  exact List.mem_map.mpr ⟨_, IndexMap.get?_eq_some_iff.mp hinfo, rfl⟩

theorem perm_dependencies (h : g.Consistent) : g.edgePairs.Perm g.dependencies.pairs :=
  List.perm_iff_count.mpr fun p => by rw [IndexMap.count_pairs, h.forward]

theorem perm_dependents (h : g.Consistent) :
    (g.edgePairs.map Prod.swap).Perm g.dependents.pairs := by
  refine List.perm_iff_count.mpr fun p => ?_
  rw [IndexMap.count_pairs, h.backward]
  exact List.count_map_of_injective g.edgePairs Prod.swap Prod.swap_injective (p.2, p.1)

end Consistent

end EntityGraph

theorem foldl_collect (h : ∀ id info, g.entities.get? id = some info → info.id = id)
    (ids : List String) (hids : ∀ id ∈ ids, (g.entities.get? id).isSome) (acc : List EntityInfo) :
    ∃ infos : List EntityInfo,
      ids.foldl (fun result dep => result ++ (g.entities.get? dep).toList) acc = acc ++ infos ∧
        infos.map (·.id) = ids ∧ ∀ i ∈ infos, g.entities.get? i.id = some i := by
  induction ids generalizing acc with
  | nil => exact ⟨[], by simp, rfl, fun i hi => absurd hi List.not_mem_nil⟩
  | cons id ids ih =>
    obtain ⟨info, hinfo⟩ := Option.isSome_iff_exists.mp (hids id List.mem_cons_self)
    have hid := h id info hinfo
    obtain ⟨infos, hfold, hmap, hget⟩ :=
      ih (fun x hx => hids x (List.mem_cons_of_mem id hx)) (acc ++ [info])
    refine ⟨info :: infos, ?_, ?_, fun i hi => ?_⟩
    · rw [List.foldl_cons, hinfo, Option.toList_some, hfold, List.append_assoc,
        List.singleton_append]
    · rw [List.map_cons, hid, hmap]
    · grind

theorem foldl_count (ids : List String) (acc : Nat) :
    ids.foldl (fun count _ => count + 1) acc = acc + ids.length := by simp

theorem EntityGraph.Consistent.impact_exact (h : g.Consistent) {info : EntityInfo}
    (hstart : g.entities.get? start = some info) {cap fuel : Nat}
    (hfuel : g.entities.entries.length + 1 < fuel) :
    ∃ found : List EntityInfo,
      g.impactAnalysisCapped fuel start cap = some found ∧
      g.impactCount fuel start cap = some found.length ∧
      found.length = min cap (g.transitiveDependents start).ncard ∧
      (found.map (·.id)).Nodup ∧
      (∀ i ∈ found, g.entities.get? i.id = some i ∧ i.id ∈ g.transitiveDependents start) ∧
      ∀ pre i post, found = pre ++ i :: post →
        ∀ x ∈ g.transitiveDependents start, g.NearerTo start x i.id → x ∈ pre.map (·.id) := by
  have hset : {x | x ≠ start ∧ Reaches g.dependents.values start x} =
      g.transitiveDependents start :=
    Set.ext fun x => and_congr_right fun _ => h.reaches_iff
  have hnodes : ∀ x, Reaches g.dependents.values start x → x ∈ g.entities.entries.map Prod.fst :=
    fun x => h.mem_keys_of_reaches
  rw [← List.length_map Prod.fst] at hfuel
  have hcollect : Counts ⟨fun result dep => result ++ (g.entities.get? dep).toList, List.length⟩
      g.dependents.values [] start := by
    refine ⟨rfl, fun result dep hdep => ?_⟩
    obtain ⟨i, hi⟩ := Option.isSome_iff_exists.mp (h.isSome_of_reaches hdep)
    simp [hi]
  have hcount : Counts ⟨fun count (_ : String) => count + 1, fun count => count⟩
      g.dependents.values 0 start := ⟨rfl, fun _ _ _ => rfl⟩
  obtain ⟨ids, hids, hmet⟩ := search_spec cap hcollect hnodes hfuel
  obtain ⟨ids', hids', hmet'⟩ := search_spec cap hcount hnodes hfuel
  obtain ⟨found, hfold, hmap, hget⟩ :=
    foldl_collect h.ids ids (fun x hx => h.isSome_of_reaches (hmet.reaches x hx).2) []
  have hlength : found.length = ids.length := by rw [← hmap, List.length_map]
  refine ⟨found, ?_, ?_, ?_, ?_, fun i hi => ⟨hget i hi, ?_⟩, fun pre i post hsplit x hx hnear => ?_⟩
  · rw [EntityGraph.impactAnalysisCapped, hstart]
    exact hids.trans (congrArg some hfold)
  · rw [EntityGraph.impactCount, hstart, hlength, hmet.length, ← hmet'.length]
    exact hids'.trans (congrArg some ((foldl_count ids' 0).trans (Nat.zero_add _)))
  · rw [hlength, hmet.length, hset]
  · rw [hmap]
    exact hmet.nodup
  · rw [← hset]
    exact hmet.reaches _ (hmap ▸ List.mem_map.mpr ⟨i, hi, rfl⟩)
  · refine hmet.nearer (pre.map (·.id)) i.id (post.map (·.id)) ?_ x hx.1 hnear
    rw [← hmap, hsplit, List.map_append, List.map_cons]

/-- The three views of a graph are one relation between its entities, and impact analysis is exact
on it, in every graph that a build and updates lead to. -/
theorem Obtained.one_relation (h : Obtained T g) :
    g.edgePairs.Perm g.dependencies.pairs ∧
    (g.edgePairs.map Prod.swap).Perm g.dependents.pairs ∧
    (∀ e ∈ g.edges, (g.entities.get? e.fromEntity).isSome ∧ (g.entities.get? e.toEntity).isSome) ∧
    ∀ start info, g.entities.get? start = some info →
      ∀ cap fuel, g.entities.entries.length + 1 < fuel → ∃ found : List EntityInfo,
        g.impactAnalysisCapped fuel start cap = some found ∧
        g.impactCount fuel start cap = some found.length ∧
        found.length = min cap (g.transitiveDependents start).ncard ∧
        (found.map (·.id)).Nodup ∧
        (∀ i ∈ found, g.entities.get? i.id = some i ∧ i.id ∈ g.transitiveDependents start) ∧
        ∀ pre i post, found = pre ++ i :: post →
          ∀ x ∈ g.transitiveDependents start, g.NearerTo start x i.id → x ∈ pre.map (·.id) := by
  have hcons := h.consistent
  exact ⟨hcons.perm_dependencies, hcons.perm_dependents, hcons.ends,
    fun _ _ hstart _ _ hfuel => hcons.impact_exact hstart hfuel⟩

theorem one_relation_call : callGraph.edgePairs = [("a.rs", "b.rs")] ∧
    callGraph.edgePairs.Perm callGraph.dependencies.pairs ∧
    ∃ found : List EntityInfo, callGraph.impactAnalysisCapped 4 "b.rs" 1 = some found ∧
      callGraph.impactCount 4 "b.rs" 1 = some found.length ∧
      found.length = min 1 (callGraph.transitiveDependents "b.rs").ncard := by
  have h : Obtained asciiTables callGraph := .build build_callGraph
  obtain ⟨hforward, -, -, himpact⟩ := Obtained.one_relation h
  have hget : callGraph.entities.get? "b.rs" =
      some ⟨"b.rs", ['s', 't', 'e', 'p'], "function", "b.rs", 1, 1⟩ := rfl
  have hfuel : callGraph.entities.entries.length + 1 < 4 := by decide
  obtain ⟨found, hfound, hcount, hlength, -⟩ := himpact "b.rs" _ hget 1 4 hfuel
  exact ⟨rfl, hforward, found, hfound, hcount, hlength⟩

end SwissArmyHammer.Sem
