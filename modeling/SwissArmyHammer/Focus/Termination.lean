import SwissArmyHammer.Common.Links
import SwissArmyHammer.Focus.LostFocus

/-! Which walks over layers and zones end: those that keep what they visited always do. -/

namespace SwissArmyHammer.Focus

variable {K : Type} {view : NavSnapshot K} {registry : SpatialRegistry}
  {fq lostFq : FullyQualifiedMoniker} {zone : Option FullyQualifiedMoniker}

theorem drainChain_eq {fuel : Nat} {visited : List FullyQualifiedMoniker}
    {next : Option FullyQualifiedMoniker} (hnodup : visited.Nodup)
    (hsub : visited ⊆ view.scopes.map SnapshotScope.fq)
    (hfuel : view.scopes.length < fuel + visited.length) :
    view.drainChain fuel visited next = some (view.parentZoneChain fuel visited next) := by
  induction fuel generalizing visited next with
  | zero =>
    have hle := (List.subperm_of_subset hnodup hsub).length_le
    rw [List.length_map] at hle
    omega
  | succ fuel ih =>
    cases next with
    | none => rfl
    | some fq =>
      by_cases hvisited : fq ∈ visited
      · rw [NavSnapshot.drainChain, NavSnapshot.parentZoneChain, if_pos hvisited,
          if_pos hvisited]
      · rw [NavSnapshot.drainChain, NavSnapshot.parentZoneChain, if_neg hvisited,
          if_neg hvisited]
        cases hget : view.get fq with
        | none => rfl
        | some scope =>
          obtain ⟨hscope, hfq⟩ := NavSnapshot.get_eq_some hget
          have hmem : fq ∈ view.scopes.map SnapshotScope.fq :=
            List.mem_map.mpr ⟨scope, hscope, hfq⟩
          have hrest := @ih (fq :: visited) scope.parentZone
            (List.nodup_cons.mpr ⟨hvisited, hnodup⟩) (List.cons_subset.mpr ⟨hmem, hsub⟩)
            (by rw [List.length_cons]; omega)
          simp only [hrest, Option.map_some]

theorem mem_keys_of_layer {layer : FocusLayer} (h : registry.layer fq = some layer) :
    fq ∈ registry.layers.entries.map Prod.fst :=
  List.mem_map.mpr ⟨(fq, layer), IndexMap.get?_eq_some_iff.mp h, rfl⟩

theorem recordLayersWithin_eq (keys : List FullyQualifiedMoniker) {fuel : Nat}
    {visited : List FullyQualifiedMoniker} {next : Option FullyQualifiedMoniker}
    (hnodup : visited.Nodup) (hsub : visited ⊆ keys)
    (hkeys : ∀ a, (registry.layer a).isSome → a ∈ keys)
    (hfuel : keys.length < fuel + visited.length) :
    SpatialRegistry.recordLayersWithin fq fuel visited next registry =
      some (SpatialRegistry.recordLayers fq fuel visited next registry) := by
  induction fuel generalizing visited next registry with
  | zero =>
    have hle := (List.subperm_of_subset hnodup hsub).length_le
    omega
  | succ fuel ih =>
    cases next with
    | none => rfl
    | some layerFq =>
      rw [SpatialRegistry.recordLayersWithin, SpatialRegistry.recordLayers]
      by_cases hvisited : layerFq ∈ visited
      · rw [if_pos hvisited, if_pos hvisited]
      · rw [if_neg hvisited, if_neg hvisited]
        cases hlayer : registry.layer layerFq with
        | none => rfl
        | some layer =>
          have hmem := hkeys layerFq (by rw [hlayer]; rfl)
          apply ih (List.nodup_cons.mpr ⟨hvisited, hnodup⟩) (List.cons_subset.mpr ⟨hmem, hsub⟩)
          · intro a ha
            by_cases hsame : a = layerFq
            · rw [hsame]
              exact hmem
            · rw [SpatialRegistry.layer, IndexMap.get?_insert_of_ne hsame] at ha
              exact hkeys a ha
          · rw [List.length_cons]
            omega

theorem recordFocusWithin_eq (registry : SpatialRegistry) (fq : FullyQualifiedMoniker)
    (view : NavSnapshot K) :
    registry.recordFocusWithin (view.scopes.length + 1) (registry.layers.entries.length + 1) fq
        view = some (registry.recordFocus fq view) := by
  have hchain : view.drainChain (view.scopes.length + 1) [] (view.parentZoneOf fq) =
      some (view.parentZoneChain (view.scopes.length + 1) [] (view.parentZoneOf fq)) :=
    drainChain_eq List.nodup_nil (List.nil_subset _) (by simp)
  rw [SpatialRegistry.recordFocusWithin, hchain]
  apply recordLayersWithin_eq (registry.layers.entries.map Prod.fst) List.nodup_nil
    (List.nil_subset _)
  · intro a ha
    obtain ⟨layer, hlayer⟩ := Option.isSome_iff_exists.mp ha
    have hsame : registry.layer a = some layer := hlayer
    exact mem_keys_of_layer hsame
  · simp

def SpatialRegistry.parentOf (registry : SpatialRegistry) (fq : FullyQualifiedMoniker) :
    Option FullyQualifiedMoniker :=
  (registry.layer fq).bind FocusLayer.parent

section

theorem parentOf_of_layer {layer : FocusLayer} (h : registry.layer fq = some layer) :
    registry.parentOf fq = layer.parent := by
  rw [SpatialRegistry.parentOf, h]
  rfl

theorem parentOf_of_no_layer (h : registry.layer fq = none) : registry.parentOf fq = none := by
  rw [SpatialRegistry.parentOf, h]
  rfl

theorem parentOf_ends_iff : Ends registry.parentOf fq ↔
    ∀ a, Relation.ReflTransGen (Link registry.parentOf) fq a →
      ¬ Relation.TransGen (Link registry.parentOf) a a := by
  apply ends_iff
  intro a b hab
  obtain ⟨layer, hlayer, -⟩ := Option.bind_eq_some_iff.mp hab
  exact mem_keys_of_layer hlayer

theorem ends_of_collectAncestors {fuel : Nat}
    (h : (registry.collectAncestors fuel (some fq)).isSome) : Ends registry.parentOf fq := by
  induction fuel generalizing fq with
  | zero => cases h
  | succ fuel ih =>
    rw [SpatialRegistry.collectAncestors] at h
    cases hlayer : registry.layer fq with
    | none => exact .stop (parentOf_of_no_layer hlayer)
    | some parent =>
      have hnext := parentOf_of_layer hlayer
      simp only [hlayer, Option.isSome_map] at h
      cases hparent : parent.parent with
      | none => exact .stop (hnext.trans hparent)
      | some b =>
        rw [hparent] at h
        exact .step (hnext.trans hparent) (ih h)

theorem collectAncestors_ends (h : Ends registry.parentOf fq) :
    ∃ fuel, (registry.collectAncestors fuel (some fq)).isSome := by
  induction h with
  | @stop fq hnone =>
    refine ⟨2, ?_⟩
    rw [SpatialRegistry.collectAncestors]
    cases hlayer : registry.layer fq with
    | none => rfl
    | some parent =>
      have hparent : parent.parent = none := (parentOf_of_layer hlayer).symm.trans hnone
      simp only [hparent, Option.isSome_map]
      rfl
  | @step fq b hsome _ ih =>
    obtain ⟨fuel, hfuel⟩ := ih
    refine ⟨fuel + 1, ?_⟩
    obtain ⟨parent, hlayer, hparent⟩ := Option.bind_eq_some_iff.mp hsome
    rw [SpatialRegistry.collectAncestors]
    simp only [hlayer, hparent, Option.isSome_map]
    exact hfuel

theorem ancestorsOfLayer_ends_iff :
    (∃ fuel, (registry.ancestorsOfLayer fuel fq).isSome) ↔ Ends registry.parentOf fq := by
  cases hlayer : registry.layer fq with
  | none =>
    have hends : ∃ fuel, (SpatialRegistry.ancestorsOfLayer fuel registry fq).isSome :=
      ⟨0, by rw [SpatialRegistry.ancestorsOfLayer, hlayer]; rfl⟩
    exact ⟨fun _ => .stop (parentOf_of_no_layer hlayer), fun _ => hends⟩
  | some start =>
    have hnext := parentOf_of_layer hlayer
    simp only [SpatialRegistry.ancestorsOfLayer, hlayer]
    cases hparent : start.parent with
    | none => exact ⟨fun _ => .stop (hnext.trans hparent), fun _ => ⟨1, rfl⟩⟩
    | some b =>
      have hlink : registry.parentOf fq = some b := hnext.trans hparent
      constructor
      · rintro ⟨fuel, hfuel⟩
        exact .step hlink (ends_of_collectAncestors hfuel)
      · intro h
        exact collectAncestors_ends (h.of_link hlink)

def layerAbove (registry : SpatialRegistry) (lostFq : FullyQualifiedMoniker)
    (window : WindowLabel) (view : NavSnapshot K) (fq : FullyQualifiedMoniker) :
    Option FullyQualifiedMoniker :=
  match registry.layer fq with
  | none => none
  | some layer =>
    if layer.windowLabel ≠ window then none
    else
      match (layer.lastFocused.filter (· ≠ lostFq)).bind view.get with
      | some _ => none
      | none => layer.parent

variable {window : WindowLabel} {fuel : Nat}

theorem parentOf_of_layerAbove {b : FullyQualifiedMoniker}
    (h : layerAbove registry lostFq window view fq = some b) : registry.parentOf fq = some b := by
  rw [layerAbove] at h
  cases hlayer : registry.layer fq with
  | none => simp [hlayer] at h
  | some layer =>
    simp only [hlayer] at h
    split_ifs at h
    cases hlive : (layer.lastFocused.filter (· ≠ lostFq)).bind view.get with
    | some scope => simp only [hlive, reduceCtorEq] at h
    | none =>
      simp only [hlive] at h
      exact (parentOf_of_layer hlayer).trans h

theorem walkLayers_up {b : FullyQualifiedMoniker}
    (h : layerAbove registry lostFq window view fq = some b) :
    walkLayers registry lostFq window view (fuel + 1) (some fq) =
      walkLayers registry lostFq window view fuel (some b) := by
  rw [layerAbove] at h
  rw [walkLayers]
  cases hlayer : registry.layer fq with
  | none => simp [hlayer] at h
  | some layer =>
    grind

theorem walkLayers_stop (h : layerAbove registry lostFq window view fq = none) :
    (walkLayers registry lostFq window view 2 (some fq)).isSome := by
  rw [layerAbove] at h
  rw [walkLayers]
  cases hlayer : registry.layer fq with
  | none => rfl
  | some layer =>
    simp only [hlayer] at h ⊢
    split_ifs at h ⊢
    · rfl
    · cases hlive : (layer.lastFocused.filter (· ≠ lostFq)).bind view.get with
      | some scope => rfl
      | none =>
        simp only [hlive] at h
        simp only [h]
        rfl

theorem walkLayers_ends_iff :
    (∃ fuel, (walkLayers registry lostFq window view fuel (some fq)).isSome) ↔
      Ends (layerAbove registry lostFq window view) fq := by
  constructor
  · rintro ⟨fuel, h⟩
    induction fuel generalizing fq with
    | zero => cases h
    | succ fuel ih =>
      cases habove : layerAbove registry lostFq window view fq with
      | none => exact .stop habove
      | some b =>
        rw [walkLayers_up habove] at h
        exact .step habove (ih h)
  · intro h
    induction h with
    | stop hnone => exact ⟨2, walkLayers_stop hnone⟩
    | step hsome _ ih =>
      obtain ⟨fuel, hfuel⟩ := ih
      refine ⟨fuel + 1, ?_⟩
      rw [walkLayers_up hsome]
      exact hfuel

theorem walkLayers_mono {more : Nat} {next : Option FullyQualifiedMoniker}
    {resolution : FallbackResolution}
    (h : walkLayers registry lostFq window view fuel next = some resolution)
    (hle : fuel ≤ more) :
    walkLayers registry lostFq window view more next = some resolution := by
  induction fuel generalizing next more with
  | zero => cases next <;> cases h
  | succ fuel ih =>
    obtain ⟨more, rfl⟩ : ∃ n, more = n + 1 := ⟨more - 1, by omega⟩
    cases next with
    | none => exact h
    | some a =>
      rw [walkLayers] at h ⊢
      cases hlayer : registry.layer a with
      | none =>
        rw [hlayer] at h
        exact h
      | some layer =>
        grind

end

section

variable [LinearOrder K] [Add K] [Sub K] [Mul K] {ctx : LostFocusContext K}

theorem nearestInZoneView_eq_none_iff {rect : Rect K} :
    view.nearestInZoneView zone lostFq rect = none ↔
      ∀ s ∈ view.scopes, s.parentZone = zone → s.fq = lostFq := by
  rw [NavSnapshot.nearestInZoneView, Option.map_eq_none_iff, minBy_eq_none_iff,
    List.eq_nil_iff_forall_not_mem]
  simp only [NavSnapshot.inZone, List.mem_filter, decide_eq_true_eq, not_and]
  constructor
  · grind
  · rintro h s ⟨hs, hne⟩ hzone
    exact hne (h s hs hzone)

def ZonesEnd (registry : SpatialRegistry) (lostFq : FullyQualifiedMoniker)
    (ctx : LostFocusContext K) (zone : Option FullyQualifiedMoniker) (first : Bool) : Prop :=
  ∃ fuel, (walkZones registry lostFq ctx fuel zone first).isSome

variable {first : Bool} {z : FullyQualifiedMoniker}

theorem zonesEnd_of_nearest (h : ctx.view.nearestInZoneView zone lostFq ctx.lostRect ≠ none) :
    ZonesEnd registry lostFq ctx zone first := by
  obtain ⟨next, hnext⟩ := Option.ne_none_iff_exists'.mp h
  refine ⟨1, ?_⟩
  cases zone <;> rw [walkZones] <;> simp only [hnext] <;> split <;> rfl

theorem zonesEnd_none : ZonesEnd registry lostFq ctx none first := by
  cases hnearest : ctx.view.nearestInZoneView none lostFq ctx.lostRect with
  | some next => exact zonesEnd_of_nearest (by rw [hnearest]; exact Option.some_ne_none _)
  | none =>
    refine ⟨1, ?_⟩
    rw [walkZones]
    cases (if first then none else remembered registry lostFq ctx.view none) with
    | some scope => rfl
    | none =>
      simp only [hnearest]
      rfl

theorem zonesEnd_of_remembered (h : remembered registry lostFq ctx.view zone ≠ none) :
    ZonesEnd registry lostFq ctx zone false := by
  obtain ⟨scope, hscope⟩ := Option.ne_none_iff_exists'.mp h
  refine ⟨1, ?_⟩
  simp [walkZones, hscope]

theorem walkZones_up {fuel : Nat}
    (hnearest : ctx.view.nearestInZoneView (some z) lostFq ctx.lostRect = none)
    (hlive : first = true ∨ remembered registry lostFq ctx.view (some z) = none) :
    walkZones registry lostFq ctx (fuel + 1) (some z) first =
      walkZones registry lostFq ctx fuel (ctx.view.parentZoneOf z) false := by
  have hnone : (if first then none else remembered registry lostFq ctx.view (some z)) = none := by
    rcases hlive with rfl | hforgotten
    · rfl
    · rw [hforgotten, ite_self]
  rw [walkZones]
  simp only [hnone, hnearest]

theorem zonesEnd_up (h : ZonesEnd registry lostFq ctx (ctx.view.parentZoneOf z) false) :
    ZonesEnd registry lostFq ctx (some z) first := by
  cases hnearest : ctx.view.nearestInZoneView (some z) lostFq ctx.lostRect with
  | some next => exact zonesEnd_of_nearest (by rw [hnearest]; exact Option.some_ne_none _)
  | none =>
    by_cases hlive : first = true ∨ remembered registry lostFq ctx.view (some z) = none
    · obtain ⟨fuel, hfuel⟩ := h
      refine ⟨fuel + 1, ?_⟩
      rw [walkZones_up hnearest hlive]
      exact hfuel
    · obtain ⟨hfirst, hremembered⟩ := not_or.mp hlive
      rw [Bool.not_eq_true] at hfirst
      rw [hfirst]
      exact zonesEnd_of_remembered hremembered

theorem zonesEnd_above (hne : z ≠ lostFq) :
    ZonesEnd registry lostFq ctx (ctx.view.parentZoneOf z) false := by
  cases hparent : ctx.view.parentZoneOf z with
  | none => exact zonesEnd_none
  | some above =>
    obtain ⟨s, hs, hfq, hzone⟩ := NavSnapshot.liesIn_of_parentZoneOf hparent
    apply zonesEnd_of_nearest
    rw [Ne, nearestInZoneView_eq_none_iff]
    intro hall
    exact hne (hfq.symm.trans (hall s hs hzone))

structure OwnZone (registry : SpatialRegistry) (lostFq : FullyQualifiedMoniker)
    (ctx : LostFocusContext K) : Prop where
  lost : ctx.lostParentZone = some lostFq
  own : ctx.view.parentZoneOf lostFq = some lostFq
  alone : ∀ s ∈ ctx.view.scopes, s.parentZone = some lostFq → s.fq = lostFq
  forgotten : remembered registry lostFq ctx.view (some lostFq) = none

theorem OwnZone.walks_on (h : OwnZone registry lostFq ctx) (fuel : Nat) (first : Bool) :
    walkZones registry lostFq ctx fuel (some lostFq) first = none := by
  induction fuel generalizing first with
  | zero => rfl
  | succ fuel ih =>
    rw [walkZones_up (nearestInZoneView_eq_none_iff.mpr h.alone) (.inr h.forgotten), h.own]
    exact ih false

theorem zonesEnd_iff :
    ZonesEnd registry lostFq ctx ctx.lostParentZone true ↔ ¬ OwnZone registry lostFq ctx := by
  constructor
  · rintro ⟨fuel, hfuel⟩ h
    rw [h.lost, h.walks_on] at hfuel
    cases hfuel
  · intro hnot
    cases hlost : ctx.lostParentZone with
    | none => exact zonesEnd_none
    | some z =>
      by_cases hz : z = lostFq
      · subst hz
        by_cases hnearest : ctx.view.nearestInZoneView (some z) z ctx.lostRect = none
        · apply zonesEnd_up
          cases hparent : ctx.view.parentZoneOf z with
          | none => exact zonesEnd_none
          | some above =>
            by_cases habove : above = z
            · subst habove
              apply zonesEnd_of_remembered
              intro hforgotten
              exact hnot ⟨hlost, hparent, nearestInZoneView_eq_none_iff.mp hnearest, hforgotten⟩
            · exact zonesEnd_up (zonesEnd_above habove)
        · exact zonesEnd_of_nearest hnearest
      · exact zonesEnd_up (zonesEnd_above hz)

theorem walkZones_mono {fuel more : Nat} {result : Option FallbackResolution}
    (h : walkZones registry lostFq ctx fuel zone first = some result) (hle : fuel ≤ more) :
    walkZones registry lostFq ctx more zone first = some result := by
  induction fuel generalizing zone first more with
  | zero => cases h
  | succ fuel ih =>
    obtain ⟨more, rfl⟩ : ∃ n, more = n + 1 := ⟨more - 1, by omega⟩
    cases zone with
    | none =>
      exact h
    | some z =>
      rw [walkZones] at h ⊢
      cases hlive : (if first then none else remembered registry lostFq ctx.view (some z)) with
      | some scope =>
        simp only [hlive] at h ⊢
        exact h
      | none =>
        grind

theorem resolveFallback_of_layer {layer : FocusLayer} {fuel : Nat}
    (hlayer : registry.layer ctx.lostLayerFq = some layer)
    {result : Option FallbackResolution}
    (hzones : walkZones registry lostFq ctx fuel ctx.lostParentZone true = some result) :
    resolveFallback fuel registry lostFq ctx =
      result.elim (walkLayers registry lostFq layer.windowLabel ctx.view fuel layer.parent)
        some := by
  rw [resolveFallback]
  simp only [hlayer, hzones]
  cases result <;> rfl

theorem resolveFallback_ends_iff :
    (∃ fuel, (resolveFallback fuel registry lostFq ctx).isSome) ↔
      ∀ layer, registry.layer ctx.lostLayerFq = some layer → ¬ OwnZone registry lostFq ctx ∧
        ((∃ fuel, walkZones registry lostFq ctx fuel ctx.lostParentZone true = some none) →
          ∀ b, layer.parent = some b →
            Ends (layerAbove registry lostFq layer.windowLabel ctx.view) b) := by
  constructor
  · rintro ⟨fuel, hends⟩ layer hlayer
    obtain ⟨result, hwalk⟩ : ∃ result,
        walkZones registry lostFq ctx fuel ctx.lostParentZone true = some result := by
      rw [resolveFallback] at hends
      simp only [hlayer] at hends
      cases hwalk : walkZones registry lostFq ctx fuel ctx.lostParentZone true with
      | none =>
        rw [hwalk] at hends
        cases hends
      | some result => exact ⟨result, rfl⟩
    refine ⟨zonesEnd_iff.mp ⟨fuel, by rw [hwalk]; rfl⟩, ?_⟩
    rintro ⟨enough, hnone⟩ b hparent
    have hsame := walkZones_mono hwalk (Nat.le_max_left fuel enough)
    rw [walkZones_mono hnone (Nat.le_max_right fuel enough)] at hsame
    cases hsame
    rw [resolveFallback_of_layer hlayer hwalk, hparent] at hends
    exact walkLayers_ends_iff.mp ⟨fuel, hends⟩
  · intro h
    cases hlayer : registry.layer ctx.lostLayerFq with
    | none =>
      refine ⟨0, ?_⟩
      rw [resolveFallback]
      simp only [hlayer]
      rfl
    | some layer =>
      obtain ⟨hown, hlayers⟩ := h layer hlayer
      obtain ⟨fuel, hzones⟩ := zonesEnd_iff.mpr hown
      obtain ⟨result, hwalk⟩ := Option.isSome_iff_exists.mp hzones
      cases result with
      | some resolution =>
        refine ⟨fuel, ?_⟩
        rw [resolveFallback_of_layer hlayer hwalk]
        rfl
      | none =>
        have hends : ∃ enough, (walkLayers registry lostFq layer.windowLabel ctx.view enough
            layer.parent).isSome := by
          cases hparent : layer.parent with
          | none => exact ⟨1, rfl⟩
          | some b => exact walkLayers_ends_iff.mpr (hlayers ⟨fuel, hwalk⟩ b hparent)
        obtain ⟨enough, henough⟩ := hends
        obtain ⟨resolution, hresolution⟩ := Option.isSome_iff_exists.mp henough
        refine ⟨max fuel enough, ?_⟩
        rw [resolveFallback_of_layer hlayer (walkZones_mono hwalk (Nat.le_max_left _ _)),
          walkLayers_mono hresolution (Nat.le_max_right _ _)]
        rfl

structure WalksEnd (registry : SpatialRegistry) (lostFq : FullyQualifiedMoniker)
    (ctx : LostFocusContext K) : Prop where
  chain : ∀ fq, ∃ fuel, (ctx.view.drainChain fuel [] (ctx.view.parentZoneOf fq)).isSome
  record : ∀ fq, ∃ zones layers, (registry.recordFocusWithin zones layers fq ctx.view).isSome
  ancestors : ∃ fuel, (registry.ancestorsOfLayer fuel ctx.lostLayerFq).isSome
  fallback : ∃ fuel, (resolveFallback fuel registry lostFq ctx).isSome

theorem walksEnd_iff_of_registry : WalksEnd registry lostFq ctx ↔
    Ends registry.parentOf ctx.lostLayerFq ∧
      ((registry.layer ctx.lostLayerFq).isSome → ¬ OwnZone registry lostFq ctx) := by
  constructor
  · intro h
    refine ⟨ancestorsOfLayer_ends_iff.mp h.ancestors, fun hlayer => ?_⟩
    obtain ⟨layer, hlayer⟩ := Option.isSome_iff_exists.mp hlayer
    exact (resolveFallback_ends_iff.mp h.fallback layer hlayer).1
  · rintro ⟨hends, hown⟩
    refine ⟨fun fq => ⟨ctx.view.scopes.length + 1, ?_⟩,
      fun fq => ⟨_, _, by rw [recordFocusWithin_eq]; rfl⟩,
      ancestorsOfLayer_ends_iff.mpr hends, resolveFallback_ends_iff.mpr ?_⟩
    · rw [drainChain_eq List.nodup_nil (List.nil_subset _) (by simp)]
      rfl
    · intro layer hlayer
      refine ⟨hown (by rw [hlayer]; rfl), fun _ b hparent => ?_⟩
      have hlink : registry.parentOf ctx.lostLayerFq = some b :=
        (parentOf_of_layer hlayer).trans hparent
      exact (hends.of_link hlink).of_sub fun _ _ habove => parentOf_of_layerAbove habove

/-- No layer at or above the lost one is its own ancestor, and the lost scope is not alone in
itself. -/
theorem walksEnd_iff (ops : List (RegistryOp K)) (lostFq : FullyQualifiedMoniker)
    (ctx : LostFocusContext K) :
    WalksEnd (SpatialRegistry.reached ops) lostFq ctx ↔
      (∀ a, Relation.ReflTransGen (Link (SpatialRegistry.reached ops).parentOf)
          ctx.lostLayerFq a →
        ¬ Relation.TransGen (Link (SpatialRegistry.reached ops).parentOf) a a) ∧
      (((SpatialRegistry.reached ops).layer ctx.lostLayerFq).isSome →
        ¬ OwnZone (SpatialRegistry.reached ops) lostFq ctx) := by
  rw [walksEnd_iff_of_registry, parentOf_ends_iff]

end

def cyclicLayers : List (RegistryOp Int) :=
  [.pushLayer ⟨"/a", some "/b", "main", none⟩, .pushLayer ⟨"/b", some "/a", "main", none⟩]

def oneLayer : List (RegistryOp Int) := [.pushLayer ⟨"/a", none, "main", none⟩]

def ownZone : LostFocusContext Int :=
  ⟨⟨"/a", [⟨"/a/x", ⟨0, 0, 1, 1⟩, some "/a/x"⟩]⟩, "/a", some "/a/x", ⟨0, 0, 1, 1⟩⟩

theorem cycles_walk_on :
    ¬ WalksEnd (SpatialRegistry.reached cyclicLayers) "/a/x" ⟨⟨"/a", []⟩, "/a", none,
        ⟨0, 0, 1, 1⟩⟩ ∧
      ¬ WalksEnd (SpatialRegistry.reached oneLayer) "/a/x" ownZone := by
  constructor
  · intro h
    have hends := ancestorsOfLayer_ends_iff.mp h.ancestors
    have hup : Link (SpatialRegistry.reached cyclicLayers).parentOf "/a" "/b" := by
      rw [Link]
      decide
    have hback : Link (SpatialRegistry.reached cyclicLayers).parentOf "/b" "/a" := by
      rw [Link]
      decide
    exact hends.not_cyclic (Relation.TransGen.tail (Relation.TransGen.single hup) hback)
  · intro h
    have hown := (resolveFallback_ends_iff.mp h.fallback ⟨"/a", none, "main", none⟩ rfl).1
    apply hown
    refine ⟨rfl, rfl, ?_, rfl⟩
    intro s hs _
    rw [List.mem_singleton.mp hs]

end SwissArmyHammer.Focus
