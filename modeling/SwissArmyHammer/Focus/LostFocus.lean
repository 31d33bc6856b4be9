import Mathlib.Data.Int.Order.Basic
import Mathlib.Logic.Relation
import Mathlib.Order.Lattice
import SwissArmyHammer.Focus.Fallback

/-! Where the focus lands when the focused scope is lost: some scope of the snapshot, as near as
one is left. -/

namespace SwissArmyHammer.Focus

section

variable {α β : Type} [LinearOrder β] {order : α → α → Ordering} {value : α → β} {x : α}

def FirstBy (value : α → β) (order : α → α → Ordering) : Prop :=
  ∀ a b, (order a b = .gt → value b ≤ value a) ∧ (order a b ≠ .gt → value a ≤ value b)

theorem foldl_min_spec (horder : FirstBy value order) (rest : List α) (x : α) :
    let least := rest.foldl (fun best y => if order best y = .gt then y else best) x
    least ∈ x :: rest ∧ ∀ y ∈ x :: rest, value least ≤ value y := by
  induction rest generalizing x with
  | nil => simp
  | cons y rest ih =>
    simp only [List.foldl_cons]
    by_cases hgt : order x y = .gt
    · rw [if_pos hgt]
      obtain ⟨hmem, hle⟩ := ih y
      refine ⟨List.mem_cons_of_mem _ hmem, fun z hz => ?_⟩
      rcases List.mem_cons.mp hz with rfl | hz
      · exact le_trans (hle y (by simp)) ((horder z y).1 hgt)
      · exact hle z hz
    · rw [if_neg hgt]
      obtain ⟨hmem, hle⟩ := ih x
      refine ⟨?_, fun z hz => ?_⟩
      · grind
      · rcases List.mem_cons.mp hz with rfl | hz
        · exact hle z (by simp)
        · rcases List.mem_cons.mp hz with rfl | hz
          · exact le_trans (hle x (by simp)) ((horder x z).2 hgt)
          · exact hle z (List.mem_cons_of_mem _ hz)

theorem minBy_spec (horder : FirstBy value order) {xs : List α} (h : minBy order xs = some x) :
    x ∈ xs ∧ ∀ y ∈ xs, value x ≤ value y := by
  cases xs with
  | nil => cases h
  | cons first rest =>
    cases h
    exact foldl_min_spec horder rest first

theorem minBy_eq_none_iff {xs : List α} : minBy order xs = none ↔ xs = [] := by
  cases xs <;> simp [minBy]

end

variable {K : Type} {view : NavSnapshot K} {zone : Option FullyQualifiedMoniker}
  {fq lostFq : FullyQualifiedMoniker}

namespace NavSnapshot

def LiesIn (view : NavSnapshot K) (a b : FullyQualifiedMoniker) : Prop :=
  ∃ s ∈ view.scopes, s.fq = a ∧ s.parentZone = some b

def Acyclic (view : NavSnapshot K) : Prop := ∀ a, ¬ Relation.TransGen view.LiesIn a a

structure WellFormed (view : NavSnapshot K) : Prop where
  nonempty : view.scopes ≠ []
  distinct : (view.scopes.map SnapshotScope.fq).Nodup
  acyclic : view.Acyclic
  zones : ∀ s ∈ view.scopes, ∀ z, s.parentZone = some z → ∃ t ∈ view.scopes, t.fq = z

theorem get_eq_some {s : SnapshotScope K} (h : view.get fq = some s) :
    s ∈ view.scopes ∧ s.fq = fq := by
  have hmem := List.mem_of_find?_eq_some h
  have hfq := List.find?_some h
  exact ⟨List.mem_reverse.mp hmem, by simpa using hfq⟩

theorem liesIn_of_parentZoneOf {a b : FullyQualifiedMoniker} (h : view.parentZoneOf a = some b) :
    view.LiesIn a b := by
  obtain ⟨s, hget, hparent⟩ := Option.bind_eq_some_iff.mp h
  obtain ⟨hmem, hfq⟩ := get_eq_some hget
  exact ⟨s, hmem, hfq, hparent⟩

theorem mem_inZone {s : SnapshotScope K} (hlost : ∀ t ∈ view.scopes, t.fq ≠ lostFq) :
    s ∈ view.inZone zone lostFq ↔ s ∈ view.scopes ∧ s.parentZone = zone := by
  simp only [inZone, List.mem_filter, decide_eq_true_eq]
  constructor
  · rintro ⟨⟨hmem, -⟩, hzone⟩
    exact ⟨hmem, hzone⟩
  · rintro ⟨hmem, hzone⟩
    exact ⟨⟨hmem, hlost s hmem⟩, hzone⟩

open Classical in
noncomputable def above (view : NavSnapshot K) (a : FullyQualifiedMoniker) : Nat :=
  (view.scopes.filter fun s => Relation.TransGen view.LiesIn a s.fq).length

theorem above_le (view : NavSnapshot K) (a : FullyQualifiedMoniker) :
    view.above a ≤ view.scopes.length := List.length_filter_le _ _

theorem above_lt (hview : view.WellFormed) {a b : FullyQualifiedMoniker} (h : view.LiesIn a b) :
    view.above b < view.above a := by
  classical
  obtain ⟨s, hs, -, hparent⟩ := id h
  obtain ⟨t, ht, htb⟩ := hview.zones s hs b hparent
  have hsub : (view.scopes.filter fun s => Relation.TransGen view.LiesIn b s.fq).Sublist
      (view.scopes.filter fun s => Relation.TransGen view.LiesIn a s.fq) := by
    apply List.monotone_filter_right
    intro u hu
    have hbu : Relation.TransGen view.LiesIn b u.fq := by simpa using hu
    simpa using Relation.TransGen.head h hbu
  refine Nat.lt_of_le_of_ne hsub.length_le fun heq => ?_
  have hsame := hsub.eq_of_length heq
  have hin : t ∈ view.scopes.filter fun s => Relation.TransGen view.LiesIn a s.fq :=
    List.mem_filter.mpr ⟨ht, by simpa [htb] using Relation.TransGen.single h⟩
  rw [← hsame] at hin
  have hcycle : Relation.TransGen view.LiesIn b t.fq := by simpa using (List.mem_filter.mp hin).2
  rw [htb] at hcycle
  exact hview.acyclic b hcycle

theorem exists_root (hview : view.WellFormed) : ∃ s ∈ view.scopes, s.parentZone = none := by
  obtain ⟨s, hs⟩ := List.exists_mem_of_ne_nil _ hview.nonempty
  generalize hn : view.above s.fq = n
  induction n using Nat.strongRecOn generalizing s with
  | ind n ih =>
    cases hparent : s.parentZone with
    | none => exact ⟨s, hs, hparent⟩
    | some z =>
      obtain ⟨t, ht, rfl⟩ := hview.zones s hs z hparent
      have hlt := above_lt hview ⟨s, hs, rfl, hparent⟩
      rw [hn] at hlt
      exact ih _ hlt t ht rfl

end NavSnapshot

def Remembers (registry : SpatialRegistry) (view : NavSnapshot K)
    (zone : Option FullyQualifiedMoniker) (fq : FullyQualifiedMoniker) : Prop :=
  zone.bind registry.lastFocusedByFq.get? = some fq ∧ ∃ s ∈ view.scopes, s.fq = fq

def Live (registry : SpatialRegistry) (view : NavSnapshot K)
    (zone : Option FullyQualifiedMoniker) : Prop :=
  (∃ fq, Remembers registry view zone fq) ∨ ∃ s ∈ view.scopes, s.parentZone = zone

inductive ClosestAncestor (registry : SpatialRegistry) (view : NavSnapshot K) :
    Option FullyQualifiedMoniker → Option FullyQualifiedMoniker → Prop
  | here {z : FullyQualifiedMoniker} (h : Live registry view (view.parentZoneOf z)) :
      ClosestAncestor registry view (some z) (view.parentZoneOf z)
  | up {z : FullyQualifiedMoniker} {w : Option FullyQualifiedMoniker}
      (h : ¬ Live registry view (view.parentZoneOf z))
      (hup : ClosestAncestor registry view (view.parentZoneOf z) w) :
      ClosestAncestor registry view (some z) w

theorem remembered_spec {registry : SpatialRegistry} {s : SnapshotScope K}
    (h : remembered registry lostFq view zone = some s) : Remembers registry view zone s.fq := by
  rw [remembered] at h
  cases hrecorded : zone.bind registry.lastFocusedByFq.get? with
  | none => simp [hrecorded] at h
  | some fq =>
    simp only [hrecorded] at h
    split_ifs at h
    obtain ⟨hs, hfq⟩ := NavSnapshot.get_eq_some h
    exact ⟨by rw [hrecorded, hfq], s, hs, rfl⟩

theorem remembered_eq_none {registry : SpatialRegistry}
    (hlost : ∀ t ∈ view.scopes, t.fq ≠ lostFq)
    (h : remembered registry lostFq view zone = none) (fq : FullyQualifiedMoniker) :
    ¬ Remembers registry view zone fq := by
  rintro ⟨hrecorded, s, hs, rfl⟩
  simp only [remembered, hrecorded, if_neg (hlost s hs)] at h
  have hnone := List.find?_eq_none.mp h s (List.mem_reverse.mpr hs)
  simp at hnone

section

variable [LinearOrder K] [Add K] [Sub K] [Mul K] {registry : SpatialRegistry} {rect : Rect K}
  {ctx : LostFocusContext K} {fuel : Nat}

def Nearest (view : NavSnapshot K) (rect : Rect K) (zone : Option FullyQualifiedMoniker)
    (fq : FullyQualifiedMoniker) : Prop :=
  ∃ s ∈ view.scopes, s.fq = fq ∧ s.parentZone = zone ∧ ∀ t ∈ view.scopes, t.parentZone = zone →
    squaredDistance rect s.rect ≤ squaredDistance rect t.rect

def Settles (registry : SpatialRegistry) (view : NavSnapshot K) (rect : Rect K)
    (zone : Option FullyQualifiedMoniker) (fq : FullyQualifiedMoniker) : Prop :=
  Remembers registry view zone fq ∨
    (∀ other, ¬ Remembers registry view zone other) ∧ Nearest view rect zone fq

structure LandsOn (registry : SpatialRegistry) (view : NavSnapshot K) (rect : Rect K)
    (lostZone : Option FullyQualifiedMoniker) (fq : FullyQualifiedMoniker) : Prop where
  mem : ∃ s ∈ view.scopes, s.fq = fq
  sibling : (∃ s ∈ view.scopes, s.parentZone = lostZone) → Nearest view rect lostZone fq
  ancestor : (∀ s ∈ view.scopes, s.parentZone ≠ lostZone) →
    ∃ zone, ClosestAncestor registry view lostZone zone ∧ Settles registry view rect zone fq

theorem firstBy_nearestOrder (rect : Rect K) :
    FirstBy (fun s : SnapshotScope K => squaredDistance rect s.rect) (nearestOrder rect) := by
  intro a b
  have hgt :=
    compare_gt_iff_gt (a := squaredDistance rect a.rect) (b := squaredDistance rect b.rect)
  have hlt :=
    compare_lt_iff_lt (a := squaredDistance rect a.rect) (b := squaredDistance rect b.rect)
  have heq :=
    compare_eq_iff_eq (a := squaredDistance rect a.rect) (b := squaredDistance rect b.rect)
  simp only [nearestOrder]
  cases hcompare : compare (squaredDistance rect a.rect) (squaredDistance rect b.rect) with
  | lt => exact ⟨fun h => (by cases h), fun _ => le_of_lt (hlt.mp hcompare)⟩
  | eq =>
    have hsame := heq.mp hcompare
    exact ⟨fun _ => le_of_eq hsame.symm, fun _ => le_of_eq hsame⟩
  | gt => exact ⟨fun _ => le_of_lt (hgt.mp hcompare), fun h => absurd rfl h⟩

theorem nearestInZoneView_spec (hlost : ∀ t ∈ view.scopes, t.fq ≠ lostFq)
    (h : view.nearestInZoneView zone lostFq rect = some fq) : Nearest view rect zone fq := by
  obtain ⟨s, hmin, rfl⟩ := Option.map_eq_some_iff.mp h
  obtain ⟨hmem, hle⟩ := minBy_spec (firstBy_nearestOrder rect) hmin
  obtain ⟨hs, hzone⟩ := (NavSnapshot.mem_inZone hlost).mp hmem
  refine ⟨s, hs, rfl, hzone, fun t ht htzone => ?_⟩
  exact hle t ((NavSnapshot.mem_inZone hlost).mpr ⟨ht, htzone⟩)

theorem nearestInZoneView_eq_none (rect : Rect K) (hlost : ∀ t ∈ view.scopes, t.fq ≠ lostFq) :
    view.nearestInZoneView zone lostFq rect = none ↔ ∀ s ∈ view.scopes, s.parentZone ≠ zone := by
  rw [NavSnapshot.nearestInZoneView, Option.map_eq_none_iff, minBy_eq_none_iff,
    List.eq_nil_iff_forall_not_mem]
  simp only [NavSnapshot.mem_inZone hlost, not_and, ne_eq]

theorem walkZones_live (hlost : ∀ t ∈ ctx.view.scopes, t.fq ≠ lostFq)
    (hlive : Live registry ctx.view zone) :
    ∃ resolution fq,
      (∀ fuel, walkZones registry lostFq ctx (fuel + 1) zone false = some (some resolution)) ∧
      resolution.target = some (fq, lastSegment fq) ∧
      Settles registry ctx.view ctx.lostRect zone fq := by
  cases hremembered : remembered registry lostFq ctx.view zone with
  | some s =>
    exact ⟨.fallbackParentZoneLastFocused s.fq (lastSegment s.fq), s.fq,
      fun fuel => by simp [walkZones, hremembered], rfl, .inl (remembered_spec hremembered)⟩
  | none =>
    have hnone := remembered_eq_none hlost hremembered
    cases hnearest : ctx.view.nearestInZoneView zone lostFq ctx.lostRect with
    | some fq =>
      exact ⟨.fallbackParentZoneNearest fq (lastSegment fq), fq,
        fun fuel => by simp [walkZones, hremembered, hnearest], rfl,
        .inr ⟨hnone, nearestInZoneView_spec hlost hnearest⟩⟩
    | none =>
      have hempty := (nearestInZoneView_eq_none ctx.lostRect hlost).mp hnearest
      rcases hlive with ⟨fq, hfq⟩ | ⟨s, hs, hzone⟩
      · exact absurd hfq (hnone fq)
      · exact absurd hzone (hempty s hs)

theorem walkZones_dead (hlost : ∀ t ∈ ctx.view.scopes, t.fq ≠ lostFq)
    (hdead : ∀ s ∈ ctx.view.scopes, s.parentZone ≠ zone) {first : Bool}
    (hremembers : first = true ∨ ∀ fq, ¬ Remembers registry ctx.view zone fq)
    {z : FullyQualifiedMoniker} (hz : zone = some z) :
    walkZones registry lostFq ctx (fuel + 1) zone first =
      walkZones registry lostFq ctx fuel (ctx.view.parentZoneOf z) false := by
  have hnearest := (nearestInZoneView_eq_none ctx.lostRect hlost).mpr hdead
  subst hz
  cases first with
  | true => simp [walkZones, hnearest]
  | false =>
    have hnone : remembered registry lostFq ctx.view (some z) = none := by
      cases hremembered : remembered registry lostFq ctx.view (some z) with
      | none => rfl
      | some s =>
        rcases hremembers with h | h
        · cases h
        · exact absurd (remembered_spec hremembered) (h s.fq)
    simp [walkZones, hnone, hnearest]

theorem walkZones_climbs (registry : SpatialRegistry) (hview : ctx.view.WellFormed)
    (hlost : ∀ t ∈ ctx.view.scopes, t.fq ≠ lostFq) (z : FullyQualifiedMoniker) :
    ∃ resolution fq,
      (∀ fuel > ctx.view.above z,
        walkZones registry lostFq ctx fuel (ctx.view.parentZoneOf z) false =
          some (some resolution)) ∧
      resolution.target = some (fq, lastSegment fq) ∧
      ∃ zone, ClosestAncestor registry ctx.view (some z) zone ∧
        Settles registry ctx.view ctx.lostRect zone fq := by
  generalize hn : ctx.view.above z = n
  induction n using Nat.strongRecOn generalizing z with
  | ind n ih =>
    by_cases hlive : Live registry ctx.view (ctx.view.parentZoneOf z)
    · obtain ⟨resolution, fq, hwalk, htarget, hsettles⟩ := walkZones_live hlost hlive
      refine ⟨resolution, fq, fun fuel hfuel => ?_, htarget, _, .here hlive, hsettles⟩
      obtain ⟨fuel, rfl⟩ : ∃ m, fuel = m + 1 := ⟨fuel - 1, by omega⟩
      exact hwalk fuel
    · cases hparent : ctx.view.parentZoneOf z with
      | none =>
        rw [hparent] at hlive
        exact absurd (.inr (NavSnapshot.exists_root hview)) hlive
      | some p =>
        have hdead : ∀ s ∈ ctx.view.scopes, s.parentZone ≠ some p := fun s hs hp =>
          hlive (.inr ⟨s, hs, by rw [hparent, hp]⟩)
        have hforgets : ∀ fq, ¬ Remembers registry ctx.view (some p) fq := fun fq hfq =>
          hlive (.inl ⟨fq, by rw [hparent]; exact hfq⟩)
        have hless := NavSnapshot.above_lt hview (NavSnapshot.liesIn_of_parentZoneOf hparent)
        rw [hn] at hless
        obtain ⟨resolution, fq, hwalk, htarget, zone, hclosest, hsettles⟩ := ih _ hless p rfl
        refine ⟨resolution, fq, fun fuel hfuel => ?_, htarget, zone,
          .up hlive (by rwa [hparent]), hsettles⟩
        obtain ⟨fuel, rfl⟩ : ∃ m, fuel = m + 1 := ⟨fuel - 1, by omega⟩
        rw [walkZones_dead hlost hdead (.inr hforgets) rfl]
        exact hwalk fuel (by omega)

theorem resolveFallback_lands (ctx : LostFocusContext K) (hview : ctx.view.WellFormed)
    (hlost : ∀ t ∈ ctx.view.scopes, t.fq ≠ lostFq)
    (hlayer : (registry.layer ctx.lostLayerFq).isSome) :
    ∃ resolution fq,
      (∀ fuel ≥ ctx.view.scopes.length + 2,
        resolveFallback fuel registry lostFq ctx = some resolution) ∧
      resolution.target = some (fq, lastSegment fq) ∧
      LandsOn registry ctx.view ctx.lostRect ctx.lostParentZone fq := by
  obtain ⟨layer, hlayer⟩ := Option.isSome_iff_exists.mp hlayer
  suffices h : ∃ resolution fq,
      (∀ fuel > ctx.view.scopes.length,
        walkZones registry lostFq ctx (fuel + 1) ctx.lostParentZone true =
          some (some resolution)) ∧
      resolution.target = some (fq, lastSegment fq) ∧
      LandsOn registry ctx.view ctx.lostRect ctx.lostParentZone fq by
    obtain ⟨resolution, fq, hwalk, htarget, hlands⟩ := h
    refine ⟨resolution, fq, fun fuel hfuel => ?_, htarget, hlands⟩
    obtain ⟨fuel, rfl⟩ : ∃ m, fuel = m + 1 := ⟨fuel - 1, by omega⟩
    simp [resolveFallback, hlayer, hwalk fuel (by omega)]
  cases hnearest : ctx.view.nearestInZoneView ctx.lostParentZone lostFq ctx.lostRect with
  | some fq =>
    have hspec := nearestInZoneView_spec hlost hnearest
    obtain ⟨s, hs, hfq, hzone, -⟩ := id hspec
    refine ⟨.fallbackSiblingInZone fq (lastSegment fq), fq,
      fun fuel _ => by simp [walkZones, hnearest], rfl, ?_⟩
    exact ⟨⟨s, hs, hfq⟩, fun _ => hspec, fun hempty => absurd hzone (hempty s hs)⟩
  | none =>
    have hempty := (nearestInZoneView_eq_none ctx.lostRect hlost).mp hnearest
    cases hzone : ctx.lostParentZone with
    | none =>
      obtain ⟨s, hs, hroot⟩ := NavSnapshot.exists_root hview
      rw [hzone] at hempty
      exact absurd hroot (hempty s hs)
    | some z =>
      rw [hzone] at hempty
      have habove := ctx.view.above_le z
      obtain ⟨resolution, fq, hwalk, htarget, zone, hclosest, hsettles⟩ :=
        walkZones_climbs registry hview hlost z
      refine ⟨resolution, fq, fun fuel hfuel => ?_, htarget, ?_, ?_,
        fun _ => ⟨zone, hclosest, hsettles⟩⟩
      · rw [walkZones_dead hlost hempty (.inl rfl) rfl]
        exact hwalk fuel (by omega)
      · rcases hsettles with ⟨-, hmem⟩ | ⟨-, s, hs, hfq, -⟩
        · exact hmem
        · exact ⟨s, hs, hfq⟩
      · rintro ⟨s, hs, hp⟩
        exact absurd hp (hempty s hs)

end

section

variable [LinearOrder K] [Add K] [Sub K] [Mul K]

theorem focusLost_lands (state : SpatialState) (registry : SpatialRegistry)
    (snapshot : NavSnapshot K) (lostFq : FullyQualifiedMoniker)
    (lostParentZone : Option FullyQualifiedMoniker) (lostRect : Rect K)
    (hlayer : (registry.layer snapshot.layerFq).isSome) (hsnapshot : snapshot.WellFormed)
    (hlost : ∀ s ∈ snapshot.scopes, s.fq ≠ lostFq)
    (hslot : ∃ window, state.focusedIn window = some lostFq) :
    ∃ window fq, state.focusedIn window = some lostFq ∧
      LandsOn registry snapshot lostRect lostParentZone fq ∧
      ∀ fuel ≥ snapshot.scopes.length + 2, ∃ state' registry',
        state.focusLost fuel registry snapshot lostFq lostParentZone snapshot.layerFq lostRect =
          some (state', registry', some ⟨window, some lostFq, some fq, some (lastSegment fq)⟩) ∧
        state'.focusedIn window = some fq ∧
        ∀ other, other ≠ window → state'.focusedIn other = state.focusedIn other := by
  obtain ⟨found, hfound⟩ := hslot
  have hentry : (found, lostFq) ∈ state.focusByWindow.entries := IndexMap.get?_eq_some_iff.mp hfound
  obtain ⟨entry, hfind⟩ : ∃ entry, state.focusByWindow.entries.find? (fun e => e.2 = lostFq) =
      some entry := by
    cases hfind : state.focusByWindow.entries.find? fun e => e.2 = lostFq with
    | none =>
      have hnone := List.find?_eq_none.mp hfind _ hentry
      simp at hnone
    | some entry => exact ⟨entry, rfl⟩
  obtain ⟨window, slot⟩ := entry
  have hslot : slot = lostFq := by simpa using List.find?_some hfind
  subst hslot
  have hwindow : state.focusedIn window = some slot :=
    IndexMap.get?_eq_some_iff.mpr (List.mem_of_find?_eq_some hfind)
  obtain ⟨resolution, fq, hresolve, htarget, hlands⟩ :=
    resolveFallback_lands ⟨snapshot, snapshot.layerFq, lostParentZone, lostRect⟩
      hsnapshot hlost hlayer
  refine ⟨window, fq, hwindow, hlands, fun fuel hfuel => ?_⟩
  refine ⟨⟨state.focusByWindow.insert window fq⟩, registry.recordFocus fq snapshot, ?_, ?_, ?_⟩
  · simp only [SpatialState.focusLost, hfind, hresolve fuel hfuel,
      SpatialState.commitFallbackResolution, htarget]
  · exact IndexMap.get?_insert_self _ _ _
  · intro other hother
    exact IndexMap.get?_insert_of_ne hother _ _

end

def panelScopes : List (SnapshotScope Int) :=
  [⟨"/w/panel", ⟨0, 0, 80, 60⟩, none⟩, ⟨"/w/panel/list", ⟨4, 4, 70, 50⟩, some "/w/panel"⟩]

def panelSnapshot : NavSnapshot Int := ⟨"/w", panelScopes⟩

def mainLayer : FocusLayer := ⟨"/w", none, "main", none⟩

def mainRegistry : SpatialRegistry := ⟨IndexMap.empty.insert "/w" mainLayer, IndexMap.empty⟩

def rowFocused : SpatialState := ⟨IndexMap.empty.insert "main" "/w/panel/list/row"⟩

theorem panelSnapshot_wellFormed : panelSnapshot.WellFormed where
  nonempty := by decide
  distinct := by decide
  acyclic := by
    have hshorter : ∀ a b, panelSnapshot.LiesIn a b → b.length < a.length := by
      rintro a b ⟨s, hs, rfl, hparent⟩
      rcases List.mem_pair.mp hs with rfl | rfl
      · cases hparent
      · cases hparent
        decide
    have htrans : ∀ a b, Relation.TransGen panelSnapshot.LiesIn a b → b.length < a.length := by
      intro a b h
      induction h with
      | single h => exact hshorter _ _ h
      | tail _ h ih => exact Nat.lt_trans (hshorter _ _ h) ih
    exact fun a h => Nat.lt_irrefl _ (htrans a a h)
  zones := by
    intro s hs z hz
    rcases List.mem_pair.mp hs with rfl | rfl
    · cases hz
    · cases hz
      exact ⟨_, List.mem_cons_self, rfl⟩

theorem focusLost_lands_row :
    ∃ window fq, rowFocused.focusedIn window = some "/w/panel/list/row" ∧
      LandsOn mainRegistry panelSnapshot ⟨5, 5, 60, 8⟩ (some "/w/panel/list") fq ∧
      ∀ fuel ≥ panelSnapshot.scopes.length + 2, ∃ state' registry',
        rowFocused.focusLost fuel mainRegistry panelSnapshot "/w/panel/list/row"
            (some "/w/panel/list") panelSnapshot.layerFq ⟨5, 5, 60, 8⟩ =
          some (state', registry', some ⟨window, some "/w/panel/list/row", some fq,
            some (lastSegment fq)⟩) ∧
        state'.focusedIn window = some fq ∧
        ∀ other, other ≠ window → state'.focusedIn other = rowFocused.focusedIn other :=
  focusLost_lands rowFocused mainRegistry panelSnapshot "/w/panel/list/row" (some "/w/panel/list")
    ⟨5, 5, 60, 8⟩ (by decide) panelSnapshot_wellFormed (by decide) ⟨"main", by decide⟩

end SwissArmyHammer.Focus
