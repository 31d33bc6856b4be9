import Mathlib.Order.Defs.LinearOrder
import SwissArmyHammer.Common.IndexMap

/-! Focus for each window, and where it goes when the focused scope is lost. -/

namespace SwissArmyHammer.Focus

abbrev WindowLabel := String
abbrev SegmentMoniker := String
abbrev FullyQualifiedMoniker := String

def lastSegment (fq : FullyQualifiedMoniker) : SegmentMoniker :=
  String.ofList (fq.toList.reverse.takeWhile (· ≠ '/')).reverse

/-- Pixels are finite floats: `K` is only asked for their order and their rounded operations. -/
structure Rect (K : Type) where
  x : K
  y : K
  width : K
  height : K
  deriving DecidableEq

structure SnapshotScope (K : Type) where
  fq : FullyQualifiedMoniker
  rect : Rect K
  parentZone : Option FullyQualifiedMoniker
  deriving DecidableEq

structure NavSnapshot (K : Type) where
  layerFq : FullyQualifiedMoniker
  scopes : List (SnapshotScope K)
  deriving DecidableEq

structure FocusLayer where
  fq : FullyQualifiedMoniker
  parent : Option FullyQualifiedMoniker
  windowLabel : WindowLabel
  lastFocused : Option FullyQualifiedMoniker

structure SpatialRegistry where
  layers : IndexMap FullyQualifiedMoniker FocusLayer
  lastFocusedByFq : IndexMap FullyQualifiedMoniker FullyQualifiedMoniker

structure FocusChangedEvent where
  windowLabel : WindowLabel
  prevFq : Option FullyQualifiedMoniker
  nextFq : Option FullyQualifiedMoniker
  nextSegment : Option SegmentMoniker
  deriving DecidableEq

inductive FallbackResolution
  | fallbackSiblingInZone (fq : FullyQualifiedMoniker) (segment : SegmentMoniker)
  | fallbackParentZoneLastFocused (fq : FullyQualifiedMoniker) (segment : SegmentMoniker)
  | fallbackParentZoneNearest (fq : FullyQualifiedMoniker) (segment : SegmentMoniker)
  | fallbackParentLayerLastFocused (fq : FullyQualifiedMoniker) (segment : SegmentMoniker)
  | noFocus
  deriving DecidableEq

section

variable {K : Type} [LinearOrder K] [Add K] [Sub K] [Mul K]

def squaredDistance (a b : Rect K) : K :=
  (a.x - b.x) * (a.x - b.x) + (a.y - b.y) * (a.y - b.y)

/-- `Iterator::min_by`: the first of the least elements. -/
def minBy {α : Type} (order : α → α → Ordering) : List α → Option α
  | [] => none
  | x :: rest => some (rest.foldl (fun best y => if order best y = .gt then y else best) x)

def nearestOrder (origin : Rect K) (a b : SnapshotScope K) : Ordering :=
  (compare (squaredDistance origin a.rect) (squaredDistance origin b.rect)).then
    ((compare a.rect.y b.rect.y).then (compare a.rect.x b.rect.x))

end

namespace NavSnapshot

variable {K : Type} (view : NavSnapshot K)

def get (fq : FullyQualifiedMoniker) : Option (SnapshotScope K) :=
  view.scopes.reverse.find? fun s => s.fq = fq

def parentZoneOf (fq : FullyQualifiedMoniker) : Option FullyQualifiedMoniker :=
  (view.get fq).bind SnapshotScope.parentZone

def parentZoneChain : Nat → List FullyQualifiedMoniker → Option FullyQualifiedMoniker →
    List (SnapshotScope K)
  | 0, _, _ => []
  | _, _, none => []
  | fuel + 1, visited, some fq =>
    if fq ∈ visited then []
    else
      match view.get fq with
      | none => []
      | some scope => scope :: parentZoneChain fuel (fq :: visited) scope.parentZone

def inZone (zone : Option FullyQualifiedMoniker) (lostFq : FullyQualifiedMoniker) :
    List (SnapshotScope K) :=
  (view.scopes.filter fun s => s.fq ≠ lostFq).filter fun s => s.parentZone = zone

variable [LinearOrder K] [Add K] [Sub K] [Mul K]

def nearestInZoneView (zone : Option FullyQualifiedMoniker) (lostFq : FullyQualifiedMoniker)
    (origin : Rect K) : Option FullyQualifiedMoniker :=
  (minBy (nearestOrder origin) (view.inZone zone lostFq)).map SnapshotScope.fq

end NavSnapshot

namespace SpatialRegistry

def layer (registry : SpatialRegistry) (fq : FullyQualifiedMoniker) : Option FocusLayer :=
  registry.layers.get? fq

def recordLayers (fq : FullyQualifiedMoniker) :
    Nat → List FullyQualifiedMoniker → Option FullyQualifiedMoniker → SpatialRegistry →
      SpatialRegistry
  | 0, _, _, registry => registry
  | _, _, none, registry => registry
  | fuel + 1, visited, some layerFq, registry =>
    if layerFq ∈ visited then registry
    else
      match registry.layer layerFq with
      | none => registry
      | some layer =>
        recordLayers fq fuel (layerFq :: visited) layer.parent
          { registry with
            layers := registry.layers.insert layerFq { layer with lastFocused := some fq } }

def recordFocus {K : Type} (registry : SpatialRegistry) (fq : FullyQualifiedMoniker)
    (view : NavSnapshot K) : SpatialRegistry :=
  let chain := view.parentZoneChain (view.scopes.length + 1) [] (view.parentZoneOf fq)
  let byFq := chain.foldl (fun m ancestor => m.insert ancestor.fq fq) registry.lastFocusedByFq
  recordLayers fq (registry.layers.entries.length + 1) [] (some view.layerFq)
    { registry with lastFocusedByFq := byFq }

end SpatialRegistry

structure SpatialState where
  focusByWindow : IndexMap WindowLabel FullyQualifiedMoniker

structure LostFocusContext (K : Type) where
  view : NavSnapshot K
  lostLayerFq : FullyQualifiedMoniker
  lostParentZone : Option FullyQualifiedMoniker
  lostRect : Rect K

section

variable {K : Type} [LinearOrder K] [Add K] [Sub K] [Mul K]

def remembered (registry : SpatialRegistry) (lostFq : FullyQualifiedMoniker)
    (view : NavSnapshot K) (zone : Option FullyQualifiedMoniker) : Option (SnapshotScope K) :=
  match zone.bind registry.lastFocusedByFq.get? with
  | none => none
  | some fq => if fq = lostFq then none else view.get fq

def walkZones (registry : SpatialRegistry) (lostFq : FullyQualifiedMoniker)
    (ctx : LostFocusContext K) :
    Nat → Option FullyQualifiedMoniker → Bool → Option (Option FallbackResolution)
  | 0, _, _ => none
  | fuel + 1, zone, onLostZone =>
    let live := if onLostZone then none else remembered registry lostFq ctx.view zone
    match live with
    | some scope => some (some (.fallbackParentZoneLastFocused scope.fq (lastSegment scope.fq)))
    | none =>
      match ctx.view.nearestInZoneView zone lostFq ctx.lostRect with
      | some next =>
        some (some (if onLostZone then .fallbackSiblingInZone next (lastSegment next)
          else .fallbackParentZoneNearest next (lastSegment next)))
      | none =>
        match zone with
        | none => some none
        | some zoneFq => walkZones registry lostFq ctx fuel (ctx.view.parentZoneOf zoneFq) false

def walkLayers (registry : SpatialRegistry) (lostFq : FullyQualifiedMoniker)
    (lostWindow : WindowLabel) (view : NavSnapshot K) :
    Nat → Option FullyQualifiedMoniker → Option FallbackResolution
  | 0, _ => none
  | _, none => some .noFocus
  | fuel + 1, some parentLayerFq =>
    match registry.layer parentLayerFq with
    | none => some .noFocus
    | some parentLayer =>
      if parentLayer.windowLabel ≠ lostWindow then some .noFocus
      else
        match (parentLayer.lastFocused.filter (· ≠ lostFq)).bind view.get with
        | some scope =>
          some (.fallbackParentLayerLastFocused scope.fq (lastSegment scope.fq))
        | none => walkLayers registry lostFq lostWindow view fuel parentLayer.parent

def resolveFallback (fuel : Nat) (registry : SpatialRegistry) (lostFq : FullyQualifiedMoniker)
    (ctx : LostFocusContext K) : Option FallbackResolution :=
  match registry.layer ctx.lostLayerFq with
  | none => some .noFocus
  | some lostLayer =>
    match walkZones registry lostFq ctx fuel ctx.lostParentZone true with
    | none => none
    | some (some resolution) => some resolution
    | some none =>
      walkLayers registry lostFq lostLayer.windowLabel ctx.view fuel lostLayer.parent

end

def FallbackResolution.target : FallbackResolution → Option (FullyQualifiedMoniker × SegmentMoniker)
  | .noFocus => none
  | .fallbackSiblingInZone fq segment => some (fq, segment)
  | .fallbackParentZoneLastFocused fq segment => some (fq, segment)
  | .fallbackParentZoneNearest fq segment => some (fq, segment)
  | .fallbackParentLayerLastFocused fq segment => some (fq, segment)

namespace SpatialState

variable {K : Type} [LinearOrder K] [Add K] [Sub K] [Mul K]

def focusedIn (state : SpatialState) (window : WindowLabel) : Option FullyQualifiedMoniker :=
  state.focusByWindow.get? window

def commitFallbackResolution (state : SpatialState) (registry : SpatialRegistry)
    (window : WindowLabel) (prevFq : FullyQualifiedMoniker) (resolution : FallbackResolution)
    (view : NavSnapshot K) : SpatialState × SpatialRegistry × FocusChangedEvent :=
  match resolution.target with
  | none =>
    (⟨state.focusByWindow.shiftRemove window⟩, registry, ⟨window, some prevFq, none, none⟩)
  | some (nextFq, nextSegment) =>
    (⟨state.focusByWindow.insert window nextFq⟩, registry.recordFocus nextFq view,
      ⟨window, some prevFq, some nextFq, some nextSegment⟩)

def focusLost (fuel : Nat) (state : SpatialState) (registry : SpatialRegistry)
    (snapshot : NavSnapshot K) (lostFq : FullyQualifiedMoniker)
    (lostParentZone : Option FullyQualifiedMoniker) (lostLayerFq : FullyQualifiedMoniker)
    (lostRect : Rect K) : Option (SpatialState × SpatialRegistry × Option FocusChangedEvent) :=
  match state.focusByWindow.entries.find? fun e => e.2 = lostFq with
  | none => some (state, registry, none)
  | some (window, _) =>
    match resolveFallback fuel registry lostFq ⟨snapshot, lostLayerFq, lostParentZone, lostRect⟩ with
    | none => none
    | some resolution =>
      let committed := state.commitFallbackResolution registry window lostFq resolution snapshot
      some (committed.1, committed.2.1, some committed.2.2)

end SpatialState

end SwissArmyHammer.Focus

/-! The registry of layers, and the walks over its parents and over those of the zones as loops
that may not end. -/

namespace SwissArmyHammer.Focus

namespace NavSnapshot

variable {K : Type} (view : NavSnapshot K)

def drainChain : Nat → List FullyQualifiedMoniker → Option FullyQualifiedMoniker →
    Option (List (SnapshotScope K))
  | 0, _, _ => none
  | _ + 1, _, none => some []
  | fuel + 1, visited, some fq =>
    if fq ∈ visited then some []
    else
      match view.get fq with
      | none => some []
      | some scope => (drainChain fuel (fq :: visited) scope.parentZone).map (scope :: ·)

end NavSnapshot

namespace SpatialRegistry

def new : SpatialRegistry := ⟨IndexMap.empty, IndexMap.empty⟩

def pushLayer (registry : SpatialRegistry) (l : FocusLayer) : SpatialRegistry :=
  let kept :=
    if l.lastFocused.isNone then (registry.layer l.fq).bind FocusLayer.lastFocused
    else l.lastFocused
  { registry with layers := registry.layers.insert l.fq { l with lastFocused := kept } }

def removeLayer (registry : SpatialRegistry) (fq : FullyQualifiedMoniker) : SpatialRegistry :=
  { registry with layers := registry.layers.shiftRemove fq }

def collectAncestors (registry : SpatialRegistry) :
    Nat → Option FullyQualifiedMoniker → Option (List FocusLayer)
  | 0, _ => none
  | _ + 1, none => some []
  | fuel + 1, some parentFq =>
    match registry.layer parentFq with
    | none => some []
    | some parent => (collectAncestors registry fuel parent.parent).map (parent :: ·)

def ancestorsOfLayer (fuel : Nat) (registry : SpatialRegistry) (fq : FullyQualifiedMoniker) :
    Option (List FocusLayer) :=
  match registry.layer fq with
  | none => some []
  | some start => registry.collectAncestors fuel start.parent

def recordLayersWithin (fq : FullyQualifiedMoniker) :
    Nat → List FullyQualifiedMoniker → Option FullyQualifiedMoniker → SpatialRegistry →
      Option SpatialRegistry
  | 0, _, _, _ => none
  | _ + 1, _, none, registry => some registry
  | fuel + 1, visited, some layerFq, registry =>
    if layerFq ∈ visited then some registry
    else
      match registry.layer layerFq with
      | none => some registry
      | some layer =>
        recordLayersWithin fq fuel (layerFq :: visited) layer.parent
          { registry with
            layers := registry.layers.insert layerFq { layer with lastFocused := some fq } }

def recordFocusWithin {K : Type} (zones layers : Nat) (registry : SpatialRegistry)
    (fq : FullyQualifiedMoniker) (view : NavSnapshot K) : Option SpatialRegistry :=
  match view.drainChain zones [] (view.parentZoneOf fq) with
  | none => none
  | some chain =>
    let byFq := chain.foldl (fun m ancestor => m.insert ancestor.fq fq) registry.lastFocusedByFq
    recordLayersWithin fq layers [] (some view.layerFq) { registry with lastFocusedByFq := byFq }

end SpatialRegistry

/-- What makes a registry: layers come and go, and the focus is recorded between. -/
inductive RegistryOp (K : Type)
  | pushLayer (l : FocusLayer)
  | removeLayer (fq : FullyQualifiedMoniker)
  | recordFocus (fq : FullyQualifiedMoniker) (view : NavSnapshot K)

def RegistryOp.apply {K : Type} (registry : SpatialRegistry) : RegistryOp K → SpatialRegistry
  | .pushLayer l => registry.pushLayer l
  | .removeLayer fq => registry.removeLayer fq
  | .recordFocus fq view => registry.recordFocus fq view

def SpatialRegistry.reached {K : Type} (ops : List (RegistryOp K)) : SpatialRegistry :=
  ops.foldl RegistryOp.apply SpatialRegistry.new

end SwissArmyHammer.Focus
