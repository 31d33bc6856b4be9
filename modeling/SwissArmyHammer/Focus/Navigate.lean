import Mathlib.Algebra.Order.Group.Abs
import Mathlib.Algebra.Order.Ring.Abs
import Mathlib.Algebra.Order.Ring.Rat
import Mathlib.Tactic.Linarith
import Mathlib.Tactic.Ring
import SwissArmyHammer.Common.Links
import SwissArmyHammer.Focus.LostFocus

/-! The next focus in a direction: the geometric pick for the arrows, the children for the ends. -/

namespace SwissArmyHammer.Focus

inductive Direction
  | up
  | down
  | left
  | right
  | first
  | last
  | rowStart
  | rowEnd
  deriving DecidableEq

abbrev FocusOverrides := IndexMap Direction (Option FullyQualifiedMoniker)

structure NavScope extends SnapshotScope ℚ where
  navOverride : FocusOverrides

structure IndexedSnapshot where
  layerFq : FullyQualifiedMoniker
  scopes : List NavScope

namespace Rect

variable (rect : Rect ℚ)

def top : ℚ := rect.y
def left : ℚ := rect.x
def bottom : ℚ := rect.y + rect.height
def right : ℚ := rect.x + rect.width

def centerX : ℚ := rect.left + rect.width / 2
def centerY : ℚ := rect.top + rect.height / 2

end Rect

section

variable (source cand : Rect ℚ)

def horizontalOverlap : Bool := source.left < cand.right ∧ cand.left < source.right
def verticalOverlap : Bool := source.top < cand.bottom ∧ cand.top < source.bottom

inductive MinorAxis
  | horizontal
  | vertical

def crossAxisMinor : MinorAxis → ℚ
  | .horizontal => |source.centerX - cand.centerX|
  | .vertical => |source.centerY - cand.centerY|

def inStrictHalfPlane : Direction → Bool
  | .down => cand.top ≥ source.bottom
  | .up => cand.bottom ≤ source.top
  | .right => cand.left ≥ source.right
  | .left => cand.right ≤ source.left
  | .first | .last | .rowStart | .rowEnd => false

def androidScore (major minor : ℚ) : ℚ := 13 * max major 0 * max major 0 + minor * minor

def scoreCandidate : Direction → Option (Bool × ℚ)
  | .down =>
    let major := cand.top - source.bottom
    if major < 0 ∧ cand.bottom ≤ source.bottom then none
    else
      let major := if major ≥ 0 then major else cand.centerY - source.centerY
      some (horizontalOverlap source cand,
        androidScore major (crossAxisMinor source cand .horizontal))
  | .up =>
    let major := source.top - cand.bottom
    if major < 0 ∧ cand.top ≥ source.top then none
    else
      let major := if major ≥ 0 then major else source.centerY - cand.centerY
      some (horizontalOverlap source cand,
        androidScore major (crossAxisMinor source cand .horizontal))
  | .right =>
    let major := cand.left - source.right
    if major < 0 ∧ cand.right ≤ source.right then none
    else
      let major := if major ≥ 0 then major else cand.centerX - source.centerX
      some (verticalOverlap source cand,
        androidScore major (crossAxisMinor source cand .vertical))
  | .left =>
    let major := source.left - cand.right
    if major < 0 ∧ cand.left ≥ source.left then none
    else
      let major := if major ≥ 0 then major else source.centerX - cand.centerX
      some (verticalOverlap source cand,
        androidScore major (crossAxisMinor source cand .vertical))
  | .first | .last | .rowStart | .rowEnd => none

end

structure BestCandidate where
  fq : FullyQualifiedMoniker
  score : ℚ
  hasChildren : Bool

def betterCandidate (current : Option BestCandidate) (cand : BestCandidate) : Bool :=
  match current with
  | none => true
  | some cur =>
    if cand.score < cur.score then true
    else if cand.score > cur.score then false
    else !cand.hasChildren && cur.hasChildren

namespace IndexedSnapshot

variable (view : IndexedSnapshot)

def get (fq : FullyQualifiedMoniker) : Option NavScope :=
  view.scopes.reverse.find? fun s => s.fq = fq

def checkOverride (focused : NavScope) (direction : Direction) :
    Option (Option FullyQualifiedMoniker) :=
  match focused.navOverride.get? direction with
  | none => none
  | some none => some none
  | some (some target) => if (view.get target).isSome then some (some target) else none

def parentFqs : List FullyQualifiedMoniker := view.scopes.filterMap fun s => s.parentZone

def candidate (focused : NavScope) (direction : Direction) (cand : NavScope) :
    Option BestCandidate :=
  if cand.fq = focused.fq then none
  else if !inStrictHalfPlane focused.rect cand.rect direction then none
  else
    match scoreCandidate focused.rect cand.rect direction with
    | none => none
    | some (inBeam, score) =>
      if inBeam then some ⟨cand.fq, score, cand.fq ∈ view.parentFqs⟩ else none

def keepBetter (best : Option BestCandidate) (cand : BestCandidate) : Option BestCandidate :=
  if betterCandidate best cand then some cand else best

def visit (focused : NavScope) (direction : Direction) (best : Option BestCandidate)
    (cand : NavScope) : Option BestCandidate :=
  match view.candidate focused direction cand with
  | none => best
  | some summary => keepBetter best summary

def geometricPick (focused : NavScope) (focusedFq : FullyQualifiedMoniker)
    (direction : Direction) : FullyQualifiedMoniker :=
  match view.scopes.foldl (view.visit focused direction) none with
  | some b => b.fq
  | none => focusedFq

def childrenOf (focused : NavScope) : List NavScope :=
  view.scopes.filter fun s => s.parentZone = some focused.fq

def topLeftOrder (a b : NavScope) : Ordering :=
  (compare a.rect.top b.rect.top).then (compare a.rect.left b.rect.left)

/-- `Iterator::max_by` takes the last of the greatest: the first of the least in the reverse. -/
def bottomRightOrder (a b : NavScope) : Ordering :=
  (compare b.rect.bottom a.rect.bottom).then (compare b.rect.right a.rect.right)

def edgeCommand (focused : NavScope) (focusedFq : FullyQualifiedMoniker)
    (direction : Direction) : FullyQualifiedMoniker :=
  let pick : Option NavScope :=
    match direction with
    | .first | .rowStart => minBy topLeftOrder (view.childrenOf focused)
    | .last | .rowEnd => minBy bottomRightOrder (view.childrenOf focused).reverse
    | .up | .down | .left | .right => none
  match pick with
  | some s => s.fq
  | none => focusedFq

def pickTarget (focusedFq : FullyQualifiedMoniker) (direction : Direction) :
    FullyQualifiedMoniker :=
  match view.get focusedFq with
  | none => focusedFq
  | some focused =>
    match view.checkOverride focused direction with
    | some (some target) => target
    | some none => focusedFq
    | none =>
      match direction with
      | .up | .down | .left | .right => view.geometricPick focused focusedFq direction
      | .first | .last | .rowStart | .rowEnd => view.edgeCommand focused focusedFq direction

end IndexedSnapshot

end SwissArmyHammer.Focus

/-! An arrow goes to a best scope on its side, and pressed again and again it comes to rest. -/

namespace SwissArmyHammer.Focus

namespace Direction

def IsArrow (d : Direction) : Prop := d ∈ [up, down, left, right]

instance (d : Direction) : Decidable d.IsArrow := inferInstanceAs (Decidable (d ∈ _))

def position (rect : Rect ℚ) : Direction → ℚ
  | down => rect.top
  | up => -rect.bottom
  | right => rect.left
  | left => -rect.right
  | _ => 0

def major (source cand : Rect ℚ) : Direction → ℚ
  | down => cand.top - source.bottom
  | up => source.top - cand.bottom
  | right => cand.left - source.right
  | left => source.left - cand.right
  | _ => 0

def minor (source cand : Rect ℚ) : Direction → ℚ
  | down | up => source.centerX - cand.centerX
  | right | left => source.centerY - cand.centerY
  | _ => 0

def inBeam (source cand : Rect ℚ) : Direction → Bool
  | down | up => horizontalOverlap source cand
  | right | left => verticalOverlap source cand
  | _ => false

end Direction

def beamScore (d : Direction) (source cand : Rect ℚ) : ℚ :=
  13 * d.major source cand ^ 2 + d.minor source cand ^ 2

section

variable {source cand : Rect ℚ} {d : Direction}

theorem inStrictHalfPlane_iff (hd : d.IsArrow) :
    inStrictHalfPlane source cand d = true ↔ 0 ≤ d.major source cand := by
  simp only [Direction.IsArrow, List.mem_cons, List.not_mem_nil, or_false] at hd
  rcases hd with rfl | rfl | rfl | rfl <;> simp [inStrictHalfPlane, Direction.major]

theorem androidScore_of_nonneg {major : ℚ} (h : 0 ≤ major) (minor : ℚ) :
    androidScore major |minor| = 13 * major ^ 2 + minor ^ 2 := by
  have hmax : max major 0 = major := max_eq_left h
  have habs : |minor| * |minor| = minor * minor := abs_mul_abs_self minor
  rw [androidScore, hmax, habs]
  ring

theorem scoreCandidate_of_halfPlane (hd : d.IsArrow)
    (h : inStrictHalfPlane source cand d = true) :
    scoreCandidate source cand d = some (d.inBeam source cand, beamScore d source cand) := by
  have hmajor := (inStrictHalfPlane_iff hd).mp h
  have hscore := androidScore_of_nonneg hmajor (d.minor source cand)
  have hnot := not_lt.mpr hmajor
  simp only [Direction.IsArrow, List.mem_cons, List.not_mem_nil, or_false] at hd
  rcases hd with rfl | rfl | rfl | rfl <;>
    simp only [Direction.major, Direction.minor] at hmajor hscore hnot <;>
    simp only [scoreCandidate, crossAxisMinor, hnot, false_and, if_false, ge_iff_le, hmajor,
      if_true, hscore, beamScore, Direction.major, Direction.minor, Direction.inBeam]

theorem position_lt (hd : d.IsArrow) (hwidth : 0 < source.width ∧ 0 < cand.width)
    (hheight : 0 < source.height ∧ 0 < cand.height)
    (h : inStrictHalfPlane source cand d = true) : d.position source < d.position cand := by
  have hmajor := (inStrictHalfPlane_iff hd).mp h
  simp only [Direction.IsArrow, List.mem_cons, List.not_mem_nil, or_false] at hd
  rcases hd with rfl | rfl | rfl | rfl <;>
    simp only [Direction.major, Direction.position, Rect.top, Rect.bottom, Rect.left,
      Rect.right] at hmajor ⊢ <;>
    linarith

end

def BestCandidate.NoWorse (b c : BestCandidate) : Prop :=
  b.score < c.score ∨ b.score = c.score ∧ (b.hasChildren = true → c.hasChildren = true)

namespace BestCandidate

variable {a b c : BestCandidate}

theorem NoWorse.refl (b : BestCandidate) : b.NoWorse b := .inr ⟨rfl, id⟩

theorem NoWorse.trans (hab : a.NoWorse b) (hbc : b.NoWorse c) : a.NoWorse c := by
  rcases hab with hlt | ⟨heq, hchildren⟩
  · rcases hbc with hlt' | ⟨heq', -⟩
    · exact .inl (lt_trans hlt hlt')
    · exact .inl (heq' ▸ hlt)
  · rcases hbc with hlt' | ⟨heq', hchildren'⟩
    · exact .inl (heq ▸ hlt')
    · exact .inr ⟨heq.trans heq', fun h => hchildren' (hchildren h)⟩

theorem NoWorse.score_le (h : b.NoWorse c) : b.score ≤ c.score := by
  rcases h with hlt | ⟨heq, -⟩
  · exact le_of_lt hlt
  · exact le_of_eq heq

theorem noWorse_of_better (h : betterCandidate (some b) c = true) : c.NoWorse b := by
  rw [betterCandidate] at h
  split_ifs at h with hlt hgt
  · exact .inl hlt
  · rw [Bool.and_eq_true] at h
    refine .inr ⟨le_antisymm (not_lt.mp hgt) (not_lt.mp hlt), fun _ => h.2⟩

theorem noWorse_of_not_better (h : ¬ betterCandidate (some b) c = true) : b.NoWorse c := by
  rw [betterCandidate] at h
  split_ifs at h with hlt hgt
  · exact absurd rfl h
  · exact .inl hgt
  · refine .inr ⟨le_antisymm (not_lt.mp hlt) (not_lt.mp hgt), fun hchildren => ?_⟩
    rw [hchildren, Bool.and_true, Bool.not_eq_true', Bool.not_eq_false] at h
    exact h

end BestCandidate

structure KeepsBest (best : Option BestCandidate) (cands : List BestCandidate) : Prop where
  none_iff : best = none ↔ cands = []
  mem : ∀ b, best = some b → b ∈ cands
  best : ∀ b, best = some b → ∀ c ∈ cands, b.NoWorse c

theorem KeepsBest.keepBetter {best : Option BestCandidate} {cands : List BestCandidate}
    (h : KeepsBest best cands) (cand : BestCandidate) :
    KeepsBest (IndexedSnapshot.keepBetter best cand) (cands ++ [cand]) := by
  have htaken : (∀ c ∈ cands, cand.NoWorse c) → KeepsBest (some cand) (cands ++ [cand]) := by
    intro hbetter
    refine ⟨by simp, fun b hb => ?_, fun b hb c hc => ?_⟩
    · cases hb
      exact List.mem_append_right _ List.mem_cons_self
    · cases hb
      rcases List.mem_append.mp hc with hc | hc
      · exact hbetter c hc
      · rw [List.mem_singleton.mp hc]
        exact .refl cand
  rw [IndexedSnapshot.keepBetter]
  cases best with
  | none =>
    have hnil := h.none_iff.mp rfl
    have hbetter : betterCandidate none cand = true := rfl
    exact htaken fun c hc => absurd hc (by rw [hnil]; exact List.not_mem_nil)
  | some cur =>
    by_cases hbetter : betterCandidate (some cur) cand = true
    · rw [if_pos hbetter]
      exact htaken fun c hc =>
        (BestCandidate.noWorse_of_better hbetter).trans (h.best cur rfl c hc)
    · rw [if_neg hbetter]
      refine ⟨by simp, fun b hb => ?_, fun b hb c hc => ?_⟩
      · exact List.mem_append_left _ (h.mem b hb)
      · cases hb
        rcases List.mem_append.mp hc with hc | hc
        · exact h.best cur rfl c hc
        · rw [List.mem_singleton.mp hc]
          exact BestCandidate.noWorse_of_not_better hbetter

theorem KeepsBest.foldl {best : Option BestCandidate} {before : List BestCandidate}
    (h : KeepsBest best before) (cands : List BestCandidate) :
    KeepsBest (cands.foldl IndexedSnapshot.keepBetter best) (before ++ cands) := by
  induction cands generalizing best before with
  | nil =>
    rw [List.append_nil]
    exact h
  | cons cand cands ih =>
    have hstep := ih (h.keepBetter cand)
    rw [List.append_assoc] at hstep
    exact hstep

namespace IndexedSnapshot

variable {view : IndexedSnapshot} {focused s : NavScope} {d : Direction}

structure Eligible (view : IndexedSnapshot) (focused : NavScope) (d : Direction) (s : NavScope) :
    Prop where
  mem : s ∈ view.scopes
  other : s.fq ≠ focused.fq
  halfPlane : inStrictHalfPlane focused.rect s.rect d = true
  beam : d.inBeam focused.rect s.rect = true

def IsLeaf (view : IndexedSnapshot) (s : NavScope) : Prop :=
  ∀ t ∈ view.scopes, t.parentZone ≠ some s.fq

structure Minimal (view : IndexedSnapshot) (focused : NavScope) (d : Direction) (s : NavScope) :
    Prop extends Eligible view focused d s where
  least : ∀ t, view.Eligible focused d t →
    beamScore d focused.rect s.rect ≤ beamScore d focused.rect t.rect

structure PicksBest (view : IndexedSnapshot) (focused : NavScope) (d : Direction)
    (target : FullyQualifiedMoniker) : Prop where
  stays_iff : target = focused.fq ↔ ∀ s, ¬ view.Eligible focused d s
  minimal : target ≠ focused.fq → ∃ s, s.fq = target ∧ view.Minimal focused d s ∧
    ((∃ t, view.Minimal focused d t ∧ view.IsLeaf t) → view.IsLeaf s)

theorem mem_parentFqs {fq : FullyQualifiedMoniker} :
    fq ∈ view.parentFqs ↔ ∃ t ∈ view.scopes, t.parentZone = some fq := List.mem_filterMap

theorem isLeaf_iff : view.IsLeaf s ↔ decide (s.fq ∈ view.parentFqs) = false := by
  simp only [IsLeaf, mem_parentFqs, decide_eq_false_iff_not, not_exists, not_and]

def summary (view : IndexedSnapshot) (focused : NavScope) (d : Direction) (s : NavScope) :
    BestCandidate :=
  ⟨s.fq, beamScore d focused.rect s.rect, s.fq ∈ view.parentFqs⟩

theorem candidate_eq_some_iff (hd : d.IsArrow) (hs : s ∈ view.scopes) {c : BestCandidate} :
    view.candidate focused d s = some c ↔
      view.Eligible focused d s ∧ c = view.summary focused d s := by
  rw [candidate]
  constructor
  · intro h
    split at h
    · cases h
    · rename_i hother
      split at h
      · cases h
      · rename_i hhalf
        have hhalf : inStrictHalfPlane focused.rect s.rect d = true := by simpa using hhalf
        simp only [scoreCandidate_of_halfPlane hd hhalf] at h
        split at h
        · rename_i hbeam
          cases h
          exact ⟨⟨hs, hother, hhalf, hbeam⟩, rfl⟩
        · cases h
  · rintro ⟨h, rfl⟩
    rw [if_neg h.other, h.halfPlane, if_neg (by simp), scoreCandidate_of_halfPlane hd h.halfPlane]
    simp only [h.beam, if_true, summary]

theorem mem_candidates (hd : d.IsArrow) {c : BestCandidate} :
    c ∈ view.scopes.filterMap (view.candidate focused d) ↔
      ∃ s, view.Eligible focused d s ∧ c = view.summary focused d s := by
  rw [List.mem_filterMap]
  constructor
  · rintro ⟨s, hs, hc⟩
    exact ⟨s, (candidate_eq_some_iff hd hs).mp hc⟩
  · rintro ⟨s, h, rfl⟩
    exact ⟨s, h.mem, (candidate_eq_some_iff hd h.mem).mpr ⟨h, rfl⟩⟩

theorem geometricPick_eq (focusedFq : FullyQualifiedMoniker) :
    view.geometricPick focused focusedFq d =
      (((view.scopes.filterMap (view.candidate focused d)).foldl keepBetter none).map
        BestCandidate.fq).getD focusedFq := by
  have hfold : view.scopes.foldl (view.visit focused d) none =
      (view.scopes.filterMap (view.candidate focused d)).foldl keepBetter none := by
    rw [List.foldl_filterMap]
    congr 1
    funext best cand
    rw [visit]
    cases view.candidate focused d cand <;> rfl
  rw [geometricPick, hfold]
  cases (view.scopes.filterMap (view.candidate focused d)).foldl keepBetter none <;> rfl

theorem geometricPick_best (hd : d.IsArrow) :
    view.PicksBest focused d (view.geometricPick focused focused.fq d) := by
  have hkept : KeepsBest none [] := ⟨by simp, by simp, by simp⟩
  have hbest := hkept.foldl (view.scopes.filterMap (view.candidate focused d))
  rw [List.nil_append] at hbest
  rw [geometricPick_eq]
  cases hfold : (view.scopes.filterMap (view.candidate focused d)).foldl keepBetter none with
  | none =>
    rw [hfold] at hbest
    have hnil := hbest.none_iff.mp rfl
    have hnone : ∀ s, ¬ view.Eligible focused d s := by
      intro s hs
      have hmem : view.summary focused d s ∈ view.scopes.filterMap (view.candidate focused d) :=
        (mem_candidates hd).mpr ⟨s, hs, rfl⟩
      rw [hnil] at hmem
      cases hmem
    exact ⟨⟨fun _ => hnone, fun _ => rfl⟩, fun hne => absurd rfl hne⟩
  | some b =>
    rw [hfold] at hbest
    obtain ⟨s, hs, hb⟩ := (mem_candidates hd).mp (hbest.mem b rfl)
    have hfq : b.fq = s.fq := by rw [hb, summary]
    have hleast : ∀ t, view.Eligible focused d t →
        beamScore d focused.rect s.rect ≤ beamScore d focused.rect t.rect := by
      intro t ht
      have hle := (hbest.best b rfl _ ((mem_candidates hd).mpr ⟨t, ht, rfl⟩)).score_le
      rw [hb] at hle
      exact hle
    show view.PicksBest focused d b.fq
    rw [hfq]
    refine ⟨⟨fun heq => absurd heq hs.other, fun hnone => absurd hs (hnone s)⟩,
      fun _ => ⟨s, rfl, ⟨hs, hleast⟩, ?_⟩⟩
    rintro ⟨t, ht, hleaf⟩
    have hequal : beamScore d focused.rect t.rect = beamScore d focused.rect s.rect :=
      le_antisymm (ht.least s hs) (hleast t ht.toEligible)
    have hnoWorse := hbest.best b rfl _ ((mem_candidates hd).mpr ⟨t, ht.toEligible, rfl⟩)
    rw [hb] at hnoWorse
    rcases hnoWorse with hlt | ⟨-, hchildren⟩
    · exact absurd hequal (ne_of_gt hlt)
    · rw [isLeaf_iff] at hleaf ⊢
      by_contra hparent
      have hparent : decide (s.fq ∈ view.parentFqs) = true := by simpa using hparent
      have hcontainer : decide (t.fq ∈ view.parentFqs) = true := hchildren hparent
      rw [hleaf] at hcontainer
      cases hcontainer

theorem get_of_mem (hdistinct : (view.scopes.map fun s => s.fq).Nodup) (hs : s ∈ view.scopes) :
    view.get s.fq = some s := by
  cases hget : view.get s.fq with
  | none =>
    have hnot := List.find?_eq_none.mp hget s (List.mem_reverse.mpr hs)
    simp at hnot
  | some t =>
    have ht : t ∈ view.scopes := List.mem_reverse.mp (List.mem_of_find?_eq_some hget)
    have hfq : t.fq = s.fq := by simpa using List.find?_some hget
    rw [List.inj_on_of_nodup_map hdistinct ht hs hfq]

theorem pickTarget_eq (hd : d.IsArrow) (hdistinct : (view.scopes.map fun s => s.fq).Nodup)
    (hs : s ∈ view.scopes) (hoverride : s.navOverride.get? d = none) :
    view.pickTarget s.fq d = view.geometricPick s s.fq d := by
  have hcheck : view.checkOverride s d = none := by rw [checkOverride, hoverride]
  simp only [Direction.IsArrow, List.mem_cons, List.not_mem_nil, or_false] at hd
  rw [pickTarget, get_of_mem hdistinct hs]
  simp only [hcheck]
  rcases hd with rfl | rfl | rfl | rfl <;> rfl

theorem pickTarget_best (hd : d.IsArrow) (hdistinct : (view.scopes.map fun s => s.fq).Nodup)
    (hs : s ∈ view.scopes) (hoverride : s.navOverride.get? d = none) :
    view.PicksBest s d (view.pickTarget s.fq d) := by
  rw [pickTarget_eq hd hdistinct hs hoverride]
  exact geometricPick_best hd

def along (view : IndexedSnapshot) (d : Direction) (fq : FullyQualifiedMoniker) : ℚ :=
  match view.get fq with
  | none => 0
  | some s => d.position s.rect

theorem along_of_mem (hdistinct : (view.scopes.map fun s => s.fq).Nodup) (hs : s ∈ view.scopes) :
    view.along d s.fq = d.position s.rect := by
  rw [along, get_of_mem hdistinct hs]

structure Free (view : IndexedSnapshot) (d : Direction) : Prop where
  width : ∀ s ∈ view.scopes, 0 < s.rect.width
  height : ∀ s ∈ view.scopes, 0 < s.rect.height
  override : ∀ s ∈ view.scopes, s.navOverride.get? d = none

def press (view : IndexedSnapshot) (d : Direction) (fq : FullyQualifiedMoniker) :
    FullyQualifiedMoniker :=
  view.pickTarget fq d

theorem press_advances (hd : d.IsArrow)
    (hdistinct : (view.scopes.map fun s => s.fq).Nodup) (hfree : view.Free d) :
    Advances (view.press d) (view.along d) (view.scopes.map fun s => s.fq) := by
  suffices h : ∀ s ∈ view.scopes, view.pickTarget s.fq d = s.fq ∨
      ∃ t ∈ view.scopes, t.fq = view.pickTarget s.fq d ∧
        view.along d s.fq < view.along d t.fq by
    constructor
    · intro fq hfq
      obtain ⟨s, hs, rfl⟩ := List.mem_map.mp hfq
      rcases h s hs with hstay | ⟨t, ht, htarget, -⟩
      · show view.pickTarget s.fq d ∈ _
        rw [hstay]
        exact hfq
      · exact List.mem_map.mpr ⟨t, ht, htarget⟩
    · intro fq hfq
      obtain ⟨s, hs, rfl⟩ := List.mem_map.mp hfq
      rcases h s hs with hstay | ⟨t, -, htarget, hlt⟩
      · exact .inl hstay
      · rw [htarget] at hlt
        exact .inr hlt
  intro s hs
  have hbest := pickTarget_best hd hdistinct hs (hfree.override s hs)
  by_cases hstay : view.pickTarget s.fq d = s.fq
  · exact .inl hstay
  · obtain ⟨t, htarget, ht, -⟩ := hbest.minimal hstay
    have hlt := position_lt hd ⟨hfree.width s hs, hfree.width t ht.mem⟩
      ⟨hfree.height s hs, hfree.height t ht.mem⟩ ht.halfPlane
    refine .inr ⟨t, ht.mem, htarget, ?_⟩
    rw [along_of_mem hdistinct hs, along_of_mem hdistinct ht.mem]
    exact hlt

def after (view : IndexedSnapshot) (d : Direction) (fq : FullyQualifiedMoniker) (n : Nat) :
    FullyQualifiedMoniker :=
  (view.press d)^[n] fq

/-- What is seen again was never left, and no more moves are made than there are scopes. -/
structure Settles (view : IndexedSnapshot) (d : Direction) (fq : FullyQualifiedMoniker) :
    Prop where
  no_return : ∀ i j, i < j → view.after d fq i = view.after d fq j →
    ∀ k ≥ i, view.after d fq k = view.after d fq i
  rest : ∀ n ≥ view.scopes.length, view.after d fq n = view.after d fq view.scopes.length

theorem after_settles (hd : d.IsArrow) (hdistinct : (view.scopes.map fun s => s.fq).Nodup)
    (hfree : view.Free d) (hs : s ∈ view.scopes) : view.Settles d s.fq := by
  have hadvances := press_advances hd hdistinct hfree
  have hmem : s.fq ∈ view.scopes.map fun s => s.fq := List.mem_map.mpr ⟨s, hs, rfl⟩
  constructor
  · intro i j hlt heq k hk
    have hrest := Advances.rests (hadvances.rests_of_eq hmem hlt heq) (k - i)
    rwa [show i + (k - i) = k by omega] at hrest
  · intro n hn
    have hlength : (view.scopes.map fun s => s.fq).length ≤ view.scopes.length :=
      (List.length_map _).le
    have hrest := Advances.rests (hadvances.rests_of_length_le hmem hlength)
      (n - view.scopes.length)
    rwa [show view.scopes.length + (n - view.scopes.length) = n by omega] at hrest

theorem pickTarget_best_and_settles (hd : d.IsArrow)
    (hdistinct : (view.scopes.map fun s => s.fq).Nodup) (hfocused : focused ∈ view.scopes)
    (hoverride : focused.navOverride.get? d = none) :
    view.PicksBest focused d (view.pickTarget focused.fq d) ∧
      (view.Free d → view.Settles d focused.fq) :=
  ⟨pickTarget_best hd hdistinct hfocused hoverride,
    fun hfree => after_settles hd hdistinct hfree hfocused⟩

def srcScope : NavScope := ⟨⟨"/L/src", ⟨0, 0, 10, 10⟩, none⟩, IndexMap.empty⟩

def tiedScopes : IndexedSnapshot :=
  ⟨"/L", [srcScope, ⟨⟨"/L/container-cand", ⟨20, 0, 10, 10⟩, none⟩, IndexMap.empty⟩,
    ⟨⟨"/L/container-cand/child", ⟨20, 0, 5, 5⟩, some "/L/container-cand"⟩, IndexMap.empty⟩,
    ⟨⟨"/L/leaf-cand", ⟨20, 0, 10, 10⟩, none⟩, IndexMap.empty⟩]⟩

theorem tiedScopes_free : tiedScopes.Free .right := by
  constructor <;> intro s hs <;>
    simp only [tiedScopes, srcScope, List.mem_cons, List.not_mem_nil, or_false] at hs <;>
    rcases hs with rfl | rfl | rfl | rfl <;> decide

theorem pickTarget_best_and_settles_tied :
    tiedScopes.PicksBest srcScope .right (tiedScopes.pickTarget srcScope.fq .right) ∧
      tiedScopes.Settles .right srcScope.fq ∧
      tiedScopes.pickTarget srcScope.fq .right = "/L/leaf-cand" := by
  have hboth := @pickTarget_best_and_settles tiedScopes srcScope .right (by decide)
    (by decide) (by simp [tiedScopes]) rfl
  exact ⟨hboth.1, hboth.2 tiedScopes_free, by decide +kernel⟩

end IndexedSnapshot

end SwissArmyHammer.Focus
