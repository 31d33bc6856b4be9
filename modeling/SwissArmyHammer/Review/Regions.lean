import Mathlib.Data.List.Sort
import SwissArmyHammer.Review.Render

/-! The regions of a change are the bands around its touched lines, and the view of them prints
those lines and counts the ones between. -/

namespace SwissArmyHammer.Review

section

variable {total i t : Nat} {ts : List Nat} {regions : List (Nat × Nat)}

def Near (ts : List Nat) (i : Nat) : Prop :=
  ∃ t ∈ ts, t ≤ i + diffContextLines ∧ i ≤ t + diffContextLines

instance : Decidable (Near ts i) :=
  inferInstanceAs (Decidable (∃ t ∈ ts, t ≤ i + diffContextLines ∧ i ≤ t + diffContextLines))

/-- The regions after the touched lines `ts`: lines apart, they hold what is near one of them, and
the last is no shorter than the band of the last line. -/
structure Merged (total : Nat) (ts : List Nat) (regions : List (Nat × Nat)) : Prop where
  bounds : ∀ r ∈ regions, 1 ≤ r.1 ∧ r.1 ≤ r.2 ∧ r.2 ≤ total
  apart : regions.Pairwise fun r s => r.2 + 1 < s.1
  covers : ∀ i, (∃ r ∈ regions, r.1 ≤ i ∧ i ≤ r.2) ↔ 1 ≤ i ∧ i ≤ total ∧ Near ts i
  last : ∀ r, regions.getLast? = some r → ∃ t ∈ ts,
    r.1 ≤ max (t - diffContextLines) 1 ∧ r.2 = min (t + diffContextLines) total

theorem near_concat : Near (ts ++ [t]) i ↔
    Near ts i ∨ (t ≤ i + diffContextLines ∧ i ≤ t + diffContextLines) := by
  simp only [Near, List.mem_append, List.mem_singleton, or_and_right, exists_or, exists_eq_left]

theorem mem_band_iff :
    max (t - diffContextLines) 1 ≤ i ∧ i ≤ min (t + diffContextLines) total ↔
      1 ≤ i ∧ i ≤ total ∧ t ≤ i + diffContextLines ∧ i ≤ t + diffContextLines := by
  omega

theorem mem_union_iff {a b start stop : Nat} (hstart : a ≤ start) (hclose : start ≤ b + 1)
    (hstop : b ≤ stop) :
    a ≤ i ∧ i ≤ stop ↔ (a ≤ i ∧ i ≤ b) ∨ (start ≤ i ∧ i ≤ stop) := by
  omega

theorem Merged.push (h : Merged total ts regions) (ht : 1 ≤ t) (hle : t ≤ total)
    (hfar : ∀ r ∈ regions, r.2 + 1 < max (t - diffContextLines) 1) :
    Merged total (ts ++ [t]) (regions ++
      [(max (t - diffContextLines) 1, min (t + diffContextLines) total)]) := by
  refine ⟨fun r hr => ?_, ?_, fun i => ?_, fun r hr => ?_⟩
  · rcases List.mem_append.mp hr with hold | hnew
    · exact h.bounds r hold
    · rw [List.mem_singleton.mp hnew]
      omega
  · rw [List.pairwise_append]
    refine ⟨h.apart, List.pairwise_singleton _ _, fun r hr s hs => ?_⟩
    rw [List.mem_singleton.mp hs]
    exact hfar r hr
  · simp only [List.mem_append, List.mem_singleton, or_and_right, exists_or, exists_eq_left]
    rw [h.covers, near_concat, mem_band_iff]
    simp only [and_or_left]
  · grind

theorem Merged.merge {last : Nat × Nat} (h : Merged total ts (regions ++ [last]))
    (hlater : ∀ t' ∈ ts, t' < t)
    (hclose : max (t - diffContextLines) 1 ≤ last.2 + regionMergeGap) :
    Merged total (ts ++ [t]) (regions ++
      [(last.1, max last.2 (min (t + diffContextLines) total))]) := by
  obtain ⟨t', ht', hstart, hstop⟩ := h.last last List.getLast?_concat
  have hlt := hlater t' ht'
  have hbounds := h.bounds last (List.mem_append_right _ List.mem_cons_self)
  have hmax : max last.2 (min (t + diffContextLines) total) =
      min (t + diffContextLines) total := by omega
  rw [hmax]
  have hapart := List.pairwise_append.mp h.apart
  refine ⟨fun r hr => ?_, ?_, fun i => ?_, fun r hr => ?_⟩
  · rcases List.mem_append.mp hr with hold | hnew
    · exact h.bounds r (List.mem_append_left _ hold)
    · rw [List.mem_singleton.mp hnew]
      omega
  · rw [List.pairwise_append]
    refine ⟨hapart.1, List.pairwise_singleton _ _, fun r hr s hs => ?_⟩
    rw [List.mem_singleton.mp hs]
    exact hapart.2.2 r hr last List.mem_cons_self
  · have hcovers := h.covers i
    simp only [List.mem_append, List.mem_singleton, or_and_right, exists_or,
      exists_eq_left] at hcovers ⊢
    rw [mem_union_iff (by omega) hclose (by omega), ← or_assoc, hcovers, near_concat, mem_band_iff]
    simp only [and_or_left]
  · grind

theorem Merged.addRegion (h : Merged total ts regions) (ht : 1 ≤ t) (hle : t ≤ total)
    (hlater : ∀ t' ∈ ts, t' < t) :
    Merged total (ts ++ [t]) (addRegion total regions t) := by
  rw [Review.addRegion]
  rcases List.eq_nil_or_concat' regions with rfl | ⟨init, last, rfl⟩
  · exact h.push ht hle fun r hr => absurd hr List.not_mem_nil
  · rw [List.getLast?_concat]
    simp only
    by_cases hclose : max (t - diffContextLines) 1 ≤ last.2 + regionMergeGap
    · rw [if_pos hclose, List.dropLast_concat]
      exact h.merge hlater hclose
    · rw [if_neg hclose]
      rw [regionMergeGap] at hclose
      refine h.push ht hle fun r hr => ?_
      rcases List.mem_append.mp hr with hold | hlast
      · have hapart := (List.pairwise_append.mp h.apart).2.2 r hold last List.mem_cons_self
        have hbounds := h.bounds last (List.mem_append_right _ List.mem_cons_self)
        omega
      · rw [List.mem_singleton.mp hlast]
        omega

theorem Merged.foldl (h : Merged total ts regions) (rest : List Nat)
    (hsorted : (ts ++ rest).Pairwise (· < ·)) (hin : ∀ t ∈ rest, 1 ≤ t ∧ t ≤ total) :
    Merged total (ts ++ rest) (rest.foldl (Review.addRegion total) regions) := by
  induction rest generalizing ts regions with
  | nil => rwa [List.append_nil]
  | cons t rest ih =>
    obtain ⟨ht, hle⟩ := hin t List.mem_cons_self
    have hlater : ∀ t' ∈ ts, t' < t := fun t' ht' =>
      (List.pairwise_append.mp hsorted).2.2 t' ht' t List.mem_cons_self
    rw [List.append_cons] at hsorted ⊢
    exact ih (h.addRegion ht hle hlater) hsorted fun t' ht' => hin t' (List.mem_cons_of_mem t ht')

def shown (regions : List (Nat × Nat)) : List Nat :=
  regions.flatMap fun r => List.range' r.1 (r.2 + 1 - r.1)

theorem mem_shown : i ∈ shown regions ↔ ∃ r ∈ regions, r.1 ≤ i ∧ i ≤ r.2 := by
  rw [shown, List.mem_flatMap]
  refine exists_congr fun r => and_congr_right fun _ => ?_
  rw [List.mem_range'_1]
  omega

theorem Merged.shown_eq (h : Merged total ts regions) :
    shown regions = (List.range' 1 total).filter fun i => Near ts i := by
  have hsorted : (shown regions).Pairwise (· < ·) := by
    rw [shown, List.pairwise_flatMap]
    refine ⟨fun r _ => List.pairwise_lt_range', h.apart.imp fun hapart i hi j hj => ?_⟩
    rw [List.mem_range'_1] at hi hj
    omega
  have hrange : (List.range' 1 total).Pairwise (· < ·) := List.pairwise_lt_range'
  refine hsorted.eq_of_mem_iff (hrange.filter _) fun i => ?_
  rw [mem_shown, h.covers, List.mem_filter, List.mem_range'_1, decide_eq_true_iff, ← and_assoc]
  exact and_congr_left fun _ => by omega

end

section

inductive Row
  | line (number : Nat)
  | elided (count : Nat)
  deriving DecidableEq, Repr

def Row.number : Row → Option Nat
  | line number => some number
  | elided _ => none

def Row.count : Row → Nat
  | line _ => 0
  | elided count => count

def elision (through next : Nat) : List Row :=
  if through + 1 < next then [.elided (next - through - 1)] else []

def withElisions (total through : Nat) : List Nat → List Row
  | [] => elision through (total + 1)
  | i :: is => elision through i ++ .line i :: withElisions total i is

def renderRow (lines : List (List Char)) (annotations : List LineAnnotation) : Row → String
  | .line i => renderNumberedLine i (lines.getD (i - 1) []) annotations[i - 1]?
  | .elided count => elisionLine count

variable {total through i : Nat} {is : List Nat}

theorem withElisions_range' (start n : Nat) (rest : List Nat) :
    withElisions total through (List.range' start (n + 1) ++ rest) =
      elision through start ++ (List.range' start (n + 1)).map .line ++
        withElisions total (start + n) rest := by
  induction n generalizing through start with
  | zero => simp [withElisions]
  | succ n ih =>
    have hnone : elision start (start + 1) = [] := if_neg (Nat.lt_irrefl _)
    rw [List.range'_succ, List.cons_append, withElisions, ih, hnone, Nat.add_right_comm start 1 n]
    simp [Nat.add_assoc]

theorem renderRow_elision (lines : List (List Char)) (annotations : List LineAnnotation)
    (through next : Nat) : String.join ((elision through next).map (renderRow lines annotations)) =
      if through + 1 < next then elisionLine (next - through - 1) else "" := by
  rw [elision]
  split
  · simp [renderRow, String.join]
  · rfl

theorem numbers_elision (through next : Nat) : (elision through next).filterMap Row.number = [] := by
  rw [elision]
  split <;> rfl

theorem numbers_withElisions (through : Nat) (is : List Nat) :
    (withElisions total through is).filterMap Row.number = is := by
  induction is generalizing through with
  | nil => exact numbers_elision _ _
  | cons i is ih =>
    have hcons : (Row.line i :: withElisions total i is).filterMap Row.number =
        i :: (withElisions total i is).filterMap Row.number := rfl
    rw [withElisions, List.filterMap_append, numbers_elision, List.nil_append, hcons, ih]

theorem sum_elision {next : Nat} (h : through < next) :
    ((elision through next).map Row.count).sum = next - through - 1 := by
  rw [elision]
  split
  · simp [Row.count]
  · simp only [List.map_nil, List.sum_nil]
    omega

theorem sum_withElisions (hsorted : (through :: is).Pairwise (· < ·))
    (hle : ∀ i ∈ through :: is, i ≤ total) :
    ((withElisions total through is).map Row.count).sum + is.length = total - through := by
  induction is generalizing through with
  | nil =>
    have hthrough := hle through List.mem_cons_self
    rw [withElisions, sum_elision (by omega), List.length_nil]
    omega
  | cons i is ih =>
    obtain ⟨hfirst, hrest⟩ := List.pairwise_cons.mp hsorted
    have hlt := hfirst i List.mem_cons_self
    have hi := hle i (List.mem_cons_of_mem _ List.mem_cons_self)
    have hsum := ih hrest fun j hj => hle j (List.mem_cons_of_mem _ hj)
    rw [withElisions, List.map_append, List.sum_append, List.map_cons, List.sum_cons,
      sum_elision hlt, List.length_cons, Row.count]
    omega

theorem elided_of_withElisions {post : List Row} {a b count : Nat}
    (h : withElisions total a is = .elided count :: .line b :: post) :
    count = b - a - 1 ∧ a + 1 < b ∧ ∃ q, is = b :: q := by
  cases is with
  | nil =>
    rw [withElisions, elision] at h
    split at h <;> simp at h
  | cons i is =>
    rw [withElisions, elision] at h
    split at h
    · rename_i hgap
      obtain ⟨rfl, rfl, -⟩ := h
      exact ⟨rfl, hgap, is, rfl⟩
    · simp at h

theorem consecutive_of_elided {pre post : List Row} {a b count : Nat}
    (h : withElisions total through is = pre ++ .line a :: .elided count :: .line b :: post) :
    count = b - a - 1 ∧ a + 1 < b ∧ ∃ p q, is = p ++ a :: b :: q := by
  induction is generalizing through pre with
  | nil =>
    have hnumbers := congrArg (List.filterMap Row.number) h
    rw [numbers_withElisions] at hnumbers
    simp [List.filterMap_append, Row.number] at hnumbers
  | cons i is ih =>
    have hline : ∀ pre, .line i :: withElisions total i is =
        pre ++ .line a :: .elided count :: .line b :: post →
        count = b - a - 1 ∧ a + 1 < b ∧ ∃ p q, i :: is = p ++ a :: b :: q := by
      intro pre heq
      cases pre with
      | nil =>
        obtain ⟨hi, hrest⟩ := List.cons.inj heq
        obtain rfl := Row.line.inj hi
        obtain ⟨hcount, hlt, q, rfl⟩ := elided_of_withElisions hrest
        exact ⟨hcount, hlt, [], q, rfl⟩
      | cons x pre =>
        obtain ⟨hcount, hlt, p, q, rfl⟩ := ih (List.cons.inj heq).2
        exact ⟨hcount, hlt, i :: p, q, rfl⟩
    rw [withElisions, elision] at h
    split at h
    · cases pre with
      | nil => simp at h
      | cons x pre => exact hline pre (List.cons.inj h).2
    · exact hline pre h

end

section

variable {lines : List (List Char)} {annotations : List LineAnnotation}

theorem foldl_renderRegion (regions : List (Nat × Nat)) (s : String × Nat)
    (hregions : ∀ r ∈ regions, r.1 ≤ r.2) :
    ((regions.foldl (renderRegion lines annotations) s).1 ++
      if (regions.foldl (renderRegion lines annotations) s).2 < lines.length then
        elisionLine (lines.length - (regions.foldl (renderRegion lines annotations) s).2)
      else "") =
      s.1 ++ String.join ((withElisions lines.length s.2 (shown regions)).map
        (renderRow lines annotations)) := by
  induction regions generalizing s with
  | nil =>
    have hnone : shown [] = [] := rfl
    have hcount : lines.length + 1 - s.2 - 1 = lines.length - s.2 := by omega
    rw [List.foldl_nil, hnone, withElisions, renderRow_elision, hcount]
    simp only [Nat.add_lt_add_iff_right]
  | cons r regions ih =>
    have hr := hregions r List.mem_cons_self
    obtain ⟨n, hn⟩ := Nat.exists_eq_add_of_le hr
    have hlen : r.2 + 1 - r.1 = n + 1 := by omega
    have hshown : shown (r :: regions) = List.range' r.1 (n + 1) ++ shown regions := by
      rw [shown, List.flatMap_cons, hlen]
      rfl
    have hprinted : String.join (((List.range' r.1 (n + 1)).map Row.line).map
          (renderRow lines annotations)) =
        String.join ((List.range' r.1 (n + 1)).map fun line =>
          renderNumberedLine line (lines.getD (line - 1) []) annotations[line - 1]?) := by
      rw [List.map_map]
      rfl
    rw [List.foldl_cons, ih _ fun x hx => hregions x (List.mem_cons_of_mem r hx), hshown,
      withElisions_range', ← hn, List.map_append, List.map_append, String.join_append,
      String.join_append, renderRow_elision, hprinted, renderRegion, hlen]
    simp only [String.append_assoc]

theorem renderRegions_eq (regions : List (Nat × Nat)) (hregions : ∀ r ∈ regions, r.1 ≤ r.2) :
    renderRegions lines annotations regions =
      String.join ((withElisions lines.length 0 (shown regions)).map
        (renderRow lines annotations)) := by
  rw [renderRegions, foldl_renderRegion regions ("", 0) hregions, String.empty_append]

def touchedLines (annotations : List LineAnnotation) (totalLines : Nat) : List Nat :=
  ((annotations.take totalLines).zipIdx.filter fun a => a.1.touched).map fun a => a.2 + 1

theorem mem_touchedLines {total t : Nat} : t ∈ touchedLines annotations total ↔
    1 ≤ t ∧ t ≤ total ∧ ∃ a, annotations[t - 1]? = some a ∧ a.touched := by
  simp only [touchedLines, List.mem_map, List.mem_filter, Prod.exists]
  constructor
  · grind
  · intro h
    obtain ⟨hpos, hle, a, ha, htouched⟩ := h
    refine ⟨a, t - 1, ⟨?_, htouched⟩, by omega⟩
    rw [List.mem_zipIdx_iff_getElem?, List.getElem?_take, if_pos (by omega)]
    exact ha

theorem pairwise_touchedLines (total : Nat) :
    (touchedLines annotations total).Pairwise (· < ·) := by
  have hidx : (annotations.take total).zipIdx.Pairwise fun a b => a.2 < b.2 := by
    have hrange : ((annotations.take total).zipIdx.map Prod.snd).Pairwise (· < ·) := by
      rw [List.zipIdx_map_snd]
      exact List.pairwise_lt_range'
    exact List.pairwise_map.mp hrange
  exact List.pairwise_map.mpr ((hidx.filter _).imp fun h => Nat.succ_lt_succ h)

theorem merged_changedRegions (annotations : List LineAnnotation) (total : Nat) :
    Merged total (touchedLines annotations total) (changedRegions annotations total) := by
  have hstart : Merged total [] [] :=
    ⟨fun _ hr => absurd hr List.not_mem_nil, List.Pairwise.nil, fun i => by simp [Near],
      fun _ hr => nomatch hr⟩
  have hall := hstart.foldl (touchedLines annotations total)
    (pairwise_touchedLines total) fun t ht =>
      ⟨(mem_touchedLines.mp ht).1, (mem_touchedLines.mp ht).2.1⟩
  rwa [List.nil_append, touchedLines, List.foldl_map] at hall

def changedRows (annotations : List LineAnnotation) (total : Nat) : List Row :=
  withElisions total 0 (shown (changedRegions annotations total))

theorem numbers_changedRows (annotations : List LineAnnotation) (total : Nat) :
    (changedRows annotations total).filterMap Row.number =
      (List.range' 1 total).filter fun i => Near (touchedLines annotations total) i := by
  rw [changedRows, numbers_withElisions, (merged_changedRegions annotations total).shown_eq]

theorem renderNumberedLines_changed (source : String)
    (hlines : lines = Text.lines (Text.trimEnd source.toList))
    (htouched : touchedLines annotations lines.length ≠ []) :
    renderNumberedLines source annotations .changedRegions =
      lineFormatLegend ++ "```\n" ++ String.join ((changedRows annotations lines.length).map
        (renderRow lines annotations)) ++ "```\n\n" := by
  obtain ⟨t, ht⟩ := List.exists_mem_of_ne_nil _ htouched
  obtain ⟨hpos, hle, -⟩ := mem_touchedLines.mp ht
  have hmerged := merged_changedRegions annotations lines.length
  have hsource : Text.trimEnd source.toList ≠ [] := by
    intro hempty
    rw [hlines, hempty] at hle
    have hzero : (Text.lines []).length = 0 := rfl
    omega
  have hregions : changedRegions annotations lines.length ≠ [] := by
    intro hempty
    have hnear : Near (touchedLines annotations lines.length) t :=
      ⟨t, ht, Nat.le_add_right _ _, Nat.le_add_right _ _⟩
    obtain ⟨r, hr, -⟩ := (hmerged.covers t).mpr ⟨hpos, hle, hnear⟩
    rw [hempty] at hr
    cases hr
  have hview : SourceView.changedRegions.regions annotations lines.length =
      changedRegions annotations lines.length := rfl
  rw [renderNumberedLines, if_neg hsource]
  rw [← hlines, if_neg (hview.symm ▸ hregions), hview,
    renderRegions_eq _ fun r hr => (hmerged.bounds r hr).2.1, changedRows]

end

section

variable {ts : List Nat} {total i : Nat}

def SmallGap (ts : List Nat) (i : Nat) : Prop := ¬ Near ts i ∧ Near ts (i - 1) ∧ Near ts (i + 1)

instance : Decidable (SmallGap ts i) :=
  inferInstanceAs (Decidable (¬ Near ts i ∧ Near ts (i - 1) ∧ Near ts (i + 1)))

def AlmostMeet (ts : List Nat) (t : Nat) : Prop :=
  t ∈ ts ∧ t + 2 * diffContextLines + 2 ∈ ts ∧
    ∀ s ∈ ts, ¬ (t < s ∧ s < t + 2 * diffContextLines + 2)

theorem smallGap_iff (hi : 1 ≤ i) (hpos : ∀ t ∈ ts, 1 ≤ t) :
    SmallGap ts i ↔ ∃ t, i = t + diffContextLines + 1 ∧ AlmostMeet ts t := by
  constructor
  · intro h
    obtain ⟨hfar, ⟨t, ht, hbefore⟩, u, hu, hafter⟩ := h
    have hnot : ∀ s ∈ ts, ¬ (s ≤ i + diffContextLines ∧ i ≤ s + diffContextLines) :=
      fun s hs hnear => hfar ⟨s, hs, hnear⟩
    have ht' := hnot t ht
    have hu' := hnot u hu
    have htpos := hpos t ht
    obtain rfl : i = t + diffContextLines + 1 := by omega
    obtain rfl : u = t + 2 * diffContextLines + 2 := by omega
    refine ⟨t, rfl, ht, hu, fun s hs hbetween => hnot s hs ?_⟩
    omega
  · intro h
    obtain ⟨t, rfl, ht, hu, hbetween⟩ := h
    refine ⟨fun hnear => ?_, ⟨t, ht, by omega⟩, _, hu, by omega⟩
    obtain ⟨s, hs, hnear⟩ := hnear
    exact hbetween s hs (by omega)

/-- What the view of a change promises: the lines near a change and the gaps too small to elide,
a count wherever printed lines are not consecutive, the counts of all that is left out, and none
of them for one line between two regions. -/
structure ShowsChange (ts : List Nat) (total : Nat) (rows : List Row) : Prop where
  printed : rows.filterMap Row.number =
    (List.range' 1 total).filter fun i => Near ts i ∨ SmallGap ts i
  elisions : rows = withElisions total 0 (rows.filterMap Row.number)
  counts : (rows.map Row.count).sum + (rows.filterMap Row.number).length = total
  noSingle : ∀ pre a count b post,
    rows = pre ++ .line a :: .elided count :: .line b :: post → count ≠ 1

theorem sum_changedRows (annotations : List LineAnnotation) (total : Nat) :
    ((changedRows annotations total).map Row.count).sum +
      ((changedRows annotations total).filterMap Row.number).length = total := by
  have hmerged := merged_changedRegions annotations total
  have hin : ∀ i ∈ shown (changedRegions annotations total), 1 ≤ i ∧ i ≤ total := by
    intro i hi
    rw [mem_shown, hmerged.covers] at hi
    exact ⟨hi.1, hi.2.1⟩
  have hsorted : (shown (changedRegions annotations total)).Pairwise (· < ·) := by
    rw [hmerged.shown_eq]
    exact List.Pairwise.filter _ List.pairwise_lt_range'
  rw [changedRows, numbers_withElisions,
    sum_withElisions (List.pairwise_cons.mpr ⟨fun i hi => (hin i hi).1, hsorted⟩) ?_, Nat.sub_zero]
  intro i hi
  rcases List.mem_cons.mp hi with rfl | hi
  · exact Nat.zero_le _
  · exact (hin i hi).2

theorem near_of_line {annotations : List LineAnnotation}
    (h : Row.line i ∈ changedRows annotations total) :
    1 ≤ i ∧ i ≤ total ∧ Near (touchedLines annotations total) i := by
  have hmem : i ∈ (changedRows annotations total).filterMap Row.number :=
    List.mem_filterMap.mpr ⟨_, h, rfl⟩
  rw [numbers_changedRows, List.mem_filter, List.mem_range'_1, decide_eq_true_iff] at hmem
  exact ⟨hmem.1.1, by omega, hmem.2⟩

theorem showsChange_iff (annotations : List LineAnnotation) (total : Nat) :
    ShowsChange (touchedLines annotations total) total (changedRows annotations total) ↔
      ∀ t, ¬ AlmostMeet (touchedLines annotations total) t := by
  have hnumbers := numbers_changedRows annotations total
  have hpos : ∀ t ∈ touchedLines annotations total, 1 ≤ t := fun t ht => (mem_touchedLines.mp ht).1
  constructor
  · -- the line between the two bands is one that the promise has printed
    intro h t hmeet
    have hgap := (smallGap_iff (by omega) hpos).mpr ⟨t, rfl, hmeet⟩
    have hle := (mem_touchedLines.mp hmeet.2.1).2.1
    have hprinted := h.printed
    rw [hnumbers] at hprinted
    have hmem : t + diffContextLines + 1 ∈ (List.range' 1 total).filter fun i =>
        Near (touchedLines annotations total) i ∨ SmallGap (touchedLines annotations total) i :=
      List.mem_filter.mpr ⟨List.mem_range'_1.mpr (by omega), decide_eq_true (.inr hgap)⟩
    rw [← hprinted, List.mem_filter, decide_eq_true_iff] at hmem
    exact hgap.1 hmem.2
  · intro h
    have hnone : ∀ i, 1 ≤ i → ¬ SmallGap (touchedLines annotations total) i := by
      intro i hi hgap
      obtain ⟨t, -, hmeet⟩ := (smallGap_iff hi hpos).mp hgap
      exact h t hmeet
    refine ⟨?_, ?_, sum_changedRows annotations total, fun pre a count b post heq hone => ?_⟩
    · rw [hnumbers]
      refine List.filter_congr fun i hi => decide_eq_decide.mpr ?_
      exact (or_iff_left (hnone i (List.mem_range'_1.mp hi).1)).symm
    · rw [changedRows, numbers_withElisions]
    · have ha := near_of_line (heq ▸ by simp : Row.line a ∈ changedRows annotations total)
      have hb := near_of_line (heq ▸ by simp : Row.line b ∈ changedRows annotations total)
      obtain ⟨hcount, hlt, p, q, hconsecutive⟩ := consecutive_of_elided heq
      obtain rfl : b = a + 2 := by omega
      -- the line between is not printed, since the printed lines around it are consecutive
      refine hnone (a + 1) (by omega) ⟨fun hnear => ?_, ha.2.2, hb.2.2⟩
      have hmem : a + 1 ∈ shown (changedRegions annotations total) := by
        rw [(merged_changedRegions annotations total).shown_eq, List.mem_filter,
          List.mem_range'_1, decide_eq_true_iff]
        exact ⟨by omega, hnear⟩
      have hsorted : (shown (changedRegions annotations total)).Pairwise (· < ·) := by
        rw [(merged_changedRegions annotations total).shown_eq]
        exact List.Pairwise.filter _ List.pairwise_lt_range'
      rw [hconsecutive] at hmem hsorted
      obtain ⟨-, hrest, hbefore⟩ := List.pairwise_append.mp hsorted
      obtain ⟨hfirst, hrest⟩ := List.pairwise_cons.mp hrest
      obtain ⟨hsecond, -⟩ := List.pairwise_cons.mp hrest
      rcases List.mem_append.mp hmem with hp | hp
      · have := hbefore _ hp a List.mem_cons_self
        omega
      · grind

/-- The view of a change: its rows, each with the text, the mark and the number of its line, keep
the promise unless two changes almost meet. -/
theorem renderNumberedLines_showsChange_iff (source : String) (annotations : List LineAnnotation)
    (lines : List (List Char)) (hlines : lines = Text.lines (Text.trimEnd source.toList))
    (hlen : annotations.length = lines.length) (htouched : ∃ a ∈ annotations, a.touched) :
    renderNumberedLines source annotations .changedRegions =
        lineFormatLegend ++ "```\n" ++ String.join ((changedRows annotations lines.length).map
          (renderRow lines annotations)) ++ "```\n\n" ∧
      (∀ i, .line i ∈ changedRows annotations lines.length →
        ∃ text annotation, 1 ≤ i ∧ lines[i - 1]? = some text ∧
          annotations[i - 1]? = some annotation ∧
          renderRow lines annotations (.line i) = renderNumberedLine i text (some annotation)) ∧
      (ShowsChange (touchedLines annotations lines.length) lines.length
          (changedRows annotations lines.length) ↔
        ∀ t, ¬ AlmostMeet (touchedLines annotations lines.length) t) := by
  refine ⟨renderNumberedLines_changed source hlines ?_, fun i hi => ?_,
    showsChange_iff annotations lines.length⟩
  · obtain ⟨a, ha, hmark⟩ := htouched
    obtain ⟨j, hj, rfl⟩ := List.getElem_of_mem ha
    refine List.ne_nil_of_mem (a := j + 1) (mem_touchedLines.mpr ⟨by omega, by omega, _, ?_, hmark⟩)
    rw [Nat.add_sub_cancel, List.getElem?_eq_getElem hj]
  · obtain ⟨hpos, hle, -⟩ := near_of_line hi
    have hline : i - 1 < lines.length := by omega
    have hannotation : i - 1 < annotations.length := by omega
    refine ⟨lines[i - 1], annotations[i - 1], hpos, List.getElem?_eq_getElem hline,
      List.getElem?_eq_getElem hannotation, ?_⟩
    rw [renderRow, List.getD_eq_getElem?_getD, List.getElem?_eq_getElem hline,
      List.getElem?_eq_getElem hannotation, Option.getD_some]

theorem renderNumberedLines_showsChange_iff_one :
    let touched : LineAnnotation := ⟨"worktree", true⟩
    let kept : LineAnnotation := ⟨"abcdef01", false⟩
    ShowsChange [2] 3 (changedRows [kept, touched, kept] 3) :=
  (renderNumberedLines_showsChange_iff "a\nb\nc\n" [⟨"abcdef01", false⟩, ⟨"worktree", true⟩,
    ⟨"abcdef01", false⟩] [['a'], ['b'], ['c']] (by decide) rfl (by decide)).2.2.mpr
      fun t ht => by
        have hfirst := List.mem_singleton.mp ht.1
        have hsecond := List.mem_singleton.mp ht.2.1
        omega

theorem one_line_elided : ∃ (source : String) (annotations : List LineAnnotation),
    annotations.length = (Text.lines (Text.trimEnd source.toList)).length ∧
      (∃ a ∈ annotations, a.touched) ∧
      ¬ ShowsChange (touchedLines annotations annotations.length) annotations.length
        (changedRows annotations annotations.length) := by
  refine ⟨String.ofList (List.replicate 43 ['x', '\n']).flatten,
    ⟨"worktree", true⟩ :: List.replicate 41 ⟨"abcdef01", false⟩ ++ [⟨"worktree", true⟩],
    ?_, ?_, fun h => ?_⟩
  · rw [String.toList_ofList]
    rfl
  · exact ⟨_, List.mem_cons_self, rfl⟩
  · exact h.noSingle ((List.range' 1 20).map .line) 21 1 23 ((List.range' 24 20).map .line) rfl rfl

end

end SwissArmyHammer.Review
