import Mathlib.Data.List.GetD
import Mathlib.Data.List.Perm.Subperm
import Mathlib.Data.List.Sort
import SwissArmyHammer.Common.IndexMap
import SwissArmyHammer.Common.Subsequence

/-! The search for near-duplicate definitions: equal streams are grouped, the groups are compared
within a band of lengths, and each definition keeps the closest one before it. -/

namespace SwissArmyHammer.CodeContext.Duplication

def minimumSimilarityPercent : Nat := 90

def maximumComparedShapes : Nat := 1024

def percentScale : Nat := 100

def sides : Nat := 2

structure Candidate where
  source : Nat
  definition : Nat
  language : String
  symbols : List Nat
  sorted : List Nat
  sorted_perm : sorted.Perm symbols
  sorted_le : sorted.Pairwise (· ≤ ·)

structure Match where
  partner : Nat
  similarity : Nat
  deriving DecidableEq, Repr

def Candidate.key (c : Candidate) : String × List Nat := (c.language, c.symbols)

def ratioPercent (common left right : Nat) : Nat :=
  if left + right = 0 then 0 else percentScale * sides * common / (left + right)

structure Shapes where
  seen : IndexMap (String × List Nat) Nat
  ofCandidate : List Nat
  first : List Nat

def Shapes.add (shapes : Shapes) (c : Candidate × Nat) : Shapes :=
  match shapes.seen.get? c.1.key with
  | some shape => { shapes with ofCandidate := shapes.ofCandidate ++ [shape] }
  | none =>
    ⟨shapes.seen.insert c.1.key shapes.first.length, shapes.ofCandidate ++ [shapes.first.length],
      shapes.first ++ [c.2]⟩

def Shapes.of (candidates : List Candidate) : Shapes :=
  candidates.zipIdx.foldl Shapes.add ⟨.empty, [], []⟩

def Shapes.firstOf (shapes : Shapes) (candidate : Nat) : Nat :=
  shapes.first.getD (shapes.ofCandidate.getD candidate 0) 0

def Shapes.repeated (shapes : Shapes) (candidate : Nat) : Option Match :=
  if shapes.firstOf candidate < candidate then some ⟨shapes.firstOf candidate, percentScale⟩
  else none

section

def lengthsCanReach (left right : Candidate) : Bool :=
  minimumSimilarityPercent ≤ ratioPercent (min left.symbols.length right.symbols.length)
    left.symbols.length right.symbols.length

def similarityOf (left right : Candidate) : Option Nat :=
  if left.language ≠ right.language then none
  else if ratioPercent (sharedTokens left.sorted right.sorted) left.symbols.length
      right.symbols.length < minimumSimilarityPercent then none
  else
    let similarity := ratioPercent (longestCommonSubsequence left.symbols right.symbols)
      left.symbols.length right.symbols.length
    if minimumSimilarityPercent ≤ similarity then some similarity else none

def keepBest (best : List (Option Match)) (left right similarity : Nat) : List (Option Match) :=
  let (partner, copy) := if left < right then (left, right) else (right, left)
  let closer := (best.getD copy none).all fun found => found.similarity < similarity
  if closer then best.set copy (some ⟨partner, similarity⟩) else best

variable (candidates : List Candidate)

def scanLater (left : Nat) : List Nat → List (Option Match) → List (Option Match)
  | [], best => best
  | right :: rest, best =>
    match candidates[left]?, candidates[right]? with
    | some l, some r =>
      if !lengthsCanReach l r then best
      else
        scanLater left rest
          (match similarityOf l r with
          | some similarity => keepBest best left right similarity
          | none => best)
    | _, _ => best

def scanOrder (maximum : Nat) : List Nat → List (Option Match) → List (Option Match)
  | [], best => best
  | left :: later, best =>
    scanOrder maximum later (scanLater candidates left (later.take maximum) best)

def lengthOf (candidate : Nat) : Nat := candidates[candidate]?.elim 0 fun c => c.symbols.length

def bandOrder (shapes : Shapes) : List Nat :=
  ((List.range shapes.first.length).insertionSort fun a b =>
    lengthOf candidates (shapes.first.getD a 0) ≤ lengthOf candidates (shapes.first.getD b 0)).map
      fun shape => shapes.first.getD shape 0

def scanBands (shapes : Shapes) (maximum : Nat) (best : List (Option Match)) :
    List (Option Match) :=
  scanOrder candidates maximum (bandOrder candidates shapes) best

def bestPartners : List (Option Match) :=
  let shapes := Shapes.of candidates
  scanBands candidates shapes maximumComparedShapes
    ((List.range candidates.length).map shapes.repeated)

end

section

variable {l r : Candidate} {common common' left right longer : Nat}

theorem ratioPercent_mono (h : common ≤ common') :
    ratioPercent common left right ≤ ratioPercent common' left right := by
  rw [ratioPercent, ratioPercent]
  split
  · exact Nat.le_refl 0
  · exact Nat.div_le_div_right (Nat.mul_le_mul_left _ h)

theorem ratioPercent_of_longer (h : right ≤ longer)
    (hreach : minimumSimilarityPercent ≤ ratioPercent left left longer) :
    minimumSimilarityPercent ≤ ratioPercent left left right := by
  rw [ratioPercent] at hreach ⊢
  split at hreach
  · exact absurd hreach (by decide)
  · have hleft : left ≠ 0 := by
      rintro rfl
      rw [Nat.mul_zero, Nat.zero_div] at hreach
      exact absurd hreach (by decide)
    rw [if_neg (by omega)]
    exact hreach.trans (Nat.div_le_div_left (Nat.add_le_add_left h left) (by omega))

theorem ratioPercent_le (hleft : common ≤ left) (hright : common ≤ right) :
    ratioPercent common left right ≤ percentScale := by
  rw [ratioPercent]
  split
  · exact Nat.zero_le _
  · refine Nat.div_le_of_le_mul ?_
    have hboth : sides * common ≤ left + right := by
      rw [sides]
      omega
    rw [Nat.mul_assoc, Nat.mul_comm (left + right)]
    exact Nat.mul_le_mul_left percentScale hboth

theorem ratioPercent_self (h : left ≠ 0) : ratioPercent left left left = percentScale := by
  have hboth : percentScale * sides * left = percentScale * (left + left) := by
    rw [sides, Nat.mul_assoc, Nat.two_mul]
  rw [ratioPercent, if_neg (by omega), hboth, Nat.mul_div_cancel _ (by omega)]

def ratio (l r : Candidate) : Nat :=
  ratioPercent (longestCommonSubsequence l.symbols r.symbols) l.symbols.length r.symbols.length

theorem ratio_comm (l r : Candidate) : ratio l r = ratio r l := by
  rw [ratio, ratio, longestCommonSubsequence_comm, ratioPercent, ratioPercent,
    Nat.add_comm l.symbols.length]

theorem ratio_le (l r : Candidate) : ratio l r ≤ percentScale :=
  ratioPercent_le (longestCommonSubsequence_le_left _ _) (longestCommonSubsequence_le_right _ _)

theorem ratio_of_same (h : l.symbols = r.symbols) (hne : r.symbols ≠ []) :
    ratio l r = percentScale := by
  rw [ratio, h, longestCommonSubsequence_self]
  exact ratioPercent_self fun hzero => hne (List.length_eq_zero_iff.mp hzero)

theorem similarityOf_eq_some {similarity : Nat} :
    lengthsCanReach l r = true ∧ similarityOf l r = some similarity ↔
      l.language = r.language ∧ minimumSimilarityPercent ≤ ratio l r ∧ similarity = ratio l r := by
  have hshared : ratio l r ≤ ratioPercent (sharedTokens l.sorted r.sorted) l.symbols.length
      r.symbols.length :=
    ratioPercent_mono (longestCommonSubsequence_le_sharedTokens l.sorted_perm r.sorted_perm
      l.sorted_le r.sorted_le)
  have hlengths : ratio l r ≤ ratioPercent (min l.symbols.length r.symbols.length)
      l.symbols.length r.symbols.length :=
    ratioPercent_mono (le_min (longestCommonSubsequence_le_left _ _)
      (longestCommonSubsequence_le_right _ _))
  rw [lengthsCanReach, decide_eq_true_iff, similarityOf]
  by_cases hlanguage : l.language = r.language
  · rw [if_neg (not_not_intro hlanguage)]
    by_cases hreach : minimumSimilarityPercent ≤ ratio l r
    · have hbound := hreach.trans hshared
      have hratio : minimumSimilarityPercent ≤ ratioPercent
          (longestCommonSubsequence l.symbols r.symbols) l.symbols.length r.symbols.length := hreach
      rw [if_neg (not_lt_of_ge hbound)]
      rw [if_pos hratio, Option.some.injEq]
      exact ⟨fun h => ⟨hlanguage, hreach, h.2.symm⟩, fun h => ⟨hreach.trans hlengths, h.2.2.symm⟩⟩
    · have hratio : ¬ minimumSimilarityPercent ≤ ratioPercent
          (longestCommonSubsequence l.symbols r.symbols) l.symbols.length r.symbols.length := hreach
      rw [if_neg hratio, ite_self]
      exact ⟨fun h => (by cases h.2), fun h => absurd h.2.1 hreach⟩
  · rw [if_pos hlanguage]
    exact ⟨fun h => (by cases h.2), fun h => absurd h.1 hlanguage⟩

end

section

structure Offer where
  partner : Nat
  copy : Nat
  similarity : Nat

def Offer.of (left right similarity : Nat) : Offer :=
  ⟨min left right, max left right, similarity⟩

def Offer.keep (best : List (Option Match)) (offer : Offer) : List (Option Match) :=
  if (best.getD offer.copy none).all fun found => found.similarity < offer.similarity then
    best.set offer.copy (some ⟨offer.partner, offer.similarity⟩)
  else best

theorem keepBest_eq (best : List (Option Match)) (left right similarity : Nat) :
    keepBest best left right similarity = (Offer.of left right similarity).keep best := by
  rw [keepBest, Offer.of, Offer.keep]
  by_cases hlt : left < right
  · rw [if_pos hlt, min_eq_left hlt.le, max_eq_right hlt.le]
  · rw [if_neg hlt, min_eq_right (not_lt.mp hlt), max_eq_left (not_lt.mp hlt)]

structure Kept (i : Nat) (before : Option Match) (offers : List Offer) (after : Option Match) :
    Prop where
  origin : ∀ m, after = some m → before = some m ∨
    ∃ offer ∈ offers, offer.copy = i ∧ m = ⟨offer.partner, offer.similarity⟩
  closer : ∀ m, before = some m → ∃ m', after = some m' ∧ m.similarity ≤ m'.similarity
  closest : ∀ offer ∈ offers, offer.copy = i →
    ∃ m, after = some m ∧ offer.similarity ≤ m.similarity

variable {i : Nat} {best : List (Option Match)} {offers : List Offer}

theorem kept_keep (offer : Offer) (hi : i < best.length) :
    Kept i (best.getD i none) [offer] ((offer.keep best).getD i none) := by
  have hget : ∀ m, (best.set i m).getD i none = m := fun m => by
    rw [List.getD_eq_getElem?_getD, List.getElem?_set_self hi, Option.getD_some]
  rw [Offer.keep]
  by_cases hcopy : offer.copy = i
  · rw [hcopy]
    split
    · rename_i hcloser
      rw [hget]
      refine ⟨fun m hm => .inr ⟨offer, List.mem_cons_self, hcopy, (Option.some.inj hm).symm⟩,
        fun m hm => ⟨_, rfl, ?_⟩, fun other hother _ => ⟨_, rfl, ?_⟩⟩
      · rw [hm, Option.all_some, decide_eq_true_iff] at hcloser
        exact hcloser.le
      · rw [List.mem_singleton.mp hother]
    · rename_i hcloser
      refine ⟨fun m hm => .inl hm, fun m hm => ⟨m, hm, Nat.le_refl _⟩, fun other hother _ => ?_⟩
      rw [List.mem_singleton.mp hother]
      cases hbefore : best.getD i none with
      | none => exact absurd (by rw [hbefore]; rfl) hcloser
      | some found =>
        rw [hbefore, Option.all_some, decide_eq_true_iff] at hcloser
        exact ⟨found, rfl, Nat.le_of_not_lt hcloser⟩
  · have hsame : ∀ m, (best.set offer.copy m).getD i none = best.getD i none := fun m => by
      rw [List.getD_eq_getElem?_getD, List.getElem?_set_ne hcopy, List.getD_eq_getElem?_getD]
    refine ⟨fun m hm => .inl ?_, fun m hm => ⟨m, ?_, Nat.le_refl _⟩, fun other hother heq => ?_⟩
    · split at hm
      · rwa [hsame] at hm
      · exact hm
    · split
      · rwa [hsame]
      · exact hm
    · rw [List.mem_singleton.mp hother] at heq
      exact absurd heq hcopy

theorem length_keep (offer : Offer) : (offer.keep best).length = best.length := by
  rw [Offer.keep]
  split
  · exact List.length_set
  · rfl

theorem length_foldl_keep : (offers.foldl Offer.keep best).length = best.length := by
  induction offers generalizing best with
  | nil => rfl
  | cons offer offers ih => rw [List.foldl_cons, ih, length_keep]

theorem kept_foldl (hi : i < best.length) :
    Kept i (best.getD i none) offers ((offers.foldl Offer.keep best).getD i none) := by
  induction offers generalizing best with
  | nil =>
    exact ⟨fun m hm => .inl hm, fun m hm => ⟨m, hm, Nat.le_refl _⟩,
      fun _ hoffer => absurd hoffer List.not_mem_nil⟩
  | cons offer offers ih =>
    have hstep := kept_keep offer hi
    have hi' : i < (offer.keep best).length := by rwa [length_keep]
    have hrest := ih hi'
    refine ⟨fun m hm => ?_, fun m hm => ?_, fun other hother hcopy => ?_⟩
    · rcases hrest.origin m hm with hm | ⟨other, hother, heq⟩
      · rcases hstep.origin m hm with hm | ⟨other, hother, heq⟩
        · exact .inl hm
        · rw [List.mem_singleton.mp hother] at heq
          exact .inr ⟨offer, List.mem_cons_self, heq⟩
      · exact .inr ⟨other, List.mem_cons_of_mem _ hother, heq⟩
    · obtain ⟨m', hm', hle⟩ := hstep.closer m hm
      obtain ⟨m'', hm'', hle'⟩ := hrest.closer m' hm'
      exact ⟨m'', hm'', hle.trans hle'⟩
    · rcases List.mem_cons.mp hother with rfl | hother
      · obtain ⟨m, hm, hle⟩ := hstep.closest other List.mem_cons_self hcopy
        obtain ⟨m', hm', hle'⟩ := hrest.closer m hm
        exact ⟨m', hm', hle.trans hle'⟩
      · exact hrest.closest other hother hcopy

end

section

variable {α : Type} {p : α → Bool} {n : Nat}

theorem takeWhile_take_eq_filter (xs : List α) (hlast : xs.Pairwise fun a b => p b → p a)
    (hlen : (xs.filter p).length ≤ n) : (xs.take n).takeWhile p = xs.filter p := by
  induction xs generalizing n with
  | nil => simp
  | cons x xs ih =>
    obtain ⟨hx, hxs⟩ := List.pairwise_cons.mp hlast
    by_cases hp : p x = true
    · rw [List.filter_cons_of_pos hp, List.length_cons] at hlen
      obtain ⟨k, rfl⟩ : ∃ k, n = k + 1 := ⟨n - 1, by omega⟩
      rw [List.take_succ_cons, List.takeWhile_cons_of_pos hp, List.filter_cons_of_pos hp,
        ih hxs (by omega)]
    · have hnone : xs.filter p = [] :=
        List.filter_eq_nil_iff.mpr fun y hy hpy => hp (hx y hy hpy)
      rw [List.filter_cons_of_neg hp, hnone]
      cases n with
      | zero => rfl
      | succ n => rw [List.take_succ_cons, List.takeWhile_cons_of_neg hp]

end

section

variable {candidates : List Candidate} {maximum left right : Nat}

def reaches (candidates : List Candidate) (left right : Nat) : Bool :=
  match candidates[left]?, candidates[right]? with
  | some l, some r => lengthsCanReach l r
  | _, _ => false

def similarityAt (candidates : List Candidate) (left right : Nat) : Option Nat :=
  match candidates[left]?, candidates[right]? with
  | some l, some r => similarityOf l r
  | _, _ => none

def offersOf (candidates : List Candidate) (maximum : Nat) : List Nat → List Offer
  | [] => []
  | left :: later =>
    (((later.take maximum).takeWhile (reaches candidates left)).filterMap fun right =>
      (similarityAt candidates left right).map (Offer.of left right)) ++
        offersOf candidates maximum later

theorem scanLater_eq (rights : List Nat) (best : List (Option Match)) :
    scanLater candidates left rights best =
      ((rights.takeWhile (reaches candidates left)).filterMap fun right =>
        (similarityAt candidates left right).map (Offer.of left right)).foldl Offer.keep best := by
  induction rights generalizing best with
  | nil => rfl
  | cons right rest ih =>
    rw [scanLater]
    cases hl : candidates[left]? with
    | none =>
      have hstop : reaches candidates left right = false := by simp only [reaches, hl]
      rw [List.takeWhile_cons_of_neg (by simp [hstop])]
      rfl
    | some l =>
      cases hr : candidates[right]? with
      | none =>
        have hstop : reaches candidates left right = false := by simp only [reaches, hl, hr]
        rw [List.takeWhile_cons_of_neg (by simp [hstop])]
        rfl
      | some r =>
        have hreaches : reaches candidates left right = lengthsCanReach l r := by
          simp only [reaches, hl, hr]
        have hat : similarityAt candidates left right = similarityOf l r := by
          simp only [similarityAt, hl, hr]
        simp only
        by_cases hreach : lengthsCanReach l r = true
        · rw [List.takeWhile_cons_of_pos (hreaches.trans hreach), hreach, Bool.not_true,
            if_neg Bool.false_ne_true, ih, List.filterMap_cons, hat]
          cases similarityOf l r with
          | none => rfl
          | some similarity =>
            simp only [Option.map_some, List.foldl_cons]
            rw [keepBest_eq]
        · rw [List.takeWhile_cons_of_neg (by rwa [hreaches])]
          rw [Bool.not_eq_true] at hreach
          rw [hreach, Bool.not_false]
          rfl

theorem scanOrder_eq (order : List Nat) (best : List (Option Match)) :
    scanOrder candidates maximum order best =
      (offersOf candidates maximum order).foldl Offer.keep best := by
  induction order generalizing best with
  | nil => rfl
  | cons left later ih => rw [scanOrder, ih, scanLater_eq, offersOf, List.foldl_append]

structure Banded (candidates : List Candidate) (maximum : Nat) (order : List Nat) : Prop where
  sorted : order.Pairwise fun a b => lengthOf candidates a ≤ lengthOf candidates b
  narrow : ∀ pre left post, order = pre ++ left :: post →
    (post.filter (reaches candidates left)).length ≤ maximum

theorem Banded.tail {later : List Nat} (h : Banded candidates maximum (left :: later)) :
    Banded candidates maximum later :=
  ⟨h.sorted.tail, fun pre other post heq => h.narrow (left :: pre) other post (by rw [heq]; rfl)⟩

theorem reaches_of_longer {longer : Nat} (hin : ∃ c, candidates[right]? = some c)
    (hleft : lengthOf candidates left ≤ lengthOf candidates right)
    (hright : lengthOf candidates right ≤ lengthOf candidates longer)
    (h : reaches candidates left longer) : reaches candidates left right := by
  obtain ⟨c, hc⟩ := hin
  cases hl : candidates[left]? with
  | none => simp [reaches, hl] at h
  | some l =>
    cases hlonger : candidates[longer]? with
    | none => simp [reaches, hl, hlonger] at h
    | some d =>
      simp only [reaches, hl, hc, hlonger, lengthsCanReach, decide_eq_true_iff] at h ⊢
      simp only [lengthOf, hl, hc, hlonger, Option.elim_some] at hleft hright
      rw [min_eq_left (hleft.trans hright)] at h
      rw [min_eq_left hleft]
      exact ratioPercent_of_longer hright h

theorem mem_offersOf {order : List Nat} (h : Banded candidates maximum order)
    (hin : ∀ i ∈ order, ∃ c, candidates[i]? = some c) {offer : Offer} :
    offer ∈ offersOf candidates maximum order ↔ ∃ pre left post right similarity,
      order = pre ++ left :: post ∧ right ∈ post ∧ reaches candidates left right ∧
        similarityAt candidates left right = some similarity ∧
        offer = Offer.of left right similarity := by
  induction order with
  | nil => simp [offersOf]
  | cons left later ih =>
    obtain ⟨hleft, hlater⟩ := List.pairwise_cons.mp h.sorted
    have hband : (later.take maximum).takeWhile (reaches candidates left) =
        later.filter (reaches candidates left) := by
      refine takeWhile_take_eq_filter later ?_ (h.narrow [] left later rfl)
      refine hlater.imp_of_mem fun {a b} ha _ hab hreach => ?_
      exact reaches_of_longer (hin a (List.mem_cons_of_mem _ ha)) (hleft a ha) hab hreach
    rw [offersOf, List.mem_append, hband, List.mem_filterMap,
      ih h.tail fun i hi => hin i (List.mem_cons_of_mem _ hi)]
    constructor
    · rintro (⟨right, hright, hoffer⟩ | ⟨pre, l, post, right, similarity, rfl, hrest⟩)
      · obtain ⟨hmem, hreach⟩ := List.mem_filter.mp hright
        obtain ⟨similarity, hsimilarity, rfl⟩ := Option.map_eq_some_iff.mp hoffer
        exact ⟨[], left, later, right, similarity, rfl, hmem, hreach, hsimilarity, rfl⟩
      · exact ⟨left :: pre, l, post, right, similarity, rfl, hrest⟩
    · rintro ⟨pre, l, post, right, similarity, heq, hright, hreach, hsimilarity, rfl⟩
      cases pre with
      | nil =>
        obtain ⟨rfl, rfl⟩ := List.cons.inj heq
        exact .inl ⟨right, List.mem_filter.mpr ⟨hright, hreach⟩, by rw [hsimilarity]; rfl⟩
      | cons x pre =>
        obtain ⟨rfl, rfl⟩ := List.cons.inj heq
        exact .inr ⟨pre, l, post, right, similarity, rfl, hright, hreach, hsimilarity, rfl⟩

end

section

variable {done : List Candidate} {shapes : Shapes} {c : Candidate}

structure Grouped (done : List Candidate) (shapes : Shapes) : Prop where
  length : shapes.ofCandidate.length = done.length
  nodup : shapes.first.Nodup
  first : ∀ f ∈ shapes.first, ∃ c : Candidate, done[f]? = some c ∧
    ∀ j < f, ∀ d : Candidate, done[j]? = some d → d.key ≠ c.key
  shape : ∀ (i : Nat) (c : Candidate), done[i]? = some c → ∃ (shape f : Nat) (d : Candidate),
    shapes.ofCandidate[i]? = some shape ∧ shapes.first[shape]? = some f ∧ f ≤ i ∧
      done[f]? = some d ∧ d.key = c.key
  seen : ∀ (key : String × List Nat) (shape : Nat), shapes.seen.get? key = some shape ↔
    ∃ (f : Nat) (d : Candidate), shapes.first[shape]? = some f ∧ done[f]? = some d ∧ d.key = key

theorem getElem?_concat_of_some {α : Type} {xs : List α} {x y : α} {i : Nat}
    (h : xs[i]? = some y) : (xs ++ [x])[i]? = some y := by
  obtain ⟨hlt, -⟩ := List.getElem?_eq_some_iff.mp h
  rw [List.getElem?_append_left hlt, h]

theorem getElem?_concat_eq_some {α : Type} {xs : List α} {x y : α} {i : Nat} :
    (xs ++ [x])[i]? = some y ↔ xs[i]? = some y ∨ (i = xs.length ∧ x = y) := by
  rw [List.getElem?_append]
  split
  · rename_i hlt
    exact ⟨.inl, fun h => h.resolve_right fun h => absurd h.1 hlt.ne⟩
  · rename_i hge
    rw [List.getElem?_eq_none (Nat.le_of_not_lt hge), List.getElem?_singleton]
    split
    · simp only [Option.some.injEq, reduceCtorEq, false_or]
      exact ⟨fun h => ⟨by omega, h⟩, And.right⟩
    · simp only [reduceCtorEq, false_or, false_iff, not_and]
      exact fun h => absurd h (by omega)

theorem Grouped.repeat {shape : Nat} (h : Grouped done shapes)
    (hseen : shapes.seen.get? c.key = some shape) :
    Grouped (done ++ [c]) { shapes with ofCandidate := shapes.ofCandidate ++ [shape] } := by
  obtain ⟨f, d, hf, hd, hkey⟩ := (h.seen _ _).mp hseen
  refine ⟨by simp [h.length], h.nodup, fun g hg => ?_, fun i e he => ?_, fun key sh => ?_⟩
  · obtain ⟨e, he, hleast⟩ := h.first g hg
    obtain ⟨hlt, -⟩ := List.getElem?_eq_some_iff.mp he
    refine ⟨e, getElem?_concat_of_some he, fun j hj x hx => hleast j hj x ?_⟩
    rwa [List.getElem?_append_left (hj.trans hlt)] at hx
  · rcases getElem?_concat_eq_some.mp he with he | ⟨rfl, rfl⟩
    · obtain ⟨sh, g, x, hsh, hg, hle, hx, hxkey⟩ := h.shape i e he
      exact ⟨sh, g, x, getElem?_concat_of_some hsh, hg, hle, getElem?_concat_of_some hx, hxkey⟩
    · obtain ⟨hlt, -⟩ := List.getElem?_eq_some_iff.mp hd
      exact ⟨shape, f, d, getElem?_concat_eq_some.mpr (.inr ⟨h.length.symm, rfl⟩), hf, hlt.le,
        getElem?_concat_of_some hd, hkey⟩
  · rw [h.seen]
    refine exists_congr fun g => exists_congr fun x => and_congr_right fun hg => ?_
    obtain ⟨y, hy, -⟩ := h.first g (List.mem_of_getElem? hg)
    rw [getElem?_concat_of_some hy, hy]

theorem Grouped.fresh (h : Grouped done shapes) (hseen : shapes.seen.get? c.key = none) :
    Grouped (done ++ [c]) ⟨shapes.seen.insert c.key shapes.first.length,
      shapes.ofCandidate ++ [shapes.first.length], shapes.first ++ [done.length]⟩ := by
  have hlt : ∀ f ∈ shapes.first, f < done.length := by
    intro f hf
    obtain ⟨x, hx, -⟩ := h.first f hf
    exact (List.getElem?_eq_some_iff.mp hx).1
  have hother : ∀ (j : Nat) (d : Candidate), done[j]? = some d → d.key ≠ c.key := by
    intro j d hd hkey
    obtain ⟨sh, f, e, -, hf, -, he, hekey⟩ := h.shape j d hd
    rw [(h.seen c.key sh).mpr ⟨f, e, hf, he, hekey.trans hkey⟩] at hseen
    cases hseen
  have hnew : (done ++ [c])[done.length]? = some c := getElem?_concat_eq_some.mpr (.inr ⟨rfl, rfl⟩)
  refine ⟨by simp [h.length], ?_, fun g hg => ?_, fun i e he => ?_, fun key sh => ?_⟩
  · refine List.nodup_append.mpr ⟨h.nodup, List.nodup_singleton _, fun f hf g hg heq => ?_⟩
    exact (hlt f hf).ne (heq.trans (List.mem_singleton.mp hg))
  · rcases List.mem_append.mp hg with hg | hg
    · obtain ⟨e, he, hleast⟩ := h.first g hg
      refine ⟨e, getElem?_concat_of_some he, fun j hj x hx => hleast j hj x ?_⟩
      rwa [List.getElem?_append_left (hj.trans (hlt g hg))] at hx
    · grind
  · rcases getElem?_concat_eq_some.mp he with he | ⟨rfl, rfl⟩
    · obtain ⟨sh, g, x, hsh, hg, hle, hx, hxkey⟩ := h.shape i e he
      exact ⟨sh, g, x, getElem?_concat_of_some hsh, getElem?_concat_of_some hg, hle,
        getElem?_concat_of_some hx, hxkey⟩
    · exact ⟨_, done.length, c, getElem?_concat_eq_some.mpr (.inr ⟨h.length.symm, rfl⟩),
        getElem?_concat_eq_some.mpr (.inr ⟨rfl, rfl⟩), Nat.le_refl _, hnew, rfl⟩
  · by_cases hkey : key = c.key
    · rw [hkey, IndexMap.get?_insert_self, Option.some.injEq]
      constructor
      · rintro rfl
        exact ⟨done.length, c, getElem?_concat_eq_some.mpr (.inr ⟨rfl, rfl⟩), hnew, rfl⟩
      · grind
    · rw [IndexMap.get?_insert_of_ne hkey, h.seen]
      constructor
      · rintro ⟨f, d, hf, hd, hdkey⟩
        exact ⟨f, d, getElem?_concat_of_some hf, getElem?_concat_of_some hd, hdkey⟩
      · grind

theorem grouped_of (candidates : List Candidate) : Grouped candidates (Shapes.of candidates) := by
  have hstart : Grouped [] ⟨.empty, [], []⟩ :=
    ⟨rfl, List.nodup_nil, fun _ hf => absurd hf List.not_mem_nil, fun _ _ hc => (by cases hc),
      fun _ _ => by simp [IndexMap.get?, IndexMap.empty, IndexMap.lookup]⟩
  have hrun : ∀ (rest done : List Candidate) (shapes : Shapes), Grouped done shapes →
      Grouped (done ++ rest) ((rest.zipIdx done.length).foldl Shapes.add shapes) := by
    intro rest
    induction rest with
    | nil =>
      intro done shapes h
      rwa [List.append_nil]
    | cons c rest ih =>
      intro done shapes h
      have hstep : Grouped (done ++ [c]) (shapes.add (c, done.length)) := by
        rw [Shapes.add]
        cases hseen : shapes.seen.get? c.key with
        | some shape => exact h.repeat hseen
        | none => exact h.fresh hseen
      have hrest := ih (done ++ [c]) _ hstep
      rw [List.append_assoc, List.length_append] at hrest
      exact hrest
  exact hrun candidates [] _ hstart

theorem Grouped.firstOf {i : Nat} (h : Grouped done shapes) (hc : done[i]? = some c) :
    shapes.firstOf i ∈ shapes.first ∧ shapes.firstOf i ≤ i ∧
      ∃ d, done[shapes.firstOf i]? = some d ∧ d.key = c.key := by
  obtain ⟨shape, f, d, hshape, hf, hle, hd, hkey⟩ := h.shape i c hc
  have hfirst : shapes.firstOf i = f := by
    rw [Shapes.firstOf, List.getD_eq_getElem?_getD, List.getD_eq_getElem?_getD, hshape,
      Option.getD_some, hf, Option.getD_some]
  rw [hfirst]
  exact ⟨List.mem_of_getElem? hf, hle, d, hd, hkey⟩

theorem Grouped.firstOf_eq_self {i : Nat} (h : Grouped done shapes) :
    i ∈ shapes.first ↔ ∃ c, done[i]? = some c ∧ shapes.firstOf i = i := by
  constructor
  · intro hi
    obtain ⟨c, hc, hleast⟩ := h.first i hi
    obtain ⟨-, hle, d, hd, hkey⟩ := h.firstOf hc
    refine ⟨c, hc, Nat.le_antisymm hle (Nat.le_of_not_lt fun hlt => ?_)⟩
    exact hleast _ hlt d hd hkey
  · rintro ⟨c, hc, heq⟩
    exact heq ▸ (h.firstOf hc).1

end

section

variable {candidates : List Candidate} {i : Nat}

/-- The closest of the earlier candidates of the same language, if it is close enough. -/
structure Closest (candidates : List Candidate) (i : Nat) (found : Option Match) : Prop where
  matched : found.isSome ↔ ∃ (j : Nat) (c d : Candidate), j < i ∧ candidates[i]? = some c ∧
    candidates[j]? = some d ∧ d.language = c.language ∧ minimumSimilarityPercent ≤ ratio d c
  best : ∀ m, found = some m → ∃ c d : Candidate, candidates[i]? = some c ∧ m.partner < i ∧
    candidates[m.partner]? = some d ∧ d.language = c.language ∧ ratio d c = m.similarity ∧
      ∀ (j : Nat) (e : Candidate), j < i → candidates[j]? = some e → e.language = c.language →
        ratio e c ≤ m.similarity

theorem bandOrder_perm (shapes : Shapes) : (bandOrder candidates shapes).Perm shapes.first := by
  refine ((List.perm_insertionSort _ _).map _).trans (.of_eq ?_)
  refine List.ext_getElem (by simp) fun n hn _ => ?_
  rw [List.getElem_map, List.getElem_range, List.getD_eq_getElem]

theorem sorted_bandOrder (shapes : Shapes) : (bandOrder candidates shapes).Pairwise fun a b =>
    lengthOf candidates a ≤ lengthOf candidates b := by
  rw [bandOrder, List.pairwise_map]
  exact List.pairwise_insertionSort _ _

theorem mem_split_pair {xs : List Nat} {a b : Nat} (ha : a ∈ xs) (hb : b ∈ xs) (hne : a ≠ b) :
    (∃ pre post, xs = pre ++ a :: post ∧ b ∈ post) ∨
      ∃ pre post, xs = pre ++ b :: post ∧ a ∈ post := by
  obtain ⟨pre, post, rfl⟩ := List.append_of_mem ha
  rcases List.mem_append.mp hb with hpre | hpost
  · obtain ⟨left, mid, rfl⟩ := List.append_of_mem hpre
    exact .inr ⟨left, mid ++ a :: post, by simp, by simp⟩
  · exact .inl ⟨pre, post, rfl, (List.mem_cons.mp hpost).resolve_left hne.symm⟩

theorem similarityAt_eq_some {left right similarity : Nat} {l r : Candidate}
    (hl : candidates[left]? = some l) (hr : candidates[right]? = some r) :
    reaches candidates left right = true ∧ similarityAt candidates left right = some similarity ↔
      l.language = r.language ∧ minimumSimilarityPercent ≤ ratio l r ∧ similarity = ratio l r := by
  simp only [reaches, similarityAt, hl, hr]
  exact similarityOf_eq_some

theorem mem_offersOf_iff {maximum : Nat} {shapes : Shapes}
    (hgrouped : Grouped candidates shapes)
    (hband : Banded candidates maximum (bandOrder candidates shapes)) {offer : Offer} :
    offer ∈ offersOf candidates maximum (bandOrder candidates shapes) ↔
      ∃ l r : Candidate, offer.partner ∈ shapes.first ∧ offer.copy ∈ shapes.first ∧
        offer.partner < offer.copy ∧ candidates[offer.partner]? = some l ∧
          candidates[offer.copy]? = some r ∧ l.language = r.language ∧
            minimumSimilarityPercent ≤ ratio l r ∧ offer.similarity = ratio l r := by
  have hperm : (bandOrder candidates shapes).Perm shapes.first := bandOrder_perm shapes
  have hmem : ∀ i ∈ bandOrder candidates shapes, i ∈ shapes.first ∧
      ∃ c, candidates[i]? = some c := by
    intro i hi
    obtain ⟨c, hc, -⟩ := hgrouped.first i (hperm.mem_iff.mp hi)
    exact ⟨hperm.mem_iff.mp hi, c, hc⟩
  rw [mem_offersOf hband fun i hi => (hmem i hi).2]
  constructor
  · rintro ⟨pre, left, post, right, similarity, horder, hright, hreach, hsimilarity, rfl⟩
    have hleft : left ∈ bandOrder candidates shapes := by simp [horder]
    have hnodup := hperm.nodup_iff.mpr hgrouped.nodup
    have hin : right ∈ bandOrder candidates shapes := by simp [horder, hright]
    have hne : left ≠ right := by
      rintro rfl
      rw [horder, List.nodup_append] at hnodup
      exact (List.nodup_cons.mp hnodup.2.1).1 hright
    obtain ⟨hleftFirst, l, hl⟩ := hmem left hleft
    obtain ⟨hrightFirst, r, hr⟩ := hmem right hin
    obtain ⟨hlanguage, hratio, rfl⟩ := (similarityAt_eq_some hl hr).mp ⟨hreach, hsimilarity⟩
    rw [Offer.of]
    rcases Nat.lt_or_ge left right with hlt | hge
    · simp only [min_eq_left hlt.le, max_eq_right hlt.le]
      exact ⟨l, r, hleftFirst, hrightFirst, hlt, hl, hr, hlanguage, hratio, rfl⟩
    · simp only [min_eq_right hge, max_eq_left hge]
      exact ⟨r, l, hrightFirst, hleftFirst, Nat.lt_of_le_of_ne hge hne.symm, hr, hl,
        hlanguage.symm, ratio_comm l r ▸ hratio, ratio_comm l r⟩
  · obtain ⟨partner, copy, similarity⟩ := offer
    rintro ⟨l, r, hpartner, hcopy, hlt, hl, hr, hlanguage, hratio, hsimilarity⟩
    rcases mem_split_pair (hperm.mem_iff.mpr hpartner) (hperm.mem_iff.mpr hcopy) hlt.ne with
      ⟨pre, post, horder, hin⟩ | ⟨pre, post, horder, hin⟩
    · obtain ⟨hreach, hat⟩ := (similarityAt_eq_some hl hr).mpr ⟨hlanguage, hratio, hsimilarity⟩
      refine ⟨pre, partner, post, copy, similarity, horder, hin, hreach, hat, ?_⟩
      rw [Offer.of, min_eq_left hlt.le, max_eq_right hlt.le]
    · obtain ⟨hreach, hat⟩ := (similarityAt_eq_some hr hl).mpr
        ⟨hlanguage.symm, ratio_comm l r ▸ hratio, hsimilarity.trans (ratio_comm l r)⟩
      refine ⟨pre, copy, post, partner, similarity, horder, hin, hreach, hat, ?_⟩
      rw [Offer.of, min_eq_right hlt.le, max_eq_left hlt.le]

theorem repeated_eq_some {shapes : Shapes} {m : Match} :
    shapes.repeated i = some m ↔
      shapes.firstOf i < i ∧ m = ⟨shapes.firstOf i, percentScale⟩ := by
  rw [Shapes.repeated]
  split
  · rename_i hlt
    exact ⟨fun h => ⟨hlt, (Option.some.inj h).symm⟩, fun h => by rw [h.2]⟩
  · rename_i hge
    exact ⟨fun h => (by cases h), fun h => absurd h.1 hge⟩

theorem closest_of_repeated {shapes : Shapes} {maximum : Nat} {c : Candidate} {found : Option Match}
    (hgrouped : Grouped candidates shapes)
    (hband : Banded candidates maximum (bandOrder candidates shapes))
    (hc : candidates[i]? = some c) (hlt : shapes.firstOf i < i) (hne : c.symbols ≠ [])
    (hkept : Kept i (shapes.repeated i)
      (offersOf candidates maximum (bandOrder candidates shapes)) found) :
    Closest candidates i found := by
  obtain ⟨hfirst, -, d, hd, hkey⟩ := hgrouped.firstOf hc
  obtain ⟨hlanguage, hsymbols⟩ := Prod.mk.inj hkey
  have hratio := ratio_of_same hsymbols hne
  have hfound : ∀ m, found = some m → m = ⟨shapes.firstOf i, percentScale⟩ := by
    intro m hm
    rcases hkept.origin m hm with hbefore | ⟨offer, hoffer, rfl, -⟩
    · exact (repeated_eq_some.mp hbefore).2
    · obtain ⟨-, -, -, hcopy, -⟩ := (mem_offersOf_iff hgrouped hband).mp hoffer
      obtain ⟨-, -, heq⟩ := hgrouped.firstOf_eq_self.mp hcopy
      exact absurd heq hlt.ne
  obtain ⟨m, hm, -⟩ := hkept.closer _ (repeated_eq_some.mpr ⟨hlt, rfl⟩)
  refine ⟨⟨fun _ => ⟨_, c, d, hlt, hc, hd, hlanguage, ?_⟩, fun _ => by rw [hm]; rfl⟩,
    fun m' hm' => ?_⟩
  · rw [hratio]
    decide
  · rw [hfound m' hm']
    exact ⟨c, d, hc, hlt, hd, hlanguage, hratio, fun j e _ _ _ => ratio_le e c⟩

theorem closest_of_first {shapes : Shapes} {maximum : Nat} {c : Candidate} {found : Option Match}
    (hgrouped : Grouped candidates shapes)
    (hband : Banded candidates maximum (bandOrder candidates shapes))
    (hc : candidates[i]? = some c) (hself : shapes.firstOf i = i)
    (hkept : Kept i (shapes.repeated i)
      (offersOf candidates maximum (bandOrder candidates shapes)) found) :
    Closest candidates i found := by
  have hnone : shapes.repeated i = none := by rw [Shapes.repeated, hself, if_neg (Nat.lt_irrefl i)]
  have hi : i ∈ shapes.first := hgrouped.firstOf_eq_self.mpr ⟨c, hc, hself⟩
  have horigin : ∀ m, found = some m → ∃ d : Candidate, m.partner < i ∧
      candidates[m.partner]? = some d ∧ d.language = c.language ∧
        minimumSimilarityPercent ≤ ratio d c ∧ m.similarity = ratio d c := by
    intro m hm
    rcases hkept.origin m hm with hbefore | ⟨offer, hoffer, rfl, rfl⟩
    · rw [hnone] at hbefore
      cases hbefore
    · obtain ⟨d, r, -, -, hlt, hd, hr, hlanguage, hratio, hsimilarity⟩ :=
        (mem_offersOf_iff hgrouped hband).mp hoffer
      rw [hc] at hr
      obtain rfl := Option.some.inj hr
      exact ⟨d, hlt, hd, hlanguage, hratio, hsimilarity⟩
  have hclosest : ∀ (j : Nat) (e : Candidate), j < i → candidates[j]? = some e →
      e.language = c.language → minimumSimilarityPercent ≤ ratio e c →
        ∃ m, found = some m ∧ ratio e c ≤ m.similarity := by
    intro j e hj he hlanguage hratio
    obtain ⟨hfirst, hle, d, hd, hkey⟩ := hgrouped.firstOf he
    obtain ⟨hdlanguage, hsymbols⟩ := Prod.mk.inj hkey
    have hsame : ratio d c = ratio e c := by rw [ratio, ratio, hsymbols]
    have hoffer : Offer.mk (shapes.firstOf j) i (ratio d c) ∈
        offersOf candidates maximum (bandOrder candidates shapes) :=
      (mem_offersOf_iff hgrouped hband).mpr ⟨d, c, hfirst, hi, Nat.lt_of_le_of_lt hle hj, hd, hc,
        hdlanguage.trans hlanguage, hsame ▸ hratio, rfl⟩
    obtain ⟨m, hm, hm'⟩ := hkept.closest _ hoffer rfl
    exact ⟨m, hm, hsame ▸ hm'⟩
  refine ⟨⟨fun hsome => ?_, fun hexists => ?_⟩, fun m hm => ?_⟩
  · obtain ⟨m, hm⟩ := Option.isSome_iff_exists.mp hsome
    obtain ⟨d, hlt, hd, hlanguage, hratio, -⟩ := horigin m hm
    exact ⟨m.partner, c, d, hlt, hc, hd, hlanguage, hratio⟩
  · obtain ⟨j, c', e, hj, hc', he, hlanguage, hratio⟩ := hexists
    rw [hc] at hc'
    obtain rfl := Option.some.inj hc'
    obtain ⟨m, hm, -⟩ := hclosest j e hj he hlanguage hratio
    rw [hm]
    rfl
  · obtain ⟨d, hlt, hd, hlanguage, hratio, hsimilarity⟩ := horigin m hm
    refine ⟨c, d, hc, hlt, hd, hlanguage, hsimilarity.symm, fun j e hj he helanguage => ?_⟩
    by_cases hreach : minimumSimilarityPercent ≤ ratio e c
    · obtain ⟨m', hm', hle⟩ := hclosest j e hj he helanguage hreach
      rw [hm] at hm'
      exact Option.some.inj hm' ▸ hle
    · rw [hsimilarity]
      exact (Nat.le_of_not_le hreach).trans hratio

/-- No shape has more later shapes in its band of lengths than the scan compares. -/
def NarrowBands (candidates : List Candidate) : Prop :=
  ∀ pre left post, bandOrder candidates (Shapes.of candidates) = pre ++ left :: post →
    (post.filter (reaches candidates left)).length ≤ maximumComparedShapes

/-- The table gives the longest common subsequence, and the search that prunes finds what the plain
one does. -/
theorem bestPartners_closest (candidates : List Candidate) (hbands : NarrowBands candidates)
    (hempty : ∀ (j i : Nat) (d c : Candidate), j < i → candidates[j]? = some d →
      candidates[i]? = some c → d.language = c.language → ¬ (d.symbols = [] ∧ c.symbols = [])) :
    (∀ l r : Candidate,
        IsLcs l.symbols r.symbols (longestCommonSubsequence l.symbols r.symbols)) ∧
      (bestPartners candidates).length = candidates.length ∧
      ∀ i < candidates.length, ∃ found, (bestPartners candidates)[i]? = some found ∧
        Closest candidates i found := by
  have hgrouped := grouped_of candidates
  have hband : Banded candidates maximumComparedShapes
      (bandOrder candidates (Shapes.of candidates)) := ⟨sorted_bandOrder _, hbands⟩
  have hrun : bestPartners candidates =
      (offersOf candidates maximumComparedShapes
        (bandOrder candidates (Shapes.of candidates))).foldl Offer.keep
        ((List.range candidates.length).map (Shapes.of candidates).repeated) :=
    scanOrder_eq _ _
  have hlength : (bestPartners candidates).length = candidates.length := by
    rw [hrun, length_foldl_keep, List.length_map, List.length_range]
  refine ⟨fun l r => longestCommonSubsequence_isLcs _ _, hlength, fun i hi => ?_⟩
  have hi' : i < ((List.range candidates.length).map (Shapes.of candidates).repeated).length := by
    rwa [List.length_map, List.length_range]
  have hkept := @kept_foldl i _ (offersOf candidates maximumComparedShapes
    (bandOrder candidates (Shapes.of candidates))) hi'
  have hbefore : ((List.range candidates.length).map (Shapes.of candidates).repeated).getD i none =
      (Shapes.of candidates).repeated i := by
    rw [List.getD_eq_getElem _ _ hi', List.getElem_map, List.getElem_range]
  rw [hbefore, ← hrun] at hkept
  refine ⟨(bestPartners candidates).getD i none, ?_, ?_⟩
  · rw [List.getD_eq_getElem _ _ (hlength ▸ hi), List.getElem?_eq_getElem]
  · have hc : candidates[i]? = some candidates[i] := List.getElem?_eq_getElem hi
    obtain ⟨-, hle, d, hd, hkey⟩ := hgrouped.firstOf hc
    rcases Nat.lt_or_eq_of_le hle with hlt | hself
    · obtain ⟨hlanguage, hsymbols⟩ := Prod.mk.inj hkey
      refine closest_of_repeated hgrouped hband hc hlt (fun hnil => ?_) hkept
      exact hempty _ i d _ hlt hd hc hlanguage ⟨hsymbols.trans hnil, hnil⟩
    · exact closest_of_first hgrouped hband hc hself hkept

theorem narrowBands_of_length (h : candidates.length ≤ maximumComparedShapes) :
    NarrowBands candidates := by
  intro pre left post horder
  have hgrouped := grouped_of candidates
  have hperm : (bandOrder candidates (Shapes.of candidates)).Perm (Shapes.of candidates).first :=
    bandOrder_perm _
  have hsub : (Shapes.of candidates).first ⊆ List.range candidates.length := by
    intro f hf
    obtain ⟨c, hc, -⟩ := hgrouped.first f hf
    exact List.mem_range.mpr (List.getElem?_eq_some_iff.mp hc).1
  have hfirst := (hgrouped.nodup.subperm hsub).length_le
  have hlength := hperm.length_eq
  rw [horder, List.length_append, List.length_cons] at hlength
  rw [List.length_range] at hfirst
  exact (List.length_filter_le _ _).trans (by omega)

def streamOf (language : String) (symbols : List Nat) (h : symbols.Pairwise (· ≤ ·)) : Candidate :=
  ⟨0, 0, language, symbols, symbols, .refl _, h⟩

theorem bestPartners_closest_copy :
    let candidates := [streamOf "rust" [1, 2] (by decide), streamOf "rust" [1, 2] (by decide)]
    ∃ found, (bestPartners candidates)[1]? = some found ∧ Closest candidates 1 found :=
  (bestPartners_closest [streamOf "rust" [1, 2] (by decide), streamOf "rust" [1, 2] (by decide)]
    (narrowBands_of_length (by decide)) fun j i d c _ hd _ _ hnil => by
      have hmem := List.mem_of_getElem? hd
      simp only [List.mem_cons, List.not_mem_nil, or_false, or_self] at hmem
      rw [hmem] at hnil
      exact absurd hnil.1 (List.cons_ne_nil 1 [2])).2.2 1 (by decide)

theorem empty_streams_repeat : ∃ candidates : List Candidate, NarrowBands candidates ∧
    ¬ ∀ i < candidates.length, ∃ found, (bestPartners candidates)[i]? = some found ∧
      Closest candidates i found := by
  refine ⟨[streamOf "rust" [] List.Pairwise.nil, streamOf "rust" [] List.Pairwise.nil],
    narrowBands_of_length (by decide), fun h => ?_⟩
  obtain ⟨found, hfound, hclosest⟩ := h 1 (by decide)
  obtain rfl : some ⟨0, 100⟩ = found := Option.some.inj hfound
  obtain ⟨c, d, hc, -, hd, -, hratio, -⟩ := hclosest.best _ rfl
  obtain rfl := Option.some.inj hc
  obtain rfl := Option.some.inj hd
  cases hratio

end

end SwissArmyHammer.CodeContext.Duplication
