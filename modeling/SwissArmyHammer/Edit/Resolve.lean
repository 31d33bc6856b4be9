import SwissArmyHammer.Edit.LineModel

/-! What a tagged line says when it is read as an anchor, and the line it is resolved to. -/

namespace SwissArmyHammer.Edit

open Text

section

variable {sep : Char} {s t : List Char} {n : Nat}

theorem splitOnce_append (h : sep ∉ s) (t : List Char) :
    splitOnce sep (s ++ sep :: t) = some (s, t) := by
  induction s with
  | nil => simp [splitOnce]
  | cons c s ih =>
    have hc : c ≠ sep := fun heq => h (by simp [heq])
    have hs : sep ∉ s := fun hmem => h (by simp [hmem])
    simp [splitOnce, hc, ih hs]

theorem isDigit_of_mem_toDigits {c : Char} (h : c ∈ Nat.toDigits 10 n) : c.isDigit = true :=
  Nat.isDigit_of_mem_toDigits (by decide) (by decide) h

theorem stripPlus_toDigits (n : Nat) : stripPlus (Nat.toDigits 10 n) = Nat.toDigits 10 n := by
  have hplus : '+' ∉ Nat.toDigits 10 n := fun hmem =>
    absurd (isDigit_of_mem_toDigits hmem) (by decide)
  unfold stripPlus
  split
  · rename_i s heq
    exact absurd (by simp [heq]) hplus
  · rfl

theorem parseUsize_toDigits (h : n < 2 ^ 64) : parseUsize (Nat.toDigits 10 n) = some n := by
  have hall : (Nat.toDigits 10 n).all Char.isDigit = true :=
    List.all_eq_true.mpr fun c hc => isDigit_of_mem_toDigits hc
  simp only [parseUsize, stripPlus_toDigits, Nat.ofDigitChars_ten_toDigits]
  rw [if_pos ⟨Nat.toDigits_ne_nil, hall, h⟩]

theorem parseHexU8_renderHash (hash : UInt8) : parseHexU8 (renderHash hash) = some hash := by
  have hall : ∀ n < 256, parseHexU8 (renderHash (UInt8.ofNat n)) = some (UInt8.ofNat n) := by
    decide +kernel
  have hhash := hall hash.toNat hash.toNat_lt
  rwa [UInt8.ofNat_toNat] at hhash

theorem renderHash_spec (hash : UInt8) :
    '|' ∉ renderHash hash ∧ (utf8 (renderHash hash)).length = 2 := by
  have hall : ∀ n < 256, '|' ∉ renderHash (UInt8.ofNat n) ∧
      (utf8 (renderHash (UInt8.ofNat n))).length = 2 := by
    decide +kernel
  have hhash := hall hash.toNat hash.toNat_lt
  rwa [UInt8.ofNat_toNat] at hhash

variable (crc32 : List UInt8 → UInt32)

theorem splitOnce_tagged (n : Nat) (text : List Char) :
    splitOnce '|' (tagged crc32 n text) =
      some (Nat.toDigits 10 n ++ ':' :: renderHash (hashLine crc32 text), text) := by
  have hbar : '|' ∉ Nat.toDigits 10 n ++ ':' :: renderHash (hashLine crc32 text) := by
    intro hmem
    rcases List.mem_append.mp hmem with hmem | hmem
    · exact absurd (isDigit_of_mem_toDigits hmem) (by decide)
    · rcases List.mem_cons.mp hmem with heq | hmem
      · exact absurd heq (by decide)
      · exact (renderHash_spec _).1 hmem
  have hsplit := splitOnce_append hbar text
  rwa [List.append_assoc, List.cons_append] at hsplit

theorem parseAnchor_tagged (h : n < 2 ^ 64) (text : List Char) :
    parseAnchor (tagged crc32 n text) = some (n, hashLine crc32 text) := by
  have hcolon : ':' ∉ Nat.toDigits 10 n := fun hmem =>
    absurd (isDigit_of_mem_toDigits hmem) (by decide)
  rw [parseAnchor, splitOnce_tagged]
  simp [splitOnce_append hcolon, Nat.toDigits_ne_nil, (renderHash_spec _).2, parseUsize_toDigits h,
    parseHexU8_renderHash]

end

section

variable {crc32 : List UInt8 → UInt32} {lines : List (List Char)} {hash : UInt8}
  {text : Option (List Char)} {n : Nat}

def reach (line : Nat) : List Nat :=
  (candidates line).filterMap fun c => if c < 0 then none else some c.toNat

theorem foldl_consider (cs : List Int) (nearest : Nearest) :
    let indices := cs.filterMap fun c => if c < 0 then none else some c.toNat
    cs.foldl (consider crc32 lines hash text) nearest =
      { hash := nearest.hash.or (indices.find? (hashMatches crc32 lines hash))
        text := nearest.text.or (indices.find? fun idx =>
          hashMatches crc32 lines hash idx && textMatches lines text idx) } := by
  induction cs generalizing nearest with
  | nil => simp
  | cons c cs ih =>
    simp only [List.foldl_cons, ih]
    by_cases hneg : c < 0
    · simp [consider, hneg]
    · cases hmatch : hashMatches crc32 lines hash c.toNat with
      | false => simp [consider, hneg, hmatch]
      | true =>
        cases htext : textMatches lines text c.toNat <;>
          simp [consider, hneg, hmatch, htext]

theorem resolveIndex_eq (lines : List (List Char)) (line : Nat) (hash : UInt8)
    (text : Option (List Char)) : resolveIndex crc32 lines line hash text =
      ((reach line).find? fun idx =>
        hashMatches crc32 lines hash idx && textMatches lines text idx).or
          ((reach line).find? (hashMatches crc32 lines hash)) := by
  simp only [resolveIndex, foldl_consider, Option.none_or]
  rfl

theorem reach_eq (h : 1 ≤ n) (hn : n ≤ 2 ^ 63) : ∃ tail, reach n = (n - 1) :: tail := by
  have hcenter : asIsize (n - 1) = ((n - 1 : Nat) : Int) := by
    rw [asIsize, if_pos (by omega)]
  have hneg : ¬ ((n - 1 : Nat) : Int) < 0 := by omega
  have hcandidates : candidates n = ((n - 1 : Nat) : Int) :: (candidates n).tail := by
    simp only [candidates, if_pos h, hcenter, List.cons_append, List.tail_cons]
  refine ⟨(candidates n).tail.filterMap fun c => if c < 0 then none else some c.toNat, ?_⟩
  rw [reach, hcandidates, List.filterMap_cons, Int.toNat_natCast]
  rfl

theorem reach_one : reach 1 = List.range 51 := by decide

theorem resolveIndex_exact (h : 1 ≤ n) (hn : n ≤ 2 ^ 63) {t : List Char}
    (hline : lines[n - 1]? = some t) :
    resolveIndex crc32 lines n (hashLine crc32 t) (some t) = some (n - 1) := by
  obtain ⟨tail, hreach⟩ := reach_eq h hn
  have hhash : hashMatches crc32 lines (hashLine crc32 t) (n - 1) = true := by
    simp [hashMatches, hline]
  have htext : textMatches lines (some t) (n - 1) = true := by
    simp [textMatches, hline]
  rw [resolveIndex_eq, hreach]
  simp [hhash, htext]

theorem matches_iff {wanted : List Char} {idx : Nat} :
    (hashMatches crc32 lines (hashLine crc32 wanted) idx && textMatches lines (some wanted) idx) =
      true ↔ ∃ t, lines[idx]? = some t ∧ trimHorizontal t = trimHorizontal wanted := by
  simp only [hashMatches, textMatches, Bool.and_eq_true, Option.any_some, Option.any_eq_true,
    decide_eq_true_eq]
  constructor
  · rintro ⟨-, t, ht, heq⟩
    exact ⟨t, ht, heq⟩
  · rintro ⟨t, ht, heq⟩
    have hhash : hashLine crc32 t = hashLine crc32 wanted := by rw [hashLine, heq, hashLine]
    exact ⟨⟨t, ht, hhash⟩, t, ht, heq⟩

theorem resolveIndex_one_iff {t wanted : List Char}
    (hne : trimHorizontal t ≠ trimHorizontal wanted) :
    resolveIndex crc32 (t :: lines) 1 (hashLine crc32 wanted) (some wanted) = some 0 ↔
      hashLine crc32 t = hashLine crc32 wanted ∧
        ∀ other ∈ lines.take proximityWindow, trimHorizontal other ≠ trimHorizontal wanted := by
  have hrange : reach 1 = 0 :: (List.range proximityWindow).map Nat.succ := by
    rw [reach_one, ← List.range_succ_eq_map]
    rfl
  let both : Nat → Bool := fun idx =>
    hashMatches crc32 (t :: lines) (hashLine crc32 wanted) idx &&
      textMatches (t :: lines) (some wanted) idx
  have hboth : ∀ {idx}, both idx = true ↔
      ∃ t', (t :: lines)[idx]? = some t' ∧ trimHorizontal t' = trimHorizontal wanted := matches_iff
  have hfirst : ¬ both 0 = true := by
    rw [hboth]
    simpa using hne
  have hnone : ((List.range proximityWindow).map Nat.succ).find? both = none ↔
      ∀ other ∈ lines.take proximityWindow, trimHorizontal other ≠ trimHorizontal wanted := by
    simp only [List.find?_eq_none, List.mem_map, hboth]
    constructor
    · intro h other hother heq
      obtain ⟨i, hi⟩ := List.mem_iff_getElem?.mp hother
      rw [List.getElem?_take] at hi
      split_ifs at hi with hlt
      exact h _ ⟨i, List.mem_range.mpr hlt, rfl⟩ ⟨other, hi, heq⟩
    · rintro h _ ⟨i, hi, rfl⟩ ⟨other, hget, heq⟩
      have htake : (lines.take proximityWindow)[i]? = some other := by
        rw [List.getElem?_take, if_pos (List.mem_range.mp hi)]
        exact hget
      exact h other (List.mem_of_getElem? htake) heq
  have hhash : hashMatches crc32 (t :: lines) (hashLine crc32 wanted) 0 =
      decide (hashLine crc32 t = hashLine crc32 wanted) := by
    simp [hashMatches]
  rw [resolveIndex_eq, hrange, ← hnone]
  rw [List.find?_cons_of_neg hfirst]
  cases hfind : ((List.range proximityWindow).map Nat.succ).find? both with
  | none =>
    grind
  | some idx =>
    obtain ⟨i, -, rfl⟩ := List.mem_map.mp (List.mem_of_find?_eq_some hfind)
    simp

theorem resolveAnchor_tagged (hn : n < 2 ^ 64) (content t : List Char) :
    resolveAnchor crc32 content (tagged crc32 n t) =
      resolveAnchorRangeIn crc32 content n (hashLine crc32 t) (some t) := by
  rw [resolveAnchor, parseAnchor_tagged crc32 hn, splitOnce_tagged]
  rfl

theorem resolveAnchor_exact (crc32 : List UInt8 → UInt32) (h : 1 ≤ n) (hn : n ≤ 2 ^ 63)
    {content : List Char} {span : Nat × List Char}
    (hline : (spansAt 0 content)[n - 1]? = some span) :
    resolveAnchor crc32 content (tagged crc32 n span.2) = some (spanRange span) := by
  have htext : ((spansAt 0 content).map Prod.snd)[n - 1]? = some span.2 := by
    rw [List.getElem?_map, hline]
    rfl
  rw [resolveAnchor_tagged (by omega)]
  show (resolveIndex crc32 ((spansAt 0 content).map Prod.snd) n _ _).bind _ = _
  rw [resolveIndex_exact h hn htext]
  show ((spansAt 0 content)[n - 1]?).map spanRange = _
  rw [hline]
  rfl

end

end SwissArmyHammer.Edit
