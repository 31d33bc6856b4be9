import SwissArmyHammer.Edit.Anchors
import SwissArmyHammer.Edit.ClearWinner

/-! Edits that are tried again, and batches that stop because a pair seems to be applied already. -/

namespace SwissArmyHammer.Edit

open Text

section

variable {content replacement : List Char} {range : Nat × Nat}

theorem splice_bytes_iff {α : Type} (l : List α) {r : List α} (hr : r ≠ []) (a b : Nat) :
    l.take a ++ r ++ l.drop b = l ↔ (l.take b).drop a = r := by
  have hpos := List.length_pos_iff.mpr hr
  rcases Nat.lt_or_ge b a with hlt | hle
  · have hnil : (l.take b).drop a = [] := List.drop_eq_nil_of_le (by simp; omega)
    rw [hnil]
    refine iff_of_false (fun heq => ?_) fun heq => hr heq.symm
    have hlength := congrArg List.length heq
    simp only [List.length_append, List.length_take, List.length_drop] at hlength
    omega
  · have hwhole : l.take a ++ (l.take b).drop a ++ l.drop b = l := by
      have htake : l.take a ++ (l.take b).drop a = l.take b := by
        have hsplit := List.take_append_drop a (l.take b)
        rwa [List.take_take, Nat.min_eq_left hle] at hsplit
      rw [htake, List.take_append_drop]
    constructor
    · intro heq
      have hsame := heq.trans hwhole.symm
      exact (List.append_cancel_left (List.append_cancel_right hsame)).symm
    · rintro rfl
      exact hwhole

theorem decodeUtf8_utf8 (s : List Char) : decodeUtf8 (utf8 s) = some s := decodeUtf8_eq_some.mpr rfl

theorem splice_eq_self_iff (hne : replacement ≠ []) :
    applyResolution content (.splice range replacement) = content ↔
      slice content range = replacement := by
  have hbytes := splice_bytes_iff (utf8 content) (utf8_ne_nil hne) range.1 range.2
  simp only [applyResolution, slice]
  constructor
  · intro heq
    cases hdecode : decodeUtf8 ((utf8 content).take range.1 ++ utf8 replacement ++
        (utf8 content).drop range.2) with
    | some cs =>
      rw [hdecode, Option.getD_some] at heq
      rw [heq] at hdecode
      rw [hbytes.mp (decodeUtf8_eq_some.mp hdecode).symm, decodeUtf8_utf8, Option.getD_some]
    | none =>
      rw [hdecode, Option.getD_none] at heq
      rw [← heq, utf8_nil, List.take_nil, List.drop_nil, List.nil_append, List.append_nil,
        decodeUtf8_utf8] at hdecode
      cases hdecode
  · intro heq
    cases hdecode : decodeUtf8 (((utf8 content).take range.2).drop range.1) with
    | some cs =>
      rw [hdecode, Option.getD_some] at heq
      rw [heq] at hdecode
      rw [hbytes.mpr (decodeUtf8_eq_some.mp hdecode).symm, decodeUtf8_utf8, Option.getD_some]
    | none =>
      rw [hdecode] at heq
      exact absurd heq.symm hne

end

section

variable (K : Type) [NatCast K] [Sub K] [Div K] [LE K] [DecidableLE K] [LT K] [DecidableLT K]
  (crc32 : List UInt8 → UInt32)
  (diffLines : List Char → List Char → List (ChangeTag × List Char))
  {content : List Char} {pair : EditPair}

def namedSpan (content find : List Char) : Option (Nat × Nat) :=
  match resolveAnchor crc32 content find, strFind content find with
  | some _, some _ => none
  | some range, none => some range
  | none, some start => some (start, start + (utf8 find).length)
  | none, none =>
    match (findMatch content find : MatchOutcome K) with
    | .unique span _ _ => some span
    | .ambiguous _ => none
    | .noMatch _ => none

structure Plainly (pair : EditPair) : Prop where
  one : pair.replaceAll = false
  noHint : pair.occurrence = none

def RetryKeeps (content : List Char) (pair : EditPair) : Prop :=
  ∀ content', applyAllPairs K crc32 diffLines content [pair] = .applied content' →
    contains content' pair.find = false → resolveAnchor crc32 content' pair.find = none →
      ∀ content'', applyAllPairs K crc32 diffLines content' [pair] = .applied content'' →
        content'' = content'

theorem disambiguate_noHint (h : pair.occurrence = none) (candidates : List Candidate) :
    disambiguate pair candidates = .ambiguous pair.find candidates := by
  simp [disambiguate, h]

theorem reclassifyNoMatch_ne_applied {original working : List Char} {near : List NearMiss}
    {find result : List Char} :
    reclassifyNoMatch original working pair find near ≠ .applied result := by
  rw [reclassifyNoMatch]
  split_ifs
  · simp
  · split
    · simp
    · simp
  · simp

variable (content) in
theorem resolvePair_plainly (h : Plainly pair) :
    (∃ span, namedSpan K crc32 content pair.find = some span ∧
      resolvePair K crc32 diffLines content pair = .resolved (.splice span pair.replace)) ∨
    namedSpan K crc32 content pair.find = none ∧
      ((∃ candidates, resolvePair K crc32 diffLines content pair =
        .ambiguous pair.find candidates) ∨
      ∃ near, resolvePair K crc32 diffLines content pair = .noMatch pair.find near) := by
  have hone : ¬ pair.replaceAll = true := by simp [h.one]
  rw [resolvePair, if_neg hone, namedSpan]
  cases hanchor : resolveAnchor crc32 content pair.find with
  | some range =>
    cases hliteral : strFind content pair.find with
    | some start => exact .inr ⟨rfl, .inl ⟨_, disambiguate_noHint h.noHint _⟩⟩
    | none => exact .inl ⟨range, rfl, rfl⟩
  | none =>
    cases hliteral : strFind content pair.find with
    | some start => exact .inl ⟨_, rfl, rfl⟩
    | none =>
      simp only [resolveViaLadder]
      cases (findMatch content pair.find : MatchOutcome K) with
      | unique span rung confidence => exact .inl ⟨span, rfl, rfl⟩
      | ambiguous candidates => exact .inr ⟨rfl, .inl ⟨_, disambiguate_noHint h.noHint _⟩⟩
      | noMatch near => exact .inr ⟨rfl, .inr ⟨_, rfl⟩⟩

theorem applied_single_iff (h : Plainly pair) {result : List Char} :
    applyAllPairs K crc32 diffLines content [pair] = .applied result ↔
      ∃ span, namedSpan K crc32 content pair.find = some span ∧
        applyResolution content (.splice span pair.replace) = result := by
  rcases resolvePair_plainly K crc32 diffLines content h with
    ⟨span, hspan, hresolve⟩ | ⟨hnone, ⟨candidates, hresolve⟩ | ⟨near, hresolve⟩⟩
  · simp [applyAllPairs, applyPairsFrom, hresolve, hspan]
  · simp [applyAllPairs, applyPairsFrom, hresolve, hnone]
  · simp [applyAllPairs, applyPairsFrom, hresolve, hnone, reclassifyNoMatch_ne_applied]

theorem namedSpan_of_absent {find : List Char} (habsent : contains content find = false)
    (hanchor : resolveAnchor crc32 content find = none) {span : Nat × Nat} :
    namedSpan K crc32 content find = some span ↔
      ∃ rung confidence, (findMatch content find : MatchOutcome K) =
        .unique span rung confidence := by
  have hliteral : strFind content find = none := by simpa [contains] using habsent
  rw [namedSpan, hanchor, hliteral]
  cases (findMatch content find : MatchOutcome K) with
  | unique span' rung confidence => simp [and_comm]
  | ambiguous candidates => simp
  | noMatch near => simp

/-- What the ladder finds for `find` after the edit, if anything, is the replacement. -/
def FindsOnlyReplacement (content : List Char) (pair : EditPair) : Prop :=
  ∀ span, namedSpan K crc32 content pair.find = some span →
    ∀ content', content' = applyResolution content (.splice span pair.replace) →
      contains content' pair.find = false → resolveAnchor crc32 content' pair.find = none →
        ∀ again rung confidence,
          (findMatch content' pair.find : MatchOutcome K) = .unique again rung confidence →
            slice content' again = pair.replace

end

section

variable (K : Type) [NatCast K] [Sub K] [Div K] [LE K] [DecidableLE K] [LT K] [DecidableLT K]
  (crc32 : List UInt8 → UInt32)
  (diffLines : List Char → List Char → List (ChangeTag × List Char))
  {original working w w' : List Char} {pair pair' : EditPair} {pairs pre pre' : List EditPair}

def applyPairs : List Char → List EditPair → Option (List Char)
  | working, [] => some working
  | working, pair :: pairs =>
    match resolvePair K crc32 diffLines working pair with
    | .resolved resolution => applyPairs (applyResolution working resolution) pairs
    | .ambiguous _ _ => none
    | .noMatch _ _ => none

def Changes (original : List Char) (pairs : List EditPair) : Prop :=
  ∃ pre pair post w w', pairs = pre ++ pair :: post ∧
    applyPairs K crc32 diffLines original pre = some w ∧
    applyPairs K crc32 diffLines w [pair] = some w' ∧ w' ≠ w

def Stops (original : List Char) (pairs pre : List EditPair) (pair : EditPair) (w : List Char) :
    Prop :=
  (∃ post, pairs = pre ++ pair :: post) ∧ applyPairs K crc32 diffLines original pre = some w ∧
    applyPairs K crc32 diffLines w [pair] = none

def HonestlyApplied (original : List Char) (pairs : List EditPair) : Prop :=
  ∀ find replace, applyAllPairs K crc32 diffLines original pairs = .alreadyApplied find replace →
    ∃ pre pair w, Stops K crc32 diffLines original pairs pre pair w ∧
      find = pair.find ∧ replace = pair.replace ∧ ¬ Changes K crc32 diffLines original pre ∧
      contains original pair.replace = true

/-- Nothing of the pair matches, its `find` does not occur and its replacement does. -/
structure SeemsApplied (w : List Char) (pair : EditPair) : Prop where
  unmatched : ∃ near, resolvePair K crc32 diffLines w pair = .noMatch pair.find near
  absent : contains w pair.find = false
  nonempty : pair.replace ≠ []
  present : contains w pair.replace = true

theorem resolvePair_find {find : List Char} {near : List NearMiss}
    (h : resolvePair K crc32 diffLines w pair = .noMatch find near) : find = pair.find := by
  have hdisambiguate : ∀ candidates, disambiguate pair candidates ≠ .noMatch find near := by
    intro candidates
    rw [disambiguate]
    split
    · simp
    · simp
  rw [resolvePair] at h
  split_ifs at h
  · rw [noMatchOutcome] at h
    cases hfound : (findMatch w pair.find : MatchOutcome K) with
    | unique span rung confidence =>
      simp only [hfound, PairOutcome.noMatch.injEq] at h
      exact h.1.symm
    | ambiguous candidates =>
      simp only [hfound, PairOutcome.noMatch.injEq] at h
      exact h.1.symm
    | noMatch spans =>
      simp only [hfound, PairOutcome.noMatch.injEq] at h
      exact h.1.symm
  · cases hanchor : resolveAnchor crc32 w pair.find with
    | some range =>
      grind
    | none =>
      cases hliteral : strFind w pair.find with
      | some start => simp [hanchor, hliteral] at h
      | none =>
        simp only [hanchor, hliteral, resolveViaLadder] at h
        cases hfound : (findMatch w pair.find : MatchOutcome K) with
        | unique span rung confidence => simp [hfound] at h
        | ambiguous candidates =>
          simp only [hfound] at h
          exact absurd h (hdisambiguate _)
        | noMatch spans =>
          simp only [hfound, PairOutcome.noMatch.injEq] at h
          exact h.1.symm

theorem applyPairsFrom_append (h : applyPairs K crc32 diffLines working pre = some w)
    (rest : List EditPair) : applyPairsFrom K crc32 diffLines original working (pre ++ rest) =
      applyPairsFrom K crc32 diffLines original w rest := by
  induction pre generalizing working with
  | nil =>
    cases h
    rfl
  | cons pair pre ih =>
    rw [applyPairs] at h
    rw [List.cons_append, applyPairsFrom]
    cases hresolve : resolvePair K crc32 diffLines working pair with
    | resolved resolution =>
      simp only [hresolve] at h ⊢
      exact ih h
    | ambiguous find candidates => simp [hresolve] at h
    | noMatch find near => simp [hresolve] at h

theorem reclassifyNoMatch_eq_alreadyApplied {find find' replace : List Char}
    {near : List NearMiss} :
    reclassifyNoMatch original w pair find near = .alreadyApplied find' replace ↔
      find = find' ∧ pair.replace = replace ∧ contains w pair.find = false ∧ pair.replace ≠ [] ∧
        contains w pair.replace = true := by
  rw [reclassifyNoMatch]
  split_ifs with hseems hconsumed
  · obtain ⟨habsent, hne, hpresent⟩ := hseems
    simp only [ApplyOutcome.alreadyApplied.injEq]
    exact ⟨fun h => ⟨h.1, h.2, by simpa using habsent, hne, hpresent⟩, fun h => ⟨h.1, h.2.1⟩⟩
  · have hno : ¬ (contains w pair.find = false ∧ pair.replace ≠ [] ∧
        contains w pair.replace = true) := fun h => hseems ⟨by simp [h.1], h.2.1, h.2.2⟩
    split
    · simp only [reduceCtorEq, false_iff]
      exact fun h => hno h.2.2
    · simp only [reduceCtorEq, false_iff]
      exact fun h => hno h.2.2
  · have hno : ¬ (contains w pair.find = false ∧ pair.replace ≠ [] ∧
        contains w pair.replace = true) := fun h => hseems ⟨by simp [h.1], h.2.1, h.2.2⟩
    simp only [false_iff]
    exact fun h => hno h.2.2

theorem applyAllPairs_of_stops (h : Stops K crc32 diffLines original pairs pre pair w)
    {find replace : List Char} :
    applyAllPairs K crc32 diffLines original pairs = .alreadyApplied find replace ↔
      find = pair.find ∧ replace = pair.replace ∧ SeemsApplied K crc32 diffLines w pair := by
  obtain ⟨⟨post, rfl⟩, hpre, hstop⟩ := h
  rw [applyAllPairs, applyPairsFrom_append K crc32 diffLines hpre, applyPairsFrom]
  cases hresolve : resolvePair K crc32 diffLines w pair with
  | resolved resolution => simp [applyPairs, hresolve] at hstop
  | ambiguous find' candidates =>
    simp only [reduceCtorEq, false_iff]
    rintro ⟨-, -, ⟨near, hnear⟩, -⟩
    rw [hresolve] at hnear
    cases hnear
  | noMatch find' near =>
    obtain rfl := resolvePair_find K crc32 diffLines hresolve
    simp only [reclassifyNoMatch_eq_alreadyApplied]
    constructor
    · rintro ⟨hfind, hreplace, habsent, hne, hpresent⟩
      exact ⟨hfind.symm, hreplace.symm, ⟨near, hresolve⟩, habsent, hne, hpresent⟩
    · rintro ⟨hfind, hreplace, -, habsent, hne, hpresent⟩
      exact ⟨hfind.symm, hreplace.symm, habsent, hne, hpresent⟩

theorem resolves_or_stops (pairs : List EditPair) (working : List Char) :
    (∃ w, applyPairs K crc32 diffLines working pairs = some w) ∨
      ∃ pre pair w, Stops K crc32 diffLines working pairs pre pair w := by
  induction pairs generalizing working with
  | nil => exact .inl ⟨working, rfl⟩
  | cons pair pairs ih =>
    cases hresolve : resolvePair K crc32 diffLines working pair with
    | resolved resolution =>
      rcases ih (applyResolution working resolution) with ⟨w, hw⟩ |
        ⟨pre, next, w, ⟨post, hpost⟩, hpre, hstop⟩
      · exact .inl ⟨w, by simpa [applyPairs, hresolve] using hw⟩
      · exact .inr ⟨pair :: pre, next, w, ⟨post, by rw [hpost, List.cons_append]⟩,
          by simpa [applyPairs, hresolve] using hpre, hstop⟩
    | ambiguous find candidates =>
      exact .inr ⟨[], pair, working, ⟨pairs, rfl⟩, rfl, by simp [applyPairs, hresolve]⟩
    | noMatch find near =>
      exact .inr ⟨[], pair, working, ⟨pairs, rfl⟩, rfl, by simp [applyPairs, hresolve]⟩

theorem exists_stops {find replace : List Char}
    (h : applyAllPairs K crc32 diffLines original pairs = .alreadyApplied find replace) :
    ∃ pre pair w, Stops K crc32 diffLines original pairs pre pair w := by
  rcases resolves_or_stops K crc32 diffLines pairs original with ⟨w, hw⟩ | hstops
  · have happlied : applyPairsFrom K crc32 diffLines original original (pairs ++ []) =
        applyPairsFrom K crc32 diffLines original w [] :=
      applyPairsFrom_append K crc32 diffLines hw []
    rw [List.append_nil] at happlied
    rw [applyAllPairs, happlied] at h
    cases h
  · exact hstops

theorem applyPairs_cons : applyPairs K crc32 diffLines working (pair :: pairs) =
    (applyPairs K crc32 diffLines working [pair]).bind fun w =>
      applyPairs K crc32 diffLines w pairs := by
  rw [applyPairs, applyPairs]
  cases resolvePair K crc32 diffLines working pair <;> rfl

variable {K crc32 diffLines}

theorem Stops.unique (h : Stops K crc32 diffLines working pairs pre pair w)
    (h' : Stops K crc32 diffLines working pairs pre' pair' w') :
    pre = pre' ∧ pair = pair' ∧ w = w' := by
  obtain ⟨⟨post, rfl⟩, hpre, hstop⟩ := h
  obtain ⟨⟨post', heq⟩, hpre', hstop'⟩ := h'
  induction pre generalizing working pre' with
  | nil =>
    cases pre' with
    | nil =>
      grind
    | cons first pre' =>
      cases hpre
      obtain ⟨rfl, -⟩ := List.cons.inj heq
      rw [applyPairs_cons, hstop] at hpre'
      cases hpre'
  | cons first pre ih =>
    cases pre' with
    | nil =>
      cases hpre'
      obtain ⟨rfl, -⟩ := List.cons.inj heq
      rw [applyPairs_cons, hstop'] at hpre
      cases hpre
    | cons first' pre' =>
      obtain ⟨rfl, htail⟩ := List.cons.inj heq
      rw [applyPairs_cons] at hpre hpre'
      obtain ⟨next, hnext, hrest⟩ := Option.bind_eq_some_iff.mp hpre
      obtain ⟨next', hnext', hrest'⟩ := Option.bind_eq_some_iff.mp hpre'
      rw [hnext] at hnext'
      cases hnext'
      obtain ⟨rfl, hpair, hw⟩ := ih hrest htail hrest'
      exact ⟨rfl, hpair, hw⟩

theorem Changes.cons (hfirst : applyPairs K crc32 diffLines working [pair] = some w)
    (h : Changes K crc32 diffLines w pairs) :
    Changes K crc32 diffLines working (pair :: pairs) := by
  obtain ⟨pre, next, post, v, v', rfl, hpre, hnext, hne⟩ := h
  refine ⟨pair :: pre, next, post, v, v', rfl, ?_, hnext, hne⟩
  rw [applyPairs_cons, hfirst, Option.bind_some, hpre]

theorem eq_of_not_changes (hpre : applyPairs K crc32 diffLines working pre = some w)
    (h : ¬ Changes K crc32 diffLines working pre) : w = working := by
  induction pre generalizing working with
  | nil =>
    cases hpre
    rfl
  | cons pair pre ih =>
    rw [applyPairs_cons] at hpre
    obtain ⟨next, hnext, hrest⟩ := Option.bind_eq_some_iff.mp hpre
    have hsame : next = working := by
      by_contra hne
      exact h ⟨[], pair, pre, working, next, rfl, rfl, hnext, hne⟩
    have hw := ih hrest fun hchanges => h (hchanges.cons hnext)
    rw [hw, hsame]

variable (K crc32 diffLines)

end

theorem tryFuzzy_of_below {content find : List Char}
    (h : ∀ line ∈ physicalLines content, lineScore content find line < bar) :
    ∃ near, (tryFuzzy content find : MatchOutcome Rat) = .noMatch near := by
  have hnone : aboveBar content find = [] := by
    rw [List.eq_nil_iff_forall_not_mem]
    intro s hs
    obtain ⟨hline, -, hbar⟩ := mem_aboveBar.mp hs
    exact absurd (h s.2 hline) (not_lt.mpr hbar)
  unfold aboveBar bar at hnone
  rw [tryFuzzy]
  simp only [hnone]
  exact ⟨_, rfl⟩

def lineDiff (find text : List Char) : List (ChangeTag × List Char) :=
  [(.delete, find), (.insert, text)]

def lastLetter : EditPair := ⟨"abcdefg".toList, "abcdefX".toList, false, none, by simp⟩

def toBaz : EditPair := ⟨"foo".toList, "baz".toList, false, none, by simp⟩

def toBar : EditPair := ⟨"qux".toList, "bar".toList, false, none, by simp⟩

end SwissArmyHammer.Edit
