import Mathlib.Algebra.BigOperators.Group.List.Basic
import Mathlib.Algebra.Order.BigOperators.Group.List
import Mathlib.Algebra.Order.Field.Basic
import Mathlib.Algebra.Order.Ring.Rat
import Mathlib.Data.Finset.Card
import Mathlib.Data.Finset.Lattice.Basic
import Mathlib.Tactic.Linarith
import Mathlib.Tactic.Positivity
import SwissArmyHammer.Common.IndexMap
import SwissArmyHammer.Common.StableSort

/-! The in-memory ranker. Each document gets a raw value for each signal; the signals that are
present are fused by the ranks that they give to the documents. Numbers are exact. -/

namespace SwissArmyHammer.Search

/-- `unicode_words`, the split of a word at the case and delimiter boundaries, and
`to_lowercase`. -/
structure Lexer where
  unicodeWords : List Char → List (List Char)
  splitWord : List Char → List (List Char)
  toLowercase : List Char → List Char

structure Analysis (R : Type) where
  ln : R → R
  sqrt : R → R

abbrev Token := List Char

section

variable (L : Lexer)

def tokenize (text : List Char) : List Token :=
  (L.unicodeWords text).flatMap fun word =>
    ((L.splitWord word).filter (· ≠ [])).map L.toLowercase

def windows3 : List Char → List (List Char)
  | a :: b :: c :: rest => [a, b, c] :: windows3 (b :: c :: rest)
  | _ => []

def charTrigrams (s : List Char) : List (List Char) := windows3 (L.toLowercase s)

def canonicalTrigramSet (s : List Char) : Finset (List Char) :=
  (charTrigrams L (List.intercalate [' '] (tokenize L s))).toFinset

end

structure DocField (R : Type) where
  weight : R
  text : List Char
  deriving DecidableEq

structure Doc (R : Type) where
  id : String
  fields : List (DocField R)
  embedding : Option (List R)
  deriving DecidableEq

structure SignalWeights (R : Type) where
  bm25 : R
  trigram : R
  cosine : R

structure Query (R : Type) where
  text : List Char
  embedding : Option (List R)
  weights : SignalWeights R
  topK : Nat
  minScore : Option R

structure Signals (R : Type) where
  bm25 : R
  trigram : R
  cosine : R
  deriving DecidableEq

structure Hit (R : Type) where
  id : String
  score : R
  signals : Signals R

structure DocTokens (R : Type) where
  fields : List (R × List Token)
  len : Nat

/-- The document frequencies of the query terms, the number of documents, and the sum of their
lengths, whose mean is `avgdl`. -/
structure Bm25Corpus where
  df : Token → Nat
  n : Nat
  totalLen : Nat

structure SignalSpec (R : Type) where
  weight : R
  extract : Signals R → R

def DocTokens.fromDoc {R : Type} (L : Lexer) (doc : Doc R) : DocTokens R :=
  let fields := doc.fields.map fun f => (f.weight, tokenize L f.text)
  ⟨fields, (fields.map fun f => f.2.length).sum⟩

def DocTokens.queryTermsPresent {R : Type} (dt : DocTokens R) (queryTokens : List Token) :
    List Token := (dt.fields.flatMap fun f => f.2.filter (· ∈ queryTokens)).dedup

def Bm25Corpus.build (queryTokens : List Token) (docs : List (Nat × List Token)) : Bm25Corpus :=
  docs.foldl (fun corpus doc =>
    ⟨fun term => if term ∈ queryTokens ∧ term ∈ doc.2 then corpus.df term + 1 else corpus.df term,
      corpus.n + 1, corpus.totalLen + doc.1⟩) ⟨fun _ => 0, 0, 0⟩

section

variable {R : Type} [Field R] [LinearOrder R] (M : Analysis R) (L : Lexer)

def DocTokens.weightedTf (dt : DocTokens R) (queryTokens : List Token) : Token → R :=
  dt.fields.foldl (fun tf f =>
    f.2.foldl (fun tf token =>
      if token ∈ queryTokens then fun term => if term = token then tf term + f.1 else tf term
      else tf) tf) fun _ => 0

def Bm25Corpus.avgdl (corpus : Bm25Corpus) : R :=
  if corpus.n = 0 then 0 else corpus.totalLen / corpus.n

def k1 : R := 6 / 5

def b : R := 3 / 4

def rrfK : R := 60

def bm25Score (corpus : Bm25Corpus) (weightedTf : Token → R) (docLen : Nat)
    (queryTokens : List Token) : R :=
  if (corpus.avgdl : R) = 0 then 0
  else
    let n : R := corpus.n
    let lenNorm : R := k1 * (1 - b + b * docLen / corpus.avgdl)
    (queryTokens.dedup.map fun term =>
      let tf := weightedTf term
      if tf = 0 then 0
      else
        let df : R := corpus.df term
        let idf := M.ln (1 + (n - df + 1 / 2) / (df + 1 / 2))
        idf * tf * (k1 + 1) / (tf + lenNorm)).sum

def trigramDice (query target : List Char) : R :=
  let a := canonicalTrigramSet L query
  let b := canonicalTrigramSet L target
  if a = ∅ ∨ b = ∅ then 0 else 2 * ((a ∩ b).card : R) / ((a.card + b.card : Nat) : R)

def cosineSimilarity (a b : List R) : R :=
  if a.length ≠ b.length ∨ a = [] then 0
  else
    let dot := (List.zipWith (· * ·) a b).sum
    let normA := M.sqrt (a.map fun x => x * x).sum
    let normB := M.sqrt (b.map fun y => y * y).sum
    if normA = 0 ∨ normB = 0 then 0 else dot / (normA * normB)

def scoreDoc (doc : Doc R) (dt : DocTokens R) (q : Query R) (corpus : Bm25Corpus)
    (queryTokens : List Token) : Signals R where
  bm25 := bm25Score M corpus (dt.weightedTf queryTokens) dt.len queryTokens
  trigram := (doc.fields.map fun f => f.weight * trigramDice L q.text f.text).sum
  cosine :=
    match q.embedding, doc.embedding with
    | some qe, some de => cosineSimilarity M qe de
    | _, _ => 0

def rrfFuse (rankedLists : List (List Nat)) (weights : List R) (k : R) : IndexMap Nat R :=
  (rankedLists.zip weights).foldl (fun fused lw =>
    lw.1.zipIdx.foldl (fun fused dr =>
      fused.insert dr.1 ((fused.get? dr.1).getD 0 + lw.2 / (k + dr.2))) fused) .empty

def valueAt (signals : List (Signals R)) (extract : Signals R → R) (i : Nat) : R :=
  (signals[i]?.map extract).getD 0

def rankedIndices (signals : List (Signals R)) (extract : Signals R → R) : List Nat :=
  sortDesc (valueAt signals extract) (List.range signals.length)

def scoredHits (docs : List (Doc R)) (signals : List (Signals R)) (specs : List (SignalSpec R)) :
    List (Hit R) :=
  let rankedLists := specs.map fun spec => rankedIndices signals spec.extract
  let weights := specs.map (·.weight)
  let fused := rrfFuse rankedLists weights rrfK
  let max := (weights.map (· / rrfK)).sum
  (docs.zip signals).mapIdx fun i row =>
    let raw := (fused.get? i).getD 0
    ⟨row.1.id, if max = 0 then 0 else raw / max, row.2⟩

def fuseAndRank (docs : List (Doc R)) (signals : List (Signals R)) (specs : List (SignalSpec R))
    (q : Query R) : List (Hit R) :=
  if specs.isEmpty then []
  else
    let sorted := sortDesc Hit.score (scoredHits docs signals specs)
    let kept := match q.minScore with
      | some floor => sorted.filter fun h : Hit R => floor ≤ h.score
      | none => sorted
    kept.take q.topK

def corpusOf (docs : List (Doc R)) (q : Query R) : Bm25Corpus :=
  let queryTokens := tokenize L q.text
  Bm25Corpus.build queryTokens (docs.map fun doc =>
    let dt := DocTokens.fromDoc L doc
    (dt.len, dt.queryTermsPresent queryTokens))

def presentSignals (docs : List (Doc R)) (q : Query R) : List (SignalSpec R) :=
  (if tokenize L q.text ≠ [] then [⟨q.weights.bm25, Signals.bm25⟩] else []) ++
  (if canonicalTrigramSet L q.text ≠ ∅ then [⟨q.weights.trigram, Signals.trigram⟩] else []) ++
  (if q.embedding.isSome ∧ ∃ doc ∈ docs, doc.embedding.isSome
    then [⟨q.weights.cosine, Signals.cosine⟩] else [])

def rawSignals (docs : List (Doc R)) (q : Query R) (doc : Doc R) : Signals R :=
  scoreDoc M L doc (DocTokens.fromDoc L doc) q (corpusOf L docs q) (tokenize L q.text)

def search (docs : List (Doc R)) (q : Query R) : List (Hit R) :=
  fuseAndRank docs (docs.map (rawSignals M L docs q)) (presentSignals L docs q) q

end

end SwissArmyHammer.Search

/-! How the order of the hits depends on the raw values. A document that is at least as good on
every signal comes before another one when it also stands before it in the corpus or ties with it
on no signal; where they tie and it stands behind, the credits of the ranks decide. -/

namespace SwissArmyHammer.Search

section

variable {R : Type} [Field R] {k weight : R} {list : List Nat}
  {fused : IndexMap Nat R} {i : Nat}

def fusedAt (fused : IndexMap Nat R) (i : Nat) : R := (fused.get? i).getD 0

theorem fusedAt_insert (fused : IndexMap Nat R) (d i : Nat) (v : R) :
    fusedAt (fused.insert d v) i = if i = d then v else fusedAt fused i := by
  by_cases hi : i = d
  · simp [fusedAt, hi]
  · simp [fusedAt, hi, IndexMap.get?_insert_of_ne hi]

theorem fusedAt_list (hnodup : list.Nodup) (start : Nat) (fused : IndexMap Nat R) (i : Nat) :
    fusedAt ((list.zipIdx start).foldl (fun fused dr =>
        fused.insert dr.1 ((fused.get? dr.1).getD 0 + weight / (k + dr.2))) fused) i =
      fusedAt fused i +
        if i ∈ list then weight / (k + (start + list.idxOf i : Nat)) else 0 := by
  induction list generalizing start fused with
  | nil => simp
  | cons d list ih =>
    obtain ⟨hnot, hrest⟩ := List.nodup_cons.mp hnodup
    rw [List.zipIdx_cons, List.foldl_cons, ih hrest, fusedAt_insert]
    by_cases hi : i = d
    · subst hi
      simp [hnot, fusedAt]
    · have hidx : (d :: list).idxOf i = list.idxOf i + 1 := List.idxOf_cons_ne list (Ne.symm hi)
      have hadd : start + 1 + list.idxOf i = start + (list.idxOf i + 1) := by omega
      simp [hi, hidx, hadd]

theorem fusedAt_rrfFuse (specs : List (SignalSpec R)) (lists : SignalSpec R → List Nat)
    (hnodup : ∀ spec ∈ specs, (lists spec).Nodup) (hmem : ∀ spec ∈ specs, i ∈ lists spec) :
    fusedAt (rrfFuse (specs.map lists) (specs.map (·.weight)) k) i =
      (specs.map fun spec => spec.weight / (k + ((lists spec).idxOf i : Nat))).sum := by
  have hstep : ∀ fused : IndexMap Nat R,
      fusedAt (((specs.map lists).zip (specs.map (·.weight))).foldl (fun fused lw =>
        lw.1.zipIdx.foldl (fun fused dr =>
          fused.insert dr.1 ((fused.get? dr.1).getD 0 + lw.2 / (k + dr.2))) fused) fused) i =
      fusedAt fused i +
        (specs.map fun spec => spec.weight / (k + ((lists spec).idxOf i : Nat))).sum := by
    induction specs with
    | nil => simp
    | cons spec specs ih =>
      intro fused
      have hrest := ih (fun s hs => hnodup s (List.mem_cons_of_mem spec hs))
        (fun s hs => hmem s (List.mem_cons_of_mem spec hs))
      rw [List.map_cons, List.map_cons, List.zip_cons_cons, List.foldl_cons, hrest,
        fusedAt_list (hnodup spec List.mem_cons_self), if_pos (hmem spec List.mem_cons_self),
        List.map_cons, List.sum_cons, Nat.zero_add, add_assoc]
  refine (hstep .empty).trans ?_
  rw [show fusedAt (.empty : IndexMap Nat R) i = 0 from rfl, zero_add]

variable [LinearOrder R] {signals : List (Signals R)}

def credit (specs : List (SignalSpec R)) (signals : List (Signals R)) (i : Nat) : R :=
  (specs.map fun spec =>
    spec.weight / ((rrfK : R) + (rank (valueAt signals spec.extract) signals.length i : Nat))).sum

theorem fusedAt_eq_credit (specs : List (SignalSpec R)) (hi : i < signals.length) :
    fusedAt (rrfFuse (specs.map fun spec => rankedIndices signals spec.extract)
      (specs.map (·.weight)) rrfK) i = credit specs signals i := by
  rw [fusedAt_rrfFuse specs (fun spec => rankedIndices signals spec.extract)
    (fun spec _ => nodup_sortDesc_range _ _) (fun spec _ => mem_sortDesc_range.mpr hi), credit]
  simp only [rankedIndices, idxOf_sortDesc_range hi]

variable {docs : List (Doc R)} {specs : List (SignalSpec R)} {x : Doc R}

theorem scoredHits_length (h : signals.length = docs.length) :
    (scoredHits docs signals specs).length = docs.length := by
  simp [scoredHits, h]

variable (specs) in
theorem scoredHits_get? (hx : docs[i]? = some x) {s : Signals R}
    (hs : signals[i]? = some s) :
    (scoredHits docs signals specs)[i]? = some ⟨x.id,
      if (specs.map fun spec => spec.weight / rrfK).sum = 0 then 0
      else credit specs signals i / (specs.map fun spec => spec.weight / rrfK).sum, s⟩ := by
  have hi : i < signals.length := (List.getElem?_eq_some_iff.mp hs).1
  have hfused := fusedAt_eq_credit specs hi
  rw [fusedAt] at hfused
  have hrow : (docs.zip signals)[i]? = some (x, s) := by
    simp [List.getElem?_zip_eq_some, hx, hs]
  simp only [scoredHits, List.getElem?_mapIdx, hrow, Option.map_some, hfused, List.map_map]
  rfl

end

section

variable {R : Type} {L : Lexer} {docs docs' : List (Doc R)} {q : Query R}

theorem build_perm {queryTokens : List Token} {rows rows' : List (Nat × List Token)}
    (h : rows.Perm rows') :
    Bm25Corpus.build queryTokens rows = Bm25Corpus.build queryTokens rows' := by
  refine h.foldl_eq' (fun doc _ doc' _ corpus => ?_) _
  simp only [Bm25Corpus.mk.injEq]
  refine ⟨funext fun term => ?_, trivial, by omega⟩
  split_ifs <;> rfl

theorem presentSignals_perm (h : docs.Perm docs') :
    presentSignals L docs q = presentSignals L docs' q := by
  have hany : (∃ doc ∈ docs, doc.embedding.isSome) ↔ ∃ doc ∈ docs', doc.embedding.isSome := by
    simp only [h.mem_iff]
  simp only [presentSignals, hany]

end

section

variable {R : Type} [Field R] [LinearOrder R] {M : Analysis R} {L : Lexer}
  {docs docs' : List (Doc R)} {q : Query R} {specs : List (SignalSpec R)}
  {signals : List (Signals R)} {x y : Doc R} {i j : Nat}

theorem rawSignals_perm (h : docs.Perm docs') : rawSignals M L docs q = rawSignals M L docs' q := by
  have hcorpus : corpusOf L docs q = corpusOf L docs' q := build_perm (h.map _)
  funext doc
  rw [rawSignals, rawSignals, hcorpus]

variable (M L) in
def searchOrder (docs : List (Doc R)) (q : Query R) : List Nat :=
  sortDesc (credit (presentSignals L docs q) (docs.map (rawSignals M L docs q)))
    (List.range docs.length)

def HitsOf (M : Analysis R) (L : Lexer) (docs : List (Doc R)) (q : Query R) (order : List Nat)
    (hits : List (Hit R)) : Prop :=
  order.Perm (List.range docs.length) ∧ List.Forall₂ (fun i hit => ∃ x, docs[i]? = some x ∧
    hit.id = x.id ∧ hit.signals = rawSignals M L docs q x) order hits

theorem pair_sublist_searchOrder (hne : i ≠ j) (hi : i < docs.length) (hj : j < docs.length) :
    [i, j].Sublist (searchOrder M L docs q) ↔
      Before (credit (presentSignals L docs q) (docs.map (rawSignals M L docs q))) i j :=
  pair_sublist_iff_before hne hi hj

def Dominates (specs : List (SignalSpec R)) (s t : Signals R) : Prop :=
  (∀ spec ∈ specs, spec.extract t ≤ spec.extract s) ∧
    ∃ spec ∈ specs, spec.extract t < spec.extract s

instance (specs : List (SignalSpec R)) (s t : Signals R) : Decidable (Dominates specs s t) :=
  inferInstanceAs (Decidable (_ ∧ ∃ spec ∈ specs, _))

def StrictlyDominates (specs : List (SignalSpec R)) (s t : Signals R) : Prop :=
  specs ≠ [] ∧ ∀ spec ∈ specs, spec.extract t < spec.extract s

theorem weight_pos (hbm25 : 0 < q.weights.bm25) (htrigram : 0 < q.weights.trigram)
    (hcosine : 0 < q.weights.cosine) : ∀ spec ∈ presentSignals L docs q, 0 < spec.weight := by
  intro spec hspec
  rw [presentSignals, List.mem_append, List.mem_append] at hspec
  rcases hspec with (hspec | hspec) | hspec <;> split at hspec
  all_goals grind

theorem valueAt_raw (extract : Signals R → R) (hx : docs[i]? = some x) :
    valueAt (docs.map (rawSignals M L docs q)) extract i =
      extract (rawSignals M L docs q x) := by
  simp [valueAt, hx]

variable [IsStrictOrderedRing R]

variable (signals) in
theorem credit_lt (hne : specs ≠ []) (hpos : ∀ spec ∈ specs, 0 < spec.weight)
    (hi : i < signals.length) (hj : j < signals.length)
    (hbefore : ∀ spec ∈ specs, Before (valueAt signals spec.extract) i j) :
    credit specs signals j < credit specs signals i := by
  refine List.sum_lt_sum_of_ne_nil hne _ _ fun spec hspec => ?_
  have hrank := rank_lt_of_before (hbefore spec hspec) hi hj
  have hcast : ((rank (valueAt signals spec.extract) signals.length i : Nat) : R) <
      (rank (valueAt signals spec.extract) signals.length j : Nat) := by exact_mod_cast hrank
  have hk : (0 : R) < rrfK := by
    rw [rrfK]
    positivity
  have hden : (0 : R) < rrfK + (rank (valueAt signals spec.extract) signals.length i : Nat) := by
    positivity
  exact div_lt_div_of_pos_left (hpos spec hspec) hden (by linarith)

theorem search_eq_order (hne : presentSignals L docs q ≠ [])
    (hpos : ∀ spec ∈ presentSignals L docs q, 0 < spec.weight) (htop : docs.length ≤ q.topK)
    (hmin : q.minScore = none) :
    HitsOf M L docs q (searchOrder M L docs q) (search M L docs q) := by
  have hk : (0 : R) < rrfK := by
    rw [rrfK]
    positivity
  have hmax : 0 < ((presentSignals L docs q).map fun spec => spec.weight / rrfK).sum :=
    List.sum_pos _ (fun v hv => by
      obtain ⟨spec, hspec, rfl⟩ := List.mem_map.mp hv
      exact div_pos (hpos spec hspec) hk) (by simpa using hne)
  have hlen : (docs.map (rawSignals M L docs q)).length = docs.length := List.length_map _
  let hits := scoredHits docs (docs.map (rawSignals M L docs q)) (presentSignals L docs q)
  let hitAt i := hits.getD i ⟨"", 0, ⟨0, 0, 0⟩⟩
  have hhitsLen : hits.length = docs.length := scoredHits_length hlen
  have hhits : hits = (List.range docs.length).map hitAt := by
    rw [← hhitsLen]
    refine List.ext_getElem (by simp) fun i hi hi' => ?_
    simp [hitAt, List.getD_eq_getElem?_getD, hi]
  have hat : ∀ i x, docs[i]? = some x → hitAt i = ⟨x.id,
      credit (presentSignals L docs q) (docs.map (rawSignals M L docs q)) i /
        ((presentSignals L docs q).map fun spec => spec.weight / rrfK).sum,
      rawSignals M L docs q x⟩ := by
    intro i x hx
    have hget := scoredHits_get? (presentSignals L docs q) hx
      (show (docs.map (rawSignals M L docs q))[i]? = some (rawSignals M L docs q x) by simp [hx])
    rw [if_neg hmax.ne'] at hget
    simp only [hitAt, List.getD_eq_getElem?_getD]
    exact (congrArg (Option.getD · _) hget).trans rfl
  have hsearch : search M L docs q = (searchOrder M L docs q).map hitAt := by
    have hfuse : search M L docs q = sortDesc Hit.score hits := by
      rw [search, fuseAndRank, if_neg (by simpa using hne), hmin]
      refine List.take_of_length_le ?_
      rw [(sortDesc_perm Hit.score _).length_eq]
      exact hhitsLen.trans_le htop
    rw [hfuse, hhits, ← map_sortDesc, searchOrder]
    refine congrArg (List.map hitAt) (sortDesc_congr fun a ha b hb => ?_)
    rw [hat a _ (List.getElem?_eq_getElem (List.mem_range.mp ha)),
      hat b _ (List.getElem?_eq_getElem (List.mem_range.mp hb))]
    exact div_le_div_iff_of_pos_right hmax
  refine ⟨sortDesc_perm _ _, ?_⟩
  rw [hsearch, List.forall₂_map_right_iff, List.forall₂_same]
  intro i hi
  have hi : i < docs.length := mem_sortDesc_range.mp hi
  have hx : docs[i]? = some docs[i] := List.getElem?_eq_getElem hi
  refine ⟨docs[i], hx, ?_, ?_⟩
  · rw [hat i _ hx]
  · rw [hat i _ hx]

theorem sublist_of_before (hpos : ∀ spec ∈ presentSignals L docs q, 0 < spec.weight)
    (hne : presentSignals L docs q ≠ []) (hx : docs[i]? = some x) (hy : docs[j]? = some y)
    (hbefore : ∀ spec ∈ presentSignals L docs q,
      spec.extract (rawSignals M L docs q y) < spec.extract (rawSignals M L docs q x) ∨
      spec.extract (rawSignals M L docs q x) = spec.extract (rawSignals M L docs q y) ∧ i < j) :
    [i, j].Sublist (searchOrder M L docs q) := by
  have hi : i < docs.length := (List.getElem?_eq_some_iff.mp hx).1
  have hj : j < docs.length := (List.getElem?_eq_some_iff.mp hy).1
  have hcredit := credit_lt (docs.map (rawSignals M L docs q)) hne hpos
    (by simpa using hi) (by simpa using hj) fun spec hspec => by
      rw [Before, valueAt_raw spec.extract hx, valueAt_raw spec.extract hy]
      exact hbefore spec hspec
  have hdiff : i ≠ j := by
    rintro rfl
    exact lt_irrefl _ hcredit
  exact (pair_sublist_searchOrder hdiff hi hj).mpr (.inl hcredit)

/-- A document that dominates another comes first when it stands first in the corpus, or dominates
strictly, whatever the order of the corpus. Otherwise it comes first exactly when it has more
credit. -/
theorem search_respects_dominance (hbm25 : 0 < q.weights.bm25) (htrigram : 0 < q.weights.trigram)
    (hcosine : 0 < q.weights.cosine) (htop : docs.length ≤ q.topK) (hmin : q.minScore = none)
    (hx : docs[i]? = some x) (hy : docs[j]? = some y)
    (h : Dominates (presentSignals L docs q) (rawSignals M L docs q x) (rawSignals M L docs q y)) :
    HitsOf M L docs q (searchOrder M L docs q) (search M L docs q) ∧
    (i < j → [i, j].Sublist (searchOrder M L docs q)) ∧
    (StrictlyDominates (presentSignals L docs q) (rawSignals M L docs q x)
        (rawSignals M L docs q y) →
      ∀ docs', docs.Perm docs' → HitsOf M L docs' q (searchOrder M L docs' q) (search M L docs' q) ∧
        ∀ i' j', docs'[i']? = some x → docs'[j']? = some y →
          [i', j'].Sublist (searchOrder M L docs' q)) ∧
    (j < i → ([i, j].Sublist (searchOrder M L docs q) ↔
      credit (presentSignals L docs q) (docs.map (rawSignals M L docs q)) j <
        credit (presentSignals L docs q) (docs.map (rawSignals M L docs q)) i)) := by
  obtain ⟨hge, spec, hspec, -⟩ := h
  have hne : presentSignals L docs q ≠ [] := List.ne_nil_of_mem hspec
  have hpos : ∀ spec ∈ presentSignals L docs q, 0 < spec.weight :=
    weight_pos hbm25 htrigram hcosine
  refine ⟨search_eq_order hne hpos htop hmin, fun hij => ?_, fun hstrict docs' hperm => ?_,
    fun hji => ?_⟩
  · refine sublist_of_before hpos hne hx hy fun spec hspec => ?_
    rcases (hge spec hspec).lt_or_eq with hlt | heq
    · exact .inl hlt
    · exact .inr ⟨heq.symm, hij⟩
  · rw [presentSignals_perm hperm] at hpos hne hstrict
    rw [rawSignals_perm hperm] at hstrict
    have htop' : docs'.length ≤ q.topK := hperm.length_eq ▸ htop
    exact ⟨search_eq_order hne hpos htop' hmin, fun i' j' hx' hy' =>
      sublist_of_before hpos hne hx' hy' fun spec hspec => .inl (hstrict.2 spec hspec)⟩
  · have hi : i < docs.length := (List.getElem?_eq_some_iff.mp hx).1
    have hj : j < docs.length := (List.getElem?_eq_some_iff.mp hy).1
    rw [pair_sublist_searchOrder (Nat.ne_of_gt hji) hi hj, Before]
    exact or_iff_left fun htie => absurd htie.2 (by omega)

end

def oneWord : Lexer := ⟨fun text => [text], fun word => [word], fun word => word⟩

def rational : Analysis ℚ := ⟨fun x => x - 1, fun x => x⟩

def plainDoc (id : String) (text : List Char) : Doc ℚ := ⟨id, [⟨1, text⟩], none⟩

def plainQuery : Query ℚ := ⟨['a', 'b', 'c', 'd'], none, ⟨1, 1, 1⟩, 3, none⟩

def matchLast : List (Doc ℚ) :=
  [plainDoc "b" ['x', 'y', 'z'], plainDoc "c" ['x', 'y', 'z'], plainDoc "a" ['a', 'b', 'c', 'e']]

theorem search_respects_dominance_match :
    [0, 2].Sublist (searchOrder rational oneWord matchLast.reverse plainQuery) :=
  (search_respects_dominance (by decide) (by decide) (by decide) (by decide) rfl
    (show matchLast.reverse[0]? = some (plainDoc "a" ['a', 'b', 'c', 'e']) from rfl)
    (show matchLast.reverse[2]? = some (plainDoc "b" ['x', 'y', 'z']) from rfl)
    (by decide +kernel)).2.1 (by decide)

theorem match_behind_no_signal :
    matchLast[2]? = some (plainDoc "a" ['a', 'b', 'c', 'e']) ∧
    matchLast[0]? = some (plainDoc "b" ['x', 'y', 'z']) ∧
    Dominates (presentSignals oneWord matchLast plainQuery)
      (rawSignals rational oneWord matchLast plainQuery (plainDoc "a" ['a', 'b', 'c', 'e']))
      (rawSignals rational oneWord matchLast plainQuery (plainDoc "b" ['x', 'y', 'z'])) ∧
    rawSignals rational oneWord matchLast plainQuery (plainDoc "b" ['x', 'y', 'z']) = ⟨0, 0, 0⟩ ∧
    (search rational oneWord matchLast plainQuery).map (·.id) = ["b", "a", "c"] := by
  decide +kernel

end SwissArmyHammer.Search
