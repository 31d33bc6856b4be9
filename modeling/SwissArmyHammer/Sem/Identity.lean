import Mathlib.Data.List.Dedup
import Mathlib.Data.List.Perm.Subperm
import SwissArmyHammer.Common.IndexMap
import SwissArmyHammer.Text.Lines

/-! The entities of a file before and after a change, and how they are matched: by id, by hash, and
by how alike they are. -/

namespace SwissArmyHammer.Sem.Identity

structure Entity where
  id : String
  filePath : String
  entityType : String
  name : String
  content : String
  contentHash : String
  structuralHash : Option String
  deriving DecidableEq

inductive ChangeType
  | added
  | modified
  | deleted
  | moved
  | renamed
  deriving DecidableEq

structure Change where
  id : String
  entityId : String
  changeType : ChangeType
  entityType : String
  entityName : String
  filePath : String
  oldFilePath : Option String
  beforeContent : Option String
  afterContent : Option String
  commitSha : Option String
  author : Option String
  structuralChange : Option Bool
  deriving DecidableEq

structure Commit where
  sha : Option String
  author : Option String

section

variable (commit : Commit)

def structuralChange (b a : Entity) : Option Bool :=
  match b.structuralHash, a.structuralHash with
  | some before, some after => some (before ≠ after)
  | _, _ => none

def modifiedChange (p : Entity × Entity) : Change where
  id := "change::" ++ p.2.id
  entityId := p.2.id
  changeType := .modified
  entityType := p.2.entityType
  entityName := p.2.name
  filePath := p.2.filePath
  oldFilePath := none
  beforeContent := some p.1.content
  afterContent := some p.2.content
  commitSha := commit.sha
  author := commit.author
  structuralChange := structuralChange p.1 p.2

def renamedChange (p : Entity × Entity) : Change where
  id := "change::" ++ p.2.id
  entityId := p.2.id
  changeType := if p.1.filePath ≠ p.2.filePath then .moved else .renamed
  entityType := p.2.entityType
  entityName := p.2.name
  filePath := p.2.filePath
  oldFilePath := if p.1.filePath ≠ p.2.filePath then some p.1.filePath else none
  beforeContent := some p.1.content
  afterContent := some p.2.content
  commitSha := commit.sha
  author := commit.author
  structuralChange := none

def deletedChange (e : Entity) : Change where
  id := "change::deleted::" ++ e.id
  entityId := e.id
  changeType := .deleted
  entityType := e.entityType
  entityName := e.name
  filePath := e.filePath
  oldFilePath := none
  beforeContent := some e.content
  afterContent := none
  commitSha := commit.sha
  author := commit.author
  structuralChange := none

def addedChange (e : Entity) : Change where
  id := "change::added::" ++ e.id
  entityId := e.id
  changeType := .added
  entityType := e.entityType
  entityName := e.name
  filePath := e.filePath
  oldFilePath := none
  beforeContent := none
  afterContent := some e.content
  commitSha := commit.sha
  author := commit.author
  structuralChange := none

end

def byId (es : List Entity) : IndexMap String Entity :=
  es.foldl (fun m e => m.insert e.id e) .empty

def sameId (before after : List Entity) : List (Entity × Entity) :=
  (byId after).entries.filterMap fun entry =>
    ((byId before).get? entry.1).map fun b => (b, entry.2)

structure Pool where
  byHash : IndexMap String (List Entity)
  byStructural : IndexMap String (List Entity)
  matchedBefore : List String
  matchedAfter : List String
  pairs : List (Entity × Entity)

def Pool.file (pool : Pool) (e : Entity) : Pool :=
  { pool with
    byHash := pool.byHash.push e.contentHash e
    byStructural :=
      match e.structuralHash with
      | some sh => pool.byStructural.push sh e
      | none => pool.byStructural }

def Pool.take (pool : Pool) (b a : Entity) : Pool :=
  { pool with
    matchedBefore := pool.matchedBefore ++ [b.id]
    matchedAfter := pool.matchedAfter ++ [a.id]
    pairs := pool.pairs ++ [(b, a)] }

def Pool.popped (pool : Pool) (a : Entity) : Option Entity :=
  (pool.byHash.values a.contentHash).getLast?

def Pool.untaken (pool : Pool) (e : Entity) : Bool := e.id ∉ pool.matchedBefore

def Pool.structural (pool : Pool) (a : Entity) : Option (String × Entity) :=
  a.structuralHash.bind fun sh =>
    ((pool.byStructural.values sh).find? pool.untaken).map fun b => (sh, b)

def Pool.matchHash (pool : Pool) (a : Entity) : Pool :=
  if a.id ∈ pool.matchedAfter then pool
  else
    match pool.popped a with
    | some b =>
      { pool with byHash := pool.byHash.modify a.contentHash List.dropLast }.take b a
    | none =>
      match pool.structural a with
      | some (sh, b) =>
        { pool with
          byStructural := pool.byStructural.modify sh fun c => c.eraseP pool.untaken }.take b a
      | none => pool

/-- `content.split_whitespace().count()`. -/
def tokenCount (e : Entity) : Nat :=
  ((e.content.toList.splitOnP Text.isWhitespace).filter (· ≠ [])).length

def sizesDiffer (a b : Nat) : Bool := 0 < max a b && 2 * min a b < max a b

/-- What the third phase asks of the scores: whether one is above another, and at least another. -/
structure Scores (F : Type) where
  zero : F
  threshold : F
  above : F → F → Bool
  atLeast : F → F → Bool

structure Fuzzy where
  matchedBefore : List String
  matchedAfter : List String
  pairs : List (Entity × Entity)

section

variable {F : Type} (scores : Scores F) (similarity : Entity → Entity → F)

def keepBest (s : Fuzzy) (a : Entity) (best : Option Entity × F) (b : Entity) : Option Entity × F :=
  if b.id ∈ s.matchedBefore then best
  else if b.entityType ≠ a.entityType then best
  else if sizesDiffer (tokenCount a) (tokenCount b) then best
  else
    let score := similarity b a
    if scores.above score best.2 && scores.atLeast score scores.threshold then (some b, score)
    else best

def bestMatch (s : Fuzzy) (candidates : List Entity) (a : Entity) : Option Entity :=
  (candidates.foldl (keepBest scores similarity s a) (none, scores.zero)).1

def matchFuzzy (candidates : List Entity) (s : Fuzzy) (a : Entity) : Fuzzy :=
  match bestMatch scores similarity s candidates a with
  | some b =>
    { matchedBefore := s.matchedBefore ++ [b.id]
      matchedAfter := s.matchedAfter ++ [a.id]
      pairs := s.pairs ++ [(b, a)] }
  | none => s

end

section

variable {F : Type} (scores : Scores F) (similarity : Option (Entity → Entity → F))
  (before after : List Entity) (commit : Commit)

def matchedIds : List String := (sameId before after).map fun p => p.2.id

def unmatched (es : List Entity) (matched : List String) : List Entity :=
  es.filter fun e => e.id ∉ matched

def startPool : Pool :=
  (unmatched before (matchedIds before after)).foldl Pool.file
    ⟨.empty, .empty, matchedIds before after, matchedIds before after, []⟩

def afterHashes : Pool :=
  (unmatched after (matchedIds before after)).foldl Pool.matchHash (startPool before after)

def afterFuzzy : Fuzzy :=
  let pool := afterHashes before after
  let s : Fuzzy := ⟨pool.matchedBefore, pool.matchedAfter, []⟩
  let stillBefore := unmatched (unmatched before (matchedIds before after)) pool.matchedBefore
  let stillAfter := unmatched (unmatched after (matchedIds before after)) pool.matchedAfter
  match similarity with
  | some sim => stillAfter.foldl (matchFuzzy scores sim stillBefore) s
  | none => s

def matchEntities : List Change :=
  let s := afterFuzzy scores similarity before after
  ((sameId before after).filter fun p => p.1.contentHash ≠ p.2.contentHash).map
      (modifiedChange commit) ++
    ((afterHashes before after).pairs ++ s.pairs).map (renamedChange commit) ++
    (unmatched before s.matchedBefore).map (deletedChange commit) ++
    (unmatched after s.matchedAfter).map (addedChange commit)

end

section

variable {es bs : List Entity} {e : Entity}

theorem entries_foldl_insert (m : IndexMap String Entity)
    (h : (m.entries.map Prod.fst ++ es.map Entity.id).Nodup) :
    (es.foldl (fun m e => m.insert e.id e) m).entries =
      m.entries ++ es.map fun e => (e.id, e) := by
  induction es generalizing m with
  | nil => simp
  | cons e es ih =>
    have hnew : e.id ∉ m.entries.map Prod.fst := fun hmem =>
      (List.nodup_append.mp h).2.2 e.id hmem e.id List.mem_cons_self rfl
    have hlookup : IndexMap.lookup e.id m.entries = none := by
      rw [Option.eq_none_iff_forall_ne_some]
      intro v hv
      exact hnew (List.mem_map_of_mem (IndexMap.get?_eq_some_iff.mp hv))
    have hentries : (m.insert e.id e).entries = m.entries ++ [(e.id, e)] :=
      IndexMap.insertEntry_of_lookup hlookup
    rw [List.foldl_cons, ih, hentries, List.append_assoc]
    · rfl
    · rw [hentries, List.map_append, List.append_assoc]
      exact h

theorem entries_byId (h : (es.map Entity.id).Nodup) :
    (byId es).entries = es.map fun e => (e.id, e) := by
  have hempty : ((IndexMap.empty : IndexMap String Entity).entries.map Prod.fst ++
      es.map Entity.id).Nodup := by
    simpa [IndexMap.empty] using h
  exact entries_foldl_insert .empty hempty

theorem get?_byId (h : (es.map Entity.id).Nodup) {id : String} :
    (byId es).get? id = some e ↔ e ∈ es ∧ e.id = id := by
  rw [IndexMap.get?_eq_some_iff, entries_byId h, List.mem_map]
  constructor
  · simp
  · rintro ⟨he, rfl⟩
    exact ⟨e, he, rfl⟩

theorem eq_of_id (h : (es.map Entity.id).Nodup) {a b : Entity} (ha : a ∈ es) (hb : b ∈ es)
    (hid : a.id = b.id) : a = b :=
  List.inj_on_of_nodup_map h ha hb hid

theorem mem_unmatched {matched : List String} :
    e ∈ unmatched es matched ↔ e ∈ es ∧ e.id ∉ matched := by
  simp [unmatched]

theorem perm_unmatched (h : (es.map Entity.id).Nodup) (hsub : ∀ b ∈ bs, b ∈ es)
    (hbs : (bs.map Entity.id).Nodup) : es.Perm (bs ++ unmatched es (bs.map Entity.id)) := by
  have hnodup : (bs ++ unmatched es (bs.map Entity.id)).Nodup :=
    List.nodup_append.mpr ⟨hbs.of_map, h.of_map.filter _, fun b hb e he heq =>
      (mem_unmatched.mp he).2 (heq ▸ List.mem_map_of_mem hb)⟩
  rw [List.perm_ext_iff_of_nodup h.of_map hnodup]
  intro e
  rw [List.mem_append, mem_unmatched]
  constructor
  · intro he
    by_cases hin : e.id ∈ bs.map Entity.id
    · obtain ⟨b, hb, hid⟩ := List.mem_map.mp hin
      exact .inl (eq_of_id h (hsub b hb) he hid ▸ hb)
    · exact .inr ⟨he, hin⟩
  · rintro (hb | ⟨he, -⟩)
    · exact hsub e hb
    · exact he

theorem length_lt_of_twice (h : (es.map Entity.id).Nodup) (hsub : ∀ b ∈ bs, b ∈ es)
    (htwice : ¬ (bs.map Entity.id).Nodup) :
    es.length < bs.length + (unmatched es (bs.map Entity.id)).length := by
  have hinj : ∀ xs : List Entity, (∀ x ∈ xs, x ∈ es) → xs.Nodup → (xs.map Entity.id).Nodup :=
    fun xs hxs hnodup => hnodup.map_on fun a ha b hb hid => eq_of_id h (hxs a ha) (hxs b hb) hid
  have hdedupSub : ∀ b ∈ bs.dedup, b ∈ es := fun b hb => hsub b (List.mem_dedup.mp hb)
  have hperm := perm_unmatched h hdedupSub (hinj _ hdedupSub bs.nodup_dedup)
  have hsame : unmatched es (bs.dedup.map Entity.id) = unmatched es (bs.map Entity.id) := by
    refine List.filter_congr fun e _ => ?_
    simp only [List.mem_map, List.mem_dedup]
  have hless : bs.dedup.length < bs.length := by
    refine lt_of_le_of_ne bs.dedup_sublist.length_le fun heq => htwice ?_
    exact hinj bs hsub (bs.dedup_sublist.eq_of_length heq ▸ bs.nodup_dedup)
  have hlength := hperm.length_eq
  rw [hsame, List.length_append] at hlength
  omega

end

section

variable {before after : List Entity}

theorem sameId_eq (hafter : (after.map Entity.id).Nodup) :
    sameId before after =
      after.filterMap fun a => ((byId before).get? a.id).map fun b => (b, a) := by
  rw [sameId, entries_byId hafter, List.filterMap_map]
  rfl

theorem of_mem_sameId (hbefore : (before.map Entity.id).Nodup)
    (hafter : (after.map Entity.id).Nodup) {p : Entity × Entity} (h : p ∈ sameId before after) :
    p.1 ∈ before ∧ p.2 ∈ after ∧ p.1.id = p.2.id := by
  rw [sameId_eq hafter] at h
  obtain ⟨a, ha, hp⟩ := List.mem_filterMap.mp h
  obtain ⟨b, hb, rfl⟩ := Option.map_eq_some_iff.mp hp
  obtain ⟨hmem, hid⟩ := (get?_byId hbefore).mp hb
  exact ⟨hmem, ha, hid⟩

theorem map_snd_sublist {α β : Type} {f : β → Option (α × β)} (hf : ∀ x p, f x = some p → p.2 = x)
    (xs : List β) : ((xs.filterMap f).map Prod.snd).Sublist xs := by
  induction xs with
  | nil => exact List.Sublist.slnil
  | cons x xs ih =>
    rw [List.filterMap_cons]
    split
    · exact ih.cons x
    · grind

theorem sameId_sublist (hafter : (after.map Entity.id).Nodup) :
    ((sameId before after).map Prod.snd).Sublist after := by
  rw [sameId_eq hafter]
  refine map_snd_sublist (fun a p hp => ?_) after
  obtain ⟨b, -, rfl⟩ := Option.map_eq_some_iff.mp hp
  rfl

theorem nodup_matchedIds (hafter : (after.map Entity.id).Nodup) :
    (matchedIds before after).Nodup := by
  have hsecond : ((sameId before after).map Prod.snd).Sublist after := sameId_sublist hafter
  have hsub := hsecond.map Entity.id
  rw [List.map_map] at hsub
  exact hafter.sublist hsub

end

section

variable {pool : Pool} {a b : Entity} {key : String} {left : List Entity} {ids : List String}

structure PoolInv (left : List Entity) (ids : List String) (pool : Pool) : Prop where
  byHash : ∀ k, ∀ e ∈ pool.byHash.values k, e ∈ left
  byStructural : ∀ k, ∀ e ∈ pool.byStructural.values k, e ∈ left
  matchedBefore : pool.matchedBefore = ids ++ pool.pairs.map fun p => p.1.id
  matchedAfter : pool.matchedAfter = ids ++ pool.pairs.map fun p => p.2.id
  pairs : ∀ p ∈ pool.pairs, p.1 ∈ left

theorem mem_values_push {m : IndexMap String (List Entity)} {k : String} {v e : Entity}
    (h : e ∈ (m.push key v).values k) : e = v ∨ e ∈ m.values k := by
  by_cases hk : k = key
  · rw [hk, IndexMap.values_push_self] at h
    rcases List.mem_append.mp h with h | h
    · exact .inr (hk ▸ h)
    · exact .inl (List.mem_singleton.mp h)
  · rw [IndexMap.values_push_of_ne hk] at h
    exact .inr h

theorem mem_values_modify {m : IndexMap String (List Entity)} {k : String} {e : Entity}
    {f : List Entity → List Entity} (hf : ∀ es, (f es).Sublist es)
    (h : e ∈ (m.modify key f).values k) : e ∈ m.values k := by
  by_cases hk : k = key
  · subst hk
    rw [IndexMap.values_modify_self (List.sublist_nil.mp (hf []))] at h
    exact (hf _).subset h
  · rwa [IndexMap.values_modify_of_ne hk] at h

theorem PoolInv.file (h : PoolInv left ids pool) (ha : a ∈ left) :
    PoolInv left ids (pool.file a) := by
  refine ⟨fun k e he => ?_, fun k e he => ?_, h.matchedBefore, h.matchedAfter, h.pairs⟩
  · rcases mem_values_push he with rfl | he
    · exact ha
    · exact h.byHash k e he
  · simp only [Pool.file] at he
    split at he
    · rcases mem_values_push he with rfl | he
      · exact ha
      · exact h.byStructural k e he
    · exact h.byStructural k e he

theorem PoolInv.foldl_file (h : PoolInv left ids pool) {es : List Entity}
    (hes : ∀ e ∈ es, e ∈ left) : PoolInv left ids (es.foldl Pool.file pool) := by
  induction es generalizing pool with
  | nil => exact h
  | cons e es ih =>
    exact ih (h.file (hes e List.mem_cons_self)) fun x hx => hes x (List.mem_cons_of_mem e hx)

theorem PoolInv.take (h : PoolInv left ids pool) (hb : b ∈ left) :
    PoolInv left ids (pool.take b a) where
  byHash := h.byHash
  byStructural := h.byStructural
  matchedBefore := by simp [Pool.take, h.matchedBefore]
  matchedAfter := by simp [Pool.take, h.matchedAfter]
  pairs p hp := by
    rcases List.mem_append.mp hp with hp | hp
    · exact h.pairs p hp
    · rw [List.mem_singleton.mp hp]
      exact hb

theorem matchHash_cases (h : PoolInv left ids pool) (ha : a.id ∉ pool.matchedAfter) :
    (pool.matchHash a = pool ∧ pool.popped a = none) ∨
      ∃ b ∈ left, (pool.popped a = some b ∨ pool.popped a = none ∧ b.id ∉ pool.matchedBefore) ∧
        PoolInv left ids (pool.matchHash a) ∧ (pool.matchHash a).pairs = pool.pairs ++ [(b, a)] := by
  rw [Pool.matchHash, if_neg ha]
  cases hpopped : pool.popped a with
  | some b =>
    have hb : b ∈ left := h.byHash _ b (List.mem_of_getLast? hpopped)
    refine .inr ⟨b, hb, .inl rfl, PoolInv.take ?_ hb, rfl⟩
    exact ⟨fun k e he => h.byHash k e (mem_values_modify List.dropLast_sublist he),
      h.byStructural, h.matchedBefore, h.matchedAfter, h.pairs⟩
  | none =>
    cases hfound : pool.structural a with
    | none => exact .inl ⟨rfl, rfl⟩
    | some entry =>
      obtain ⟨sh, hsh, hfind⟩ := Option.bind_eq_some_iff.mp hfound
      obtain ⟨b, hfirst, rfl⟩ := Option.map_eq_some_iff.mp hfind
      have hb : b ∈ left := h.byStructural sh b (List.mem_of_find?_eq_some hfirst)
      have hfree : b.id ∉ pool.matchedBefore := by
        simpa [Pool.untaken] using List.find?_some hfirst
      refine .inr ⟨b, hb, .inr ⟨rfl, hfree⟩, PoolInv.take ?_ hb, rfl⟩
      exact ⟨h.byHash, fun k e he => h.byStructural k e
        (mem_values_modify (fun es => List.eraseP_sublist) he),
        h.matchedBefore, h.matchedAfter, h.pairs⟩

/-- Nothing is popped, when its turn comes, that was taken before through its structural hash. -/
def PopsUntaken : Pool → List Entity → Prop
  | _, [] => True
  | pool, a :: rest =>
    (∀ b, pool.popped a = some b → b.id ∉ pool.matchedBefore) ∧
      PopsUntaken (pool.matchHash a) rest

def beforeIds (pairs : List (Entity × Entity)) : List String := pairs.map fun p => p.1.id

theorem nodup_beforeIds_snoc {pairs : List (Entity × Entity)} {p : Entity × Entity} :
    (beforeIds (pairs ++ [p])).Nodup ↔ (beforeIds pairs).Nodup ∧ p.1.id ∉ beforeIds pairs := by
  rw [beforeIds, List.map_append, List.map_singleton, List.nodup_append_comm,
    List.singleton_append, List.nodup_cons, and_comm]
  rfl

theorem PoolInv.taken_iff (h : PoolInv left ids pool) (hleft : ∀ e ∈ left, e.id ∉ ids)
    (hb : b ∈ left) : b.id ∈ pool.matchedBefore ↔ b.id ∈ beforeIds pool.pairs := by
  rw [h.matchedBefore, List.mem_append]
  exact or_iff_right (hleft b hb)

theorem foldl_matchHash (h : PoolInv left ids pool) (hleft : ∀ e ∈ left, e.id ∉ ids)
    {as : List Entity} (has : ∀ a ∈ as, a.id ∉ pool.matchedAfter)
    (hnodup : (as.map Entity.id).Nodup) :
    ∃ found, (as.foldl Pool.matchHash pool).pairs = pool.pairs ++ found ∧
      (found.map Prod.snd).Sublist as ∧ PoolInv left ids (as.foldl Pool.matchHash pool) ∧
      ((beforeIds (pool.pairs ++ found)).Nodup ↔
        (beforeIds pool.pairs).Nodup ∧ PopsUntaken pool as) := by
  induction as generalizing pool with
  | nil => exact ⟨[], by simp, by simp, h, by simp [PopsUntaken]⟩
  | cons a as ih =>
    obtain ⟨hnot, hrest⟩ := List.nodup_cons.mp hnodup
    have hfree := has a List.mem_cons_self
    have hlater : ∀ x ∈ as, x.id ∉ pool.matchedAfter := fun x hx =>
      has x (List.mem_cons_of_mem a hx)
    rw [List.foldl_cons]
    rcases matchHash_cases h hfree with ⟨hsame, hnone⟩ | ⟨b, hb, hhow, hinv, hpairs⟩
    · rw [hsame]
      obtain ⟨found, heq, hsub, hinv, hiff⟩ := ih h hlater hrest
      refine ⟨found, heq, hsub.cons a, hinv, hiff.trans (and_congr_right fun _ => ?_)⟩
      simp [PopsUntaken, hsame, hnone]
    · have hnext : ∀ x ∈ as, x.id ∉ (pool.matchHash a).matchedAfter := by
        intro x hx
        rw [hinv.matchedAfter, hpairs, List.map_append, ← List.append_assoc, ← h.matchedAfter,
          List.mem_append, not_or]
        refine ⟨hlater x hx, fun hmem => hnot ?_⟩
        rw [List.map_singleton, List.mem_singleton] at hmem
        exact hmem ▸ List.mem_map_of_mem hx
      obtain ⟨found, heq, hsub, hinv', hiff⟩ := ih hinv hnext hrest
      refine ⟨(b, a) :: found, ?_, hsub.cons_cons a, hinv', ?_⟩
      · rw [heq, hpairs, List.append_assoc]
        rfl
      · have hassoc : pool.pairs ++ (b, a) :: found = (pool.pairs ++ [(b, a)]) ++ found := by
          rw [List.append_assoc]
          rfl
        rw [hassoc, ← hpairs, hiff, hpairs, nodup_beforeIds_snoc, ← h.taken_iff hleft hb,
          PopsUntaken, and_assoc]
        rcases hhow with hpopped | ⟨hpopped, huntaken⟩
        · simp [hpopped]
        · simp [hpopped, huntaken]

end

section

variable {F : Type} {scores : Scores F} {similarity : Entity → Entity → F} {s : Fuzzy} {a b : Entity}
  {candidates : List Entity}

theorem of_mem_keepBest {best : Option Entity × F} {c : Entity}
    (h : (keepBest scores similarity s a best c).1 = some b) :
    best.1 = some b ∨ b = c ∧ b.id ∉ s.matchedBefore := by
  rw [keepBest] at h
  by_cases htaken : c.id ∈ s.matchedBefore
  · rw [if_pos htaken] at h
    exact .inl h
  · split_ifs at h
    · exact .inl h
    · exact .inl h
    · dsimp only at h
      split at h
      · obtain rfl := Option.some.inj h
        exact .inr ⟨rfl, htaken⟩
      · exact .inl h

theorem of_mem_foldl_keepBest {best : Option Entity × F}
    (h : (candidates.foldl (keepBest scores similarity s a) best).1 = some b) :
    best.1 = some b ∨ b ∈ candidates ∧ b.id ∉ s.matchedBefore := by
  induction candidates generalizing best with
  | nil => exact .inl h
  | cons c candidates ih =>
    rcases ih h with hbest | ⟨hmem, hfree⟩
    · rcases of_mem_keepBest hbest with hbest | ⟨rfl, hfree⟩
      · exact .inl hbest
      · exact .inr ⟨List.mem_cons_self, hfree⟩
    · exact .inr ⟨List.mem_cons_of_mem c hmem, hfree⟩

theorem of_bestMatch (h : bestMatch scores similarity s candidates a = some b) :
    b ∈ candidates ∧ b.id ∉ s.matchedBefore := by
  rcases of_mem_foldl_keepBest h with hnone | hfound
  · exact absurd hnone (by simp)
  · exact hfound

theorem foldl_matchFuzzy (as : List Entity) (s : Fuzzy) :
    ∃ found, as.foldl (matchFuzzy scores similarity candidates) s =
        ⟨s.matchedBefore ++ beforeIds found, s.matchedAfter ++ found.map fun p => p.2.id,
          s.pairs ++ found⟩ ∧
      (found.map Prod.snd).Sublist as ∧ (∀ p ∈ found, p.1 ∈ candidates) ∧
      (beforeIds found).Nodup ∧ ∀ p ∈ found, p.1.id ∉ s.matchedBefore := by
  induction as generalizing s with
  | nil => exact ⟨[], by simp [beforeIds], by simp, by simp, List.nodup_nil, by simp⟩
  | cons a as ih =>
    rw [List.foldl_cons]
    cases hbest : bestMatch scores similarity s candidates a with
    | none =>
      have hsame : matchFuzzy scores similarity candidates s a = s := by rw [matchFuzzy, hbest]
      obtain ⟨found, heq, hsub, hrest⟩ := ih s
      rw [hsame]
      exact ⟨found, heq, hsub.cons a, hrest⟩
    | some b =>
      obtain ⟨hb, hfree⟩ := of_bestMatch hbest
      have htaken : matchFuzzy scores similarity candidates s a =
          ⟨s.matchedBefore ++ [b.id], s.matchedAfter ++ [a.id], s.pairs ++ [(b, a)]⟩ := by
        rw [matchFuzzy, hbest]
      rw [htaken]
      obtain ⟨found, heq, hsub, hcand, hnodup, happart⟩ :=
        ih ⟨s.matchedBefore ++ [b.id], s.matchedAfter ++ [a.id], s.pairs ++ [(b, a)]⟩
      refine ⟨(b, a) :: found, ?_, hsub.cons_cons a, ?_, ?_, ?_⟩
      · rw [heq]
        simp [beforeIds]
      · grind
      · refine List.nodup_cons.mpr ⟨fun hmem => ?_, hnodup⟩
        obtain ⟨p, hp, hid⟩ := List.mem_map.mp hmem
        exact happart p hp (List.mem_append_right _ (List.mem_singleton.mpr hid))
      · grind

end

/-- Everything before is unchanged, on one side of one pair or deleted, everything after unchanged,
on the other side of one pair or added, and the changes are these. -/
def Accounted (commit : Commit) (before after : List Entity) (changes : List Change) : Prop :=
  ∃ unchanged modified renamed : List (Entity × Entity), ∃ deleted added : List Entity,
    before.Perm ((unchanged ++ modified ++ renamed).map Prod.fst ++ deleted) ∧
    after.Perm ((unchanged ++ modified ++ renamed).map Prod.snd ++ added) ∧
    (∀ p ∈ unchanged, p.1.id = p.2.id ∧ p.1.contentHash = p.2.contentHash) ∧
    (∀ p ∈ modified, p.1.id = p.2.id ∧ p.1.contentHash ≠ p.2.contentHash) ∧
    changes.Perm (modified.map (modifiedChange commit) ++ renamed.map (renamedChange commit) ++
      deleted.map (deletedChange commit) ++ added.map (addedChange commit))

section

variable {F : Type} {scores : Scores F} {similarity : Option (Entity → Entity → F)}
  {before after : List Entity} {commit : Commit} {changes : List Change}

def countOf (changeType : ChangeType) (changes : List Change) : Nat :=
  changes.countP fun change => change.changeType = changeType

theorem countOf_append (t : ChangeType) (xs ys : List Change) :
    countOf t (xs ++ ys) = countOf t xs + countOf t ys := List.countP_append

theorem countOf_map_self {α : Type} {t : ChangeType} {f : α → Change}
    (hf : ∀ x, (f x).changeType = t) (xs : List α) : countOf t (xs.map f) = xs.length := by
  rw [countOf, List.countP_map]
  exact List.countP_eq_length.mpr fun x _ => decide_eq_true (hf x)

theorem countOf_map_ne {α : Type} {t : ChangeType} {f : α → Change}
    (hf : ∀ x, (f x).changeType ≠ t) (xs : List α) : countOf t (xs.map f) = 0 := by
  rw [countOf, List.countP_map]
  exact List.countP_eq_zero.mpr fun x _ => by simpa using hf x

theorem changeType_renamedChange (p : Entity × Entity) :
    (renamedChange commit p).changeType = .moved ∨ (renamedChange commit p).changeType = .renamed := by
  simp only [renamedChange]
  split
  · exact .inl rfl
  · exact .inr rfl

theorem countOf_changes (commit : Commit) (modified renamed : List (Entity × Entity))
    (deleted added : List Entity) :
    let changes := modified.map (modifiedChange commit) ++ renamed.map (renamedChange commit) ++
      deleted.map (deletedChange commit) ++ added.map (addedChange commit)
    countOf .deleted changes = deleted.length ∧ countOf .added changes = added.length := by
  have hrenamed : ∀ p, (renamedChange commit p).changeType ≠ .deleted ∧
      (renamedChange commit p).changeType ≠ .added := by
    intro p
    have htype : (renamedChange commit p).changeType = .moved ∨
        (renamedChange commit p).changeType = .renamed := changeType_renamedChange p
    rcases htype with h | h <;> simp [h]
  have hmodified : ∀ t, .modified ≠ t → countOf t (modified.map (modifiedChange commit)) = 0 :=
    fun t ht => countOf_map_ne (fun _ => ht) _
  have hdeleted : countOf .added (deleted.map (deletedChange commit)) = 0 :=
    countOf_map_ne (fun _ => ChangeType.noConfusion) _
  have hadded : countOf .deleted (added.map (addedChange commit)) = 0 :=
    countOf_map_ne (fun _ => ChangeType.noConfusion) _
  simp only [countOf_append]
  rw [hmodified _ (by decide), hmodified _ (by decide), hadded,
    countOf_map_ne fun p => (hrenamed p).1, countOf_map_ne fun p => (hrenamed p).2,
    countOf_map_self (f := deletedChange commit) fun _ => rfl,
    countOf_map_self (f := addedChange commit) fun _ => rfl]
  omega

theorem Accounted.counts (h : Accounted commit before after changes) :
    before.length + countOf .added changes = after.length + countOf .deleted changes := by
  obtain ⟨unchanged, modified, renamed, deleted, added, hbefore, hafter, -, -, hchanges⟩ := h
  obtain ⟨hdeleted, hadded⟩ := countOf_changes commit modified renamed deleted added
  have hcountDeleted : countOf .deleted changes = deleted.length :=
    (hchanges.countP_eq _).trans hdeleted
  have hcountAdded : countOf .added changes = added.length :=
    (hchanges.countP_eq _).trans hadded
  have hlengthBefore := hbefore.length_eq
  have hlengthAfter := hafter.length_eq
  simp only [List.length_append, List.length_map] at hlengthBefore hlengthAfter
  omega

theorem poolInv_startPool (before after : List Entity) :
    PoolInv (unmatched before (matchedIds before after)) (matchedIds before after)
      (startPool before after) := by
  refine PoolInv.foldl_file ⟨?_, ?_, ?_, ?_, ?_⟩ fun e he => he <;> simp

theorem startPool_fields (before after : List Entity) :
    (startPool before after).pairs = [] ∧
      (startPool before after).matchedAfter = matchedIds before after := by
  have hkeep : ∀ (es : List Entity) (pool : Pool), (es.foldl Pool.file pool).pairs = pool.pairs ∧
      (es.foldl Pool.file pool).matchedAfter = pool.matchedAfter := by
    intro es
    induction es with
    | nil => exact fun pool => ⟨rfl, rfl⟩
    | cons e es ih => exact fun pool => ih (pool.file e)
  exact hkeep _ _

structure Found (before after : List Entity) (s : Fuzzy) (found : List (Entity × Entity)) :
    Prop where
  matchedBefore : s.matchedBefore = matchedIds before after ++ beforeIds found
  matchedAfter : s.matchedAfter = matchedIds before after ++ found.map fun p => p.2.id
  fromBefore : ∀ p ∈ found, p.1 ∈ unmatched before (matchedIds before after)
  fromAfter : ∀ p ∈ found, p.2 ∈ unmatched after (matchedIds before after)
  nodup : (found.map fun p => p.2.id).Nodup
  apart : (beforeIds found).Nodup ↔
    PopsUntaken (startPool before after) (unmatched after (matchedIds before after))

theorem afterFuzzy_found (scores : Scores F) (similarity : Option (Entity → Entity → F))
    (hafter : (after.map Entity.id).Nodup) :
    Found before after (afterFuzzy scores similarity before after)
      ((afterHashes before after).pairs ++ (afterFuzzy scores similarity before after).pairs) := by
  obtain ⟨hpairs, hids⟩ := startPool_fields before after
  have hafterIds : ((unmatched after (matchedIds before after)).map Entity.id).Nodup :=
    hafter.sublist (List.filter_sublist.map _)
  have hapart : ∀ a ∈ unmatched after (matchedIds before after),
      a.id ∉ (startPool before after).matchedAfter := by
    intro a ha
    rw [hids]
    exact (mem_unmatched.mp ha).2
  obtain ⟨found, hfound, hsub, hinv, hiff⟩ := foldl_matchHash (poolInv_startPool before after)
    (fun e he => (mem_unmatched.mp he).2) hapart hafterIds
  rw [hpairs] at hfound hiff
  have hpool : (afterHashes before after).pairs = found := hfound
  have hinv' : PoolInv (unmatched before (matchedIds before after)) (matchedIds before after)
      (afterHashes before after) := hinv
  have hbeforeIds := hinv'.matchedBefore
  have hafterRecorded := hinv'.matchedAfter
  rw [hpool] at hbeforeIds hafterRecorded
  have hmore : ∃ more, afterFuzzy scores similarity before after =
      ⟨(afterHashes before after).matchedBefore ++ beforeIds more,
        (afterHashes before after).matchedAfter ++ more.map fun p => p.2.id, more⟩ ∧
      (more.map Prod.snd).Sublist (unmatched (unmatched after (matchedIds before after))
        (afterHashes before after).matchedAfter) ∧
      (∀ p ∈ more, p.1 ∈ unmatched before (matchedIds before after)) ∧ (beforeIds more).Nodup ∧
      ∀ p ∈ more, p.1.id ∉ (afterHashes before after).matchedBefore := by
    cases similarity with
    | none => exact ⟨[], by simp [afterFuzzy, beforeIds], by simp, by simp, List.nodup_nil, by simp⟩
    | some sim =>
      obtain ⟨more, heq, hmoreSub, hcand, hnodup, happart⟩ := @foldl_matchFuzzy _ scores sim
        (unmatched (unmatched before (matchedIds before after))
          (afterHashes before after).matchedBefore)
        (unmatched (unmatched after (matchedIds before after))
          (afterHashes before after).matchedAfter)
        ⟨(afterHashes before after).matchedBefore, (afterHashes before after).matchedAfter, []⟩
      exact ⟨more, heq, hmoreSub, fun p hp => (mem_unmatched.mp (hcand p hp)).1, hnodup, happart⟩
  obtain ⟨more, hfuzzy, hmoreSub, hmoreBefore, hmoreNodup, hmoreApart⟩ := hmore
  rw [hfuzzy, hpool]
  have hfoundAfter : ∀ p ∈ found, p.2 ∈ unmatched after (matchedIds before after) := fun p hp =>
    hsub.subset (List.mem_map_of_mem hp)
  have hmoreAfter : ∀ p ∈ more, p.2 ∈ unmatched after (matchedIds before after) ∧
      p.2.id ∉ (afterHashes before after).matchedAfter := fun p hp =>
    mem_unmatched.mp (hmoreSub.subset (List.mem_map_of_mem hp))
  refine ⟨?_, ?_, ?_, ?_, ?_, ?_⟩
  · simp [hbeforeIds, beforeIds]
  · simp [hafterRecorded]
  · intro p hp
    rcases List.mem_append.mp hp with hp | hp
    · exact hinv'.pairs p (hpool ▸ hp)
    · exact hmoreBefore p hp
  · grind
  · have hfoundIds : (found.map fun p => p.2.id).Nodup := by
      have hsubIds := hsub.map Entity.id
      rw [List.map_map] at hsubIds
      exact hafterIds.sublist hsubIds
    have hmoreIds : (more.map fun p => p.2.id).Nodup := by
      have hsubIds := (hmoreSub.trans List.filter_sublist).map Entity.id
      rw [List.map_map] at hsubIds
      exact hafterIds.sublist hsubIds
    rw [List.map_append]
    refine List.nodup_append.mpr ⟨hfoundIds, hmoreIds, fun x hx y hy hxy => ?_⟩
    obtain ⟨p, hp, rfl⟩ := List.mem_map.mp hy
    refine (hmoreAfter p hp).2 ?_
    rw [hafterRecorded]
    exact List.mem_append_right _ (hxy ▸ hx)
  · rw [← (hiff.trans (and_iff_right List.nodup_nil))]
    have hboth : beforeIds (found ++ more) = beforeIds found ++ beforeIds more := by
      simp [beforeIds]
    rw [hboth, List.nodup_append]
    constructor
    · exact fun h => h.1
    · refine fun h => ⟨h, hmoreNodup, fun x hx y hy hxy => ?_⟩
      obtain ⟨p, hp, rfl⟩ := List.mem_map.mp hy
      refine hmoreApart p hp ?_
      rw [hbeforeIds]
      exact List.mem_append_right _ (hxy ▸ hx)

theorem map_sameId (hbefore : (before.map Entity.id).Nodup)
    (hafter : (after.map Entity.id).Nodup) :
    ((sameId before after).map Prod.fst).map Entity.id = matchedIds before after ∧
      ((sameId before after).map Prod.snd).map Entity.id = matchedIds before after := by
  constructor
  · rw [List.map_map]
    exact List.map_congr_left fun p hp => (of_mem_sameId hbefore hafter hp).2.2
  · rw [List.map_map]
    rfl

theorem sameId_self (h : (before.map Entity.id).Nodup) :
    sameId before before = before.map fun e => (e, e) := by
  rw [sameId_eq h, ← List.filterMap_eq_map]
  refine List.filterMap_congr fun e he => ?_
  rw [(get?_byId h).mpr ⟨he, rfl⟩]
  rfl

theorem matchEntities_self (scores : Scores F) (similarity : Option (Entity → Entity → F))
    (commit : Commit) (h : (before.map Entity.id).Nodup) :
    matchEntities scores similarity before before commit = [] := by
  have hids : matchedIds before before = before.map Entity.id := by
    rw [matchedIds, sameId_self h, List.map_map]
    rfl
  have hnone : ∀ more : List String, unmatched before (matchedIds before before ++ more) = [] := by
    intro more
    refine List.filter_eq_nil_iff.mpr fun e he => ?_
    simp only [hids, decide_not, Bool.not_eq_true', decide_eq_false_iff_not, not_not]
    exact List.mem_append_left _ (List.mem_map_of_mem he)
  have hleft : unmatched before (matchedIds before before) = [] := by
    simpa using hnone []
  have hfound := @afterFuzzy_found _ before _ scores similarity h
  have hempty : (afterHashes before before).pairs ++
      (afterFuzzy scores similarity before before).pairs = [] := by
    refine List.eq_nil_iff_forall_not_mem.mpr fun p hp => ?_
    have hin := hfound.fromBefore p hp
    rw [hleft] at hin
    simp at hin
  have hmodified : ((sameId before before).filter fun p => p.1.contentHash ≠ p.2.contentHash) = [] := by
    rw [sameId_self h]
    simp
  simp only [matchEntities, hmodified, hempty, hfound.matchedBefore, hfound.matchedAfter, hnone,
    hleft, List.map_nil, List.append_nil]

end

def functionNamed (name contentHash structuralHash : String) : Entity where
  id := "m.rs::function::" ++ name
  filePath := "m.rs"
  entityType := "function"
  name := name
  content := name
  contentHash := contentHash
  structuralHash := some structuralHash

def percent : Scores Nat := ⟨0, 80, fun x y => decide (y < x), fun x y => decide (y ≤ x)⟩

def noCommit : Commit := ⟨none, none⟩

end SwissArmyHammer.Sem.Identity
