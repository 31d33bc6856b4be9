import SwissArmyHammer.Common.Folds
import SwissArmyHammer.Common.Json
import SwissArmyHammer.Common.SortedMap

/-! The comment log of a task, and the array that the comment editor commits merged into it. -/

namespace SwissArmyHammer.Kanban.Comments

inductive KanbanError
  | invalidValue (field message : String)
  | actorNotFound (id : String)
  deriving DecidableEq

structure Actors where
  ids : List String
  osUser : String

def ensureOsUserActor (actors : Actors) : String × Actors :=
  (actors.osUser,
    if actors.osUser ∈ actors.ids then actors
    else { actors with ids := actors.ids ++ [actors.osUser] })

def resolveCommentAuthor (actors : Actors) : Option String → Except KanbanError (String × Actors)
  | some id => if id ∈ actors.ids then .ok (id, actors) else .error (.actorNotFound id)
  | none => .ok (ensureOsUserActor actors)

structure Stamp where
  id : String
  timestamp : String

def field (member : Json) (key : String) : Json := (member.getKey key).getD .null

def memberId (member : Json) : Option String := (member.getKey "id").bind Json.asStr

def isTombstone (member : Json) : Bool :=
  (member.getKey "deleted").bind Json.asBool = some true

def buildCommentMember (stamp : Stamp) (text authorId : String) : Json :=
  .object [("actor", .string authorId), ("id", .string stamp.id), ("text", .string text),
    ("timestamp", .string stamp.timestamp)]

def commentMemberToJson (member : Json) : Json :=
  .object [("actor", field member "actor"), ("id", field member "id"),
    ("text", field member "text"), ("timestamp", field member "timestamp")]

def editText (stored member : Json) : Json :=
  match member.getKey "text" with
  | some text => stored.setKey "text" text
  | none => stored

def newText (member : Json) : String := ((member.getKey "text").bind Json.asStr).getD ""

structure Merge where
  merged : SortedMap String Json
  actors : Actors
  minted : Nat

def mergeMember (stamps : Nat → Stamp) (s : Merge) (member : Json) : Except KanbanError Merge :=
  let id := memberId member
  if isTombstone member then
    .ok (match id with
      | some id => { s with merged := s.merged.remove id }
      | none => s)
  else
    match id.bind fun id => (s.merged.get? id).map fun stored => (id, stored) with
    | some (id, stored) =>
      .ok { s with merged := s.merged.insert id (commentMemberToJson (editText stored member)) }
    | none =>
      match resolveCommentAuthor s.actors ((member.getKey "actor").bind Json.asStr) with
      | .error e => .error e
      | .ok (author, actors) =>
        let stamp := stamps s.minted
        .ok ⟨s.merged.insert stamp.id (buildCommentMember stamp (newText member) author), actors,
          s.minted + 1⟩

def membersOf (log : Json) : List Json := log.asArray.getD []

def storedMap (old : Json) : SortedMap String Json :=
  .ofList ((membersOf old).filterMap fun member => (memberId member).map fun id => (id, member))

def normalizeCommentLog (stamps : Nat → Stamp) (actors : Actors) (old incoming : Json) :
    Except KanbanError Json :=
  match incoming.asArray with
  | none => .error (.invalidValue "comments" "comment log value must be an array")
  | some members =>
    (members.foldlM (mergeMember stamps) ⟨storedMap old, actors, 0⟩).map fun s =>
      .array s.merged.values

structure StoredLog (stored : List Json) : Prop where
  hasId : ∀ m ∈ stored, (memberId m).isSome
  nodup : (stored.map memberId).Nodup

/-- The stamps come in the order of their ids, all greater than the ids of the members. -/
structure Fresh (stamps : Nat → Stamp) (members : List Json) : Prop where
  above : ∀ n, ∀ m ∈ members, ∀ id, memberId m = some id → id < (stamps n).id
  ascending : ∀ m n, m < n → (stamps m).id < (stamps n).id

def lastText (incoming : List Json) (id : String) : Option Json :=
  ((incoming.filter fun m => !isTombstone m && (memberId m = some id)).filterMap
    fun m => m.getKey "text").getLast?

def Deletes (incoming : List Json) (id : String) : Prop :=
  ∃ m ∈ incoming, isTombstone m = true ∧ memberId m = some id

section

variable {v w stored member : Json} {key other id : String}

theorem find?_setEntry (fields : List (String × Json)) (other : String) :
    (Json.setEntry key w fields).find? (fun e => e.1 = other) =
      if other = key then some (key, w) else fields.find? fun e => e.1 = other := by
  by_cases h : other = key
  · rw [h]
    induction fields with
    | nil => simp [Json.setEntry]
    | cons e fields ih =>
      obtain ⟨k, u⟩ := e
      by_cases hlt : key < k
      · simp [Json.setEntry, hlt]
      · by_cases heq : key = k
        · simp [Json.setEntry, heq]
        · simp [Json.setEntry, hlt, heq, Ne.symm heq, ih]
  · rw [if_neg h]
    induction fields with
    | nil => simp [Json.setEntry, Ne.symm h]
    | cons e fields ih =>
      obtain ⟨k, u⟩ := e
      by_cases hlt : key < k
      · simp [Json.setEntry, hlt, Ne.symm h]
      · by_cases heq : key = k
        · subst heq
          simp [Json.setEntry, Ne.symm h]
        · simp only [Json.setEntry, hlt, heq, if_false, List.find?_cons, ih]

theorem object_of_memberId (h : memberId v = some id) : ∃ fields, v = .object fields := by
  cases v with
  | object fields => exact ⟨fields, rfl⟩
  | null | bool _ | number _ | string _ | array _ => cases h

theorem getKey_setKey (hv : memberId v = some id) (other : String) :
    (v.setKey key w).getKey other = if other = key then some w else v.getKey other := by
  obtain ⟨fields, rfl⟩ := object_of_memberId hv
  show ((Json.setEntry key w fields).find? fun e => e.1 = other).map Prod.snd = _
  rw [find?_setEntry]
  by_cases h : other = key
  · simp [h]
  · simp [h, Json.getKey]

theorem field_editText_of_ne (hstored : memberId stored = some id) (hother : other ≠ "text") :
    field (editText stored member) other = field stored other := by
  rw [editText]
  split
  · rw [field, getKey_setKey hstored, if_neg hother, field]
  · rfl

theorem field_editText (hstored : memberId stored = some id) :
    field (editText stored member) "text" = (member.getKey "text").getD (field stored "text") := by
  rw [editText]
  split
  · rename_i text htext
    rw [field, getKey_setKey hstored, htext]
    rfl
  · rename_i htext
    rw [htext]
    rfl

theorem field_id (h : memberId v = some id) : field v "id" = .string id := by
  obtain ⟨u, hu, hid⟩ := Option.bind_eq_some_iff.mp h
  rw [field, hu, Option.getD_some, Json.asStr_eq_some.mp hid]

theorem field_commentMemberToJson (h : other ∈ ["actor", "id", "text", "timestamp"]) :
    field (commentMemberToJson v) other = field v other := by
  simp only [List.mem_cons, List.not_mem_nil, or_false] at h
  rcases h with rfl | rfl | rfl | rfl
  · rfl
  · rfl
  · rfl
  · rfl

theorem memberId_commentMemberToJson (h : field v "id" = .string id) :
    memberId (commentMemberToJson v) = some id := by
  show Json.asStr (field v "id") = some id
  rw [h]
  rfl

end

section

variable {stamps : Nat → Stamp} {s t : Merge} {x : Json}

theorem mergeMember_cases (h : mergeMember stamps s x = .ok t) :
    (isTombstone x = true ∧
      ((∃ id, memberId x = some id ∧ t = { s with merged := s.merged.remove id }) ∨
        memberId x = none ∧ t = s)) ∨
    (isTombstone x = false ∧ ∃ id stored, memberId x = some id ∧ s.merged.get? id = some stored ∧
      t = { s with merged := s.merged.insert id (commentMemberToJson (editText stored x)) }) ∨
    (isTombstone x = false ∧ (∀ id, memberId x = some id → s.merged.get? id = none) ∧
      ∃ author actors,
        resolveCommentAuthor s.actors ((x.getKey "actor").bind Json.asStr) = .ok (author, actors) ∧
        t = ⟨s.merged.insert (stamps s.minted).id
          (buildCommentMember (stamps s.minted) (newText x) author), actors, s.minted + 1⟩) := by
  by_cases htomb : isTombstone x = true
  · refine .inl ⟨htomb, ?_⟩
    simp only [mergeMember, htomb, if_true] at h
    cases hid : memberId x with
    | none =>
      rw [hid] at h
      exact .inr ⟨rfl, (Except.ok.inj h).symm⟩
    | some id =>
      rw [hid] at h
      exact .inl ⟨id, rfl, (Except.ok.inj h).symm⟩
  · rw [Bool.not_eq_true] at htomb
    simp only [mergeMember, htomb, Bool.false_eq_true, if_false] at h
    split at h
    · rename_i id stored hfound
      obtain ⟨id', hid, hget⟩ := Option.bind_eq_some_iff.mp hfound
      obtain ⟨stored', hstored, heq⟩ := Option.map_eq_some_iff.mp hget
      cases heq
      exact .inr (.inl ⟨htomb, id, stored, hid, hstored, (Except.ok.inj h).symm⟩)
    · rename_i hfound
      have hnone : ∀ id, memberId x = some id → s.merged.get? id = none := by
        intro id hid
        rw [hid, Option.bind_some, Option.map_eq_none_iff] at hfound
        exact hfound
      split at h
      · cases h
      · rename_i author actors hauthor
        exact .inr (.inr ⟨htomb, hnone, author, actors, hauthor, (Except.ok.inj h).symm⟩)

end

section

variable {stamps : Nat → Stamp} {actors : Actors} {old incoming : Json} {stored done : List Json}
  {s t : Merge} {x m : Json} {id : String}

structure Kept (done : List Json) (id : String) (m v : Json) : Prop where
  actor : field v "actor" = field m "actor"
  timestamp : field v "timestamp" = field m "timestamp"
  text : field v "text" = (lastText done id).getD (field m "text")

structure Inv (stamps : Nat → Stamp) (stored done : List Json) (s : Merge) : Prop where
  keyed : ∀ k v, s.merged.get? k = some v → memberId v = some k
  keys : ∀ k v, s.merged.get? k = some v →
    (∃ m ∈ stored, memberId m = some k) ∨ ∃ n < s.minted, k = (stamps n).id
  unmarked : ∀ k v, s.merged.get? k = some v → v ∈ stored ∨ v.getKey "deleted" = none
  kept : ∀ m ∈ stored, ∀ id, memberId m = some id → ¬ Deletes done id →
    ∃ v, s.merged.get? id = some v ∧ Kept done id m v
  deleted : ∀ m ∈ stored, ∀ id, memberId m = some id → Deletes done id → s.merged.get? id = none

theorem deletes_append (done : List Json) (x : Json) (id : String) :
    Deletes (done ++ [x]) id ↔ Deletes done id ∨ isTombstone x = true ∧ memberId x = some id := by
  constructor
  · rintro ⟨y, hy, htomb, hid⟩
    rcases List.mem_append.mp hy with hy | hy
    · exact .inl ⟨y, hy, htomb, hid⟩
    · rw [List.mem_singleton.mp hy] at htomb hid
      exact .inr ⟨htomb, hid⟩
  · rintro (⟨y, hy, htomb, hid⟩ | ⟨htomb, hid⟩)
    · exact ⟨y, List.mem_append_left _ hy, htomb, hid⟩
    · exact ⟨x, by simp, htomb, hid⟩

theorem lastText_append (done : List Json) (x : Json) (id : String) :
    lastText (done ++ [x]) id =
      if isTombstone x = false ∧ memberId x = some id then
        (x.getKey "text").or (lastText done id) else lastText done id := by
  by_cases h : isTombstone x = false ∧ memberId x = some id
  · rw [lastText, lastText, List.filter_append, List.filterMap_append]
    cases htext : x.getKey "text" with
    | none => simp [h.1, h.2, htext]
    | some text => simp [h.1, h.2, htext]
  · rw [if_neg h, lastText, List.filter_append]
    have hnone : [x].filter (fun m => !isTombstone m && decide (memberId m = some id)) = [] := by
      rw [not_and] at h
      cases htomb : isTombstone x with
      | true => simp [htomb]
      | false => simp [htomb, h htomb]
    rw [hnone, List.append_nil, lastText]

theorem deletes_append_of_member (htomb : isTombstone x = false) :
    Deletes (done ++ [x]) id ↔ Deletes done id := by
  rw [deletes_append]
  simp [htomb]

theorem Kept.append {v : Json} (h : Kept done id m v)
    (hother : isTombstone x = true ∨ memberId x ≠ some id) : Kept (done ++ [x]) id m v := by
  refine ⟨h.actor, h.timestamp, ?_⟩
  have hnot : ¬ (isTombstone x = false ∧ memberId x = some id) := by
    rintro ⟨htomb, hid⟩
    rcases hother with hother | hother
    · rw [htomb] at hother
      cases hother
    · exact hother hid
  rw [lastText_append, if_neg hnot]
  exact h.text

theorem Kept.edit {v : Json} (h : Kept done id m v) (hv : memberId v = some id)
    (htomb : isTombstone x = false) (hid : memberId x = some id) :
    Kept (done ++ [x]) id m (commentMemberToJson (editText v x)) := by
  refine ⟨?_, ?_, ?_⟩
  · rw [field_commentMemberToJson (by simp), field_editText_of_ne hv (by decide)]
    exact h.actor
  · rw [field_commentMemberToJson (by simp), field_editText_of_ne hv (by decide)]
    exact h.timestamp
  · rw [field_commentMemberToJson (by simp), field_editText hv, lastText_append,
      if_pos ⟨htomb, hid⟩, h.text]
    cases x.getKey "text" with
    | none => rfl
    | some text => rfl

theorem Fresh.stamp_ne {members : List Json} (h : Fresh stamps members) (n : Nat)
    (hm : m ∈ members) (hid : memberId m = some id) : (stamps n).id ≠ id :=
  (ne_of_lt (h.above n m hm id hid)).symm

theorem get?_storedMap (hlog : StoredLog (membersOf old)) {v : Json} :
    (storedMap old).get? id = some v ↔ v ∈ membersOf old ∧ memberId v = some id := by
  have hnodup : (((membersOf old).filterMap fun member =>
      (memberId member).map fun id => (id, member)).map Prod.fst).Nodup := by
    have hkeys : ((membersOf old).filterMap fun member =>
        (memberId member).map fun id => (id, member)).map Prod.fst =
          (membersOf old).filterMap memberId := by
      rw [List.map_filterMap]
      congr 1
      funext member
      cases memberId member with
      | none => rfl
      | some id => rfl
    rw [hkeys]
    have hsome := hlog.nodup
    have hmap : (membersOf old).map memberId = ((membersOf old).filterMap memberId).map some := by
      have hall := hlog.hasId
      generalize membersOf old = members at hall
      induction members with
      | nil => rfl
      | cons member members ih =>
        grind
    rw [hmap] at hsome
    exact List.Nodup.of_map some hsome
  have hmem : (id, v) ∈ ((membersOf old).filterMap fun member =>
      (memberId member).map fun id => (id, member)) ↔ v ∈ membersOf old ∧ memberId v = some id := by
    rw [List.mem_filterMap]
    constructor
    · simp
    · rintro ⟨hv, hid⟩
      exact ⟨v, hv, by rw [hid]; rfl⟩
  rw [← hmem]
  exact SortedMap.get?_ofList_eq_some hnodup

theorem inv_start (hlog : StoredLog (membersOf old)) (stamps : Nat → Stamp) (actors : Actors) :
    Inv stamps (membersOf old) [] ⟨storedMap old, actors, 0⟩ := by
  constructor
  · intro k v hv
    exact ((get?_storedMap hlog).mp hv).2
  · intro k v hv
    have hstored := (get?_storedMap hlog).mp hv
    exact .inl ⟨v, hstored⟩
  · intro k v hv
    exact .inl ((get?_storedMap hlog).mp hv).1
  · intro m hm id hid _
    exact ⟨m, (get?_storedMap hlog).mpr ⟨hm, hid⟩, rfl, rfl, rfl⟩
  · rintro m _ id _ ⟨x, hx, -⟩
    simp at hx

theorem Inv.tombstone (h : Inv stamps stored done s) (htomb : isTombstone x = true)
    (hid : memberId x = some id) :
    Inv stamps stored (done ++ [x]) { s with merged := s.merged.remove id } := by
  have hget : ∀ k v, (s.merged.remove id).get? k = some v → k ≠ id ∧ s.merged.get? k = some v := by
    intro k v hv
    rw [SortedMap.get?_remove] at hv
    split_ifs at hv with hk
    exact ⟨hk, hv⟩
  constructor
  · exact fun k v hv => h.keyed k v (hget k v hv).2
  · exact fun k v hv => h.keys k v (hget k v hv).2
  · exact fun k v hv => h.unmarked k v (hget k v hv).2
  · intro m hm id' hid' hnot
    rw [deletes_append, not_or] at hnot
    have hne : id' ≠ id := fun heq => hnot.2 ⟨htomb, heq ▸ hid⟩
    obtain ⟨v, hv, hkept⟩ := h.kept m hm id' hid' hnot.1
    refine ⟨v, ?_, hkept.append (.inl htomb)⟩
    rw [SortedMap.get?_remove, if_neg hne]
    exact hv
  · intro m hm id' hid' hdel
    rw [SortedMap.get?_remove]
    split_ifs with heq
    · rfl
    · rw [deletes_append] at hdel
      rcases hdel with hdel | ⟨-, hx⟩
      · exact h.deleted m hm id' hid' hdel
      · rw [hid] at hx
        exact absurd (Option.some.inj hx).symm heq

theorem Inv.nameless (h : Inv stamps stored done s) (hid : memberId x = none) :
    Inv stamps stored (done ++ [x]) s := by
  have hdel : ∀ id, Deletes (done ++ [x]) id ↔ Deletes done id := by
    intro id
    rw [deletes_append, hid]
    simp
  refine ⟨h.keyed, h.keys, h.unmarked, ?_, ?_⟩
  · intro m hm id' hid' hnot
    obtain ⟨v, hv, hkept⟩ := h.kept m hm id' hid' ((hdel id').not.mp hnot)
    exact ⟨v, hv, hkept.append (.inr (by simp [hid]))⟩
  · exact fun m hm id' hid' h' => h.deleted m hm id' hid' ((hdel id').mp h')

theorem Inv.edit {v : Json} (h : Inv stamps stored done s) (htomb : isTombstone x = false)
    (hid : memberId x = some id) (hv : s.merged.get? id = some v) :
    Inv stamps stored (done ++ [x])
      { s with merged := s.merged.insert id (commentMemberToJson (editText v x)) } := by
  have hvid := h.keyed id v hv
  have hget : ∀ k, (s.merged.insert id (commentMemberToJson (editText v x))).get? k =
      if k = id then some (commentMemberToJson (editText v x)) else s.merged.get? k :=
    SortedMap.get?_insert _ _ _
  constructor
  · intro k w hw
    rw [hget] at hw
    split_ifs at hw with hk
    · obtain rfl := Option.some.inj hw
      rw [hk]
      refine memberId_commentMemberToJson ?_
      rw [field_editText_of_ne hvid (by decide)]
      exact field_id hvid
    · exact h.keyed k w hw
  · intro k w hw
    rw [hget] at hw
    split_ifs at hw with hk
    · exact hk ▸ h.keys id v hv
    · exact h.keys k w hw
  · intro k w hw
    rw [hget] at hw
    split_ifs at hw with hk
    · obtain rfl := Option.some.inj hw
      exact .inr rfl
    · exact h.unmarked k w hw
  · intro m hm id' hid' hnot
    rw [deletes_append_of_member htomb] at hnot
    obtain ⟨w, hw, hkept⟩ := h.kept m hm id' hid' hnot
    rw [hget]
    by_cases heq : id' = id
    · subst heq
      obtain rfl := Option.some.inj (hv.symm.trans hw)
      exact ⟨_, if_pos rfl, hkept.edit hvid htomb hid⟩
    · refine ⟨w, by rw [if_neg heq, hw], hkept.append (.inr ?_)⟩
      rw [hid]
      exact fun h' => heq (Option.some.inj h').symm
  · intro m hm id' hid' hdel
    rw [deletes_append_of_member htomb] at hdel
    have hnone := h.deleted m hm id' hid' hdel
    have hne : id' ≠ id := by
      rintro rfl
      rw [hv] at hnone
      cases hnone
    rw [hget, if_neg hne]
    exact hnone

theorem Inv.mint {author text : String} {actors' : Actors} (h : Inv stamps stored done s)
    (hfresh : Fresh stamps stored) (htomb : isTombstone x = false)
    (hnew : ∀ id, memberId x = some id → s.merged.get? id = none) :
    Inv stamps stored (done ++ [x]) ⟨s.merged.insert (stamps s.minted).id
      (buildCommentMember (stamps s.minted) text author), actors', s.minted + 1⟩ := by
  have hget : ∀ k, (s.merged.insert (stamps s.minted).id
      (buildCommentMember (stamps s.minted) text author)).get? k =
        if k = (stamps s.minted).id then some (buildCommentMember (stamps s.minted) text author)
        else s.merged.get? k := SortedMap.get?_insert _ _ _
  constructor
  · intro k w hw
    rw [hget] at hw
    split_ifs at hw with hk
    · obtain rfl := Option.some.inj hw
      rw [hk]
      rfl
    · exact h.keyed k w hw
  · intro k w hw
    rw [hget] at hw
    split_ifs at hw with hk
    · exact .inr ⟨s.minted, Nat.lt_succ_self _, hk⟩
    · rcases h.keys k w hw with hstored | ⟨n, hn, hkn⟩
      · exact .inl hstored
      · exact .inr ⟨n, Nat.lt_succ_of_lt hn, hkn⟩
  · intro k w hw
    rw [hget] at hw
    split_ifs at hw with hk
    · obtain rfl := Option.some.inj hw
      exact .inr rfl
    · exact h.unmarked k w hw
  · intro m hm id' hid' hnot
    rw [deletes_append_of_member htomb] at hnot
    obtain ⟨w, hw, hkept⟩ := h.kept m hm id' hid' hnot
    refine ⟨w, ?_, hkept.append (.inr ?_)⟩
    · rw [hget, if_neg (hfresh.stamp_ne _ hm hid').symm]
      exact hw
    · intro hx
      rw [hnew id' hx] at hw
      cases hw
  · intro m hm id' hid' hdel
    rw [deletes_append_of_member htomb] at hdel
    rw [hget, if_neg (hfresh.stamp_ne _ hm hid').symm]
    exact h.deleted m hm id' hid' hdel

theorem Inv.step (h : Inv stamps stored done s) (hfresh : Fresh stamps stored)
    (hstep : mergeMember stamps s x = .ok t) : Inv stamps stored (done ++ [x]) t := by
  rcases mergeMember_cases hstep with ⟨htomb, ⟨id, hid, rfl⟩ | ⟨hid, rfl⟩⟩ |
    ⟨htomb, id, v, hid, hv, rfl⟩ | ⟨htomb, hnew, author, actors, -, rfl⟩
  · exact h.tombstone htomb hid
  · exact h.nameless hid
  · exact h.edit htomb hid hv
  · exact h.mint hfresh htomb hnew

theorem Inv.run (h : Inv stamps stored done s) (hfresh : Fresh stamps stored) {rest : List Json}
    (hrun : rest.foldlM (mergeMember stamps) s = .ok t) : Inv stamps stored (done ++ rest) t := by
  induction rest generalizing done s with
  | nil =>
    obtain rfl : s = t := Except.ok.inj hrun
    rwa [List.append_nil]
  | cons x rest ih =>
    obtain ⟨s₁, hs₁, hrest⟩ := exists_of_bind hrun
    have hnext := ih (h.step hfresh hs₁) hrest
    rwa [List.append_assoc, List.singleton_append] at hnext

end

section

variable {stamps : Nat → Stamp} {extra : String → Option Json} {s s' t : Merge} {x : Json}

structure Extends (extra : String → Option Json) (s s' : Merge) : Prop where
  actors : s'.actors = s.actors
  minted : s'.minted = s.minted
  merged : ∀ k, s'.merged.get? k = (extra k).or (s.merged.get? k)

theorem Extends.insert (h : Extends extra s s') {k : String} {v : Json} (hk : extra k = none)
    (actors : Actors) (minted : Nat) :
    Extends extra ⟨s.merged.insert k v, actors, minted⟩
      ⟨s'.merged.insert k v, actors, minted⟩ := by
  refine ⟨rfl, rfl, fun other => ?_⟩
  rw [SortedMap.get?_insert, SortedMap.get?_insert]
  split_ifs with heq
  · rw [heq, hk]
    rfl
  · exact h.merged other

theorem Extends.remove (h : Extends extra s s') {k : String} (hk : extra k = none) :
    Extends extra { s with merged := s.merged.remove k }
      { s' with merged := s'.merged.remove k } := by
  refine ⟨h.actors, h.minted, fun other => ?_⟩
  rw [SortedMap.get?_remove, SortedMap.get?_remove]
  split_ifs with heq
  · rw [heq, hk]
    rfl
  · exact h.merged other

theorem Extends.step (h : Extends extra s s')
    (hid : ∀ id, memberId x = some id → extra id = none)
    (hstamps : ∀ n, extra (stamps n).id = none) (hstep : mergeMember stamps s x = .ok t) :
    ∃ t', mergeMember stamps s' x = .ok t' ∧ Extends extra t t' := by
  rcases mergeMember_cases hstep with ⟨htomb, ⟨id, hx, rfl⟩ | ⟨hx, rfl⟩⟩ |
    ⟨htomb, id, v, hx, hv, rfl⟩ | ⟨htomb, hnew, author, actors, hauthor, rfl⟩
  · refine ⟨{ s' with merged := s'.merged.remove id }, ?_, h.remove (hid id hx)⟩
    simp only [mergeMember, htomb, if_true, hx]
  · refine ⟨s', ?_, h⟩
    simp only [mergeMember, htomb, if_true, hx]
  · have hv' : s'.merged.get? id = some v := by
      rw [h.merged, hid id hx, hv]
      rfl
    obtain ⟨merged', actors', minted'⟩ := s'
    obtain rfl : actors' = s.actors := h.actors
    obtain rfl : minted' = s.minted := h.minted
    refine ⟨_, ?_, h.insert (hid id hx) s.actors s.minted⟩
    simp only [mergeMember, htomb, Bool.false_eq_true, if_false, hx, Option.bind_some, hv',
      Option.map_some]
  · have hnone : ((memberId x).bind fun id =>
        (s'.merged.get? id).map fun stored => (id, stored)) = none := by
      cases hx : memberId x with
      | none => rfl
      | some id =>
        rw [Option.bind_some, h.merged, hid id hx, hnew id hx]
        rfl
    obtain ⟨merged', actors', minted'⟩ := s'
    obtain rfl : actors' = s.actors := h.actors
    obtain rfl : minted' = s.minted := h.minted
    refine ⟨_, ?_, h.insert (hstamps s.minted) actors (s.minted + 1)⟩
    simp only [mergeMember, htomb, Bool.false_eq_true, if_false, hnone, hauthor]

theorem Extends.run (h : Extends extra s s') {members : List Json}
    (hid : ∀ x ∈ members, ∀ id, memberId x = some id → extra id = none)
    (hstamps : ∀ n, extra (stamps n).id = none)
    (hrun : members.foldlM (mergeMember stamps) s = .ok t) :
    ∃ t', members.foldlM (mergeMember stamps) s' = .ok t' ∧ Extends extra t t' := by
  induction members generalizing s s' with
  | nil =>
    obtain rfl : s = t := Except.ok.inj hrun
    exact ⟨s', rfl, h⟩
  | cons x members ih =>
    obtain ⟨s₁, hs₁, hrest⟩ := exists_of_bind hrun
    obtain ⟨s₁', hs₁', hnext⟩ := h.step (hid x List.mem_cons_self) hstamps hs₁
    obtain ⟨t', ht', hlast⟩ :=
      ih hnext (fun y hy => hid y (List.mem_cons_of_mem x hy)) hrest
    refine ⟨t', ?_, hlast⟩
    rw [List.foldlM_cons, hs₁']
    exact ht'

end

section

variable {stamps : Nat → Stamp} {actors : Actors} {old : Json} {members : List Json}
  {stored done list : List Json} {s : Merge} {v : Json} {result : Json}

def Ascending (list : List Json) : Prop :=
  ∃ ids : List String, list.map memberId = ids.map some ∧ ids.Pairwise (· < ·)

structure KeepsComments (stamps : Nat → Stamp) (actors : Actors) (old : Json)
    (members list : List Json) : Prop where
  ascending : Ascending list
  unmarked : ∀ v ∈ list, v ∈ membersOf old ∨ v.getKey "deleted" = none
  stays : ∀ m ∈ membersOf old, ∀ id, memberId m = some id →
    ((∃ v ∈ list, memberId v = some id) ↔ ¬ Deletes members id)
  kept : ∀ m ∈ membersOf old, ∀ v ∈ list, ∀ id, memberId m = some id → memberId v = some id →
    Kept members id m v
  framed : ∀ old' extra, (membersOf old').Perm (membersOf old ++ extra) →
    StoredLog (membersOf old') → Fresh stamps (membersOf old' ++ members) →
    (∀ a ∈ extra, ∀ x ∈ members, memberId a ≠ memberId x) →
    ∃ list', normalizeCommentLog stamps actors old' (.array members) = .ok (.array list') ∧
      Ascending list' ∧ ∀ v, v ∈ list' ↔ v ∈ list ∨ v ∈ extra

theorem mem_values (h : Inv stamps stored done s) :
    v ∈ s.merged.values ↔ ∃ id, memberId v = some id ∧ s.merged.get? id = some v := by
  constructor
  · intro hv
    obtain ⟨⟨k, w⟩, he, rfl⟩ := List.mem_map.mp hv
    have hget := SortedMap.get?_eq_some_iff.mpr he
    exact ⟨k, h.keyed k w hget, hget⟩
  · rintro ⟨id, -, hget⟩
    exact List.mem_map.mpr ⟨(id, v), SortedMap.get?_eq_some_iff.mp hget, rfl⟩

theorem ascending_values (h : Inv stamps stored done s) : Ascending s.merged.values := by
  refine ⟨s.merged.keys, ?_, s.merged.sorted⟩
  rw [SortedMap.values, SortedMap.keys, List.map_map, List.map_map]
  refine List.map_congr_left fun e he => ?_
  exact h.keyed e.1 e.2 (SortedMap.get?_eq_some_iff.mpr he)

theorem normalizeCommentLog_eq_ok
    (h : normalizeCommentLog stamps actors old (.array members) = .ok result) :
    ∃ s, members.foldlM (mergeMember stamps) ⟨storedMap old, actors, 0⟩ = .ok s ∧
      result = .array s.merged.values := by
  obtain ⟨s, hs, heq⟩ := exists_of_map h
  exact ⟨s, hs, heq.symm⟩

def extraMember (extra : List Json) (id : String) : Option Json :=
  extra.find? fun a => memberId a = some id

theorem extends_start {old' : Json} {extra : List Json} (actors : Actors)
    (hlog : StoredLog (membersOf old)) (hlog' : StoredLog (membersOf old'))
    (hperm : (membersOf old').Perm (membersOf old ++ extra)) :
    Extends (extraMember extra) ⟨storedMap old, actors, 0⟩ ⟨storedMap old', actors, 0⟩ := by
  refine ⟨rfl, rfl, fun id => Option.ext fun v => ?_⟩
  rw [get?_storedMap hlog', hperm.mem_iff, List.mem_append]
  cases hfind : extraMember extra id with
  | none =>
    have hnone : ∀ a ∈ extra, memberId a ≠ some id := by
      intro a ha
      simpa using List.find?_eq_none.mp hfind a ha
    rw [Option.none_or, get?_storedMap hlog]
    constructor
    · grind
    · rintro ⟨hv, hvid⟩
      exact ⟨.inl hv, hvid⟩
  | some a =>
    have ha : a ∈ extra := List.mem_of_find?_eq_some hfind
    have haid : memberId a = some id := by simpa using List.find?_some hfind
    constructor
    · rintro ⟨hv, hvid⟩
      exact congrArg some (List.inj_on_of_nodup_map hlog'.nodup
        (hperm.mem_iff.mpr (List.mem_append_right _ ha))
        (hperm.mem_iff.mpr (List.mem_append.mpr hv)) (haid.trans hvid.symm))
    · grind

theorem Fresh.left {xs ys : List Json} (h : Fresh stamps (xs ++ ys)) : Fresh stamps xs :=
  ⟨fun n m hm => h.above n m (List.mem_append_left ys hm), h.ascending⟩

/-- No comment is lost by a commit from a stale editor. -/
theorem normalizeCommentLog_keeps (hlog : StoredLog (membersOf old))
    (hfresh : Fresh stamps (membersOf old ++ members))
    (h : normalizeCommentLog stamps actors old (.array members) = .ok result) :
    ∃ list, result = .array list ∧ KeepsComments stamps actors old members list := by
  obtain ⟨s, hrun, rfl⟩ := normalizeCommentLog_eq_ok h
  have hinv := (inv_start hlog stamps actors).run hfresh.left hrun
  rw [List.nil_append] at hinv
  refine ⟨s.merged.values, rfl, ascending_values hinv, ?_, ?_, ?_, ?_⟩
  · intro v hv
    obtain ⟨id, -, hget⟩ := (mem_values hinv).mp hv
    exact hinv.unmarked id v hget
  · intro m hm id hid
    constructor
    · rintro ⟨v, hv, hvid⟩ hdel
      obtain ⟨id', hid', hget⟩ := (mem_values hinv).mp hv
      obtain rfl := Option.some.inj (hvid.symm.trans hid')
      rw [hinv.deleted m hm id hid hdel] at hget
      cases hget
    · intro hnot
      obtain ⟨v, hv, -⟩ := hinv.kept m hm id hid hnot
      exact ⟨v, (mem_values hinv).mpr ⟨id, hinv.keyed id v hv, hv⟩, hinv.keyed id v hv⟩
  · intro m hm v hv id hid hvid
    obtain ⟨id', hid', hget⟩ := (mem_values hinv).mp hv
    obtain rfl := Option.some.inj (hvid.symm.trans hid')
    have hnot : ¬ Deletes members id := by
      intro hdel
      rw [hinv.deleted m hm id hid hdel] at hget
      cases hget
    obtain ⟨w, hw, hkept⟩ := hinv.kept m hm id hid hnot
    obtain rfl := Option.some.inj (hget.symm.trans hw)
    exact hkept
  · intro old' extra hperm hlog' hfresh' hapart
    have hextra : ∀ {id a}, extraMember extra id = some a → a ∈ extra ∧ memberId a = some id := by
      intro id a ha
      exact ⟨List.mem_of_find?_eq_some ha, by simpa using List.find?_some ha⟩
    have hin : ∀ a ∈ extra, a ∈ membersOf old' :=
      fun a ha => hperm.mem_iff.mpr (List.mem_append_right _ ha)
    have hid : ∀ x ∈ members, ∀ id, memberId x = some id → extraMember extra id = none := by
      intro x hx id hxid
      refine Option.eq_none_iff_forall_ne_some.mpr fun a ha => ?_
      exact hapart a (hextra ha).1 x hx ((hextra ha).2.trans hxid.symm)
    have hstamps : ∀ n, extraMember extra (stamps n).id = none := by
      intro n
      refine Option.eq_none_iff_forall_ne_some.mpr fun a ha => ?_
      exact hfresh'.left.stamp_ne n (hin a (hextra ha).1) (hextra ha).2 rfl
    obtain ⟨s', hrun', hlast⟩ := (extends_start actors hlog hlog' hperm).run hid hstamps hrun
    have hinv' := (inv_start hlog' stamps actors).run hfresh'.left hrun'
    refine ⟨s'.merged.values, ?_, ascending_values hinv', ?_⟩
    · show (members.foldlM (mergeMember stamps) ⟨storedMap old', actors, 0⟩).map _ = _
      rw [hrun']
      rfl
    · intro v
      rw [mem_values hinv', mem_values hinv]
      constructor
      · rintro ⟨id, hvid, hget⟩
        rw [hlast.merged, Option.or_eq_some_iff] at hget
        rcases hget with hget | ⟨-, hget⟩
        · exact .inr (hextra hget).1
        · exact .inl ⟨id, hvid, hget⟩
      · rintro (⟨id, hvid, hget⟩ | hv)
        · refine ⟨id, hvid, ?_⟩
          have hnone : extraMember extra id = none := by
            refine Option.eq_none_iff_forall_ne_some.mpr fun a ha => ?_
            rcases hinv.keys id v hget with ⟨m, hm, hmid⟩ | ⟨n, -, rfl⟩
            · have happ := (hperm.map memberId).nodup_iff.mp hlog'.nodup
              rw [List.map_append, List.nodup_append] at happ
              exact happ.2.2 _ (List.mem_map_of_mem hm) _ (List.mem_map_of_mem (hextra ha).1)
                (hmid.trans (hextra ha).2.symm)
            · rw [hstamps] at ha
              cases ha
          rw [hlast.merged, hnone]
          exact hget
        · obtain ⟨id, hvid⟩ := Option.isSome_iff_exists.mp (hlog'.hasId v (hin v hv))
          refine ⟨id, hvid, ?_⟩
          have hsome : extraMember extra id = some v := by
            cases hfind : extraMember extra id with
            | none =>
              have hnot := List.find?_eq_none.mp hfind v hv
              simp [hvid] at hnot
            | some a =>
              rw [List.inj_on_of_nodup_map hlog'.nodup (hin a (hextra hfind).1) (hin v hv)
                ((hextra hfind).2.trans hvid.symm)]
          rw [hlast.merged, hsome]
          rfl

def latest (n : Nat) : Stamp :=
  ⟨String.ofList (List.replicate (n + 1) 'z'), "2026-01-01T00:00:00Z"⟩

theorem replicate_lt_replicate {m n : Nat} (h : m < n) :
    List.replicate m 'z' < List.replicate n 'z' := by
  induction m generalizing n with
  | zero =>
    obtain ⟨n, rfl⟩ := Nat.exists_eq_succ_of_ne_zero (Nat.ne_of_gt h)
    exact List.Lex.nil
  | succ m ih =>
    obtain ⟨n, rfl⟩ := Nat.exists_eq_succ_of_ne_zero (Nat.ne_of_gt (Nat.zero_lt_of_lt h))
    exact List.Lex.cons (ih (Nat.lt_of_succ_lt_succ h))

theorem fresh_latest (h : ∀ m ∈ members, ∀ id, memberId m = some id → id = "a") :
    Fresh latest members := by
  constructor
  · intro n m hm id hid
    rw [h m hm id hid, String.lt_iff_toList_lt]
    simp only [latest, String.toList_ofList]
    exact List.Lex.rel (by decide)
  · intro m n hmn
    rw [String.lt_iff_toList_lt]
    simp only [latest, String.toList_ofList]
    exact replicate_lt_replicate (Nat.succ_lt_succ hmn)

def written (text : String) : Json :=
  .object [("actor", .string "ada"), ("id", .string "a"), ("text", .string text),
    ("timestamp", .string "2025-01-01T00:00:00Z")]

theorem written_keeps :
    ∃ list, normalizeCommentLog latest ⟨[], "bob"⟩ (.array [written "first"])
        (.array [.object [("text", .string "new")], written "second"]) = .ok (.array list) ∧
      KeepsComments latest ⟨[], "bob"⟩ (.array [written "first"])
        [.object [("text", .string "new")], written "second"] list := by
  have hlog : StoredLog (membersOf (.array [written "first"])) := ⟨by decide, by decide⟩
  have hfresh : Fresh latest (membersOf (.array [written "first"]) ++
      [.object [("text", .string "new")], written "second"]) := by
    refine fresh_latest fun m hm id hid => ?_
    simp only [membersOf, Json.asArray, Option.getD_some, List.cons_append, List.nil_append,
      List.mem_cons, List.not_mem_nil, or_false] at hm
    rcases hm with rfl | rfl | rfl
    · exact (Option.some.inj hid).symm
    · cases hid
    · exact (Option.some.inj hid).symm
  have hrun : normalizeCommentLog latest ⟨[], "bob"⟩ (.array [written "first"])
      (.array [.object [("text", .string "new")], written "second"]) =
        .ok (.array [written "second", buildCommentMember (latest 0) "new" "bob"]) := rfl
  obtain ⟨list, hlist, hkeeps⟩ := normalizeCommentLog_keeps hlog hfresh hrun
  exact ⟨list, hlist ▸ rfl, hkeeps⟩

def marked : Json := .object [("deleted", .bool true), ("id", .string "a")]

theorem stored_marker_stays :
    ¬ ∀ (stamps : Nat → Stamp) (actors : Actors) (old : Json) (members list : List Json),
      StoredLog (membersOf old) → Fresh stamps (membersOf old ++ members) →
      normalizeCommentLog stamps actors old (.array members) = .ok (.array list) →
      ∀ v ∈ list, isTombstone v = false := by
  intro h
  have hlog : StoredLog (membersOf (.array [marked])) := ⟨by decide, by decide⟩
  have hfresh : Fresh latest [marked] := by
    refine fresh_latest fun m hm id hid => ?_
    rw [List.mem_singleton.mp hm] at hid
    exact (Option.some.inj hid).symm
  have hmarked := h latest ⟨[], "bob"⟩ (.array [marked]) [] [marked] hlog hfresh rfl marked
    List.mem_cons_self
  cases hmarked

end

end SwissArmyHammer.Kanban.Comments
