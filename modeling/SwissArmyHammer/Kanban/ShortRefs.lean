import SwissArmyHammer.Kanban.TaskHelpers
import SwissArmyHammer.Text.Lines
import SwissArmyHammer.Text.Utf8

/-! References to tasks by full id, short id or prefix: over the board, and over the ids that one
task can match. -/

namespace SwissArmyHammer.Kanban

open Entities Text

/-- `str::to_lowercase`; ASCII characters are mapped one by one. -/
structure Lowercase where
  apply : List Char → List Char
  ascii : ∀ s, (∀ c ∈ s, c.toNat < 128) → apply s = s.map Char.toLower

def Lowercase.asciiOnly : Lowercase where
  apply s := s.map Char.toLower
  ascii _ _ := rfl

inductive ResolveResult
  | found (id : String)
  | notFound
  | ambiguous (ids : List String)
  deriving DecidableEq, Repr

def ulidLen : Nat := 26

section

variable (L : Lowercase)

def lowered (id : String) : List Char := L.apply id.toList

def Lowercase.shortId (ulid : String) : List Char :=
  L.apply (ulid.toList.drop (ulid.toList.length - shortIdLen))

def stripSigil (input : String) : List Char :=
  match trim input.toList with
  | '^' :: rest => rest
  | trimmed => trimmed

def needleOf (input : String) : List Char := L.apply (stripSigil input)

def prefixMatches (taskIds : List String) (needle : List Char) : List String :=
  taskIds.filter fun id => needle.isPrefixOf (lowered L id)

def resolvePrefix (taskIds : List String) (needle : List Char) : ResolveResult :=
  match prefixMatches L taskIds needle with
  | [] => .notFound
  | [id] => .found id
  | ids => .ambiguous ids

def resolveShortRef (taskIds : List String) (input : String) : ResolveResult :=
  if stripSigil input = [] then .notFound
  else
    let needle := needleOf L input
    let full := if (utf8 needle).length = ulidLen then
      taskIds.find? fun id => lowered L id = needle else none
    match full with
    | some id => .found id
    | none =>
      let short := if (utf8 needle).length = shortIdLen then
        taskIds.find? fun id => L.shortId id = needle else none
      match short with
      | some id => .found id
      | none => resolvePrefix L taskIds needle

structure EntitySlugRegistry where
  taskSlugToId : Std.ExtTreeMap String String

def EntitySlugRegistry.taskIdForSlug (registry : EntitySlugRegistry) (value : String) :
    Option String :=
  registry.taskSlugToId[value.map Char.toLower]?

structure TaskFilterAdapter where
  entity : Entity
  registry : Option EntitySlugRegistry

namespace TaskFilterAdapter

def new (entity : Entity) : TaskFilterAdapter := ⟨entity, none⟩

def candidates (entity : Entity) : List String :=
  entity.id :: entity.getStringList "depends_on"

def shortRefMatches (a : TaskFilterAdapter) (id : String) : Bool :=
  match resolveShortRef L (candidates a.entity) id with
  | .found _ => true
  | _ => false

def hasRef (a : TaskFilterAdapter) (id : String) : Bool :=
  let dependsOn := a.entity.getStringList "depends_on"
  if a.entity.id = id then true
  else if dependsOn.any fun r => r = id then true
  else if a.shortRefMatches L id then true
  else
    match a.registry.bind fun registry => registry.taskIdForSlug id with
    | some resolvedId => decide (a.entity.id = resolvedId) || dependsOn.any fun r => r = resolvedId
    | none => false

end TaskFilterAdapter

end

def crockford : List Char := "0123456789ABCDEFGHJKMNPQRSTVWXYZ".toList

def IsUlid (id : String) : Prop := id.toList.length = ulidLen ∧ ∀ c ∈ id.toList, c ∈ crockford

section

variable {L : Lowercase} {id other r : String} {ids : List String} {needle : List Char}

theorem crockford_ascii {c : Char} (h : c ∈ crockford) :
    c.toNat < 128 ∧ isWhitespace c = false ∧ c ≠ '^' ∧ (c.toLower).toNat < 128 := by
  have hall : crockford.all (fun c => decide (c.toNat < 128 ∧ isWhitespace c = false ∧ c ≠ '^' ∧
      (c.toLower).toNat < 128)) = true := by
    decide
  exact of_decide_eq_true (List.all_eq_true.mp hall c h)

theorem IsUlid.ascii (h : IsUlid id) : ∀ c ∈ id.toList, c.toNat < 128 := fun c hc =>
  (crockford_ascii (h.2 c hc)).1

theorem IsUlid.lowered_eq (h : IsUlid id) : lowered L id = id.toList.map Char.toLower :=
  L.ascii _ h.ascii

theorem IsUlid.length_lowered (h : IsUlid id) : (lowered L id).length = ulidLen := by
  rw [h.lowered_eq, List.length_map, h.1]

theorem IsUlid.shortId_eq (h : IsUlid id) : L.shortId id = (lowered L id).drop 19 := by
  have hdrop : ∀ c ∈ id.toList.drop (id.toList.length - shortIdLen), c.toNat < 128 := fun c hc =>
    h.ascii c (List.mem_of_mem_drop hc)
  rw [Lowercase.shortId, L.ascii _ hdrop, h.lowered_eq, List.map_drop, h.1]
  rfl

theorem IsUlid.length_shortId (h : IsUlid id) : (L.shortId id).length = shortIdLen := by
  rw [h.shortId_eq, List.length_drop, h.length_lowered]
  rfl

theorem IsUlid.lowered_ascii (h : IsUlid id) : ∀ c ∈ lowered L id, c.toNat < 128 := by
  intro c hc
  rw [h.lowered_eq] at hc
  obtain ⟨d, hd, rfl⟩ := List.mem_map.mp hc
  exact (crockford_ascii (h.2 d hd)).2.2.2

theorem utf8_length_of_ascii {s : List Char} (h : ∀ c ∈ s, c.toNat < 128) :
    (utf8 s).length = s.length := by
  induction s with
  | nil => rfl
  | cons c s ih =>
    have hc : (String.utf8EncodeChar c).length = 1 := by
      rw [utf8EncodeChar_ascii (h c List.mem_cons_self)]
      rfl
    rw [utf8_cons, List.length_append, hc, ih fun d hd => h d (List.mem_cons_of_mem _ hd),
      List.length_cons, Nat.add_comm]

theorem IsUlid.bytes_lowered (h : IsUlid id) : (utf8 (lowered L id)).length = ulidLen := by
  rw [utf8_length_of_ascii h.lowered_ascii, h.length_lowered]

theorem IsUlid.bytes_shortId (h : IsUlid id) : (utf8 (L.shortId id)).length = shortIdLen := by
  rw [utf8_length_of_ascii, h.length_shortId]
  intro c hc
  rw [h.shortId_eq] at hc
  exact h.lowered_ascii c (List.mem_of_mem_drop hc)

theorem needleOf_nil (h : stripSigil r = []) : needleOf L r = [] := by
  rw [needleOf, h]
  exact L.ascii [] fun c hc => by cases hc

theorem IsUlid.needleOf_eq (h : IsUlid id) : needleOf L id = lowered L id := by
  have htrim : trim id.toList = id.toList := by
    have hdrop : ∀ l : List Char, (∀ c ∈ l, isWhitespace c = false) →
        l.dropWhile isWhitespace = l := by
      intro l hl
      cases l with
      | nil => rfl
      | cons c l => rw [List.dropWhile_cons_of_neg (by simp [hl c List.mem_cons_self])]
    have hspace : ∀ c ∈ id.toList, isWhitespace c = false := fun c hc =>
      (crockford_ascii (h.2 c hc)).2.1
    rw [trim, hdrop _ hspace, hdrop, List.reverse_reverse]
    intro c hc
    exact hspace c (List.mem_reverse.mp hc)
  rw [needleOf, stripSigil, htrim]
  split
  · rename_i rest heq
    have hsigil : '^' ∈ id.toList := by
      rw [heq]
      exact List.mem_cons_self
    exact absurd rfl (crockford_ascii (h.2 _ hsigil)).2.2.1
  · rfl

end

section

variable {L : Lowercase} {x r : String} {ids B : List String} {needle : List Char}

structure BoardIds (L : Lowercase) (ids : List String) : Prop where
  ulid : ∀ id ∈ ids, IsUlid id
  distinct : ∀ a ∈ ids, ∀ b ∈ ids, L.shortId a = L.shortId b → a = b

theorem BoardIds.subset (h : BoardIds L B) (hsub : ∀ id ∈ ids, id ∈ B) : BoardIds L ids where
  ulid id hid := h.ulid id (hsub id hid)
  distinct a ha b hb := h.distinct a (hsub a ha) b (hsub b hb)

theorem BoardIds.lowered_inj (h : BoardIds L ids) {a b : String} (ha : a ∈ ids) (hb : b ∈ ids)
    (heq : lowered L a = lowered L b) : a = b := by
  apply h.distinct a ha b hb
  rw [(h.ulid a ha).shortId_eq, (h.ulid b hb).shortId_eq, heq]

theorem find_of_inj {f : String → List Char} (hinj : ∀ a ∈ ids, f a = needle → a = x) (hx : x ∈ ids)
    (hfx : f x = needle) : ids.find? (fun id => decide (f id = needle)) = some x := by
  cases hfind : ids.find? fun id => decide (f id = needle) with
  | none =>
    have hnone := List.find?_eq_none.mp hfind x hx
    exact absurd (decide_eq_true hfx) hnone
  | some y =>
    have hy := List.find?_some hfind
    rw [hinj y (List.mem_of_find?_eq_some hfind) (of_decide_eq_true hy)]

theorem BoardIds.resolve_full (h : BoardIds L ids) (hx : x ∈ ids)
    (hfull : lowered L x = needleOf L r) : resolveShortRef L ids r = .found x := by
  have hlength := (h.ulid x hx).length_lowered (L := L)
  have hne : stripSigil r ≠ [] := by
    intro hnil
    rw [hfull, needleOf_nil hnil] at hlength
    cases hlength
  have hfind := find_of_inj (fun a ha heq => h.lowered_inj ha hx (heq.trans hfull.symm)) hx hfull
  have hbytes : (utf8 (needleOf L r)).length = ulidLen := by
    rw [← hfull]
    exact (h.ulid x hx).bytes_lowered
  rw [resolveShortRef, if_neg hne]
  dsimp only
  rw [if_pos hbytes, hfind]

theorem BoardIds.resolve_short (h : BoardIds L ids) (hx : x ∈ ids)
    (hshort : L.shortId x = needleOf L r) : resolveShortRef L ids r = .found x := by
  have hlength := (h.ulid x hx).length_shortId (L := L)
  have hne : stripSigil r ≠ [] := by
    intro hnil
    rw [hshort, needleOf_nil hnil] at hlength
    cases hlength
  have hfind := find_of_inj (fun a ha heq => h.distinct a ha x hx (heq.trans hshort.symm)) hx hshort
  have hbytes : (utf8 (needleOf L r)).length = shortIdLen := by
    rw [← hshort]
    exact (h.ulid x hx).bytes_shortId
  have hnotFull : (utf8 (needleOf L r)).length ≠ ulidLen := by
    rw [hbytes]
    decide
  rw [resolveShortRef, if_neg hne]
  dsimp only
  rw [if_neg hnotFull]
  rw [if_pos hbytes, hfind]

def OnlyPrefix (L : Lowercase) (ids : List String) (r : String) : Prop :=
  ∀ id ∈ ids, lowered L id ≠ needleOf L r ∧ L.shortId id ≠ needleOf L r

theorem resolve_starting (h : OnlyPrefix L ids r) (hne : stripSigil r ≠ []) :
    resolveShortRef L ids r = resolvePrefix L ids (needleOf L r) := by
  have hfull : ids.find? (fun id => decide (lowered L id = needleOf L r)) = none :=
    List.find?_eq_none.mpr fun id hid heq => (h id hid).1 (of_decide_eq_true heq)
  have hshort : ids.find? (fun id => decide (L.shortId id = needleOf L r)) = none :=
    List.find?_eq_none.mpr fun id hid heq => (h id hid).2 (of_decide_eq_true heq)
  rw [resolveShortRef, if_neg hne]
  dsimp only
  rw [hfull, hshort, ite_self, ite_self]

theorem full_or_short_or_prefix (L : Lowercase) (ids : List String) (r : String) :
    (∃ x ∈ ids, lowered L x = needleOf L r) ∨ (∃ x ∈ ids, L.shortId x = needleOf L r) ∨
      OnlyPrefix L ids r := by
  by_cases hfull : ∃ x ∈ ids, lowered L x = needleOf L r
  · exact .inl hfull
  · by_cases hshort : ∃ x ∈ ids, L.shortId x = needleOf L r
    · exact .inr (.inl hshort)
    · refine .inr (.inr fun id hid => ⟨fun heq => hfull ⟨id, hid, heq⟩, fun heq => ?_⟩)
      exact hshort ⟨id, hid, heq⟩

theorem resolvePrefix_found (h : resolvePrefix L ids needle = .found x) :
    prefixMatches L ids needle = [x] := by
  rw [resolvePrefix] at h
  split at h
  · cases h
  · rename_i id hid
    rw [hid, ResolveResult.found.inj h]
  · cases h

theorem resolvePrefix_of_single (h : prefixMatches L ids needle = [x]) :
    resolvePrefix L ids needle = .found x := by
  rw [resolvePrefix, h]

theorem resolvePrefix_ambiguous {matched : List String}
    (h : resolvePrefix L ids needle = .ambiguous matched) :
    prefixMatches L ids needle = matched := by
  rw [resolvePrefix] at h
  split at h
  · cases h
  · cases h
  · rw [ResolveResult.ambiguous.inj h]

theorem resolvePrefix_notFound (h : resolvePrefix L ids needle = .notFound) :
    prefixMatches L ids needle = [] := by
  rw [resolvePrefix] at h
  split at h
  · assumption
  · cases h
  · cases h

theorem mem_prefixMatches : x ∈ prefixMatches L ids needle ↔ x ∈ ids ∧ needle <+: lowered L x := by
  rw [prefixMatches, List.mem_filter, List.isPrefixOf_iff_prefix]

theorem prefix_of_single (h : prefixMatches L ids needle = [x]) : needle <+: lowered L x := by
  have hmem : x ∈ prefixMatches L ids needle := by
    rw [h]
    exact List.mem_singleton_self x
  exact (mem_prefixMatches.mp hmem).2

theorem BoardIds.not_prefix_of_full (h : BoardIds L B) {y : String} (hx : x ∈ B) (hy : y ∈ B)
    (hfull : lowered L x = needleOf L r) (hstarts : needleOf L r <+: lowered L y) : y = x := by
  apply h.lowered_inj hy hx
  rw [hfull]
  apply Eq.symm
  apply hstarts.eq_of_length
  rw [← hfull, (h.ulid x hx).length_lowered, (h.ulid y hy).length_lowered]

end

section

variable {L : Lowercase} {B : List String} {task : Entity} {r x : String}

theorem hasRef_iff (hcandidates : BoardIds L (TaskFilterAdapter.candidates task)) :
    (TaskFilterAdapter.new task).hasRef L r = true ↔
      ∃ x, resolveShortRef L (TaskFilterAdapter.candidates task) r = .found x := by
  have hshort : (TaskFilterAdapter.new task).shortRefMatches L r = true ↔
      ∃ x, resolveShortRef L (TaskFilterAdapter.candidates task) r = .found x := by
    rw [TaskFilterAdapter.shortRefMatches]
    change (match resolveShortRef L (TaskFilterAdapter.candidates task) r with
      | .found _ => true
      | _ => false) = true ↔ _
    cases resolveShortRef L (TaskFilterAdapter.candidates task) r with
    | found x => exact ⟨fun _ => ⟨x, rfl⟩, fun _ => rfl⟩
    | notFound =>
      simp
    | ambiguous ids =>
      simp
  have hdirect : r ∈ TaskFilterAdapter.candidates task →
      ∃ x, resolveShortRef L (TaskFilterAdapter.candidates task) r = .found x := fun hr =>
    ⟨r, hcandidates.resolve_full hr (hcandidates.ulid r hr).needleOf_eq.symm⟩
  rw [← hshort] at hdirect ⊢
  change (if task.id = r then true
    else if (task.getStringList "depends_on").any fun d => d = r then true
    else if (TaskFilterAdapter.new task).shortRefMatches L r = true then true else false) = true ↔ _
  split
  · rename_i hself
    exact ⟨fun _ => hdirect (hself ▸ List.mem_cons_self), fun _ => rfl⟩
  · split
    · rename_i hany
      obtain ⟨d, hd, heq⟩ := List.any_eq_true.mp hany
      refine ⟨fun _ => hdirect ?_, fun _ => rfl⟩
      rw [← of_decide_eq_true heq]
      exact List.mem_cons_of_mem _ hd
    · simp

/-- What the filter says of a reference against what the board says. Left open: a short id of
another task that the id of a candidate starts with. -/
structure FollowsBoard (L : Lowercase) (B : List String) (task : Entity) (r : String) : Prop where
  found : ∀ x, resolveShortRef L B r = .found x → x ∈ TaskFilterAdapter.candidates task →
    (TaskFilterAdapter.new task).hasRef L r = true
  other : ∀ x, resolveShortRef L B r = .found x → x ∉ TaskFilterAdapter.candidates task →
    ¬ (L.shortId x = needleOf L r ∧
      ∃ c ∈ TaskFilterAdapter.candidates task, needleOf L r <+: lowered L c) →
    (TaskFilterAdapter.new task).hasRef L r = false
  ambiguous : ∀ matched, resolveShortRef L B r = .ambiguous matched →
    ((TaskFilterAdapter.new task).hasRef L r = true ↔
      ((TaskFilterAdapter.candidates task).filter fun c => c ∈ matched).length = 1)
  notFound : resolveShortRef L B r = .notFound → (TaskFilterAdapter.new task).hasRef L r = false

theorem not_hasRef (hcandidates : BoardIds L (TaskFilterAdapter.candidates task))
    (h : ∀ x, resolveShortRef L (TaskFilterAdapter.candidates task) r ≠ .found x) :
    (TaskFilterAdapter.new task).hasRef L r = false := by
  apply Bool.eq_false_iff.mpr
  intro hhas
  obtain ⟨x, hx⟩ := (hasRef_iff hcandidates).mp hhas
  exact h x hx

theorem OnlyPrefix.subset {ids : List String} (h : OnlyPrefix L B r) (hsub : ∀ id ∈ ids, id ∈ B) :
    OnlyPrefix L ids r :=
  fun id hid => h id (hsub id hid)

theorem candidate_reading {ids : List String} (hids : BoardIds L ids)
    (h : resolveShortRef L ids r = .found x) :
    x ∈ ids ∧ (lowered L x = needleOf L r ∨ L.shortId x = needleOf L r ∨
      OnlyPrefix L ids r ∧ stripSigil r ≠ [] ∧ prefixMatches L ids (needleOf L r) = [x]) := by
  rcases full_or_short_or_prefix L ids r with ⟨y, hy, hfull⟩ | ⟨y, hy, hshort⟩ | honly
  · rw [hids.resolve_full hy hfull] at h
    obtain rfl := ResolveResult.found.inj h
    exact ⟨hy, .inl hfull⟩
  · rw [hids.resolve_short hy hshort] at h
    obtain rfl := ResolveResult.found.inj h
    exact ⟨hy, .inr (.inl hshort)⟩
  · have hne : stripSigil r ≠ [] := by
      intro hnil
      rw [resolveShortRef, if_pos hnil] at h
      cases h
    rw [resolve_starting honly hne] at h
    have hsingle := resolvePrefix_found h
    have hmem : x ∈ prefixMatches L ids (needleOf L r) := by
      rw [hsingle]
      exact List.mem_singleton_self x
    exact ⟨(mem_prefixMatches.mp hmem).1, .inr (.inr ⟨honly, hne, hsingle⟩)⟩

theorem found_in_candidates {ids : List String} (hB : BoardIds L B) (hsub : ∀ id ∈ ids, id ∈ B)
    (hnodup : ids.Nodup) (h : resolveShortRef L B r = .found x) (hx : x ∈ ids) :
    resolveShortRef L ids r = .found x := by
  have hids : BoardIds L ids := hB.subset hsub
  obtain ⟨-, hfull | hshort | ⟨honly, hne, hsingle⟩⟩ := candidate_reading hB h
  · exact hids.resolve_full hx hfull
  · exact hids.resolve_short hx hshort
  · rw [resolve_starting (honly.subset hsub) hne]
    apply resolvePrefix_of_single
    have hstarts := prefix_of_single hsingle
    have hall : ∀ y ∈ prefixMatches L ids (needleOf L r), y = x := by
      intro y hy
      obtain ⟨hyids, hyprefix⟩ := mem_prefixMatches.mp hy
      have hyB : y ∈ prefixMatches L B (needleOf L r) :=
        mem_prefixMatches.mpr ⟨hsub y hyids, hyprefix⟩
      rw [hsingle] at hyB
      exact List.mem_singleton.mp hyB
    have hnd : (prefixMatches L ids (needleOf L r)).Nodup := hnodup.filter _
    have hxmem : x ∈ prefixMatches L ids (needleOf L r) := mem_prefixMatches.mpr ⟨hx, hstarts⟩
    have hreplicate := List.eq_replicate_of_mem hall
    rw [hreplicate] at hnd hxmem ⊢
    have hle := List.nodup_replicate.mp hnd
    have hpos := List.length_pos_of_mem hxmem
    rw [List.length_replicate] at hpos
    have hone : (prefixMatches L ids (needleOf L r)).length = 1 := by omega
    rw [hone]
    rfl

/-- For tasks with distinct short ids, the filter follows the board, where a reference that is
ambiguous on the board is looked for among the candidates. -/
theorem hasRef_follows_board (hB : BoardIds L B)
    (hsub : ∀ id ∈ TaskFilterAdapter.candidates task, id ∈ B)
    (hnodup : (TaskFilterAdapter.candidates task).Nodup) (r : String) :
    FollowsBoard L B task r where
  found x hx hin :=
    (hasRef_iff (hB.subset hsub)).mpr ⟨x, found_in_candidates hB hsub hnodup hx hin⟩
  other x hx hout hleft := by
    apply not_hasRef (hB.subset hsub)
    intro y hy
    obtain ⟨hyin, hreading⟩ := candidate_reading (hB.subset hsub) hy
    have hyB := hsub y hyin
    have hne : y ≠ x := fun heq => hout (heq ▸ hyin)
    obtain ⟨hxB, hboard⟩ := candidate_reading hB hx
    rcases hreading with hfull | hshort | ⟨honly, hsigil, hsingle⟩
    · rw [hB.resolve_full hyB hfull] at hx
      exact hne (ResolveResult.found.inj hx)
    · rw [hB.resolve_short hyB hshort] at hx
      exact hne (ResolveResult.found.inj hx)
    · have hstarts := prefix_of_single hsingle
      rcases hboard with hxfull | hxshort | ⟨-, -, hxsingle⟩
      · exact hne (hB.not_prefix_of_full hxB hyB hxfull hstarts)
      · exact hleft ⟨hxshort, y, hyin, hstarts⟩
      · have hyB' : y ∈ prefixMatches L B (needleOf L r) := mem_prefixMatches.mpr ⟨hyB, hstarts⟩
        rw [hxsingle] at hyB'
        exact hne (List.mem_singleton.mp hyB')
  ambiguous matched hmatched := by
    have hcandidates := hB.subset hsub
    rcases full_or_short_or_prefix L B r with ⟨y, hy, hfull⟩ | ⟨y, hy, hshort⟩ | honly
    · rw [hB.resolve_full hy hfull] at hmatched
      cases hmatched
    · rw [hB.resolve_short hy hshort] at hmatched
      cases hmatched
    · have hne : stripSigil r ≠ [] := by
        intro hnil
        rw [resolveShortRef, if_pos hnil] at hmatched
        cases hmatched
      rw [resolve_starting honly hne] at hmatched
      have hprefixes := resolvePrefix_ambiguous hmatched
      have hfilter : prefixMatches L (TaskFilterAdapter.candidates task) (needleOf L r) =
          (TaskFilterAdapter.candidates task).filter fun c => c ∈ matched := by
        apply List.filter_congr
        intro c hc
        rw [← hprefixes, Bool.eq_iff_iff, List.isPrefixOf_iff_prefix, decide_eq_true_eq,
          mem_prefixMatches]
        exact ⟨fun h => ⟨hsub c hc, h⟩, fun h => h.2⟩
      rw [hasRef_iff hcandidates, resolve_starting (honly.subset hsub) hne, ← hfilter]
      constructor
      · intro h
        obtain ⟨x, hx⟩ := h
        rw [resolvePrefix_found hx]
        rfl
      · intro h
        obtain ⟨x, hx⟩ := List.length_eq_one_iff.mp h
        exact ⟨x, resolvePrefix_of_single hx⟩
  notFound hnone := by
    apply not_hasRef (hB.subset hsub)
    intro y hy
    obtain ⟨hyin, hreading⟩ := candidate_reading (hB.subset hsub) hy
    have hyB := hsub y hyin
    rcases hreading with hfull | hshort | ⟨-, hsigil, hsingle⟩
    · rw [hB.resolve_full hyB hfull] at hnone
      cases hnone
    · rw [hB.resolve_short hyB hshort] at hnone
      cases hnone
    · have hstarts := prefix_of_single hsingle
      rcases full_or_short_or_prefix L B r with ⟨z, hz, hfull⟩ | ⟨z, hz, hshort⟩ | honly
      · rw [hB.resolve_full hz hfull] at hnone
        cases hnone
      · rw [hB.resolve_short hz hshort] at hnone
        cases hnone
      · rw [resolve_starting honly hsigil] at hnone
        have hmem : y ∈ prefixMatches L B (needleOf L r) := mem_prefixMatches.mpr ⟨hyB, hstarts⟩
        rw [resolvePrefix_notFound hnone] at hmem
        cases hmem

end

section

variable {id : String}

def selfId : String := "01KT6SAMJAJ40XVQ9Y7JRAJ9VG"

def depId : String := "01KT6R6HR3KJT6JVNDRAJV8V4T"

theorem isUlid_of_all (hlength : id.toList.length = ulidLen)
    (hall : id.toList.all (fun c => decide (c ∈ crockford)) = true) : IsUlid id :=
  ⟨hlength, fun c hc => of_decide_eq_true (List.all_eq_true.mp hall c hc)⟩

theorem boardIds_pair : BoardIds .asciiOnly [selfId, depId] where
  ulid id hid := by
    rcases List.mem_pair.mp hid with rfl | rfl
    · exact isUlid_of_all (by decide) (by decide)
    · exact isUlid_of_all (by decide) (by decide)
  distinct a ha b hb heq := by
    have hne : Lowercase.asciiOnly.shortId selfId ≠ Lowercase.asciiOnly.shortId depId := by decide
    rcases List.mem_pair.mp ha with rfl | rfl
    · grind
    · grind

def dependent : Entity := (Entity.new "task" selfId).set "depends_on" (.ofStrings [depId])

theorem candidates_dependent : TaskFilterAdapter.candidates dependent = [selfId, depId] := by
  rfl

theorem dependency_short_id_matches :
    (TaskFilterAdapter.new dependent).hasRef .asciiOnly "ajv8v4t" = true := by
  have hmem : depId ∈ TaskFilterAdapter.candidates dependent := by
    rw [candidates_dependent]
    exact List.mem_cons_of_mem _ List.mem_cons_self
  have hsub : ∀ id ∈ TaskFilterAdapter.candidates dependent, id ∈ [selfId, depId] := by
    intro id hid
    rwa [candidates_dependent] at hid
  have hnodup : (TaskFilterAdapter.candidates dependent).Nodup := by
    rw [candidates_dependent]
    decide
  have hfound : resolveShortRef .asciiOnly [selfId, depId] "ajv8v4t" = .found depId := by
    decide
  exact (hasRef_follows_board boardIds_pair hsub hnodup "ajv8v4t").found depId hfound hmem

theorem ambiguous_prefix_matches : ∃ (B : List String) (task : Entity) (r : String),
    BoardIds .asciiOnly B ∧ (∀ id ∈ TaskFilterAdapter.candidates task, id ∈ B) ∧
      (TaskFilterAdapter.candidates task).Nodup ∧
      resolveShortRef .asciiOnly B r = .ambiguous B ∧
      (TaskFilterAdapter.new task).hasRef .asciiOnly r = true := by
  refine ⟨[selfId, depId], Entity.new "task" selfId, "01KT6", boardIds_pair, fun id hid => ?_,
    List.nodup_singleton _, by decide, ?_⟩
  · rw [List.mem_singleton.mp hid]
    exact List.mem_cons_self
  · have hcandidates : BoardIds .asciiOnly (TaskFilterAdapter.candidates
        (Entity.new "task" selfId)) :=
      boardIds_pair.subset fun id hid => List.mem_singleton.mp hid ▸ List.mem_cons_self
    have hfound : resolveShortRef .asciiOnly [selfId] "01KT6" = .found selfId := by
      decide
    exact (hasRef_iff hcandidates).mpr ⟨selfId, hfound⟩

end

end SwissArmyHammer.Kanban
