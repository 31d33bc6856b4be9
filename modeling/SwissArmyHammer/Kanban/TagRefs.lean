import SwissArmyHammer.Kanban.BoardStore
import SwissArmyHammer.Kanban.TagRemoval

/-! How the tags given to a task operation are written into its body. -/

namespace SwissArmyHammer.Kanban

open Text

inductive TagApply where
  | append
  | replace
  | remove
  deriving DecidableEq

inductive KanbanError where
  | parse (message : List Char)
  deriving DecidableEq

def debugSlug (slug : Slug) : List Char := '"' :: slug ++ ['"']

def debugSlugs (slugs : List Slug) : List Char :=
  '[' :: List.intercalate [',', ' '] (slugs.map debugSlug) ++ [']']

def stripAllTags (body : List Char) : List Char :=
  (parseTags body).foldl removeTag body

def rewriteBody (body : List Char) (slugs : List Slug) (mode : TagApply) :
    Except KanbanError (List Char) :=
  let base := match mode with
    | .replace => stripAllTags body
    | .append | .remove => body
  let newBody := slugs.foldl (fun acc slug => match mode with
    | .remove => removeTag acc slug
    | .append | .replace => appendTag acc slug) base
  let applied := parseTags newBody
  let wantedPresent := decide (mode ≠ .remove)
  match slugs.find? fun slug => decide (slug ∈ applied) ≠ wantedPresent with
  | some slug =>
    let verb := if wantedPresent then "apply".toList else "remove".toList
    .error (.parse ("could not ".toList ++ verb ++ " tag ".toList ++ debugSlug slug ++
      ": the description's code fences hide the `#".toList ++ slug ++
      "` marker from the tag parser — close the fence or edit the description directly".toList))
  | none =>
    if mode = .replace ∧ applied.length ≠ slugs.length then
      .error (.parse ("could not replace the tag set: ".toList ++ debugSlugs applied ++
        " survived instead of ".toList ++ debugSlugs slugs ++
        " — edit the description directly".toList))
    else .ok newBody

/-- Each removal of the run is clean in the body the ones before it have left. -/
def RemovalsClean : List Char → List Slug → Prop
  | _, [] => True
  | body, slug :: slugs => RemovesCleanly body slug ∧ RemovalsClean (removeTag body slug) slugs

theorem parseTags_removeTags {body : List Char} {slugs : List Slug} (h : RemovalsClean body slugs) :
    parseTags (slugs.foldl removeTag body) = (parseTags body).filter (· ∉ slugs) := by
  induction slugs generalizing body with
  | nil => simp
  | cons slug slugs ih =>
    rw [List.foldl_cons, ih h.2, parseTags_removeTag h.1, List.filter_filter]
    congr 1
    simp [Bool.and_comm]

theorem rewriteBody_remove {body : List Char} {slugs : List Slug} (h : RemovalsClean body slugs) :
    rewriteBody body slugs .remove = .ok (slugs.foldl removeTag body) := by
  have hnone : slugs.find? (fun slug => decide (slug ∈ parseTags (slugs.foldl removeTag body)) ≠
      false) = none := by
    rw [List.find?_eq_none]
    intro slug hslug
    simp [parseTags_removeTags h, hslug]
  simp only [rewriteBody]
  rw [show decide (TagApply.remove ≠ .remove) = false from rfl, hnone]
  rfl

/-- Where the removals are clean, they take out the given tags and no other. -/
theorem removal_keeps_other_tags (body : List Char) (slugs : List Slug) :
    (∀ slug, RemovesCleanly body slug →
      parseTags (removeTag body slug) = (parseTags body).filter (· ≠ slug)) ∧
    (RemovalsClean body slugs → ∃ newBody, rewriteBody body slugs .remove = .ok newBody ∧
      parseTags newBody = (parseTags body).filter (· ∉ slugs)) :=
  ⟨fun _ => parseTags_removeTag,
    fun h => ⟨_, rewriteBody_remove h, parseTags_removeTags h⟩⟩

theorem removesCleanly_x_a_y : RemovesCleanly ['x', ' ', '#', 'a', ' ', 'y', ' ', '#', 'b'] ['a'] := by
  have hlines : markdownLines ['x', ' ', '#', 'a', ' ', 'y', ' ', '#', 'b'] =
      [⟨['x', ' ', '#', 'a', ' ', 'y', ' ', '#', 'b'], [], true⟩] := by decide
  have hpieces : pieces none ['x', ' ', '#', 'a', ' ', 'y', ' ', '#', 'b'] =
      [.char 'x', .char ' ', .marker ['a'], .char ' ', .char 'y', .char ' ', .marker ['b']] := by
    decide +kernel
  intro line hline _
  rw [hlines, List.mem_singleton] at hline
  subst hline
  refine ⟨?_, by decide +kernel, ?_⟩
  · rw [hpieces]
    simp only [Seams, removeStep, List.nil_append, List.cons_append, reduceCtorEq, if_false,
      List.head?_cons, if_true, List.tail_cons, Piece.marker.injEq, List.cons.injEq, Char.reduceEq,
      and_true]
    exact ⟨by simp, by simp, rfl⟩
  · intro h
    exact absurd h (by decide +kernel)

theorem removal_keeps_other_tags_x_a_y :
    parseTags (removeTag ['x', ' ', '#', 'a', ' ', 'y', ' ', '#', 'b'] ['a']) =
        (parseTags ['x', ' ', '#', 'a', ' ', 'y', ' ', '#', 'b']).filter (· ≠ ['a']) ∧
      ∃ newBody, rewriteBody ['x', ' ', '#', 'a', ' ', 'y', ' ', '#', 'b'] [['a']] .remove =
          .ok newBody ∧
        parseTags newBody =
          (parseTags ['x', ' ', '#', 'a', ' ', 'y', ' ', '#', 'b']).filter (· ∉ [['a']]) :=
  ⟨(removal_keeps_other_tags _ []).1 _ removesCleanly_x_a_y,
    (removal_keeps_other_tags _ _).2 ⟨removesCleanly_x_a_y, trivial⟩⟩

theorem removeTag_uncovers_tag : ['a'] ∈ parseTags ['#', 'a', '#', 'b'] ∧
    parseTags (removeTag ['#', 'a', '#', 'b'] ['a']) = [['b']] ∧
    (parseTags ['#', 'a', '#', 'b']).filter (· ≠ ['a']) = [] ∧
    rewriteBody ['#', 'a', '#', 'b'] [['a']] .remove = .ok ['#', 'b'] := by
  decide +kernel

end SwissArmyHammer.Kanban

/-! References to tags, and the tag entities that a task's body brings about. -/

namespace SwissArmyHammer.Kanban

open Entities Text

inductive BoardError
  | kanban (e : KanbanError)
  | taskNotFound (id : String)
  | tagNotFound (id : String)
  | duplicateId (itemType id : String)
  | invalidValue (field message : String)
  | entity (e : WriteError)
  | notArchived (id : String)
  | noFreshId
  deriving DecidableEq

def BoardError.parse (message : String) : BoardError := .kanban (.parse message.toList)

structure Env where
  ordinals : FractionalIndex
  files : Attachments
  /-- Both formats of a date, read and written back as a date. -/
  chrono : String → Option String
  isUlid : List Char → Bool
  /-- `str::to_lowercase`. -/
  lowercase : List Char → List Char
  /-- The text of `:?`. -/
  debug : String → String
  /-- The JSON of a quotient of two `f64`. -/
  ratio : Nat → Nat → Json

def palette : List String :=
  ["d73a4a", "e36209", "f9c513", "0e8a16", "006b75", "1d76db", "5319e7", "b60205", "d876e3",
    "0075ca", "7057ff", "008672", "e4e669", "bfd4f2", "c5def5", "fbca04"]

def fnv1a (s : List Char) : UInt32 :=
  (utf8 s).foldl (fun hash byte => (hash ^^^ byte.toUInt32) * 0x01000193) 0x811c9dc5

def autoColor (slug : Slug) : String :=
  palette.getD ((fnv1a slug).toNat % palette.length) ""

section

variable (env : Env) (tags : List Entity)

def tagName (tag : Entity) : List Char := ((tag.getStr "tag_name").getD "").toList

def slugOf (tag : Entity) : Slug := normalizeSlug (tagName tag)

def tagByShortId (needle : List Char) : Option Entity :=
  if (utf8 needle).length ≠ shortIdLen then none
  else tags.find? fun tag => (shortId tag.id).toList = env.lowercase needle

def tagById (needle : List Char) : Option Entity :=
  (tags.find? fun tag => env.lowercase tag.id.toList = env.lowercase needle).or
    (tagByShortId env tags needle)

def resolveTagRef (raw : String) : Except BoardError Slug :=
  let trimmed := Text.trim raw.toList
  let (needle, explicitId) := match trimmed with
    | '^' :: rest => (Text.trim rest, true)
    | _ => (trimmed, false)
  let slug := normalizeSlug needle
  let named := slug ≠ [] ∧ tags.any fun tag => slugOf tag = slug
  if explicitId || env.isUlid needle then
    match tagById env tags needle with
    | some tag => .ok (slugOf tag)
    | none => if named then .ok slug else .error (.tagNotFound raw)
  else if named then .ok slug
  else
    match tagByShortId env tags needle with
    | some tag => .ok (slugOf tag)
    | none =>
      if slug = [] then
        .error (.parse ("invalid tag ref: " ++ env.debug raw ++
          " — a tag name needs at least one alphanumeric character"))
      else .ok slug

def entityBody (entity : Entity) : List Char := ((entity.getStr "body").getD "").toList

def applyTagRefs (entity : Entity) (refs : List String) (mode : TagApply) :
    Except BoardError Entity :=
  if refs = [] ∧ mode ≠ .replace then .ok entity
  else do
    let slugs ← refs.mapM (resolveTagRef env tags)
    let newBody ← (rewriteBody (entityBody entity) slugs.eraseDups mode).mapError .kanban
    .ok (if newBody = entityBody entity then entity
      else entity.set "body" (.string (String.ofList newBody)))

end

section

variable (env : Env) (tagId : Slug → String) (b : BoardStore)

def findTagByName (name : List Char) : Option Entity :=
  b.listTags.find? fun tag => tag.getStr "tag_name" = some (String.ofList name)

def tagNameExists (name : List Char) : Bool := (findTagByName b name).isSome

def newTag (id : String) (name : List Char) (color : String) : Entity :=
  ((Entity.new "tag" id).set "tag_name" (.string (String.ofList name))).set "color" (.string color)

def autoCreateTag (b : BoardStore) (slug : Slug) : Except BoardError BoardStore :=
  if tagNameExists b slug then .ok b
  else (b.writeTag env.files (newTag (tagId slug) slug (autoColor slug))).mapError .entity

def autoCreateBodyTags (entity : Entity) : Except BoardError BoardStore :=
  (parseTags (entityBody entity)).foldlM (autoCreateTag env tagId) b

end

end SwissArmyHammer.Kanban
