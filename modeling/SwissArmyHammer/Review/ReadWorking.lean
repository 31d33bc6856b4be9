import SwissArmyHammer.Common.FileTree
import SwissArmyHammer.Text.Lines

/-! The working-tree content of a review path: the path is confined to the repository, by its links
when it exists and by its text when it does not, and is then read. -/

namespace SwissArmyHammer.Review

open FileTree

inductive AvpError
  | validator (validator message : String)
  | context (message : String) (cause : IoError)
  deriving DecidableEq, Repr

abbrev WorkingTree := FileSystem (Option String)

def components (path : String) : List String := (path.toList.splitOn '/').map String.ofList

def isAbsolute (path : String) : Bool := path.toList.head? = some '/'

def display (path : List String) : String := String.join (path.map fun name => "/" ++ name)

def canonicalize (fs : WorkingTree) (path : List String) : Except IoError (List String) :=
  if path.any fun name => Char.ofNat 0 ∈ name.toList then .error .invalidInput
  else fs.resolve path

def readToString (fs : WorkingTree) (path : List String) : Except IoError String :=
  match fs.resolve path with
  | .error e => .error e
  | .ok real =>
    match fs.root.at real with
    | some (.file (some content)) => .ok content
    | some (.file none) => .error .invalidData
    | some (.dir _) => .error .isADirectory
    | _ => .error .notFound

def normalizeLexically (path : List String) : List String :=
  path.foldl (fun out name =>
    if name = ".." then out.dropLast
    else if name = "" ∨ name = "." then out
    else out ++ [name]) []

def scopeValidator : String := "scope"

def pathEscapesRepoRoot (path : String) : AvpError :=
  .validator scopeValidator ("path '" ++ path ++ "' escapes the repository root")

def contain (root : List String) (path : String) (resolved : List String) :
    Except AvpError (List String) :=
  if root <+: resolved then .ok resolved else .error (pathEscapesRepoRoot path)

def confineToRepo (fs : WorkingTree) (repoPath : List String) (path : String) :
    Except AvpError (List String) :=
  if isAbsolute path then .error (pathEscapesRepoRoot path)
  else
    match canonicalize fs repoPath with
    | .error e => .error (.context ("failed to canonicalize repo root " ++ display repoPath) e)
    | .ok root =>
      match canonicalize fs (root ++ components path) with
      | .ok real => contain root path real
      | .error .notFound => contain root path (normalizeLexically (root ++ components path))
      | .error e => .error (.context ("failed to resolve working-tree file " ++ path) e)

def readWorking (fs : WorkingTree) (repoPath : List String) (path : String) :
    Except AvpError (Option String) :=
  match confineToRepo fs repoPath path with
  | .error e => .error e
  | .ok resolved =>
    match readToString fs resolved with
    | .ok content => .ok (some content)
    | .error .notFound => .ok none
    | .error e => .error (.context ("failed to read working-tree file " ++ path) e)

section

variable {fs : WorkingTree} {repoPath root resolved real : List String} {path content : String}

/-- The content that is returned is of a file whose resolved path is under the resolved root. -/
def ReadsInside (fs : WorkingTree) (repoPath : List String) (path : String) : Prop :=
  ∀ content, readWorking fs repoPath path = .ok (some content) →
    ∃ root resolved real, canonicalize fs repoPath = .ok root ∧
      confineToRepo fs repoPath path = .ok resolved ∧ fs.resolve resolved = .ok real ∧
      fs.root.at real = some (.file (some content)) ∧ root <+: real

/-- The path as it is written has a missing component, and without it, by the text alone, it is
under the root and leads through a link to a file outside. -/
structure LeadsOut (fs : WorkingTree) (repoPath : List String) (path : String)
    (root real : List String) (content : String) : Prop where
  relative : isAbsolute path = false
  resolved : canonicalize fs repoPath = .ok root
  missing : canonicalize fs (root ++ components path) = .error .notFound
  under : root <+: normalizeLexically (root ++ components path)
  leads : fs.resolve (normalizeLexically (root ++ components path)) = .ok real
  file : fs.root.at real = some (.file (some content))
  outside : ¬ root <+: real

theorem contain_eq_ok : contain root path real = .ok resolved ↔
    root <+: real ∧ real = resolved := by
  rw [contain]
  split
  · rename_i hunder
    exact ⟨fun h => ⟨hunder, Except.ok.inj h⟩, fun h => congrArg _ h.2⟩
  · rename_i hunder
    exact ⟨fun h => (by cases h), fun h => absurd h.1 hunder⟩

theorem readToString_eq_ok : readToString fs resolved = .ok content ↔
    ∃ real, fs.resolve resolved = .ok real ∧ fs.root.at real = some (.file (some content)) := by
  rw [readToString]
  cases fs.resolve resolved with
  | error e => simp
  | ok real =>
    simp only [Except.ok.injEq, exists_eq_left']
    split <;> simp_all

theorem readWorking_eq_some : readWorking fs repoPath path = .ok (some content) ↔
    ∃ resolved, confineToRepo fs repoPath path = .ok resolved ∧
      readToString fs resolved = .ok content := by
  rw [readWorking]
  cases confineToRepo fs repoPath path with
  | error e => simp
  | ok resolved =>
    simp only [Except.ok.injEq, exists_eq_left']
    split <;> simp_all

theorem confineToRepo_eq_ok : confineToRepo fs repoPath path = .ok resolved ↔
    isAbsolute path = false ∧ ∃ root, canonicalize fs repoPath = .ok root ∧ root <+: resolved ∧
      (canonicalize fs (root ++ components path) = .ok resolved ∨
        canonicalize fs (root ++ components path) = .error .notFound ∧
          normalizeLexically (root ++ components path) = resolved) := by
  rw [confineToRepo]
  cases isAbsolute path with
  | true => simp
  | false =>
    rw [if_neg (by simp)]
    cases hroot : canonicalize fs repoPath with
    | error e => simp
    | ok root =>
      simp only [Except.ok.injEq, true_and, exists_eq_left']
      cases hreal : canonicalize fs (root ++ components path) with
      | ok real =>
        simp only [contain_eq_ok, Except.ok.injEq, reduceCtorEq, false_and, or_false]
        exact and_congr_left fun heq => by rw [heq]
      | error e =>
        cases e with
        | notFound =>
          simp only [contain_eq_ok, reduceCtorEq, true_and, false_or]
          exact and_congr_left fun heq => by rw [heq]
        | _ => simp

theorem resolve_of_canonicalize {p : List String} (h : canonicalize fs p = .ok real) :
    fs.resolve p = .ok real := by
  rw [canonicalize] at h
  split at h
  · cases h
  · exact h

/-- A review reads only inside the repository, unless a path leads out by its text. -/
theorem readWorking_inside_iff (fs : WorkingTree) (repoPath : List String) (path : String) :
    ReadsInside fs repoPath path ↔
      ∀ root real content, ¬ LeadsOut fs repoPath path root real content := by
  constructor
  · intro h root real content hout
    have hconfined : confineToRepo fs repoPath path =
        .ok (normalizeLexically (root ++ components path)) :=
      confineToRepo_eq_ok.mpr ⟨hout.relative, root, hout.resolved, hout.under,
        .inr ⟨hout.missing, rfl⟩⟩
    have hread := readWorking_eq_some.mpr
      ⟨_, hconfined, readToString_eq_ok.mpr ⟨real, hout.leads, hout.file⟩⟩
    obtain ⟨root', resolved, real', hroot, hresolved, hreal, -, hunder⟩ := h content hread
    rw [hout.resolved] at hroot
    rw [hconfined] at hresolved
    obtain rfl := Except.ok.inj hroot
    obtain rfl := Except.ok.inj hresolved
    rw [hout.leads] at hreal
    obtain rfl := Except.ok.inj hreal
    exact hout.outside hunder
  · intro h content hread
    obtain ⟨resolved, hconfined, hcontent⟩ := readWorking_eq_some.mp hread
    obtain ⟨real, hreal, hfile⟩ := readToString_eq_ok.mp hcontent
    obtain ⟨hrelative, root, hroot, hunder, hfound⟩ := confineToRepo_eq_ok.mp hconfined
    refine ⟨root, resolved, real, hroot, hconfined, hreal, hfile, ?_⟩
    rcases hfound with hexists | ⟨hmissing, rfl⟩
    · -- a path without links is read where it stands
      have hsame := FileSystem.resolve_resolved (resolve_of_canonicalize hexists)
      rw [hreal] at hsame
      exact Except.ok.inj hsame ▸ hunder
    · by_contra hout
      exact h root real content ⟨hrelative, hroot, hmissing, hunder, hreal, hfile, hout⟩

def linkedOut : WorkingTree :=
  ⟨.dir [("etc", .dir [("passwd", .file (some "secret"))]),
    ("repo", .dir [("link", .link true ["etc"])])], 40⟩

theorem components_linkedOut :
    components "missing/../link/passwd" = ["missing", "..", "link", "passwd"] := by
  have hchars : "missing/../link/passwd".toList = ['m', 'i', 's', 's', 'i', 'n', 'g', '/', '.', '.',
      '/', 'l', 'i', 'n', 'k', '/', 'p', 'a', 's', 's', 'w', 'd'] := Text.toList_eq rfl
  rfl

theorem canonicalize_linkedOut : canonicalize linkedOut ["repo"] = .ok ["repo"] ∧
    canonicalize linkedOut ["repo", "missing", "..", "link", "passwd"] = .error .notFound ∧
    linkedOut.resolve ["repo", "link", "passwd"] = .ok ["etc", "passwd"] := by
  refine ⟨?_, ?_, ?_⟩ <;>
    simp [canonicalize, linkedOut, FileSystem.resolve, walkLinks, walk, Node.at, Node.entries,
      List.lookup_cons]

theorem normalizeLexically_linkedOut :
    normalizeLexically ["repo", "missing", "..", "link", "passwd"] = ["repo", "link", "passwd"] := by
  simp [normalizeLexically]

theorem reads_outside : ∃ (fs : WorkingTree) (repoPath : List String) (path : String),
    readWorking fs repoPath path = .ok (some "secret") ∧ ¬ ReadsInside fs repoPath path := by
  obtain ⟨hroot, hmissing, hreal⟩ := canonicalize_linkedOut
  have hconfined : confineToRepo linkedOut ["repo"] "missing/../link/passwd" =
      .ok ["repo", "link", "passwd"] := by
    refine confineToRepo_eq_ok.mpr ⟨rfl, ["repo"], hroot, ⟨["link", "passwd"], rfl⟩, .inr ?_⟩
    rw [components_linkedOut]
    exact ⟨hmissing, normalizeLexically_linkedOut⟩
  have hread : readWorking linkedOut ["repo"] "missing/../link/passwd" = .ok (some "secret") := by
    refine readWorking_eq_some.mpr ⟨_, hconfined, readToString_eq_ok.mpr ⟨_, hreal, ?_⟩⟩
    simp [linkedOut, Node.at, Node.entries]
  refine ⟨linkedOut, ["repo"], "missing/../link/passwd", hread, fun h => ?_⟩
  obtain ⟨root, resolved, real, hroot', hresolved, hreal', -, hunder⟩ := h _ hread
  rw [hroot] at hroot'
  rw [hconfined] at hresolved
  obtain rfl := Except.ok.inj hroot'
  obtain rfl := Except.ok.inj hresolved
  rw [hreal] at hreal'
  obtain rfl := Except.ok.inj hreal'
  simp at hunder

end

end SwissArmyHammer.Review
