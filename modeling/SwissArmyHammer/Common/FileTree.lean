import Mathlib.Data.List.Basic

/-! A file system as a tree of directories, files and symbolic links, and the walk that resolves a
path in it. -/

namespace SwissArmyHammer.FileTree

inductive Node (κ : Type)
  | file (content : κ)
  | link (absolute : Bool) (target : List String)
  | dir (entries : List (String × Node κ))

inductive IoError
  | notFound
  | notADirectory
  | tooManyLinks
  | isADirectory
  | invalidData
  | invalidInput
  deriving DecidableEq, Repr

variable {κ : Type}

def Node.entries : Node κ → Option (List (String × Node κ))
  | dir entries => some entries
  | _ => none

def Node.at (node : Node κ) : List String → Option (Node κ)
  | [] => some node
  | name :: names =>
    match node.entries with
    | some entries => (entries.lookup name).bind fun child => child.at names
    | none => none

structure FileSystem (κ : Type) where
  root : Node κ
  maxLinks : Nat

abbrev Follow := List String → List String → Except IoError (List String)

def walk (root : Node κ) (follow : Follow) (current : List String) :
    List String → Except IoError (List String)
  | [] => .ok current
  | name :: names =>
    match (root.at current).bind Node.entries with
    | none => .error .notADirectory
    | some entries =>
      if name = "" ∨ name = "." then walk root follow current names
      else if name = ".." then walk root follow current.dropLast names
      else
        match entries.lookup name with
        | none => .error .notFound
        | some (.link absolute target) =>
          follow (if absolute then [] else current) (target ++ names)
        | some _ => walk root follow (current ++ [name]) names

def walkLinks (root : Node κ) : Nat → Follow
  | 0 => walk root fun _ _ => .error .tooManyLinks
  | n + 1 => walk root (walkLinks root n)

def FileSystem.resolve (fs : FileSystem κ) (path : List String) : Except IoError (List String) :=
  walkLinks fs.root fs.maxLinks [] path

inductive Canonical (root : Node κ) : List String → Prop
  | nil : Canonical root []
  | snoc {p : List String} {name : String} {entries : List (String × Node κ)} {child : Node κ}
      (hp : Canonical root p) (hdir : (root.at p).bind Node.entries = some entries)
      (hname : name ≠ "" ∧ name ≠ "." ∧ name ≠ "..") (hchild : entries.lookup name = some child)
      (hlink : ∀ absolute target, child ≠ .link absolute target) : Canonical root (p ++ [name])

section

variable {root : Node κ} {follow : Follow} {p q names : List String} {n : Nat}

theorem Canonical.dropLast (h : Canonical root p) : Canonical root p.dropLast := by
  cases h with
  | nil => exact .nil
  | snoc hp => rwa [List.dropLast_concat]

theorem walk_canonical (h : Canonical root p) (names : List String) :
    walk root follow [] (p ++ names) = walk root follow p names := by
  induction h generalizing names with
  | nil => rfl
  | snoc _ hdir hname hchild hlink ih =>
    rw [List.append_assoc, ih, List.singleton_append, walk, hdir]
    simp only
    rw [if_neg (by tauto), if_neg hname.2.2, hchild]
    split
    · simp at *
    · rename_i heq
      exact absurd (Option.some.inj heq) (hlink _ _)
    · rfl

theorem Canonical.walk (hfollow : ∀ current names, Canonical root current → ∀ q,
      follow current names = .ok q → Canonical root q)
    (hp : Canonical root p) (h : FileTree.walk root follow p names = .ok q) : Canonical root q := by
  induction names generalizing p with
  | nil =>
    obtain rfl := Except.ok.inj h
    exact hp
  | cons name names ih =>
    rw [FileTree.walk] at h
    split at h
    · cases h
    · rename_i entries hdir
      split at h
      · exact ih hp h
      · rename_i hplain
        split at h
        · exact ih hp.dropLast h
        · rename_i hparent
          split at h
          · cases h
          · split at h
            · exact hfollow _ _ .nil q h
            · exact hfollow _ _ hp q h
          · rename_i child hlink hchild
            rw [not_or] at hplain
            exact ih (hp.snoc hdir ⟨hplain.1, hplain.2, hparent⟩ hchild
              fun absolute target heq => hlink absolute target heq) h

theorem Canonical.walkLinks (hp : Canonical root p)
    (h : FileTree.walkLinks root n p names = .ok q) : Canonical root q := by
  induction n generalizing p q names with
  | zero => exact hp.walk (fun _ _ _ _ hq => by cases hq) h
  | succ n ih => exact hp.walk (fun _ _ hcurrent _ hq => ih hcurrent hq) h

theorem walkLinks_canonical (h : Canonical root p) (names : List String) :
    walkLinks root n [] (p ++ names) = walkLinks root n p names := by
  cases n with
  | zero => exact walk_canonical h names
  | succ n => exact walk_canonical h names

theorem FileSystem.resolve_resolved {fs : FileSystem κ} (h : fs.resolve p = .ok q) :
    fs.resolve q = .ok q := by
  have hq : Canonical fs.root q := Canonical.nil.walkLinks h
  have hwalk := walkLinks_canonical (n := fs.maxLinks) hq []
  rw [List.append_nil] at hwalk
  rw [FileSystem.resolve, hwalk]
  cases fs.maxLinks <;> rfl

end

end SwissArmyHammer.FileTree
