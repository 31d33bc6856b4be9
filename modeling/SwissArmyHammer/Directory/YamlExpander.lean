import Mathlib.Data.List.Forall2
import SwissArmyHammer.Common.IndexMap

/-! YAML values, and the expansion of the includes that they refer to. -/

namespace SwissArmyHammer.Directory

inductive Yaml
  | null
  | bool (b : Bool)
  /-- A number is kept as a text that equal numbers share. -/
  | number (text : String)
  | string (s : String)
  | sequence (items : List Yaml)
  | mapping (entries : List (Yaml × Yaml))
  | tagged (tag : String) (value : Yaml)

mutual

/-- `Value::eq`: mappings are compared without their order. -/
def Yaml.same : Yaml → Yaml → Bool
  | .null, .null => true
  | .bool a, .bool b => a = b
  | .number a, .number b => a = b
  | .string a, .string b => a = b
  | .sequence a, .sequence b => sameItems a b
  | .mapping a, .mapping b => a.length = b.length && sameEntries a b
  | .tagged t a, .tagged u b => t = u && same a b
  | _, _ => false

def Yaml.sameItems : List Yaml → List Yaml → Bool
  | [], [] => true
  | a :: as, b :: bs => same a b && sameItems as bs
  | _, _ => false

def Yaml.sameEntries : List (Yaml × Yaml) → List (Yaml × Yaml) → Bool
  | [], _ => true
  | (k, v) :: rest, bs => (bs.any fun e => same k e.1 && same v e.2) && sameEntries rest bs

end

inductive Yaml.WellFormed : Yaml → Prop
  | null : WellFormed .null
  | bool (b : Bool) : WellFormed (.bool b)
  | number (text : String) : WellFormed (.number text)
  | string (s : String) : WellFormed (.string s)
  | sequence {items : List Yaml} (hitems : ∀ item ∈ items, WellFormed item) :
      WellFormed (.sequence items)
  | mapping {entries : List (Yaml × Yaml)} (hkeys : ∀ e ∈ entries, WellFormed e.1)
      (hvals : ∀ e ∈ entries, WellFormed e.2)
      (hdistinct : (entries.map Prod.fst).Pairwise fun a b => b.same a = false) :
      WellFormed (.mapping entries)
  | tagged {tag : String} {v : Yaml} (hv : WellFormed v) : WellFormed (.tagged tag v)

structure Includes where
  files : IndexMap String Yaml
  wellFormed : ∀ name v, files.get? name = some v → v.WellFormed

/-- `Mapping::insert`: an equal key keeps its place and takes the new value. -/
def insertEntry (k v : Yaml) : List (Yaml × Yaml) → List (Yaml × Yaml)
  | [] => [(k, v)]
  | e :: es => if k.same e.1 then (e.1, v) :: es else e :: insertEntry k v es

def includeName (s : String) : Option String :=
  match s.toList with
  | '@' :: name => some (String.ofList name)
  | _ => none

inductive Failure
  /-- `DirectoryError::Other`. -/
  | other (message : String)
  /-- The recursion was cut off. -/
  | cutOff
  deriving DecidableEq

/-- The items that an item of a sequence becomes: those of the sequence that an include expands to,
and else the expanded item itself. -/
def splice (item expanded : Yaml) : List Yaml :=
  match item, expanded with
  | .string s, .sequence items => if (includeName s).isSome then items else [.sequence items]
  | _, expanded => [expanded]

mutual

def expandWith (look : String → Except Failure Yaml) : Yaml → Except Failure Yaml
  | .string s =>
    match includeName s with
    | some name => look name
    | none => .ok (.string s)
  | .sequence items => (expandItems look [] items).map .sequence
  | .mapping entries => (expandEntries look [] entries).map .mapping
  | .null => .ok .null
  | .bool b => .ok (.bool b)
  | .number text => .ok (.number text)
  | .tagged tag value => .ok (.tagged tag value)

def expandItems (look : String → Except Failure Yaml) (done : List Yaml) :
    List Yaml → Except Failure (List Yaml)
  | [] => .ok done
  | item :: rest =>
    match expandWith look item with
    | .error e => .error e
    | .ok expanded => expandItems look (done ++ splice item expanded) rest

def expandEntries (look : String → Except Failure Yaml) (done : List (Yaml × Yaml)) :
    List (Yaml × Yaml) → Except Failure (List (Yaml × Yaml))
  | [] => .ok done
  | (key, val) :: rest =>
    match expandWith look key with
    | .error e => .error e
    | .ok expandedKey =>
      match expandWith look val with
      | .error e => .error e
      | .ok expandedVal => expandEntries look (insertEntry expandedKey expandedVal done) rest

end

variable (includes : Includes)

/-- `expand_value`, which enters at most `fuel` includes on a path. -/
def expandValue : Nat → List String → Yaml → Except Failure Yaml
  | fuel, visited => expandWith fun name =>
    if name ∈ visited then
      .error (.other ("Circular include detected: " ++ " -> ".intercalate visited ++ " -> " ++
        name))
    else
      match includes.files.get? name with
      | none => .error (.other ("Include not found: @" ++ name))
      | some included =>
        match fuel with
        | 0 => .error .cutOff
        | fuel + 1 => expandValue fuel (visited ++ [name]) included

def expand (value : Yaml) : Except Failure Yaml :=
  expandValue includes includes.files.entries.length [] value

end SwissArmyHammer.Directory
