import Mathlib.Data.String.Basic

/-! JSON values. Objects list their entries in key order, so that equality is the equality
of `serde_json`, which ignores the order of keys. -/

namespace SwissArmyHammer

inductive Json
  | null
  | bool (b : Bool)
  /-- A number is kept as its canonical text. -/
  | number (text : String)
  | string (s : String)
  | array (elems : List Json)
  | object (fields : List (String × Json))

mutual

def Json.decEq : (a b : Json) → Decidable (a = b)
  | .null, .null => .isTrue rfl
  | .bool a, .bool b => decidable_of_iff (a = b) (by simp)
  | .number a, .number b => decidable_of_iff (a = b) (by simp)
  | .string a, .string b => decidable_of_iff (a = b) (by simp)
  | .array a, .array b =>
    have := decEqElems a b
    decidable_of_iff (a = b) (by simp)
  | .object a, .object b =>
    have := decEqFields a b
    decidable_of_iff (a = b) (by simp)
  | .null, .bool _ | .null, .number _ | .null, .string _ | .null, .array _ | .null, .object _
  | .bool _, .null | .bool _, .number _ | .bool _, .string _ | .bool _, .array _
  | .bool _, .object _ | .number _, .null | .number _, .bool _ | .number _, .string _
  | .number _, .array _ | .number _, .object _ | .string _, .null | .string _, .bool _
  | .string _, .number _ | .string _, .array _ | .string _, .object _ | .array _, .null
  | .array _, .bool _ | .array _, .number _ | .array _, .string _ | .array _, .object _
  | .object _, .null | .object _, .bool _ | .object _, .number _ | .object _, .string _
  | .object _, .array _ => .isFalse (by simp)

def Json.decEqElems : (a b : List Json) → Decidable (a = b)
  | [], [] => .isTrue rfl
  | [], _ :: _ => .isFalse (by simp)
  | _ :: _, [] => .isFalse (by simp)
  | x :: a, y :: b =>
    have := decEq x y
    have := decEqElems a b
    decidable_of_iff (x = y ∧ a = b) (by simp)

def Json.decEqFields : (a b : List (String × Json)) → Decidable (a = b)
  | [], [] => .isTrue rfl
  | [], _ :: _ => .isFalse (by simp)
  | _ :: _, [] => .isFalse (by simp)
  | (j, x) :: a, (k, y) :: b =>
    have := decEq x y
    have := decEqFields a b
    decidable_of_iff ((j = k ∧ x = y) ∧ a = b) (by simp)

end

instance : DecidableEq Json := Json.decEq

def Json.asStr : Json → Option String
  | .string s => some s
  | _ => none

theorem Json.asStr_eq_some {v : Json} {s : String} : v.asStr = some s ↔ v = .string s := by
  cases v <;> simp [asStr]

namespace Json

def asArray : Json → Option (List Json)
  | .array elems => some elems
  | _ => none

def asBool : Json → Option Bool
  | .bool b => some b
  | _ => none

/-- `Value::as_u64`: the numbers written as a `u64`. -/
def asU64 : Json → Option Nat
  | .number text =>
    if text.toList ≠ [] ∧ text.toList.all Char.isDigit then
      let n := text.toList.foldl (fun n c => 10 * n + (c.toNat - '0'.toNat)) 0
      if n < 2 ^ 64 then some n else none
    else none
  | _ => none

def getKey (v : Json) (key : String) : Option Json :=
  match v with
  | .object fields => (fields.find? fun field => field.1 = key).map Prod.snd
  | _ => none

def setEntry (key : String) (value : Json) : List (String × Json) → List (String × Json)
  | [] => [(key, value)]
  | (k, v) :: fields =>
    if key < k then (key, value) :: (k, v) :: fields
    else if key = k then (key, value) :: fields
    else (k, v) :: setEntry key value fields

def setKey (v : Json) (key : String) (value : Json) : Json :=
  match v with
  | .object fields => .object (setEntry key value fields)
  | .null => .object [(key, value)]
  | v => v

def ofStrings (ss : List String) : Json := .array (ss.map .string)

theorem ofStrings_inj {a b : List String} : ofStrings a = ofStrings b ↔ a = b := by
  constructor
  · intro h
    exact List.map_injective_iff.mpr (fun _ _ => Json.string.inj) (Json.array.inj h)
  · rintro rfl
    rfl

end Json

end SwissArmyHammer
