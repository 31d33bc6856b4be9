import Mathlib.Data.String.Basic

/-! Text patches. -/

namespace SwissArmyHammer

/-- The interface of the `diffy` crate. Patches are stored as text, so a patch is read back
with `fromStr` before it is applied. -/
structure Diffy where
  Patch : Type
  createPatch : String → String → Patch
  toString : Patch → String
  fromStr : String → Except String Patch
  apply : String → Patch → Except String String
  /-- A patch made from `a` to `b`, read back from its text, turns `a` into `b`. -/
  round_trip : ∀ a b, ∃ p, fromStr (toString (createPatch a b)) = .ok p ∧ apply a p = .ok b

def Diffy.encode (old new : List Char) : List Char :=
  old.flatMap (fun c => ['x', c]) ++ 'y' :: new

def Diffy.decode : List Char → Option (List Char × List Char)
  | 'x' :: c :: rest => (decode rest).map fun p => (c :: p.1, p.2)
  | 'y' :: rest => some ([], rest)
  | _ => none

theorem Diffy.decode_encode (old new : List Char) : decode (encode old new) = some (old, new) := by
  induction old with
  | nil => rfl
  | cons c old ih =>
    simp only [encode, List.flatMap_cons, List.cons_append, List.nil_append, decode] at ih ⊢
    simp [ih]

def Diffy.verbatim : Diffy where
  Patch := String × String
  createPatch a b := (a, b)
  toString p := String.ofList (encode p.1.toList p.2.toList)
  fromStr text :=
    match decode text.toList with
    | some (a, b) => .ok (String.ofList a, String.ofList b)
    | none => .error "no patch"
  apply text p := if text = p.1 then .ok p.2 else .error "hunk does not match"
  round_trip a b := ⟨(a, b), by simp [decode_encode]⟩

end SwissArmyHammer
