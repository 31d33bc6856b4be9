import Mathlib.Data.List.Lex
import Mathlib.Data.String.Basic
import Mathlib.Order.Basic
import Mathlib.Order.Lattice

/-! Ordinals of tasks within a column, over the crate `fractional_index`. -/

namespace SwissArmyHammer.Kanban

structure FractionalIndex where
  Key : Type
  default : Key
  fromString : String → Option Key
  toString : Key → String
  newBefore : Key → Key
  newAfter : Key → Key
  newBetween : Key → Key → Option Key

structure Ordinal (F : FractionalIndex) where
  fi : F.Key
  strRepr : String
  cached : strRepr = F.toString fi

namespace Ordinal

variable {F : FractionalIndex}

def defaultStr : String := "80"

def wrap (fi : F.Key) : Ordinal F := ⟨fi, F.toString fi, rfl⟩

def first : Ordinal F := wrap F.default

def after (last : Ordinal F) : Ordinal F := wrap (F.newAfter last.fi)

def before (first : Ordinal F) : Ordinal F := wrap (F.newBefore first.fi)

def between (before after : Ordinal F) : Ordinal F :=
  match F.newBetween before.fi after.fi with
  | some fi => wrap fi
  | none => Ordinal.before after

def fromString (s : String) : Ordinal F :=
  match F.fromString s with
  | some fi => wrap fi
  | none => first

def cmp (a b : Ordinal F) : Ordering := compare a.strRepr b.strRepr

end Ordinal

structure FractionalIndex.Contract (F : FractionalIndex) [LinearOrder F.Key] : Prop where
  newBefore_lt : ∀ k, F.newBefore k < k
  lt_newAfter : ∀ k, k < F.newAfter k
  newBetween_some : ∀ {a b k}, F.newBetween a b = some k → a < k ∧ k < b
  newBetween_none : ∀ {a b}, F.newBetween a b = none ↔ ¬ a < b
  toString_lt : ∀ {a b}, F.toString a < F.toString b ↔ a < b
  fromString_toString : ∀ k, F.fromString (F.toString k) = some k
  toString_default : F.toString F.default = Ordinal.defaultStr

def Canonical (F : FractionalIndex) (s : String) : Prop :=
  ∃ k, F.fromString s = some k ∧ F.toString k = s

namespace Ordinal

variable {F : FractionalIndex} {s t : String}

theorem strRepr_fromString (h : Canonical F s) : (fromString s : Ordinal F).strRepr = s := by
  obtain ⟨k, hk, hs⟩ := h
  simp [fromString, hk, wrap, hs]

variable [LinearOrder F.Key] {o p : Ordinal F}

theorem strRepr_lt (hF : F.Contract) : o.strRepr < p.strRepr ↔ o.fi < p.fi := by
  rw [o.cached, p.cached, hF.toString_lt]

theorem before_lt (hF : F.Contract) (o : Ordinal F) : (before o).strRepr < o.strRepr :=
  (strRepr_lt hF).mpr (hF.newBefore_lt o.fi)

theorem lt_after (hF : F.Contract) (o : Ordinal F) : o.strRepr < (after o).strRepr :=
  (strRepr_lt hF).mpr (hF.lt_newAfter o.fi)

theorem between_bounds (hF : F.Contract) (h : o.strRepr < p.strRepr) :
    o.strRepr < (between o p).strRepr ∧ (between o p).strRepr < p.strRepr := by
  have hlt := (strRepr_lt hF).mp h
  unfold between
  cases hk : F.newBetween o.fi p.fi with
  | none => exact absurd hlt (hF.newBetween_none.mp hk)
  | some k =>
    obtain ⟨hok, hkp⟩ := hF.newBetween_some hk
    exact ⟨(strRepr_lt hF).mpr hok, (strRepr_lt hF).mpr hkp⟩

theorem canonical_strRepr (hF : F.Contract) (o : Ordinal F) : Canonical F o.strRepr :=
  ⟨o.fi, by rw [o.cached, hF.fromString_toString], o.cached.symm⟩

end Ordinal

end SwissArmyHammer.Kanban

/-! Fractional indices that are paths in the binary tree, read from left to right. -/

namespace SwissArmyHammer.Kanban

abbrev Path := List Bool

namespace Path

def step (right : Bool) : List Char := if right then ['8', '1'] else ['7', 'f']

def text : Path → List Char
  | [] => ['8', '0']
  | right :: p => step right ++ text p

def read : List Char → Option Path
  | ['8', '0'] => some []
  | '8' :: '1' :: cs => (read cs).map (true :: ·)
  | '7' :: 'f' :: cs => (read cs).map (false :: ·)
  | _ => none

def between : Path → Path → Option Path
  | [], [] => none
  | [], right :: q => if right then some (right :: (q ++ [false])) else none
  | left :: p, [] => if left then none else some (left :: (p ++ [true]))
  | left :: p, right :: q =>
    if left = right then (between p q).map (left :: ·)
    else if right then some (right :: (q ++ [false])) else none

variable {p q r : Path}

theorem read_text (p : Path) : read (text p) = some p := by
  induction p with
  | nil => rfl
  | cons right p ih => cases right <;> simp [text, step, read, ih]

theorem text_injective : Function.Injective text := by
  intro p q h
  have hread := congrArg read h
  rw [read_text, read_text] at hread
  exact Option.some.inj hread

@[simp] theorem text_cons_lt (right : Bool) (p q : Path) :
    text (right :: p) < text (right :: q) ↔ text p < text q := by
  cases right <;> simp [text, step]

@[simp] theorem text_left_lt_right (p q : Path) : text (false :: p) < text (true :: q) := by
  simp [text, step, List.cons_lt_cons_iff]

@[simp] theorem text_left_lt (p : Path) : text (false :: p) < text [] := by
  simp [text, step, List.cons_lt_cons_iff]

@[simp] theorem text_lt_right (p : Path) : text [] < text (true :: p) := by
  simp [text, step, List.cons_lt_cons_iff]

theorem append_left_lt (p : Path) : text (p ++ [false]) < text p := by
  induction p with
  | nil => exact text_left_lt []
  | cons right p ih => exact (text_cons_lt right _ p).mpr ih

theorem lt_append_right (p : Path) : text p < text (p ++ [true]) := by
  induction p with
  | nil => exact text_lt_right []
  | cons right p ih => exact (text_cons_lt right p _).mpr ih

theorem between_some (h : between p q = some r) : text p < text r ∧ text r < text q := by
  induction p generalizing q r with
  | nil =>
    cases q with
    | nil => simp [between] at h
    | cons right q =>
      cases right with
      | false => simp [between] at h
      | true =>
        obtain rfl := Option.some.inj h
        exact ⟨text_lt_right _, (text_cons_lt true _ q).mpr (append_left_lt q)⟩
  | cons left p ih =>
    cases q with
    | nil =>
      cases left with
      | false =>
        obtain rfl := Option.some.inj h
        exact ⟨(text_cons_lt false p _).mpr (lt_append_right p), text_left_lt _⟩
      | true => simp [between] at h
    | cons right q =>
      by_cases hsame : left = right
      · subst hsame
        simp only [between, if_true, Option.map_eq_some_iff] at h
        obtain ⟨s, hs, rfl⟩ := h
        simpa using ih hs
      · cases left <;> cases right <;> simp [between] at h hsame
        obtain rfl := h
        exact ⟨text_left_lt_right _ _, (text_cons_lt true _ q).mpr (append_left_lt q)⟩

theorem between_none : between p q = none ↔ ¬text p < text q := by
  induction p generalizing q with
  | nil =>
    cases q with
    | nil => simp [between]
    | cons right q =>
      cases right with
      | false => simpa [between] using (text_left_lt q).le
      | true => simp [between]
  | cons left p ih =>
    cases q with
    | nil =>
      cases left with
      | false => simp [between]
      | true => simpa [between] using (text_lt_right p).le
    | cons right q =>
      by_cases hsame : left = right
      · subst hsame
        simpa [between] using ih
      · cases left <;> cases right <;> simp [between] at hsame ⊢
        exact (text_left_lt_right q p).le

end Path

def binaryIndex : FractionalIndex where
  Key := Path
  default := []
  fromString s := Path.read s.toList
  toString p := String.ofList (Path.text p)
  newBefore p := p ++ [false]
  newAfter p := p ++ [true]
  newBetween := Path.between

instance : LinearOrder binaryIndex.Key := LinearOrder.lift' Path.text Path.text_injective

theorem binaryIndex_contract : binaryIndex.Contract where
  newBefore_lt := Path.append_left_lt
  lt_newAfter := Path.lt_append_right
  newBetween_some h := Path.between_some h
  newBetween_none := Path.between_none
  toString_lt := by
    intro a b
    show String.ofList (Path.text a) < String.ofList (Path.text b) ↔ Path.text a < Path.text b
    rw [String.lt_iff_toList_lt, String.toList_ofList, String.toList_ofList]
  fromString_toString p := by
    show Path.read (String.ofList (Path.text p)).toList = some p
    rw [String.toList_ofList]
    exact Path.read_text p
  toString_default := rfl

end SwissArmyHammer.Kanban
