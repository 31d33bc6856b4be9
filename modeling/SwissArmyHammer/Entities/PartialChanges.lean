import SwissArmyHammer.Entities.Diff

/-! `apply_changes` works in place: what it leaves of an entity when a change is refused. -/

namespace SwissArmyHammer.Entities

section

variable (D : Diffy)

/-- The result of `apply_changes` with the entity that it leaves. -/
def applyInPlace (e : Entity) : Changes → Except EntityError Unit × Entity
  | [] => (.ok (), e)
  | c :: rest =>
    match applyChange D e c.1 c.2 with
    | .error err => (.error err, e)
    | .ok e => applyInPlace e rest

def AtomicOnError (e : Entity) (changes : Changes) : Prop :=
  ∀ err, (applyInPlace D e changes).1 = .error err → (applyInPlace D e changes).2.fields = e.fields

def changesOf (field : String) (changes : Changes) : List FieldChange :=
  changes.filterMap fun c => if c.1 = field then some c.2 else none

def Leads : List FieldChange → Option Json → Option Json → Prop
  | [], o, n => o = n
  | c :: rest, o, n => ∃ m, Turns D c o m ∧ Leads rest m n

/-- The changes before one that is refused lead every field back to its value. -/
def RestoredBeforeRefusal (e : Entity) (changes : Changes) : Prop :=
  ∀ before c after, changes = before ++ c :: after →
    (∀ field, ∃ v, Leads D (changesOf field before) (e.get field) v) →
    (∃ v, Leads D (changesOf c.1 before) (e.get c.1) v ∧ ∀ n, ¬ Turns D c.2 v n) →
    ∀ field, Leads D (changesOf field before) (e.get field) (e.get field)

end

variable {D : Diffy} {e e' : Entity} {c : FieldChange} {key field : String} {o n n' : Option Json}
  {changes before : Changes} {err : EntityError}

theorem Turns.unique (h : Turns D c o n) (h' : Turns D c o n') : n = n' := by
  cases c with
  | set value => exact h.trans h'.symm
  | removed oldValue => exact h.trans h'.symm
  | changed oldValue newValue => exact h.2.trans h'.2.symm
  | textDiff forwardPatch reversePatch =>
    obtain ⟨p, t, hp, ht, rfl⟩ := h
    obtain ⟨p', t', hp', ht', rfl⟩ := h'
    obtain rfl := Except.ok.inj (hp.symm.trans hp')
    obtain rfl := Except.ok.inj (ht.symm.trans ht')
    rfl

theorem Leads.unique {cs : List FieldChange} (h : Leads D cs o n) (h' : Leads D cs o n') :
    n = n' := by
  induction cs generalizing o with
  | nil => exact h.symm.trans h'
  | cons c rest ih =>
    obtain ⟨m, hm, hrest⟩ := h
    obtain ⟨m', hm', hrest'⟩ := h'
    obtain rfl := hm.unique hm'
    exact ih hrest hrest'

theorem turns_of_ok (h : applyChange D e key c = .ok e') : ∃ n, Turns D c (e.get key) n := by
  cases c with
  | set value => exact ⟨_, rfl⟩
  | removed oldValue => exact ⟨_, rfl⟩
  | changed oldValue newValue =>
    refine ⟨some newValue, fun v hv => ?_, rfl⟩
    rw [applyChange, hv] at h
    dsimp only at h
    split at h
    · cases h
    · rename_i hsame
      exact not_not.mp hsame
  | textDiff forwardPatch reversePatch =>
    rw [applyChange] at h
    split at h
    · cases h
    · rename_i patch hpatch
      split at h
      · cases h
      · rename_i result hresult
        exact ⟨some (.string result), patch, result, hpatch, hresult, rfl⟩

theorem changesOf_cons_self (c : String × FieldChange) (rest : Changes) :
    changesOf c.1 (c :: rest) = c.2 :: changesOf c.1 rest := by
  rw [changesOf, List.filterMap_cons, if_pos rfl]
  rfl

theorem changesOf_cons_ne {c : String × FieldChange} (rest : Changes) (h : field ≠ c.1) :
    changesOf field (c :: rest) = changesOf field rest := by
  rw [changesOf, List.filterMap_cons, if_neg h.symm]
  rfl

theorem leads_cons {c : String × FieldChange} {rest : Changes} {e₁ : Entity}
    (hturns : Turns D c.2 (e.get c.1) (e₁.get c.1))
    (hother : ∀ k, k ≠ c.1 → e₁.get k = e.get k) (field : String) (n : Option Json) :
    Leads D (changesOf field (c :: rest)) (e.get field) n ↔
      Leads D (changesOf field rest) (e₁.get field) n := by
  by_cases hfield : field = c.1
  · subst hfield
    rw [changesOf_cons_self]
    constructor
    · intro h
      obtain ⟨m, hm, hrest⟩ := h
      rw [hturns.unique hm]
      exact hrest
    · intro h
      exact ⟨_, hturns, h⟩
  · rw [changesOf_cons_ne rest hfield, hother field hfield]

theorem applyInPlace_append (rest : Changes)
    (h : ∀ field, ∃ v, Leads D (changesOf field before) (e.get field) v) :
    ∃ e', (∀ field, Leads D (changesOf field before) (e.get field) (e'.get field)) ∧
      applyInPlace D e (before ++ rest) = applyInPlace D e' rest := by
  induction before generalizing e with
  | nil => exact ⟨e, fun _ => rfl, rfl⟩
  | cons c before ih =>
    obtain ⟨v, hv⟩ := h c.1
    rw [changesOf_cons_self] at hv
    obtain ⟨m, hm, -⟩ := hv
    obtain ⟨e₁, hok, hget, hother⟩ := applyChange_ok rfl hm
    have hturns : Turns D c.2 (e.get c.1) (e₁.get c.1) := hget.symm ▸ hm
    have hrest : ∀ field, ∃ v, Leads D (changesOf field before) (e₁.get field) v := by
      intro field
      obtain ⟨w, hw⟩ := h field
      exact ⟨w, (leads_cons hturns hother field w).mp hw⟩
    obtain ⟨e', hleads, happly⟩ := ih hrest
    refine ⟨e', fun field => (leads_cons hturns hother field _).mpr (hleads field), ?_⟩
    rw [List.cons_append, applyInPlace, hok]
    exact happly

theorem exists_refused (h : (applyInPlace D e changes).1 = .error err) :
    ∃ before c after, changes = before ++ c :: after ∧
      (∀ field, Leads D (changesOf field before) (e.get field)
        ((applyInPlace D e changes).2.get field)) ∧
      ∀ n, ¬ Turns D c.2 ((applyInPlace D e changes).2.get c.1) n := by
  induction changes generalizing e with
  | nil => cases h
  | cons c rest ih =>
    rw [applyInPlace] at h ⊢
    cases happly : applyChange D e c.1 c.2 with
    | error err' =>
      refine ⟨[], c, rest, rfl, fun _ => rfl, fun n hn => ?_⟩
      obtain ⟨e', hok, -⟩ := applyChange_ok rfl hn
      rw [happly] at hok
      cases hok
    | ok e₁ =>
      rw [happly] at h
      obtain ⟨before, c', after, rfl, hleads, hrefused⟩ := ih h
      obtain ⟨m, hm⟩ := turns_of_ok happly
      obtain ⟨e₂, hok, hget, hother⟩ := applyChange_ok rfl hm
      obtain rfl := Except.ok.inj (happly.symm.trans hok)
      have hturns : Turns D c.2 (e.get c.1) (e₁.get c.1) := hget.symm ▸ hm
      refine ⟨c :: before, c', after, rfl, fun field => ?_, hrefused⟩
      exact (leads_cons hturns hother field _).mpr (hleads field)

theorem applyInPlace_refused {c : String × FieldChange} (after : Changes)
    (h : ∀ n, ¬ Turns D c.2 (e.get c.1) n) :
    ∃ err, applyInPlace D e (c :: after) = (.error err, e) := by
  rw [applyInPlace]
  cases happly : applyChange D e c.1 c.2 with
  | error err => exact ⟨err, rfl⟩
  | ok e₁ =>
    obtain ⟨n, hn⟩ := turns_of_ok happly
    exact absurd hn (h n)

def countTask : Entity := (Entity.new "task" "01ABC").set "count" (.number "99")

end SwissArmyHammer.Entities
