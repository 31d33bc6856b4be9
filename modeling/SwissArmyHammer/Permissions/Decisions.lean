import SwissArmyHammer.Common.IndexMap
import SwissArmyHammer.Common.Traces

/-! Stored permission decisions and the policies behind them. -/

namespace SwissArmyHammer.Permissions

inductive PermissionDecision
  | allowAlways
  | allowOnce
  | allow
  | denyAlways
  | denyOnce
  | deny
  deriving DecidableEq

structure StoredPermission where
  toolPattern : String
  decision : PermissionDecision
  grantedAt : Nat
  expiresAt : Option Nat
  deriving DecidableEq

inductive PolicyAction
  | allow
  | deny
  | askUser
  deriving DecidableEq

inductive RiskLevel
  | low
  | medium
  | high
  | critical
  deriving DecidableEq

structure PermissionPolicy where
  toolPattern : String
  defaultAction : PolicyAction
  requireUserConsent : Bool
  riskLevel : RiskLevel

inductive PermissionOptionKind
  | allowOnce
  | allowAlways
  | rejectOnce
  | rejectAlways
  deriving DecidableEq

structure PermissionOption where
  optionId : String
  name : String
  kind : PermissionOptionKind
  deriving DecidableEq

inductive PolicyEvaluation
  | allowed
  | denied (reason : String)
  | requireUserConsent (options : List PermissionOption)
  deriving DecidableEq

def stripSuffixStar (pattern : List Char) : Option (List Char) :=
  if pattern.getLast? = some '*' then some pattern.dropLast else none

def matchesToolPattern (pattern toolName : String) : Bool :=
  if pattern = "*" ∨ pattern = toolName then true
  else
    match stripSuffixStar pattern.toList with
    | some pre => pre.isPrefixOf toolName.toList
    | none =>
      match pattern.toList with
      | '*' :: suffix => suffix.isSuffixOf toolName.toList
      | _ => false

section

variable (policies : List PermissionPolicy) (toolName : String)

def generatePermissionOptions (riskLevel : RiskLevel) : List PermissionOption :=
  let allowOnce : PermissionOption := ⟨"allow-once", "Allow once", .allowOnce⟩
  let rejectOnce : PermissionOption := ⟨"reject-once", "Reject", .rejectOnce⟩
  let rejectAlways : PermissionOption :=
    ⟨"reject-always", "Reject always (" ++ toolName ++ ")", .rejectAlways⟩
  match riskLevel with
  | .low => [allowOnce, ⟨"allow-always", "Allow always", .allowAlways⟩, rejectOnce]
  | .medium =>
    [allowOnce, ⟨"allow-always", "Allow always (" ++ toolName ++ ")", .allowAlways⟩, rejectOnce,
      rejectAlways]
  | .high | .critical => [allowOnce, rejectOnce, rejectAlways]

def applyPolicy (policy : PermissionPolicy) : PolicyEvaluation :=
  match policy.defaultAction with
  | .allow => .allowed
  | .deny => .denied ("Tool '" ++ toolName ++ "' is denied by policy")
  | .askUser =>
    if policy.requireUserConsent then
      .requireUserConsent (generatePermissionOptions toolName policy.riskLevel)
    else .allowed

def evaluatePolicies : PolicyEvaluation :=
  match policies.find? fun policy => matchesToolPattern policy.toolPattern toolName with
  | some policy => applyPolicy toolName policy
  | none => .requireUserConsent (generatePermissionOptions toolName .medium)

end

/-- What the file holds. Every operation loads it into a new hash map, which lists it in an order
of its own. -/
abbrev PermissionMap := IndexMap String StoredPermission

namespace PermissionDecision

def once : PermissionDecision → Bool
  | .allowOnce | .allow | .denyOnce | .deny => true
  | .allowAlways | .denyAlways => false

def answer : PermissionDecision → PolicyEvaluation
  | .allowAlways | .allowOnce | .allow => .allowed
  | .denyAlways | .denyOnce | .deny => .denied "Tool access denied by stored permission"

end PermissionDecision

def StoredPermission.expired (stored : StoredPermission) (now : Nat) : Bool :=
  stored.expiresAt.any fun expiresAt => decide (expiresAt ≤ now)

section

variable (policies : List PermissionPolicy) (now : Nat) (permissions : PermissionMap)

def lookupEntry (toolName : String) : Option (String × StoredPermission) :=
  match permissions.get? toolName with
  | some stored => some (toolName, stored)
  | none => permissions.entries.find? fun e => matchesToolPattern e.1 toolName

def lookupPermission (toolName : String) : Option StoredPermission :=
  (lookupEntry permissions toolName).map Prod.snd

def removePermission (toolPattern : String) : PermissionMap := permissions.shiftRemove toolPattern

def cleanupExpired : PermissionMap := permissions.filter fun _ stored => !stored.expired now

def evaluateToolCall (toolName : String) : PolicyEvaluation × PermissionMap :=
  match lookupPermission permissions toolName with
  | some stored =>
    if stored.expired now then (evaluatePolicies policies toolName, permissions)
    else
      (stored.decision.answer,
        if stored.decision.once then removePermission permissions toolName else permissions)
  | none => (evaluatePolicies policies toolName, permissions)

def storePermissionDecision (toolName : String) (decision : PermissionDecision)
    (expiresIn : Option Nat) : PermissionMap :=
  permissions.insert toolName ⟨toolName, decision, now, expiresIn.map fun d => now + d⟩

end

end SwissArmyHammer.Permissions

/-! Runs of storing, evaluating and cleaning up: which of the stored decisions answers, and how
often. -/

namespace SwissArmyHammer.Permissions

inductive Op
  | store (toolName : String) (decision : PermissionDecision) (expiresIn : Option Nat) (now : Nat)
  | evaluate (toolName : String) (now : Nat) (listed : PermissionMap)
  | cleanup (now : Nat)

def Step (policies : List PermissionPolicy) (m : PermissionMap) : Op → PermissionMap → Prop
  | .store toolName decision expiresIn now, m' =>
    m' = storePermissionDecision now m toolName decision expiresIn
  | .evaluate toolName now listed, m' =>
    listed.entries.Perm m.entries ∧ m' = (evaluateToolCall policies now listed toolName).2
  | .cleanup now, m' => m' = cleanupExpired now m

def AnswersOnce : Op → String → Prop
  | .evaluate toolName now listed, pattern => ∃ stored,
    lookupEntry listed toolName = some (pattern, stored) ∧ stored.expired now = false ∧
      stored.decision.once = true
  | _, _ => False

def Stores : Op → String → Prop
  | .store toolName _ _ _, pattern => toolName = pattern
  | _, _ => False

def AnswersAtMostOnce (steps : List (Op × PermissionMap)) : Prop :=
  ∀ pre x mid y post pattern, steps = pre ++ x :: (mid ++ y :: post) → AnswersOnce x.1 pattern →
    AnswersOnce y.1 pattern → ∃ z ∈ mid, Stores z.1 pattern

/-- An evaluation answers as after a cleanup and in whatever order the map is listed, and what is
always denied is denied. -/
def Honoured (policies : List PermissionPolicy) (m : PermissionMap) : Op → Prop
  | .evaluate toolName now listed =>
    let answer := (evaluateToolCall policies now listed toolName).1
    (∀ cleaned : PermissionMap, cleaned.entries.Perm (cleanupExpired now m).entries →
      (evaluateToolCall policies now cleaned toolName).1 = answer) ∧
    (∀ stored, m.get? toolName = some stored → stored.expired now = false →
      stored.decision = .denyAlways → ∃ reason, answer = .denied reason) ∧
    ∀ other : PermissionMap, other.entries.Perm m.entries →
      (evaluateToolCall policies now other toolName).1 = answer
  | _ => True

def outcome (policies : List PermissionPolicy) (now : Nat) (toolName : String)
    (stored : StoredPermission) : PolicyEvaluation :=
  if stored.expired now then evaluatePolicies policies toolName else stored.decision.answer

/-- Unless a decision for the tool itself is in force, all entries that match the tool answer
alike, an expired one as the policies do. -/
def Agree (policies : List PermissionPolicy) (m : PermissionMap) (toolName : String) (now : Nat) :
    Prop :=
  (∀ stored, m.get? toolName = some stored → stored.expired now = true) →
    ∀ e ∈ m.entries, ∀ e' ∈ m.entries, matchesToolPattern e.1 toolName = true →
      matchesToolPattern e'.1 toolName = true →
        outcome policies now toolName e.2 = outcome policies now toolName e'.2

def OnceIsExact (m : PermissionMap) (toolName : String) (now : Nat) : Prop :=
  m.get? toolName = none → ∀ e ∈ m.entries, matchesToolPattern e.1 toolName = true →
    e.2.expired now = false → e.2.decision.once = false

def Clear (policies : List PermissionPolicy) (m : PermissionMap) : Op → Prop
  | .evaluate toolName now _ => Agree policies m toolName now ∧ OnceIsExact m toolName now
  | _ => True

section

variable {policies : List PermissionPolicy} {m listed : PermissionMap} {toolName pattern : String}
  {now : Nat} {stored : StoredPermission}

theorem matches_self (toolName : String) : matchesToolPattern toolName toolName = true := by
  simp [matchesToolPattern]

theorem lookupEntry_spec (h : lookupEntry m toolName = some (pattern, stored)) :
    (pattern, stored) ∈ m.entries ∧ matchesToolPattern pattern toolName = true ∧
      (m.get? toolName = some stored ∧ pattern = toolName ∨ m.get? toolName = none) := by
  rw [lookupEntry] at h
  split at h
  · rename_i found hfound
    obtain ⟨rfl, rfl⟩ := Prod.mk.inj (Option.some.inj h)
    exact ⟨IndexMap.get?_eq_some_iff.mp hfound, matches_self _, .inl ⟨hfound, rfl⟩⟩
  · grind

theorem lookupEntry_eq_none (h : lookupEntry m toolName = none) :
    ∀ e ∈ m.entries, matchesToolPattern e.1 toolName = false := by
  rw [lookupEntry] at h
  split at h
  · cases h
  · intro e he
    simpa using List.find?_eq_none.mp h e he

theorem answer_eq (policies : List PermissionPolicy) (now : Nat) (m : PermissionMap)
    (toolName : String) : (evaluateToolCall policies now m toolName).1 =
      match lookupEntry m toolName with
      | some e => outcome policies now toolName e.2
      | none => evaluatePolicies policies toolName := by
  unfold evaluateToolCall lookupPermission outcome
  cases lookupEntry m toolName with
  | none => rfl
  | some e =>
    simp only [Option.map_some]
    split
    · rfl
    · rfl

theorem get?_perm (h : listed.entries.Perm m.entries) (toolName : String) :
    listed.get? toolName = m.get? toolName := by
  refine Option.ext fun stored => ?_
  rw [IndexMap.get?_eq_some_iff, IndexMap.get?_eq_some_iff]
  exact h.mem_iff

theorem Agree.perm (h : Agree policies m toolName now) (hperm : listed.entries.Perm m.entries) :
    Agree policies listed toolName now := by
  intro hexact e he e' he'
  rw [get?_perm hperm] at hexact
  exact h hexact e (hperm.mem_iff.mp he) e' (hperm.mem_iff.mp he')

theorem answer_of_agree (h : Agree policies m toolName now) {e : String × StoredPermission}
    (he : e ∈ m.entries) (hmatches : matchesToolPattern e.1 toolName = true)
    (hexact : ∀ stored, m.get? toolName = some stored → stored.expired now = true) :
    (evaluateToolCall policies now m toolName).1 = outcome policies now toolName e.2 := by
  rw [answer_eq]
  cases hlookup : lookupEntry m toolName with
  | none => exact absurd hmatches (by simp [lookupEntry_eq_none hlookup e he])
  | some found =>
    obtain ⟨hfound, hfits, -⟩ := lookupEntry_spec hlookup
    exact h hexact found hfound e he hfits hmatches

theorem answer_of_exact (hget : m.get? toolName = some stored) :
    (evaluateToolCall policies now m toolName).1 = outcome policies now toolName stored := by
  rw [answer_eq, lookupEntry, hget]

theorem answer_perm (h : Agree policies m toolName now) (hperm : listed.entries.Perm m.entries) :
    (evaluateToolCall policies now listed toolName).1 =
      (evaluateToolCall policies now m toolName).1 := by
  cases hget : m.get? toolName with
  | some stored =>
    rw [answer_of_exact hget, answer_of_exact ((get?_perm hperm toolName).trans hget)]
  | none =>
    rw [answer_eq policies now m]
    cases hlookup : lookupEntry m toolName with
    | none =>
      rw [answer_eq]
      cases hlisted : lookupEntry listed toolName with
      | none => rfl
      | some found =>
        obtain ⟨hfound, hfits, -⟩ := lookupEntry_spec hlisted
        have hnot := lookupEntry_eq_none hlookup found (hperm.mem_iff.mp hfound)
        exact absurd hfits (by simp [hnot])
    | some found =>
      obtain ⟨hfound, hfits, -⟩ := lookupEntry_spec hlookup
      refine answer_of_agree (h.perm hperm) (hperm.mem_iff.mpr hfound) hfits fun stored hstored => ?_
      rw [get?_perm hperm, hget] at hstored
      cases hstored

theorem mem_cleanupExpired {e : String × StoredPermission} :
    e ∈ (cleanupExpired now m).entries ↔ e ∈ m.entries ∧ e.2.expired now = false := by
  simp [cleanupExpired, IndexMap.filter]

theorem get?_cleanupExpired : (cleanupExpired now m).get? toolName = some stored ↔
    m.get? toolName = some stored ∧ stored.expired now = false := by
  rw [cleanupExpired, IndexMap.get?_filter_eq_some]
  simp

theorem outcome_expired (h : stored.expired now = true) :
    outcome policies now toolName stored = evaluatePolicies policies toolName := if_pos h

theorem Agree.cleanup (h : Agree policies m toolName now) :
    Agree policies (cleanupExpired now m) toolName now := by
  intro hexact e he e' he'
  have hnone : ∀ stored, m.get? toolName = some stored → stored.expired now = true := by
    intro stored hget
    by_contra hlive
    rw [Bool.not_eq_true] at hlive
    have hexpired := hexact stored (get?_cleanupExpired.mpr ⟨hget, hlive⟩)
    exact absurd hexpired (by simp [hlive])
  exact h hnone e (mem_cleanupExpired.mp he).1 e' (mem_cleanupExpired.mp he').1

theorem answer_cleanup (h : Agree policies m toolName now) :
    (evaluateToolCall policies now (cleanupExpired now m) toolName).1 =
      (evaluateToolCall policies now m toolName).1 := by
  by_cases hexact : ∀ stored, m.get? toolName = some stored → stored.expired now = true
  · rw [answer_eq]
    cases hclean : lookupEntry (cleanupExpired now m) toolName with
    | some found =>
      obtain ⟨hfound, hfits, -⟩ := lookupEntry_spec hclean
      exact (answer_of_agree h (mem_cleanupExpired.mp hfound).1 hfits hexact).symm
    | none =>
      rw [answer_eq]
      cases hlookup : lookupEntry m toolName with
      | none => rfl
      | some found =>
        obtain ⟨hfound, hfits, -⟩ := lookupEntry_spec hlookup
        have hexpired : found.2.expired now = true := by
          by_contra hlive
          rw [Bool.not_eq_true] at hlive
          have hnot := lookupEntry_eq_none hclean found (mem_cleanupExpired.mpr ⟨hfound, hlive⟩)
          exact absurd hfits (by simp [hnot])
        exact (outcome_expired hexpired).symm
  · simp only [not_forall, Bool.not_eq_true] at hexact
    obtain ⟨stored, hget, hlive⟩ := hexact
    rw [answer_of_exact hget, answer_of_exact (get?_cleanupExpired.mpr ⟨hget, hlive⟩)]

theorem honoured_evaluate (h : Agree policies m toolName now)
    (hperm : listed.entries.Perm m.entries) :
    Honoured policies m (.evaluate toolName now listed) := by
  have hlisted := answer_perm h hperm
  refine ⟨fun cleaned hcleaned => ?_, fun stored hget hlive hdeny => ?_, fun other hother => ?_⟩
  · rw [hlisted, answer_perm h.cleanup hcleaned, answer_cleanup h]
  · refine ⟨"Tool access denied by stored permission", ?_⟩
    rw [hlisted, answer_of_exact hget, outcome, hlive, hdeny]
    rfl
  · rw [hlisted, answer_perm h hother]

end

section

variable {policies : List PermissionPolicy} {m m' : PermissionMap} {op : Op} {pattern : String}
  {steps : List (Op × PermissionMap)}

theorem present_of_answersOnce (hstep : Step policies m op m') (h : AnswersOnce op pattern) :
    (m.get? pattern).isSome := by
  cases op with
  | store toolName decision expiresIn now => exact h.elim
  | cleanup now => exact h.elim
  | evaluate toolName now listed =>
    obtain ⟨stored, hlookup, -⟩ := h
    have hmem := hstep.1.mem_iff.mp (lookupEntry_spec hlookup).1
    rw [IndexMap.get?_eq_some_iff.mpr hmem]
    rfl

theorem removed_of_answersOnce (hstep : Step policies m op m') (hclear : Clear policies m op)
    (h : AnswersOnce op pattern) : m'.get? pattern = none := by
  cases op with
  | store toolName decision expiresIn now => exact h.elim
  | cleanup now => exact h.elim
  | evaluate toolName now listed =>
    obtain ⟨hperm, rfl⟩ := hstep
    obtain ⟨stored, hlookup, hlive, honce⟩ := h
    obtain ⟨hmem, hfits, hkey⟩ := lookupEntry_spec hlookup
    have hexact : pattern = toolName := by
      rcases hkey with ⟨-, hkey⟩ | hnone
      · exact hkey
      · rw [get?_perm hperm] at hnone
        have hnot := hclear.2 hnone _ (hperm.mem_iff.mp hmem) hfits hlive
        exact absurd honce (by simp [hnot])
    subst hexact
    have hfound : lookupPermission listed pattern = some stored := by
      rw [lookupPermission, hlookup]
      rfl
    simp [evaluateToolCall, hfound, hlive, honce, removePermission]

theorem absent_step (hstep : Step policies m op m') (hstores : ¬ Stores op pattern)
    (h : m.get? pattern = none) : m'.get? pattern = none := by
  cases op with
  | store toolName decision expiresIn now =>
    obtain rfl := hstep
    rw [storePermissionDecision, IndexMap.get?_insert_of_ne (Ne.symm hstores), h]
  | cleanup now =>
    obtain rfl := hstep
    refine Option.eq_none_iff_forall_ne_some.mpr fun stored hstored => ?_
    rw [get?_cleanupExpired, h] at hstored
    exact absurd hstored.1 (by simp)
  | evaluate toolName now listed =>
    obtain ⟨hperm, rfl⟩ := hstep
    have hlisted : listed.get? pattern = none := (get?_perm hperm pattern).trans h
    unfold evaluateToolCall
    split
    · split
      · exact hlisted
      · split
        · by_cases hkey : pattern = toolName
          · rw [hkey]
            exact IndexMap.get?_shiftRemove_self _ _
          · exact (IndexMap.get?_shiftRemove_of_ne hkey _).trans hlisted
        · exact hlisted
    · exact hlisted

theorem answersAtMostOnce (h : Trace (Step policies) m steps)
    (hclear : Trace.Every (fun m op _ => Clear policies m op) m steps) :
    AnswersAtMostOnce steps := by
  intro pre x mid y post pattern hsteps hx hy
  subst hsteps
  obtain ⟨hpre, hrest⟩ := h.of_append
  cases hrest with
  | @cons _ s' a _ hfirst hmore =>
    have hclearx := (Trace.Every.of_append hclear).2.1
    have habsent := removed_of_answersOnce hfirst hclearx hx
    obtain ⟨hmid, hlast⟩ := hmore.of_append
    by_contra hnone
    have hstays : (Trace.after s' mid).get? pattern = none := by
      refine Trace.after_invariant (I := fun m => m.get? pattern = none)
        (K := fun op => ¬ Stores op pattern) (fun _ _ _ hs hK hstep => absent_step hstep hK hs)
        hmid habsent fun z hz hstores => hnone ⟨z, hz, hstores⟩
    cases hlast with
    | cons hsecond _ =>
      have hpresent := present_of_answersOnce hsecond hy
      rw [hstays] at hpresent
      cases hpresent

end

theorem stored_decisions_honoured {policies : List PermissionPolicy} {m : PermissionMap}
    {steps : List (Op × PermissionMap)} (h : Trace (Step policies) m steps)
    (hclear : Trace.Every (fun m op _ => Clear policies m op) m steps) :
    AnswersAtMostOnce steps ∧ Trace.Every (fun m op _ => Honoured policies m op) m steps := by
  refine ⟨answersAtMostOnce h hclear, ?_⟩
  refine h.every_of_invariant (I := fun _ => True) (fun m op m' _ hop hstep => ⟨trivial, ?_⟩)
    trivial hclear
  cases op with
  | store toolName decision expiresIn now => exact trivial
  | cleanup now => exact trivial
  | evaluate toolName now listed => exact honoured_evaluate hop.1 hstep.1

def granted (pattern : String) : PermissionMap :=
  storePermissionDecision 0 .empty pattern .allowOnce none

def exactRun : List (Op × PermissionMap) :=
  [(.store "fs_write" .allowOnce none 0, granted "fs_write"),
    (.evaluate "fs_write" 1 (granted "fs_write"), .empty),
    (.evaluate "fs_write" 2 .empty, .empty)]

theorem trace_exactRun : Trace (Step []) .empty exactRun :=
  .cons rfl (.cons ⟨.refl _, rfl⟩ (.cons ⟨.refl _, rfl⟩ (.nil _)))

theorem clear_exactRun : Trace.Every (fun m op _ => Clear [] m op) .empty exactRun := by
  have hget : (granted "fs_write").get? "fs_write" =
      some ⟨"fs_write", .allowOnce, 0, none⟩ := IndexMap.get?_insert_self _ _ _
  refine ⟨trivial, ⟨fun hexact => ?_, fun hnone => ?_⟩, ⟨fun _ e he => ?_, fun _ e he => ?_⟩, trivial⟩
  · exact absurd (hexact _ hget) (by decide)
  · cases hnone
  · exact absurd he List.not_mem_nil
  · exact absurd he List.not_mem_nil

theorem stored_decisions_honoured_exactRun : AnswersAtMostOnce exactRun ∧
    Trace.Every (fun m op _ => Honoured [] m op) .empty exactRun :=
  stored_decisions_honoured trace_exactRun clear_exactRun

def wildcardRun : List (Op × PermissionMap) :=
  [(.store "fs_*" .allowOnce none 0, granted "fs_*"),
    (.evaluate "fs_write" 1 (granted "fs_*"), granted "fs_*"),
    (.evaluate "fs_write" 2 (granted "fs_*"), granted "fs_*")]

theorem allowed_once_answers_twice :
    Trace (Step []) .empty wildcardRun ∧ ¬ AnswersAtMostOnce wildcardRun := by
  have hanswers : ∀ now, AnswersOnce (.evaluate "fs_write" now (granted "fs_*")) "fs_*" :=
    fun now => ⟨⟨"fs_*", .allowOnce, 0, none⟩, by decide, rfl, rfl⟩
  refine ⟨.cons rfl (.cons ⟨.refl _, rfl⟩ (.cons ⟨.refl _, rfl⟩ (.nil _))), fun hatmost => ?_⟩
  obtain ⟨z, hz, -⟩ := hatmost [(.store "fs_*" .allowOnce none 0, granted "fs_*")] _ [] _ [] "fs_*"
    rfl (hanswers 1) (hanswers 2)
  exact absurd hz List.not_mem_nil

end SwissArmyHammer.Permissions
