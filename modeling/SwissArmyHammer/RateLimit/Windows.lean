import Mathlib.Data.List.Perm.Subperm
import SwissArmyHammer.Common.Traces
import SwissArmyHammer.RateLimit.Limiter

/-! What the limiter allows within a window, over runs of calls and clean-ups. -/

namespace SwissArmyHammer.RateLimit

inductive Call
  | check (t : Nat) (clientId operation : String) (cost : Nat)
  | cleanup

structure Allowed where
  time : Nat
  clientId : String
  operation : String
  cost : Nat

/-- The limiter, the time of the last call and the calls that were allowed, the latest first. -/
structure System where
  limiter : RateLimiter
  now : Nat
  log : List Allowed

namespace System

variable (cfg : RateLimiterConfig) (sys : System)

def start : System := ⟨.new, 0, []⟩

def clientCharges (clientId : String) : Charges :=
  (sys.log.filter fun a => a.clientId = clientId).map fun a => (a.time, a.cost)

def operationCharges (operation : String) : Charges :=
  (sys.log.filter fun a => a.operation = operation).map fun a => (a.time, a.cost)

def Step : Call → System → Prop
  | .check t clientId operation cost, sys' => sys.now ≤ t ∧ 0 < cost ∧
    sys' = ⟨(sys.limiter.checkRateLimit cfg t clientId operation cost).1, t,
      if (sys.limiter.checkRateLimit cfg t clientId operation cost).2 = .ok () then
        ⟨t, clientId, operation, cost⟩ :: sys.log
      else sys.log⟩
  | .cleanup, sys' => sys' = { sys with limiter := sys.limiter.cleanupOldEntries }

def refuses : Call → Prop
  | .check t clientId operation cost =>
    (sys.limiter.checkRateLimit cfg t clientId operation cost).2 ≠ .ok ()
  | .cleanup => False

/-- A call that the windows of its client and of its operation leave room for is allowed. -/
def Allows : Call → Prop
  | .check t clientId operation cost =>
    ((sys.clientCharges clientId).recent cfg.windowDuration t).cost + cost ≤ cfg.perClientLimit →
    ((sys.operationCharges operation).recent cfg.windowDuration t).cost + cost ≤
      RateLimiter.operationLimit cfg operation →
    (sys.limiter.checkRateLimit cfg t clientId operation cost).2 = .ok ()
  | .cleanup => True

def Bounded : Prop :=
  (∀ clientId s, ((sys.clientCharges clientId).window cfg.windowDuration s).cost ≤
      2 * cfg.perClientLimit) ∧
    ∀ operation s, ((sys.operationCharges operation).window cfg.windowDuration s).cost ≤
      2 * RateLimiter.operationLimit cfg operation

/-- No client is refused what the bucket of the operation grants, the buckets have regained what
left the window, and a clean-up finds at most a thousand operations. -/
def Steady : Call → Prop
  | .check t clientId operation cost =>
    (((RateLimiter.operationQuota cfg operation).take t cost
        (sys.limiter.globalFull operation)).isSome →
      ((RateLimiter.clientQuota cfg).take t cost (sys.limiter.clientFull clientId)).isSome) ∧
    (sys.clientCharges clientId).Regained cfg.windowDuration t ∧
    (sys.operationCharges operation).Regained cfg.windowDuration t
  | .cleanup => sys.limiter.globalLimiters.entries.length ≤ 1000

structure Inv : Prop where
  client : ∀ clientId, sys.limiter.clientFull clientId =
    (sys.clientCharges clientId).fullAt cfg.windowDuration
  operation : ∀ operation, sys.limiter.globalFull operation =
    (sys.operationCharges operation).fullAt cfg.windowDuration
  ordered : sys.log.Pairwise fun later earlier => earlier.time ≤ later.time
  past : ∀ a ∈ sys.log, a.time ≤ sys.now
  clientGranted : ∀ clientId, (sys.clientCharges clientId).Granted (RateLimiter.clientQuota cfg)
  operationGranted : ∀ operation,
    (sys.operationCharges operation).Granted (RateLimiter.operationQuota cfg operation)

variable {cfg sys} {sys' : System} {call : Call} {t cost : Nat} {clientId operation : String}

theorem ordered_charges {log : List Allowed} (p : Allowed → Bool)
    (h : log.Pairwise fun later earlier => earlier.time ≤ later.time) :
    Charges.Ordered ((log.filter p).map fun a => (a.time, a.cost)) :=
  (h.filter p).map _ fun _ _ hle => hle

theorem past_charges {log : List Allowed} (p : Allowed → Bool) (h : ∀ a ∈ log, a.time ≤ t) :
    ∀ c ∈ (log.filter p).map (fun a => (a.time, a.cost)), c.1 ≤ t := by grind

theorem inv_start : Inv cfg start where
  client _ := rfl
  operation _ := rfl
  ordered := .nil
  past _ h := absurd h List.not_mem_nil
  clientGranted _ := trivial
  operationGranted _ := trivial

theorem Inv.bounded (h : Inv cfg sys) : sys.Bounded cfg := by
  constructor
  · intro clientId s
    have hle := Charges.cost_period_le (ordered_charges _ h.ordered) (h.clientGranted clientId) s
    have hpos := cfg.perClientLimit_pos
    have hburst : (RateLimiter.clientQuota cfg).burst = cfg.perClientLimit := rfl
    exact Nat.le_trans hle (by omega)
  · intro operation s
    have hle := Charges.cost_period_le (ordered_charges _ h.ordered)
      (h.operationGranted operation) s
    have hpos := RateLimiter.operationLimit_pos cfg operation
    have hburst : (RateLimiter.operationQuota cfg operation).burst =
      RateLimiter.operationLimit cfg operation := rfl
    exact Nat.le_trans hle (by omega)

theorem Inv.allows (h : Inv cfg sys) (hsteady : Steady cfg sys call) (hstep : Step cfg sys call sys') :
    Allows cfg sys call := by
  cases call with
  | cleanup => exact trivial
  | check t clientId operation cost =>
    intro hclient hoperation
    obtain ⟨hnow, hcost, -⟩ := hstep
    obtain ⟨-, hclientRegained, hoperationRegained⟩ := hsteady
    have hpast : ∀ a ∈ sys.log, a.time ≤ t := fun a ha => Nat.le_trans (h.past a ha) hnow
    have hclientTake : ((RateLimiter.clientQuota cfg).take t cost
        (sys.limiter.clientFull clientId)).isSome := by
      rw [h.client]
      exact Charges.take_of_regained (ordered_charges _ h.ordered) (past_charges _ hpast)
        hclientRegained hclient
    have hoperationTake : ((RateLimiter.operationQuota cfg operation).take t cost
        (sys.limiter.globalFull operation)).isSome := by
      rw [h.operation]
      exact Charges.take_of_regained (ordered_charges _ h.ordered) (past_charges _ hpast)
        hoperationRegained hoperation
    have hcases := sys.limiter.checkRateLimit_cases cfg t clientId operation hcost
    rcases hcases with ⟨hnone, -, -⟩ | ⟨full, -, ⟨hnone, -⟩ | ⟨clientFull, -, hok, -⟩⟩
    · rw [hnone] at hoperationTake
      cases hoperationTake
    · rw [hnone] at hclientTake
      cases hclientTake
    · exact hok

theorem step_cases (hsteady : Steady cfg sys call) (hstep : Step cfg sys call sys') :
    ((∀ clientId, sys'.limiter.clientFull clientId = sys.limiter.clientFull clientId) ∧
        (∀ operation, sys'.limiter.globalFull operation = sys.limiter.globalFull operation) ∧
        (∀ operation, (sys.limiter.globalLimiters.get? operation).isSome →
          (sys'.limiter.globalLimiters.get? operation).isSome) ∧
        sys'.log = sys.log ∧ sys.now ≤ sys'.now) ∨
      ∃ t clientId operation cost full clientFull, call = .check t clientId operation cost ∧
        ¬ sys.refuses cfg call ∧ sys.now ≤ t ∧ sys'.now = t ∧
        sys'.log = ⟨t, clientId, operation, cost⟩ :: sys.log ∧
        (RateLimiter.operationQuota cfg operation).take t cost
          (sys.limiter.globalFull operation) = some full ∧
        (RateLimiter.clientQuota cfg).take t cost (sys.limiter.clientFull clientId) =
          some clientFull ∧
        sys'.limiter = ((sys.limiter.setGlobal operation
          (sys.limiter.globalFull operation)).setGlobal operation full).setClient clientId
            clientFull := by
  cases call with
  | cleanup =>
    obtain rfl := hstep
    have hkept : sys.limiter.cleanupOldEntries = sys.limiter :=
      if_neg (Nat.not_lt.mpr hsteady)
    rw [hkept]
    exact .inl ⟨fun _ => rfl, fun _ => rfl, fun _ => id, rfl, Nat.le_refl _⟩
  | check t clientId operation cost =>
    obtain ⟨hnow, hcost, rfl⟩ := hstep
    have hcases := sys.limiter.checkRateLimit_cases cfg t clientId operation hcost
    rcases hcases with ⟨hnone, ⟨e, he⟩, hafter⟩ | ⟨full, hfull, ⟨hnone, -⟩ | ⟨clientFull, hclient,
      hok, hafter⟩⟩
    · left
      simp only [he, hafter, reduceCtorEq, if_false]
      refine ⟨fun _ => rfl, fun other => ?_, fun other hmade => ?_, trivial, hnow⟩
      · by_cases hother : other = operation
        · subst hother
          exact RateLimiter.globalFull_setGlobal_self _ _
        · exact RateLimiter.globalFull_setGlobal_of_ne hother _
      · by_cases hother : other = operation
        · subst hother
          simp [RateLimiter.setGlobal]
        · simp only [RateLimiter.setGlobal, IndexMap.get?_insert_of_ne hother]
          exact hmade
    · have hsome := hsteady.1 (by rw [hfull]; rfl)
      rw [hnone] at hsome
      cases hsome
    · right
      refine ⟨t, clientId, operation, cost, full, clientFull, rfl, fun hrefuses => hrefuses hok,
        hnow, rfl, ?_, hfull, hclient, hafter⟩
      exact if_pos hok

theorem take_eq_some {q : Quota} {k full full' : Nat} (h : q.take t k full = some full') :
    full' = max full t + k * q.period := by
  rw [Quota.take] at h
  split at h
  · exact (Option.some.inj h).symm
  · cases h

section

variable {other : String}

theorem clientCharges_self (hlog : sys'.log = ⟨t, clientId, operation, cost⟩ :: sys.log) :
    sys'.clientCharges clientId = (t, cost) :: sys.clientCharges clientId := by
  rw [clientCharges, hlog, List.filter_cons_of_pos (by simp)]
  rfl

theorem clientCharges_of_ne (hlog : sys'.log = ⟨t, clientId, operation, cost⟩ :: sys.log)
    (hother : other ≠ clientId) : sys'.clientCharges other = sys.clientCharges other := by
  rw [clientCharges, hlog, List.filter_cons_of_neg (by simpa using hother.symm)]
  rfl

theorem operationCharges_self (hlog : sys'.log = ⟨t, clientId, operation, cost⟩ :: sys.log) :
    sys'.operationCharges operation = (t, cost) :: sys.operationCharges operation := by
  rw [operationCharges, hlog, List.filter_cons_of_pos (by simp)]
  rfl

theorem operationCharges_of_ne (hlog : sys'.log = ⟨t, clientId, operation, cost⟩ :: sys.log)
    (hother : other ≠ operation) :
    sys'.operationCharges other = sys.operationCharges other := by
  rw [operationCharges, hlog, List.filter_cons_of_neg (by simpa using hother.symm)]
  rfl

end

theorem Inv.step (h : Inv cfg sys) (hsteady : Steady cfg sys call) (hstep : Step cfg sys call sys') :
    Inv cfg sys' := by
  rcases step_cases hsteady hstep with ⟨hclient, hglobal, -, hlog, hnow⟩ | ⟨t, clientId, operation, cost,
    full, clientFull, rfl, -, hnow, hnow', hlog, hfull, hclientFull, hafter⟩
  · refine ⟨fun clientId => ?_, fun operation => ?_, ?_, ?_, fun clientId => ?_,
      fun operation => ?_⟩
    · rw [hclient, h.client, clientCharges, clientCharges, hlog]
    · rw [hglobal, h.operation, operationCharges, operationCharges, hlog]
    · rw [hlog]
      exact h.ordered
    · rw [hlog]
      exact fun a ha => Nat.le_trans (h.past a ha) hnow
    · rw [clientCharges, hlog]
      exact h.clientGranted clientId
    · rw [operationCharges, hlog]
      exact h.operationGranted operation
  · rw [h.operation] at hfull
    rw [h.client] at hclientFull
    refine ⟨fun other => ?_, fun other => ?_, ?_, ?_, fun other => ?_, fun other => ?_⟩
    · rw [hafter]
      by_cases hother : other = clientId
      · subst hother
        rw [RateLimiter.clientFull_setClient_self, clientCharges_self hlog,
          take_eq_some hclientFull]
        rfl
      · rw [RateLimiter.clientFull_setClient_of_ne hother, clientCharges_of_ne hlog hother]
        exact h.client other
    · rw [hafter, RateLimiter.globalFull_setClient]
      by_cases hother : other = operation
      · subst hother
        rw [RateLimiter.globalFull_setGlobal_self, operationCharges_self hlog,
          take_eq_some hfull]
        rfl
      · rw [RateLimiter.globalFull_setGlobal_of_ne hother,
          RateLimiter.globalFull_setGlobal_of_ne hother, operationCharges_of_ne hlog hother]
        exact h.operation other
    · rw [hlog]
      exact List.pairwise_cons.mpr ⟨fun a ha => Nat.le_trans (h.past a ha) hnow, h.ordered⟩
    · rw [hlog, hnow']
      intro a ha
      rcases List.mem_cons.mp ha with rfl | ha
      · exact Nat.le_refl _
      · exact Nat.le_trans (h.past a ha) hnow
    · by_cases hother : other = clientId
      · subst hother
        rw [clientCharges_self hlog]
        refine ⟨?_, h.clientGranted other⟩
        have htake : (RateLimiter.clientQuota cfg).take t cost
          (Charges.fullAt (RateLimiter.clientQuota cfg).period (sys.clientCharges other)) =
            some clientFull := hclientFull
        rw [htake]
        rfl
      · rw [clientCharges_of_ne hlog hother]
        exact h.clientGranted other
    · by_cases hother : other = operation
      · subst hother
        rw [operationCharges_self hlog]
        refine ⟨?_, h.operationGranted other⟩
        have htake : (RateLimiter.operationQuota cfg other).take t cost
          (Charges.fullAt (RateLimiter.operationQuota cfg other).period
            (sys.operationCharges other)) = some full := hfull
        rw [htake]
        rfl
      · rw [operationCharges_of_ne hlog hother]
        exact h.operationGranted other

end System

section

variable (cfg : RateLimiterConfig)

def outcomes : RateLimiter → List Call → List (Except String Unit)
  | _, [] => []
  | limiter, .check t clientId operation cost :: rest =>
    (limiter.checkRateLimit cfg t clientId operation cost).2 ::
      outcomes (limiter.checkRateLimit cfg t clientId operation cost).1 rest
  | limiter, .cleanup :: rest => outcomes limiter.cleanupOldEntries rest

def Forgets (sys : System) (steps : List (Call × System)) : Prop :=
  ∀ pre x post, steps = pre ++ x :: post → (Trace.after sys pre).refuses cfg x.1 →
    outcomes cfg x.2.limiter (post.map Prod.fst) =
      outcomes cfg (Trace.after sys pre).limiter (post.map Prod.fst)

structure Like (limiter limiter' : RateLimiter) : Prop where
  client : ∀ clientId, limiter.clientFull clientId = limiter'.clientFull clientId
  operation : ∀ operation, limiter.globalFull operation = limiter'.globalFull operation
  made : ∀ operation, (limiter.globalLimiters.get? operation).isSome →
    (limiter'.globalLimiters.get? operation).isSome

variable {cfg} {limiter limiter' : RateLimiter}

theorem Like.setGlobal (h : Like limiter limiter') (operation : String) (full : Nat) :
    Like (limiter.setGlobal operation full) (limiter'.setGlobal operation full) := by
  refine ⟨h.client, fun other => ?_, fun other hother => ?_⟩
  · by_cases heq : other = operation
    · subst heq
      rw [RateLimiter.globalFull_setGlobal_self, RateLimiter.globalFull_setGlobal_self]
    · rw [RateLimiter.globalFull_setGlobal_of_ne heq, RateLimiter.globalFull_setGlobal_of_ne heq]
      exact h.operation other
  · by_cases heq : other = operation
    · subst heq
      simp [RateLimiter.setGlobal]
    · simp only [RateLimiter.setGlobal, IndexMap.get?_insert_of_ne heq] at hother ⊢
      exact h.made other hother

theorem Like.setClient (h : Like limiter limiter') (clientId : String) (full : Nat) :
    Like (limiter.setClient clientId full) (limiter'.setClient clientId full) := by
  refine ⟨fun other => ?_, h.operation, h.made⟩
  by_cases heq : other = clientId
  · subst heq
    rw [RateLimiter.clientFull_setClient_self, RateLimiter.clientFull_setClient_self]
  · rw [RateLimiter.clientFull_setClient_of_ne heq, RateLimiter.clientFull_setClient_of_ne heq]
    exact h.client other

theorem Like.checkRateLimit (h : Like limiter limiter') (cfg : RateLimiterConfig) (t : Nat)
    (clientId operation : String) (cost : Nat) :
    (limiter.checkRateLimit cfg t clientId operation cost).2 =
        (limiter'.checkRateLimit cfg t clientId operation cost).2 ∧
      Like (limiter.checkRateLimit cfg t clientId operation cost).1
        (limiter'.checkRateLimit cfg t clientId operation cost).1 := by
  unfold RateLimiter.checkRateLimit
  rw [h.operation operation]
  have hmade := h.setGlobal operation (limiter'.globalFull operation)
  by_cases hcost : cost = 0
  · simp only [hcost, if_true, true_and]
    exact hmade
  · simp only [hcost, if_false, RateLimiter.clientFull_setGlobal, h.client clientId]
    cases (RateLimiter.operationQuota cfg operation).take t cost
        (limiter'.globalFull operation) with
    | none => exact ⟨rfl, hmade⟩
    | some full =>
      cases (RateLimiter.clientQuota cfg).take t cost (limiter'.clientFull clientId) with
      | none => exact ⟨rfl, hmade.setGlobal operation full⟩
      | some clientFull =>
        exact ⟨rfl, (hmade.setGlobal operation full).setClient clientId clientFull⟩

theorem Like.length_le (h : Like limiter limiter') :
    limiter.globalLimiters.entries.length ≤ limiter'.globalLimiters.entries.length := by
  have hsub : limiter.globalLimiters.entries.map Prod.fst ⊆
      limiter'.globalLimiters.entries.map Prod.fst := by
    intro operation hmem
    obtain ⟨⟨_, full⟩, hentry, rfl⟩ := List.mem_map.mp hmem
    have hsome := h.made _ (by rw [IndexMap.get?_eq_some_iff.mpr hentry]; rfl)
    obtain ⟨full', hfull'⟩ := Option.isSome_iff_exists.mp hsome
    exact List.mem_map.mpr ⟨_, IndexMap.get?_eq_some_iff.mp hfull', rfl⟩
  have hle := (List.subperm_of_subset limiter.globalLimiters.nodup hsub).length_le
  simpa using hle

theorem outcomes_like {sys : System} {steps : List (Call × System)}
    (htrace : Trace (System.Step cfg) sys steps)
    (hsteady : Trace.Every (fun sys call _ => sys.Steady cfg call) sys steps)
    (h : Like limiter sys.limiter) :
    outcomes cfg sys.limiter (steps.map Prod.fst) = outcomes cfg limiter (steps.map Prod.fst) := by
  induction htrace generalizing limiter with
  | nil sys => rfl
  | @cons sys sys' call rest hstep hrest ih =>
    rw [List.map_cons]
    cases call with
    | cleanup =>
      have hkept : sys.limiter.cleanupOldEntries = sys.limiter := if_neg (Nat.not_lt.mpr hsteady.1)
      have hkept' : limiter.cleanupOldEntries = limiter :=
        if_neg (Nat.not_lt.mpr (Nat.le_trans h.length_le hsteady.1))
      obtain rfl := hstep
      rw [outcomes, outcomes, hkept']
      exact ih hsteady.2 (by rw [hkept]; exact h)
    | check t clientId operation cost =>
      obtain ⟨-, -, rfl⟩ := hstep
      have hlike := h.checkRateLimit cfg t clientId operation cost
      rw [outcomes, outcomes, hlike.1, ih hsteady.2 hlike.2]

theorem like_of_refuses {sys sys' : System} {call : Call} (hsteady : sys.Steady cfg call)
    (hstep : sys.Step cfg call sys') (hrefuses : sys.refuses cfg call) :
    Like sys.limiter sys'.limiter := by
  rcases System.step_cases hsteady hstep with ⟨hclient, hglobal, hmade, -⟩ |
    ⟨_, _, _, _, _, _, -, hnot, -⟩
  · exact ⟨fun clientId => (hclient clientId).symm, fun operation => (hglobal operation).symm, hmade⟩
  · exact absurd hrefuses hnot

theorem forgets {sys : System} {steps : List (Call × System)}
    (htrace : Trace (System.Step cfg) sys steps)
    (hsteady : Trace.Every (fun sys call _ => sys.Steady cfg call) sys steps) :
    Forgets cfg sys steps := by
  intro pre x post hsteps hrefuses
  subst hsteps
  obtain ⟨-, hrest⟩ := htrace.of_append
  have hlater := hsteady.of_append.2
  cases hrest with
  | cons hstep hpost =>
    exact outcomes_like hpost hlater.2 (like_of_refuses hlater.1 hstep hrefuses)

end

theorem limiter_keeps_windows {cfg : RateLimiterConfig} {steps : List (Call × System)}
    (htrace : Trace (System.Step cfg) System.start steps)
    (hsteady : Trace.Every (fun sys call _ => sys.Steady cfg call) System.start steps) :
    Trace.Every (fun sys call sys' => sys.Allows cfg call ∧ sys'.Bounded cfg) System.start steps ∧
      Forgets cfg System.start steps := by
  refine ⟨?_, forgets htrace hsteady⟩
  refine htrace.every_of_invariant (I := System.Inv cfg) (fun sys call sys' hinv hmeets hstep => ?_)
    System.inv_start hsteady
  have hnext := hinv.step hmeets hstep
  exact ⟨hnext, hinv.allows hmeets hstep, hnext.bounded⟩

def narrow : RateLimiterConfig :=
  ⟨2, 2, 1, 10, Nat.two_pos, Nat.two_pos, Nat.one_pos, Nat.succ_pos 9⟩

def System.check (sys : System) (t : Nat) (clientId operation : String) (cost : Nat) : System :=
  ⟨(sys.limiter.checkRateLimit narrow t clientId operation cost).1, t,
    if (sys.limiter.checkRateLimit narrow t clientId operation cost).2 = .ok () then
      ⟨t, clientId, operation, cost⟩ :: sys.log
    else sys.log⟩

def evenRun : List (Call × System) :=
  let first := System.start.check 0 "client" "read" 1
  [(.check 0 "client" "read" 1, first), (.cleanup, first),
    (.check 10 "client" "read" 1, first.check 10 "client" "read" 1)]

theorem trace_evenRun : Trace (System.Step narrow) System.start evenRun :=
  .cons ⟨Nat.le_refl _, Nat.one_pos, rfl⟩
    (.cons rfl (.cons ⟨Nat.zero_le _, Nat.one_pos, rfl⟩ (.nil _)))

theorem regained_single {period t k time : Nat} (h : time + k * period ≤ t) :
    Charges.Regained period t [(time, k)] := by
  intro later c older heq hleft
  obtain ⟨rfl, hrest⟩ | ⟨-, hrest⟩ := List.append_eq_singleton_iff.mp heq.symm
  · obtain ⟨rfl, -⟩ := List.cons.inj hrest
    have hcost := Charges.cost_filter_le (fun c => !decide (t < c.1 + period)) [(time, k)]
    exact Nat.le_trans (Nat.add_le_add_left (Nat.mul_le_mul_right period hcost) time) h
  · cases hrest

theorem steady_evenRun :
    Trace.Every (fun sys call _ => sys.Steady narrow call) System.start evenRun := by
  have hnone : ∀ t, Charges.Regained 10 t [] := fun t later c older heq => by simp at heq
  have hfew : (System.start.check 0 "client" "read" 1).limiter.globalLimiters.entries.length ≤
    1000 := by decide
  refine ⟨⟨fun _ => by decide, hnone 0, hnone 0⟩, hfew, ⟨fun _ => by decide, ?_, ?_⟩, trivial⟩
  · exact regained_single (k := 1) (t := 10) (by decide)
  · exact regained_single (k := 1) (t := 10) (by decide)

theorem limiter_keeps_windows_evenRun :
    Trace.Every (fun sys call sys' => sys.Allows narrow call ∧ sys'.Bounded narrow) System.start
        evenRun ∧
      Forgets narrow System.start evenRun :=
  limiter_keeps_windows trace_evenRun steady_evenRun

def emptyWindowRun : List (Call × System) :=
  let first := System.start.check 0 "client" "read" 2
  [(.check 0 "client" "read" 2, first),
    (.check 11 "client" "read" 2, first.check 11 "client" "read" 2)]

theorem empty_window_refuses :
    Trace (System.Step narrow) System.start emptyWindowRun ∧
      ¬ Trace.Every (fun sys call _ => sys.Allows narrow call) System.start emptyWindowRun := by
  refine ⟨.cons ⟨Nat.le_refl _, Nat.two_pos, rfl⟩
    (.cons ⟨Nat.zero_le _, Nat.two_pos, rfl⟩ (.nil _)), fun hall => ?_⟩
  have hallowed := hall.2.1 (by decide) (by decide)
  exact absurd hallowed (by decide)

end SwissArmyHammer.RateLimit
