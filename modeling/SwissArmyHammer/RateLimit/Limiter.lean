import Mathlib.Algebra.BigOperators.Group.List.Basic
import Mathlib.Algebra.Order.Ring.Nat
import SwissArmyHammer.Common.IndexMap

/-! Token buckets. A bucket holds at most `burst` cells and gains one each `period`; it is kept as
the time at which it will be full again. -/

namespace SwissArmyHammer.RateLimit

structure Quota where
  period : Nat
  burst : Nat
  period_pos : 0 < period
  burst_pos : 0 < burst

def Quota.take (q : Quota) (t k fullAt : Nat) : Option Nat :=
  if max fullAt t + k * q.period ≤ t + q.burst * q.period then some (max fullAt t + k * q.period)
  else none

abbrev Charges := List (Nat × Nat)

namespace Charges

variable {q : Quota} {charges older : Charges} {t k s : Nat}

def cost (charges : Charges) : Nat := (charges.map Prod.snd).sum

def Ordered (charges : Charges) : Prop := charges.Pairwise fun later earlier => earlier.1 ≤ later.1

def fullAt (period : Nat) : Charges → Nat
  | [] => 0
  | (t, k) :: older => max (fullAt period older) t + k * period

def Granted (q : Quota) : Charges → Prop
  | [] => True
  | (t, k) :: older => (q.take t k (fullAt q.period older)).isSome ∧ Granted q older

def recent (period t : Nat) (charges : Charges) : Charges :=
  charges.filter fun c => t < c.1 + period

def old (period t : Nat) (charges : Charges) : Charges :=
  charges.filter fun c => !decide (t < c.1 + period)

def window (period s : Nat) (charges : Charges) : Charges :=
  charges.filter fun c => s ≤ c.1 ∧ c.1 ≤ s + period

def Regained (period t : Nat) (charges : Charges) : Prop :=
  ∀ later c older, charges = later ++ c :: older → c.1 + period ≤ t →
    c.1 + cost (old period t (later ++ [c])) * period ≤ t

@[simp] theorem cost_nil : cost [] = 0 := rfl

@[simp] theorem cost_cons (c : Nat × Nat) (charges : Charges) :
    cost (c :: charges) = c.2 + cost charges := by
  simp [cost]

@[simp] theorem cost_append (xs ys : Charges) : cost (xs ++ ys) = cost xs + cost ys := by
  simp [cost]

theorem cost_recent_add_old (period t : Nat) (charges : Charges) :
    cost (recent period t charges) + cost (old period t charges) = cost charges := by
  induction charges with
  | nil => rfl
  | cons c charges ih =>
    unfold recent old at ih ⊢
    by_cases hc : t < c.1 + period
    · simp only [List.filter_cons, hc, decide_true, Bool.not_true, if_true, Bool.false_eq_true,
        if_false, cost_cons]
      omega
    · simp only [List.filter_cons, hc, decide_false, Bool.not_false, if_true, Bool.false_eq_true,
        if_false, cost_cons]
      omega

theorem cost_filter_le (p : Nat × Nat → Bool) (charges : Charges) :
    cost (charges.filter p) ≤ cost charges := by
  induction charges with
  | nil => exact Nat.le_refl _
  | cons c charges ih =>
    rw [List.filter_cons]
    split
    · simp only [cost_cons]
      omega
    · simp only [cost_cons]
      omega

theorem le_fullAt_cons (period : Nat) (c : Nat × Nat) (older : Charges) :
    c.1 + c.2 * period ≤ fullAt period (c :: older) := by
  simp only [fullAt]
  omega

theorem fullAt_le {period T : Nat} (h : ∀ later c older, charges = later ++ c :: older →
    c.1 + cost (later ++ [c]) * period ≤ T) : fullAt period charges ≤ T := by
  induction charges generalizing T with
  | nil => exact Nat.zero_le _
  | cons c older ih =>
    have hself := h [] c older rfl
    have holder : fullAt period older ≤ T - c.2 * period := by
      refine ih fun later c' older' heq => ?_
      have hlater := h (c :: later) c' older' (by rw [heq]; rfl)
      rw [List.cons_append, cost_cons, Nat.add_mul] at hlater
      omega
    simp only [List.nil_append, cost_cons, cost_nil, Nat.add_zero] at hself
    simp only [fullAt]
    omega

theorem Ordered.recent_of_recent {later : Charges} {c : Nat × Nat} {period : Nat}
    (h : Ordered (later ++ c :: older)) (hc : t < c.1 + period) :
    old period t (later ++ [c]) = [] := by
  have hall : ∀ c' ∈ later ++ [c], t < c'.1 + period := by
    intro c' hc'
    rcases List.mem_append.mp hc' with hmem | hmem
    · have hle := (List.pairwise_append.mp h).2.2 c' hmem c List.mem_cons_self
      omega
    · rwa [List.mem_singleton.mp hmem]
  rw [old, List.filter_eq_nil_iff]
  intro c' hc'
  simp [hall c' hc']

theorem take_of_regained (hordered : Ordered charges) (hpast : ∀ c ∈ charges, c.1 ≤ t)
    (hregained : Regained q.period t charges)
    (hfits : cost (recent q.period t charges) + k ≤ q.burst) :
    (q.take t k (fullAt q.period charges)).isSome := by
  have hfull : fullAt q.period charges ≤ t + cost (recent q.period t charges) * q.period := by
    refine fullAt_le fun later c older heq => ?_
    have hsplit := cost_recent_add_old q.period t (later ++ [c])
    have hrecent : cost (recent q.period t (later ++ [c])) ≤
        cost (recent q.period t charges) := by
      have happend : recent q.period t charges =
          recent q.period t (later ++ [c]) ++ recent q.period t older := by
        rw [heq, recent, recent, recent, ← List.filter_append]
        simp
      rw [happend, cost_append]
      omega
    have hscaled := Nat.mul_le_mul_right q.period hrecent
    by_cases hc : t < c.1 + q.period
    · have hc' := hpast c (by simp [heq])
      rw [heq] at hordered
      rw [hordered.recent_of_recent hc, cost_nil] at hsplit
      rw [← hsplit, Nat.add_zero]
      omega
    · have hold := hregained later c older heq (by omega)
      rw [← hsplit, Nat.add_mul]
      omega
  have hscaled := Nat.mul_le_mul_right q.period hfits
  rw [Nat.add_mul] at hscaled
  rw [Quota.take, if_pos]
  · rfl
  · omega

theorem cost_since_le (hordered : Ordered charges) {c : Nat × Nat} (hc : c ∈ charges)
    (hs : s ≤ c.1) (period : Nat) :
    s + cost (charges.filter fun c => s ≤ c.1) * period ≤ fullAt period charges := by
  induction charges generalizing c with
  | nil => exact absurd hc List.not_mem_nil
  | cons first older ih =>
    obtain ⟨hfirst, holder⟩ := List.pairwise_cons.mp hordered
    have hsfirst : s ≤ first.1 := by
      rcases List.mem_cons.mp hc with rfl | hc
      · exact hs
      · exact Nat.le_trans hs (hfirst c hc)
    rw [List.filter_cons_of_pos (by simpa using hsfirst), cost_cons, Nat.add_mul]
    have hself := le_fullAt_cons period first older
    by_cases hany : ∃ c ∈ older, s ≤ c.1
    · obtain ⟨c', hc', hs'⟩ := hany
      have hrest := ih holder hc' hs'
      simp only [fullAt]
      omega
    · have hnone : older.filter (fun c => s ≤ c.1) = [] := by
        rw [List.filter_eq_nil_iff]
        intro c' hc' hs'
        exact hany ⟨c', hc', by simpa using hs'⟩
      rw [hnone, cost_nil]
      omega

theorem fullAt_le_of_granted (hgranted : Granted q charges) (hpast : ∀ c ∈ charges, c.1 ≤ t) :
    fullAt q.period charges ≤ t + q.burst * q.period := by
  cases charges with
  | nil => exact Nat.zero_le _
  | cons c older =>
    obtain ⟨hc, -⟩ := hgranted
    have hct := hpast c List.mem_cons_self
    rw [Quota.take] at hc
    split at hc
    · simp only [fullAt]
      omega
    · cases hc

theorem cost_period_le (hordered : Ordered charges) (hgranted : Granted q charges) (s : Nat) :
    cost (window q.period s charges) ≤ q.burst + 1 := by
  unfold window
  induction charges with
  | nil => exact Nat.zero_le _
  | cons first older ih =>
    obtain ⟨hfirst, holder⟩ := List.pairwise_cons.mp hordered
    by_cases hlast : first.1 ≤ s + q.period
    · have hall : (first :: older).filter (fun c => s ≤ c.1 ∧ c.1 ≤ s + q.period) =
          (first :: older).filter fun c => s ≤ c.1 := by
        refine List.filter_congr fun c hc => ?_
        have hle : c.1 ≤ s + q.period := by
          rcases List.mem_cons.mp hc with rfl | hc
          · exact hlast
          · exact Nat.le_trans (hfirst c hc) hlast
        simp [hle]
      rw [hall]
      by_cases hany : ∃ c ∈ first :: older, s ≤ c.1
      · obtain ⟨c, hc, hs⟩ := hany
        have hsince := cost_since_le hordered hc hs q.period
        have hfull := fullAt_le_of_granted (t := s + q.period) hgranted fun c hc => by grind
        refine Nat.le_of_mul_le_mul_right (c := q.period) ?_ q.period_pos
        rw [Nat.add_mul]
        omega
      · have hnone : (first :: older).filter (fun c => s ≤ c.1) = [] := by
          rw [List.filter_eq_nil_iff]
          intro c hc hs
          exact hany ⟨c, hc, by simpa using hs⟩
        rw [hnone]
        exact Nat.zero_le _
    · rw [List.filter_cons_of_neg (by simp; omega)]
      exact ih holder hgranted.2

end Charges

end SwissArmyHammer.RateLimit

/-! The rate limiter: a bucket for each operation, then one for each client. -/

namespace SwissArmyHammer.RateLimit

/-- Durations are in nanoseconds. A limit or a window of zero is refused when a quota is made. -/
structure RateLimiterConfig where
  globalLimit : Nat
  perClientLimit : Nat
  expensiveOperationLimit : Nat
  windowDuration : Nat
  globalLimit_pos : 0 < globalLimit
  perClientLimit_pos : 0 < perClientLimit
  expensiveOperationLimit_pos : 0 < expensiveOperationLimit
  windowDuration_pos : 0 < windowDuration

structure RateLimiter where
  globalLimiters : IndexMap String Nat
  clientLimiter : IndexMap String Nat

namespace RateLimiter

variable (cfg : RateLimiterConfig) (limiter : RateLimiter)

def new : RateLimiter := ⟨.empty, .empty⟩

def operationLimit (operation : String) : Nat :=
  if operation ∈ ["search", "workflow_run", "complex_query", "file_glob", "file_grep"] then
    cfg.expensiveOperationLimit
  else cfg.globalLimit

theorem operationLimit_pos (operation : String) : 0 < operationLimit cfg operation := by
  rw [operationLimit]
  split
  · exact cfg.expensiveOperationLimit_pos
  · exact cfg.globalLimit_pos

def clientQuota : Quota :=
  ⟨cfg.windowDuration, cfg.perClientLimit, cfg.windowDuration_pos, cfg.perClientLimit_pos⟩

def operationQuota (operation : String) : Quota :=
  ⟨cfg.windowDuration, operationLimit cfg operation, cfg.windowDuration_pos,
    operationLimit_pos cfg operation⟩

def globalFull (operation : String) : Nat := (limiter.globalLimiters.get? operation).getD 0

def clientFull (clientId : String) : Nat := (limiter.clientLimiter.get? clientId).getD 0

def setGlobal (operation : String) (full : Nat) : RateLimiter :=
  { limiter with globalLimiters := limiter.globalLimiters.insert operation full }

def setClient (clientId : String) (full : Nat) : RateLimiter :=
  { limiter with clientLimiter := limiter.clientLimiter.insert clientId full }

def retryAfterMs : Nat := cfg.windowDuration / 1000000 / 10

def checkRateLimit (t : Nat) (clientId operation : String) (cost : Nat) :
    RateLimiter × Except String Unit :=
  let full := limiter.globalFull operation
  let limiter := limiter.setGlobal operation full
  if cost = 0 then (limiter, .error "Invalid cost value: must be greater than 0")
  else
    match (operationQuota cfg operation).take t cost full with
    | none =>
      (limiter, .error ("Global rate limit exceeded for operation '" ++ operation ++
        "'. Retry after " ++ toString (retryAfterMs cfg) ++ "ms"))
    | some full =>
      let limiter := limiter.setGlobal operation full
      match (clientQuota cfg).take t cost (limiter.clientFull clientId) with
      | none =>
        (limiter, .error ("Client rate limit exceeded for '" ++ clientId ++ "'. Retry after " ++
          toString (retryAfterMs cfg) ++ "ms"))
      | some full => (limiter.setClient clientId full, .ok ())

def cleanupOldEntries : RateLimiter :=
  if limiter.globalLimiters.entries.length > 1000 then { limiter with globalLimiters := .empty }
  else limiter

section

variable {limiter}

@[simp] theorem globalFull_setGlobal_self (operation : String) (full : Nat) :
    (limiter.setGlobal operation full).globalFull operation = full := by
  simp [globalFull, setGlobal]

theorem globalFull_setGlobal_of_ne {operation other : String} (h : other ≠ operation) (full : Nat) :
    (limiter.setGlobal operation full).globalFull other = limiter.globalFull other := by
  rw [globalFull, setGlobal, IndexMap.get?_insert_of_ne h, globalFull]

@[simp] theorem clientFull_setGlobal (operation clientId : String) (full : Nat) :
    (limiter.setGlobal operation full).clientFull clientId = limiter.clientFull clientId := rfl

@[simp] theorem globalFull_setClient (operation clientId : String) (full : Nat) :
    (limiter.setClient clientId full).globalFull operation = limiter.globalFull operation := rfl

@[simp] theorem clientFull_setClient_self (clientId : String) (full : Nat) :
    (limiter.setClient clientId full).clientFull clientId = full := by
  simp [clientFull, setClient]

theorem clientFull_setClient_of_ne {clientId other : String} (h : other ≠ clientId) (full : Nat) :
    (limiter.setClient clientId full).clientFull other = limiter.clientFull other := by
  rw [clientFull, setClient, IndexMap.get?_insert_of_ne h, clientFull]

end

section

variable (t : Nat) {cost : Nat} (clientId operation : String)

theorem checkRateLimit_cases (hcost : 0 < cost) :
    let after := limiter.checkRateLimit cfg t clientId operation cost
    ((operationQuota cfg operation).take t cost (limiter.globalFull operation) = none ∧
        (∃ e, after.2 = .error e) ∧
        after.1 = limiter.setGlobal operation (limiter.globalFull operation)) ∨
      ∃ full, (operationQuota cfg operation).take t cost (limiter.globalFull operation) = some full ∧
        (((clientQuota cfg).take t cost (limiter.clientFull clientId) = none ∧
            ∃ e, after.2 = .error e) ∨
          ∃ clientFull, (clientQuota cfg).take t cost (limiter.clientFull clientId) =
              some clientFull ∧ after.2 = .ok () ∧
            after.1 = ((limiter.setGlobal operation (limiter.globalFull operation)).setGlobal
              operation full).setClient clientId clientFull) := by
  intro after
  have hafter : after = limiter.checkRateLimit cfg t clientId operation cost := rfl
  rw [checkRateLimit, if_neg (Nat.ne_of_gt hcost)] at hafter
  cases hglobal : (operationQuota cfg operation).take t cost (limiter.globalFull operation) with
  | none =>
    rw [hglobal] at hafter
    exact .inl ⟨rfl, ⟨_, congrArg Prod.snd hafter⟩, congrArg Prod.fst hafter⟩
  | some full =>
    simp only [hglobal, clientFull_setGlobal] at hafter
    refine .inr ⟨full, rfl, ?_⟩
    cases hclient : (clientQuota cfg).take t cost (limiter.clientFull clientId) with
    | none =>
      rw [hclient] at hafter
      exact .inl ⟨rfl, _, congrArg Prod.snd hafter⟩
    | some clientFull =>
      rw [hclient] at hafter
      exact .inr ⟨clientFull, rfl, congrArg Prod.snd hafter, congrArg Prod.fst hafter⟩

end

end RateLimiter

end SwissArmyHammer.RateLimit
