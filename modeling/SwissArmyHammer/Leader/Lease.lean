import SwissArmyHammer.Concurrency.Interleaving

/-! The lease in the lock file: its claim and its heartbeat, cut into their accesses of the file
system. -/

namespace SwissArmyHammer.Leader

open Concurrency

structure Lease where
  pid : Nat
  nonce : Nat
  heartbeatMs : Nat
  deriving DecidableEq

def Lease.isStale (lease : Lease) (now ttl : Nat) : Bool := ttl < now - lease.heartbeatMs

inductive ClaimOutcome
  | won (nonce : Nat)
  | lost
  deriving DecidableEq

def claimTtl : Nat := 2000

inductive Return
  | claim (outcome : ClaimOutcome)
  | heartbeat (nonce : Nat) (ours : Bool)
  deriving DecidableEq

/-- The lease, the time at which the claim marker was made, the next nonce that is drawn, and what
the calls have returned, in this order. -/
structure LeaseState where
  lease : Option Lease
  marker : Option Nat
  nextNonce : Nat
  returned : List Return
  deriving DecidableEq

/-- A call of `try_claim_lease`: what it reads of the clock at each place, and whether its write
goes through. -/
structure Claim where
  pid : Nat
  now : Nat
  created : Nat
  looked : Nat
  recreated : Nat
  rechecked : Nat
  installed : Nat
  writable : Bool
  deriving DecidableEq

structure Beat where
  pid : Nat
  nonce : Nat
  now : Nat
  writable : Bool
  deriving DecidableEq

inductive LeasePc
  | readLease (c : Claim)
  | createMarker (c : Claim)
  | markerMetadata (c : Claim)
  | removeMarker (c : Claim)
  | recreateMarker (c : Claim)
  | rereadLease (c : Claim)
  | writeLease (c : Claim)
  | dropMarker (c : Claim) (outcome : ClaimOutcome)
  | readBeat (b : Beat)
  | writeBeat (b : Beat)
  deriving DecidableEq

namespace LeaseState

def answer (s : LeaseState) (r : Return) : LeaseState := { s with returned := s.returned ++ [r] }

def fresh (s : LeaseState) (now ttl : Nat) : Bool :=
  s.lease.any fun lease => !lease.isStale now ttl

def advance (ttl : Nat) (s : LeaseState) : LeasePc → LeaseState × Option LeasePc
  | .readLease c =>
    if s.fresh c.now ttl then (s.answer (.claim .lost), none) else (s, some (.createMarker c))
  | .createMarker c =>
    match s.marker with
    | none => ({ s with marker := some c.created }, some (.rereadLease c))
    | some _ => (s, some (.markerMetadata c))
  | .markerMetadata c =>
    -- A marker that is gone by now counts as abandoned.
    if s.marker.all fun modified => claimTtl < c.looked - modified then
      (s, some (.removeMarker c))
    else (s.answer (.claim .lost), none)
  | .removeMarker c => ({ s with marker := none }, some (.recreateMarker c))
  | .recreateMarker c =>
    match s.marker with
    | none => ({ s with marker := some c.recreated }, some (.rereadLease c))
    | some _ => (s.answer (.claim .lost), none)
  | .rereadLease c =>
    if s.fresh c.rechecked ttl then (s, some (.dropMarker c .lost)) else (s, some (.writeLease c))
  | .writeLease c =>
    if c.writable then
      ({ s with lease := some ⟨c.pid, s.nextNonce, c.installed⟩, nextNonce := s.nextNonce + 1 },
        some (.dropMarker c (.won s.nextNonce)))
    else (s, some (.dropMarker c .lost))
  | .dropMarker _ outcome => ({ s with marker := none }.answer (.claim outcome), none)
  | .readBeat b =>
    if s.lease.map Lease.nonce = some b.nonce then (s, some (.writeBeat b))
    else (s.answer (.heartbeat b.nonce false), none)
  | .writeBeat b =>
    if b.writable then
      ({ s with lease := some ⟨b.pid, b.nonce, b.now⟩ }.answer (.heartbeat b.nonce true), none)
    else (s.answer (.heartbeat b.nonce false), none)

end LeaseState

def LeasePc.begins : LeasePc → Bool
  | .readLease _ | .readBeat _ => true
  | _ => false

def leaseProtocol (ttl : Nat) (mayBegin : LeasePc → Bool) : Protocol LeaseState LeasePc where
  starts _ pc := pc.begins && mayBegin pc
  advance := LeaseState.advance ttl

end SwissArmyHammer.Leader

/-! The heartbeats of a leader beside the claims that preempt it. -/

namespace SwissArmyHammer.Leader

open Concurrency

variable {n ttl : Nat} {s s' : LeaseState} {pc : LeasePc} {calls others : List LeasePc}

def BeatsOwn (s : LeaseState) (pc : LeasePc) (_others : List LeasePc) : Prop :=
  ∀ b, pc = .writeBeat b → b.writable = true → s.lease.map Lease.nonce = some b.nonce

def Won (s : LeaseState) (calls : List LeasePc) : Prop :=
  (∃ b, .claim (.won b) ∈ s.returned) ∨ ∃ c b, .dropMarker c (.won b) ∈ calls

def LossSignalled (n : Nat) (returned : List Return) : Prop :=
  returned.Pairwise fun x y => ∀ b, x = .claim (.won b) → ∀ a, y = .heartbeat a true → n ≤ a

structure Preempted (n : Nat) (s : LeaseState) (calls : List LeasePc) : Prop where
  drawn : n ≤ s.nextNonce
  lease : Won s calls → ∃ lease, s.lease = some lease ∧ n ≤ lease.nonce
  signalled : LossSignalled n s.returned

theorem signalled_append {returned : List Return} {r : Return} (h : LossSignalled n returned)
    (hr : ∀ b, .claim (.won b) ∈ returned → ∀ a, r = .heartbeat a true → n ≤ a) :
    LossSignalled n (returned ++ [r]) := by
  refine List.pairwise_append.mpr ⟨h, List.pairwise_singleton _ _, ?_⟩
  rintro x hx y hy b rfl a rfl
  exact hr b hx a (List.mem_singleton.mp hy).symm

theorem Preempted.next (h : Preempted n s (pc :: others)) (marker : Option Nat)
    (next : Option LeasePc) (hnext : ∀ c b, next ≠ some (.dropMarker c (.won b))) :
    Preempted n { s with marker := marker } (next.toList ++ others) := by
  refine ⟨h.drawn, fun hwon => h.lease ?_, h.signalled⟩
  rcases hwon with hwon | ⟨c, b, hmem⟩
  · exact .inl hwon
  · rcases List.mem_append.mp hmem with hmem | hmem
    · exact absurd (Option.mem_toList.mp hmem) (hnext c b)
    · exact .inr ⟨c, b, List.mem_cons_of_mem _ hmem⟩

theorem Preempted.answer {r : Return} (h : Preempted n s (pc :: others))
    (hclaim : ∀ b, r ≠ .claim (.won b)) (hbeat : ∀ a, r ≠ .heartbeat a true) :
    Preempted n (s.answer r) others := by
  refine ⟨h.drawn, fun hwon => h.lease ?_,
    signalled_append h.signalled fun b _ a hr => absurd hr (hbeat a)⟩
  rcases hwon with ⟨b, hmem⟩ | ⟨c, b, hmem⟩
  · rcases List.mem_append.mp hmem with hmem | hmem
    · exact .inl ⟨b, hmem⟩
    · exact absurd (List.mem_singleton.mp hmem).symm (hclaim b)
  · exact .inr ⟨c, b, List.mem_cons_of_mem _ hmem⟩

theorem preempted_step (hok : BeatsOwn s pc others) (h : Preempted n s (pc :: others)) :
    Preempted n (s.advance ttl pc).1 ((s.advance ttl pc).2.toList ++ others) := by
  cases pc with
  | readLease c =>
    simp only [LeaseState.advance]
    split_ifs
    · exact h.answer (by simp) (by simp)
    · exact h.next s.marker (some _) (by simp)
  | createMarker c =>
    simp only [LeaseState.advance]
    cases hmarker : s.marker with
    | none => exact h.next (some c.created) (some _) (by simp)
    | some modified => exact h.next s.marker (some _) (by simp)
  | markerMetadata c =>
    simp only [LeaseState.advance]
    split_ifs
    · exact h.next s.marker (some _) (by simp)
    · exact h.answer (by simp) (by simp)
  | removeMarker c => exact h.next none (some _) (by simp)
  | recreateMarker c =>
    simp only [LeaseState.advance]
    cases hmarker : s.marker with
    | none => exact h.next (some c.recreated) (some _) (by simp)
    | some modified => exact h.answer (by simp) (by simp)
  | rereadLease c =>
    simp only [LeaseState.advance]
    split_ifs
    · exact h.next s.marker (some _) (by simp)
    · exact h.next s.marker (some _) (by simp)
  | writeLease c =>
    simp only [LeaseState.advance]
    split_ifs
    · exact ⟨Nat.le_succ_of_le h.drawn, fun _ => ⟨_, rfl, h.drawn⟩, h.signalled⟩
    · exact h.next s.marker (some _) (by simp)
  | dropMarker c outcome =>
    refine ⟨h.drawn, fun hwon => h.lease ?_,
      signalled_append h.signalled fun b _ a hr => by simp at hr⟩
    rcases hwon with ⟨b, hmem⟩ | ⟨c', b, hmem⟩
    · rcases List.mem_append.mp hmem with hmem | hmem
      · exact .inl ⟨b, hmem⟩
      · have houtcome : outcome = .won b := (Return.claim.inj (List.mem_singleton.mp hmem)).symm
        rw [houtcome]
        exact .inr ⟨c, b, List.mem_cons_self⟩
    · exact .inr ⟨c', b, List.mem_cons_of_mem _ hmem⟩
  | readBeat b =>
    simp only [LeaseState.advance]
    split_ifs
    · exact h.next s.marker (some _) (by simp)
    · exact h.answer (by simp) (by simp)
  | writeBeat b =>
    simp only [LeaseState.advance]
    split_ifs with hwritable
    · have hown : s.lease.map Lease.nonce = some b.nonce := hok b rfl hwritable
      have hnonce : Won s (.writeBeat b :: others) → n ≤ b.nonce := by
        intro hwon
        obtain ⟨lease, hlease, hle⟩ := h.lease hwon
        rw [hlease] at hown
        rwa [← Option.some.inj hown]
      refine ⟨h.drawn, fun hwon => ⟨_, rfl, hnonce ?_⟩, signalled_append h.signalled ?_⟩
      · rcases hwon with ⟨b', hmem⟩ | ⟨c, b', hmem⟩
        · rcases List.mem_append.mp hmem with hmem | hmem
          · exact .inl ⟨b', hmem⟩
          · simp at hmem
        · exact .inr ⟨c, b', List.mem_cons_of_mem _ hmem⟩
      · intro b' hmem a hr
        rw [← (Return.heartbeat.inj hr).1]
        exact hnonce (.inl ⟨b', hmem⟩)
    · exact h.answer (by simp) (by simp)

theorem preempted_run (h : Run (leaseProtocol ttl fun _ => true) BeatsOwn (s, []) (s', calls))
    (hstart : s.returned = []) : Preempted s.nextNonce s' calls := by
  refine h.invariant_of_perm (I := Preempted s.nextNonce) ?_ ?_ ?_ ?_
  · intro t calls calls' hperm ht
    refine ⟨ht.drawn, fun hwon => ht.lease (hwon.imp_right ?_), ht.signalled⟩
    rintro ⟨c, b, hmem⟩
    exact ⟨c, b, hperm.mem_iff.mpr hmem⟩
  · intro t pc calls hstarts ht
    refine ⟨ht.drawn, fun hwon => ht.lease (hwon.imp_right ?_), ht.signalled⟩
    rintro ⟨c, b, hmem⟩
    rcases List.mem_cons.mp hmem with rfl | hmem
    · simp [leaseProtocol, LeasePc.begins] at hstarts
    · exact ⟨c, b, hmem⟩
  · intro t pc others hok ht
    exact preempted_step hok ht
  · refine ⟨Nat.le_refl _, ?_, ?_⟩
    · rintro (⟨b, hmem⟩ | ⟨c, b, hmem⟩)
      · simp [hstart] at hmem
      · simp at hmem
    · rw [hstart]
      exact .nil

/-- Where heartbeats write only over their own lease, no heartbeat under a nonce drawn before is
answered with yes once a claim is won, and the lease does not carry the nonce again. -/
theorem term_never_regained {a b : Nat}
    (h : Run (leaseProtocol ttl fun _ => true) BeatsOwn (s, []) (s', calls))
    (hstart : s.returned = []) (ha : a < s.nextNonce) :
    (∀ pre post, s'.returned = pre ++ .claim (.won b) :: post → .heartbeat a true ∉ post) ∧
      (.claim (.won b) ∈ s'.returned → s'.lease.map Lease.nonce ≠ some a) := by
  have hpreempted := preempted_run h hstart
  constructor
  · intro pre post hreturned hmem
    have hsignalled := hpreempted.signalled
    rw [hreturned] at hsignalled
    have htail := (List.pairwise_append.mp hsignalled).2.1
    have hle := (List.pairwise_cons.mp htail).1 _ hmem b rfl a rfl
    omega
  · intro hmem hnonce
    obtain ⟨lease, hlease, hle⟩ := hpreempted.lease (.inl ⟨b, hmem⟩)
    rw [hlease] at hnonce
    have heq : lease.nonce = a := Option.some.inj hnonce
    omega

def staleLease : LeaseState := ⟨some ⟨1, 0, 0⟩, none, 1, []⟩

def lateClaim : Claim := ⟨2, 20000, 0, 0, 0, 20000, 20000, true⟩

def lateBeat : Beat := ⟨1, 0, 20000, true⟩

theorem term_never_regained_claim :
    (some ⟨2, 1, 20000⟩ : Option Lease).map Lease.nonce ≠ some 0 := by
  have hrun : Run (leaseProtocol 15000 fun _ => true) BeatsOwn (staleLease, [])
      (⟨some ⟨2, 1, 20000⟩, none, 2, [.claim (.won 1), .heartbeat 0 false]⟩, []) := by
    have hclaim : Step (leaseProtocol 15000 fun _ => true) BeatsOwn (staleLease, [])
        (staleLease, [.readLease lateClaim]) := .start [] rfl
    refine .head hclaim ?_
    refine .head (.advance [] [] fun b h => by simp at h) ?_
    refine .head (.advance [] [] fun b h => by simp at h) ?_
    refine .head (.advance [] [] fun b h => by simp at h) ?_
    refine .head (.advance [] [] fun b h => by simp at h) ?_
    refine .head (.advance [] [] fun b h => by simp at h) ?_
    refine .head (.start (r := .readBeat lateBeat) [] rfl) ?_
    exact .single (.advance [] [] fun b h => by simp at h)
  exact (term_never_regained hrun rfl (by decide : 0 < 1)).2 List.mem_cons_self

theorem late_heartbeat_regains :
    ∃ stop, Run (leaseProtocol 15000 fun _ => true) (fun _ _ _ => True)
        (staleLease, []) (stop, []) ∧
      stop.returned = [.claim (.won 1), .heartbeat 0 true] ∧
        stop.lease.map Lease.nonce = some 0 := by
  refine ⟨⟨some ⟨1, 0, 20000⟩, none, 2, [.claim (.won 1), .heartbeat 0 true]⟩, ?_, rfl, rfl⟩
  refine run_of_play [.start (.readBeat lateBeat), .advance 0, .start (.readLease lateClaim),
    .advance 0, .advance 0, .advance 0, .advance 0, .advance 0, .advance 0] ?_
  rfl

end SwissArmyHammer.Leader
