import SwissArmyHammer.Leader.Lease

/-! A race of claims for a stale lease, shorter than the time a lease lives. -/

namespace SwissArmyHammer.Leader

open Concurrency

variable {t0 ttl : Nat} {s s' : LeaseState} {pc : LeasePc} {calls others : List LeasePc}

def Claim.inRace (t0 ttl : Nat) (c : Claim) : Bool :=
  [c.now, c.rechecked, c.installed].all fun time => t0 ≤ time && time ≤ t0 + ttl

def LeasePc.inRace (t0 ttl : Nat) : LeasePc → Bool
  | .readLease c | .createMarker c | .markerMetadata c | .removeMarker c | .recreateMarker c
  | .rereadLease c | .writeLease c | .dropMarker c _ => c.inRace t0 ttl
  | .readBeat _ | .writeBeat _ => false

def LeasePc.holdsMarker : LeasePc → Bool
  | .rereadLease _ | .writeLease _ | .dropMarker .. => true
  | _ => false

def LeasePc.writes : LeasePc → Bool
  | .writeLease _ => true
  | _ => false

def LeasePc.wins : LeasePc → Bool
  | .dropMarker _ (.won _) => true
  | _ => false

def Return.isWon : Return → Bool
  | .claim (.won _) => true
  | _ => false

def LeaseState.taken (t0 : Nat) (s : LeaseState) : Bool :=
  s.lease.any fun lease => t0 ≤ lease.heartbeatMs

/-- A marker that was judged abandoned is removed only while no call holds the one it has made, or
once a lease has been written. -/
def RemovesAbandoned (t0 : Nat) (s : LeaseState) (pc : LeasePc) (others : List LeasePc) : Prop :=
  ∀ c, pc = .removeMarker c →
    s.taken t0 = true ∨ ∀ other ∈ others, other.holdsMarker = false

structure Tally (t0 : Nat) (s : LeaseState) (writes wins holds : Nat) : Prop where
  untaken : s.taken t0 = false → s.returned.countP Return.isWon = 0 ∧ wins = 0 ∧ holds ≤ 1 ∧
    (s.marker = none → holds = 0)
  taken : s.taken t0 = true → writes = 0 ∧ s.returned.countP Return.isWon + wins ≤ 1

structure Race (t0 ttl : Nat) (s : LeaseState) (calls : List LeasePc) : Prop where
  inRace : ∀ pc ∈ calls, pc.inRace t0 ttl = true
  tally : Tally t0 s (calls.countP LeasePc.writes) (calls.countP LeasePc.wins)
    (calls.countP LeasePc.holdsMarker)

theorem race_cons : Race t0 ttl s (pc :: others) ↔
    pc.inRace t0 ttl = true ∧ (∀ other ∈ others, other.inRace t0 ttl = true) ∧
      Tally t0 s (others.countP LeasePc.writes + pc.writes.toNat)
        (others.countP LeasePc.wins + pc.wins.toNat)
        (others.countP LeasePc.holdsMarker + pc.holdsMarker.toNat) := by
  have hcount : ∀ p : LeasePc → Bool, (pc :: others).countP p = others.countP p + (p pc).toNat := by
    intro p
    rw [List.countP_cons]
    cases p pc with
    | false => rfl
    | true => rfl
  rw [← hcount, ← hcount, ← hcount]
  constructor
  · intro h
    obtain ⟨hpc, hothers⟩ := List.forall_mem_cons.mp h.inRace
    exact ⟨hpc, hothers, h.tally⟩
  · rintro ⟨hpc, hothers, htally⟩
    exact ⟨List.forall_mem_cons.mpr ⟨hpc, hothers⟩, htally⟩

theorem fresh_of_taken {now : Nat} (htaken : s.taken t0 = true) (hnow : now ≤ t0 + ttl) :
    s.fresh now ttl = true := by
  cases hlease : s.lease with
  | none => simp [LeaseState.taken, hlease] at htaken
  | some lease =>
    have hbeat : t0 ≤ lease.heartbeatMs := by simpa [LeaseState.taken, hlease] using htaken
    simp only [LeaseState.fresh, hlease, Option.any_some, Lease.isStale, Bool.not_eq_true',
      decide_eq_false_iff_not]
    omega

theorem Claim.inRace_iff {c : Claim} : c.inRace t0 ttl = true ↔
    (t0 ≤ c.now ∧ c.now ≤ t0 + ttl) ∧ (t0 ≤ c.rechecked ∧ c.rechecked ≤ t0 + ttl) ∧
      t0 ≤ c.installed ∧ c.installed ≤ t0 + ttl := by
  simp [Claim.inRace]

theorem won_append_lost (returned : List Return) :
    (returned ++ [Return.claim .lost]).countP Return.isWon = returned.countP Return.isWon := by
  simp [Return.isWon]

theorem won_append_won (returned : List Return) (nonce : Nat) :
    (returned ++ [Return.claim (.won nonce)]).countP Return.isWon =
      returned.countP Return.isWon + 1 := by
  simp [Return.isWon]

theorem race_lost (hothers : ∀ other ∈ others, other.inRace t0 ttl = true)
    (h : Tally t0 s (others.countP LeasePc.writes) (others.countP LeasePc.wins)
      (others.countP LeasePc.holdsMarker)) :
    Race t0 ttl (s.answer (.claim .lost)) others := by
  refine ⟨hothers, fun huntaken => ?_, fun htaken => ?_⟩
  · show (s.returned ++ [Return.claim .lost]).countP Return.isWon = 0 ∧ _
    rw [won_append_lost]
    exact h.untaken huntaken
  · show _ ∧ (s.returned ++ [Return.claim .lost]).countP Return.isWon + _ ≤ 1
    rw [won_append_lost]
    exact h.taken htaken

theorem race_created {c : Claim} (created : Nat) (hc : c.inRace t0 ttl = true)
    (hothers : ∀ other ∈ others, other.inRace t0 ttl = true)
    (h : Tally t0 s (others.countP LeasePc.writes) (others.countP LeasePc.wins)
      (others.countP LeasePc.holdsMarker)) (hmarker : s.marker = none) :
    Race t0 ttl { s with marker := some created } (.rereadLease c :: others) := by
  refine race_cons.mpr ⟨hc, hothers, fun huntaken => ?_, fun htaken => h.taken htaken⟩
  obtain ⟨hwon, hwins, -, hholds⟩ := h.untaken huntaken
  have hnone := hholds hmarker
  refine ⟨hwon, hwins, ?_, fun hmarker => by simp at hmarker⟩
  show _ + 1 ≤ 1
  omega

theorem writes_le_holds (calls : List LeasePc) :
    calls.countP LeasePc.writes ≤ calls.countP LeasePc.holdsMarker := by
  refine List.countP_mono_left fun pc _ hwrites => ?_
  cases pc with
  | writeLease c => rfl
  | _ => simp [LeasePc.writes] at hwrites

theorem race_written {c : Claim} (hc : c.inRace t0 ttl = true)
    (hothers : ∀ other ∈ others, other.inRace t0 ttl = true)
    (h : Tally t0 s (others.countP LeasePc.writes + 1) (others.countP LeasePc.wins)
      (others.countP LeasePc.holdsMarker + 1)) :
    Race t0 ttl
      { s with lease := some ⟨c.pid, s.nextNonce, c.installed⟩, nextNonce := s.nextNonce + 1 }
      (.dropMarker c (.won s.nextNonce) :: others) := by
  have huntaken : s.taken t0 = false := by
    refine Bool.eq_false_iff.mpr fun htaken => ?_
    have hwrites := (h.taken htaken).1
    omega
  obtain ⟨hwon, hwins, hholds, -⟩ := h.untaken huntaken
  have hle := writes_le_holds others
  refine race_cons.mpr ⟨hc, hothers, fun huntaken => ?_, fun _ => ⟨?_, ?_⟩⟩
  · have hinstalled := (Claim.inRace_iff.mp hc).2.2.1
    simp [LeaseState.taken, hinstalled] at huntaken
  · show others.countP LeasePc.writes + 0 = 0
    omega
  · show s.returned.countP Return.isWon + (others.countP LeasePc.wins + 1) ≤ 1
    omega

theorem race_dropped {c : Claim} (outcome : ClaimOutcome)
    (hothers : ∀ other ∈ others, other.inRace t0 ttl = true)
    (h : Tally t0 s (others.countP LeasePc.writes)
      (others.countP LeasePc.wins + (LeasePc.wins (.dropMarker c outcome)).toNat)
      (others.countP LeasePc.holdsMarker + 1)) :
    Race t0 ttl ({ s with marker := none }.answer (.claim outcome)) others := by
  refine ⟨hothers, fun huntaken => ?_, fun htaken => ?_⟩
  · obtain ⟨hwon, hwins, hholds, -⟩ := h.untaken huntaken
    have hnone : others.countP LeasePc.holdsMarker = 0 := by omega
    cases outcome with
    | won nonce => simp [LeasePc.wins] at hwins
    | lost =>
      exact ⟨(won_append_lost s.returned).trans hwon, hwins, by omega, fun _ => hnone⟩
  · obtain ⟨hwrites, hwon⟩ := h.taken htaken
    refine ⟨hwrites, ?_⟩
    cases outcome with
    | won nonce =>
      have hwon' : s.returned.countP Return.isWon + (others.countP LeasePc.wins + 1) ≤ 1 := hwon
      show (s.returned ++ [Return.claim (.won nonce)]).countP Return.isWon +
        others.countP LeasePc.wins ≤ 1
      rw [won_append_won]
      omega
    | lost =>
      show (s.returned ++ [Return.claim .lost]).countP Return.isWon +
        others.countP LeasePc.wins ≤ 1
      rw [won_append_lost]
      exact hwon

theorem race_step (hok : RemovesAbandoned t0 s pc others) (h : Race t0 ttl s (pc :: others)) :
    Race t0 ttl (s.advance ttl pc).1 ((s.advance ttl pc).2.toList ++ others) := by
  obtain ⟨hpc, hothers, htally⟩ := race_cons.mp h
  cases pc with
  | readLease c =>
    simp only [LeaseState.advance]
    split_ifs
    · exact race_lost hothers htally
    · exact race_cons.mpr ⟨hpc, hothers, htally⟩
  | createMarker c =>
    simp only [LeaseState.advance]
    cases hmarker : s.marker with
    | none => exact race_created c.created hpc hothers htally hmarker
    | some modified => exact race_cons.mpr ⟨hpc, hothers, htally⟩
  | markerMetadata c =>
    simp only [LeaseState.advance]
    split_ifs
    · exact race_cons.mpr ⟨hpc, hothers, htally⟩
    · exact race_lost hothers htally
  | removeMarker c =>
    refine race_cons.mpr ⟨hpc, hothers, fun huntaken => ?_, htally.taken⟩
    obtain ⟨hwon, hwins, hholds, -⟩ := htally.untaken huntaken
    refine ⟨hwon, hwins, hholds, fun _ => ?_⟩
    rcases hok c rfl with htaken | hnone
    · have huntaken' : s.taken t0 = false := huntaken
      rw [huntaken'] at htaken
      simp at htaken
    · exact List.countP_eq_zero.mpr fun other hmem => by simp [hnone other hmem]
  | recreateMarker c =>
    simp only [LeaseState.advance]
    cases hmarker : s.marker with
    | none => exact race_created c.recreated hpc hothers htally hmarker
    | some modified => exact race_lost hothers htally
  | rereadLease c =>
    simp only [LeaseState.advance]
    split_ifs with hfresh
    · exact race_cons.mpr ⟨hpc, hothers, htally⟩
    · refine race_cons.mpr ⟨hpc, hothers, htally.untaken, fun htaken => ?_⟩
      exact absurd (fresh_of_taken htaken (Claim.inRace_iff.mp hpc).2.1.2) hfresh
  | writeLease c =>
    simp only [LeaseState.advance]
    split_ifs with hwritable
    · exact race_written hpc hothers htally
    · refine race_cons.mpr ⟨hpc, hothers, htally.untaken, fun htaken => ?_⟩
      have hwrites : others.countP LeasePc.writes + 1 = 0 := (htally.taken htaken).1
      omega
  | dropMarker c outcome => exact race_dropped outcome hothers htally
  | readBeat b => simp [LeasePc.inRace] at hpc
  | writeBeat b => simp [LeasePc.inRace] at hpc

theorem race_run (h : Run (leaseProtocol ttl (LeasePc.inRace t0 ttl)) (RemovesAbandoned t0)
    (s, []) (s', calls)) (hstart : s.returned = []) : Race t0 ttl s' calls := by
  refine h.invariant_of_perm (I := Race t0 ttl) ?_ ?_ ?_ ?_
  · intro s calls calls' hperm h
    refine ⟨fun pc hmem => h.inRace pc (hperm.mem_iff.mpr hmem), ?_⟩
    rw [← hperm.countP_eq, ← hperm.countP_eq, ← hperm.countP_eq]
    exact h.tally
  · intro s pc calls hstarts h
    obtain ⟨hbegins, hrace⟩ := Bool.and_eq_true_iff.mp hstarts
    cases pc with
    | readLease c => exact race_cons.mpr ⟨hrace, h.inRace, h.tally⟩
    | readBeat b => simp [LeasePc.inRace] at hrace
    | _ => simp [LeasePc.begins] at hbegins
  · intro s pc others hok h
    exact race_step hok h
  · refine ⟨by simp, ?_, ?_⟩
    · simp [hstart]
    · simp [hstart]

/-- At most one claim is won where no call removes the marker that another has made and still
holds, unless a lease has been written by then. -/
theorem at_most_one_won (h : Run (leaseProtocol ttl (LeasePc.inRace t0 ttl))
    (RemovesAbandoned t0) (s, []) (s', calls)) (hstart : s.returned = []) :
    s'.returned.countP Return.isWon ≤ 1 := by
  have hrace := race_run h hstart
  cases htaken : s'.taken t0 with
  | false =>
    have hwon := (hrace.tally.untaken htaken).1
    omega
  | true =>
    have hwon := (hrace.tally.taken htaken).2
    omega

def claimAt (pid now wall : Nat) : Claim := ⟨pid, now, wall, wall, wall, now, now, true⟩

def abandoned : LeaseState := ⟨none, some 0, 1, []⟩

theorem at_most_one_won_alone :
    [Return.claim (.won 1)].countP Return.isWon ≤ 1 := by
  have hrun : Run (leaseProtocol 15000 (LeasePc.inRace 20000 15000)) (RemovesAbandoned 20000)
      (abandoned, []) (⟨some ⟨7, 1, 20000⟩, none, 2, [.claim (.won 1)]⟩, []) := by
    have hstart : Step (leaseProtocol 15000 (LeasePc.inRace 20000 15000)) (RemovesAbandoned 20000)
        (abandoned, []) (abandoned, [.readLease (claimAt 7 20000 5000)]) := .start [] (by decide)
    refine .head hstart ?_
    refine .head (.advance [] [] fun c h => by simp at h) ?_
    refine .head (.advance [] [] fun c h => by simp at h) ?_
    refine .head (.advance [] [] fun c h => by simp at h) ?_
    refine .head (.advance [] [] fun c h => .inr (by simp)) ?_
    refine .head (.advance [] [] fun c h => by simp at h) ?_
    refine .head (.advance [] [] fun c h => by simp at h) ?_
    refine .head (.advance [] [] fun c h => by simp at h) ?_
    exact .single (.advance [] [] fun c h => by simp at h)
  exact at_most_one_won hrun rfl

theorem two_claims_won :
    ∃ stop, Run (leaseProtocol 15000 (LeasePc.inRace 20000 15000)) (fun _ _ _ => True)
        (abandoned, []) (stop, []) ∧
      stop.returned.countP Return.isWon = 2 := by
  refine ⟨⟨some ⟨8, 2, 20000⟩, none, 3, [.claim (.won 1), .claim (.won 2)]⟩, ?_, by decide⟩
  refine run_of_play [.start (.readLease (claimAt 8 20000 5000)),
    .start (.readLease (claimAt 7 20000 5000)),
    .advance 0, .advance 0, .advance 0, .advance 1, .advance 1, .advance 1,
    .advance 0, .advance 0, .advance 1, .advance 1,
    .advance 0, .advance 1, .advance 0, .advance 1, .advance 0, .advance 0] ?_
  rfl

end SwissArmyHammer.Leader
