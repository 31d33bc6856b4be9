import Mathlib.Data.List.Nodup
import SwissArmyHammer.Leader.Lease

/-! Elections on one workspace: the lock file, its flock and its lease, and the guards of the
processes that lead. -/

namespace SwissArmyHammer.Leader

def leaseTtl : Nat := 15000

structure LeaderGuard where
  pid : Nat
  nonce : Nat
  holdsFlock : Bool
  deriving DecidableEq

/-- The flock is held by the guard that says so. A lock file that is removed takes both the lease
and the flock of its remover with it. -/
structure Workspace where
  now : Nat
  lease : Option Lease
  nextNonce : Nat
  guards : List LeaderGuard
  deriving DecidableEq

/-- What a process does, whether its write of the lease goes through and whether the guard is
built. `clock` is what the clock shows from then on. -/
inductive ElectionOp
  | clock (now : Nat)
  | elect (pid : Nat) (writable builds : Bool)
  | tryPromote (pid : Nat) (writable builds : Bool)
  | tryPromoteViaLease (pid : Nat) (writable builds : Bool)
  | heartbeat (guard : LeaderGuard) (writable : Bool)
  | drop (guard : LeaderGuard)
  | crash (pid : Nat)
  deriving DecidableEq

namespace Workspace

def flockHeld (w : Workspace) : Bool := w.guards.any LeaderGuard.holdsFlock

def fresh (w : Workspace) : Bool := w.lease.any fun lease => !lease.isStale w.now leaseTtl

def leaseHeldBy (w : Workspace) (nonce : Nat) : Bool := w.lease.map Lease.nonce = some nonce

def writeLease (w : Workspace) (pid nonce : Nat) : Workspace :=
  { w with lease := some ⟨pid, nonce, w.now⟩ }

def lead (w : Workspace) (pid : Nat) (holdsFlock writable builds : Bool) : Workspace :=
  let written := if writable then w.writeLease pid w.nextNonce else w
  { written with
    nextNonce := w.nextNonce + 1
    guards := if builds then ⟨pid, w.nextNonce, holdsFlock⟩ :: w.guards else w.guards }

def elect (w : Workspace) (pid : Nat) (writable builds : Bool) : Workspace :=
  if w.flockHeld then w else w.lead pid true writable builds

def tryPromote (w : Workspace) (pid : Nat) (writable builds : Bool) : Workspace :=
  if w.flockHeld then w
  else if w.fresh then w
  else w.lead pid true writable builds

def tryPromoteViaLease (w : Workspace) (pid : Nat) (writable builds : Bool) : Workspace :=
  if w.fresh then w
  else if writable then w.lead pid (!w.flockHeld) true builds
  else w

def heartbeat (w : Workspace) (guard : LeaderGuard) (writable : Bool) : Workspace :=
  if guard ∈ w.guards ∧ w.leaseHeldBy guard.nonce ∧ writable then
    w.writeLease guard.pid guard.nonce
  else w

def drop (w : Workspace) (guard : LeaderGuard) : Workspace :=
  if guard ∈ w.guards then
    { w with
      lease := if guard.holdsFlock && w.leaseHeldBy guard.nonce then none else w.lease
      guards := w.guards.erase guard }
  else w

def crash (w : Workspace) (pid : Nat) : Workspace :=
  { w with guards := w.guards.filter fun guard => guard.pid ≠ pid }

def apply (w : Workspace) : ElectionOp → Workspace
  | .clock now => { w with now := now }
  | .elect pid writable builds => w.elect pid writable builds
  | .tryPromote pid writable builds => w.tryPromote pid writable builds
  | .tryPromoteViaLease pid writable builds => w.tryPromoteViaLease pid writable builds
  | .heartbeat guard writable => w.heartbeat guard writable
  | .drop guard => w.drop guard
  | .crash pid => w.crash pid

end Workspace

variable {w w' : Workspace} {op : ElectionOp} {pid : Nat} {guard : LeaderGuard}

/-- The process has written the lease last, holds the guard for it, and the lease is not stale. -/
def Healthy (w : Workspace) (pid : Nat) : Prop :=
  w.fresh = true ∧ ∃ guard ∈ w.guards, guard.pid = pid ∧ w.leaseHeldBy guard.nonce = true

/-- An election that finds the flock free finds no lease of a living guard of another process. -/
def ElectsWithoutLease (w : Workspace) (op : ElectionOp) : Prop :=
  ∀ pid writable builds, op = .elect pid writable builds → w.flockHeld = true ∨
    w.fresh = false ∨ ∀ guard ∈ w.guards, w.leaseHeldBy guard.nonce = true → guard.pid = pid

/-- The process neither crashes nor drops the guard of its lease, it writes no lease that it then
has no guard for, and its lease is not stale when the clock goes on. -/
def KeepsLeading (pid : Nat) (w : Workspace) (op : ElectionOp) : Prop :=
  op ≠ .crash pid ∧ (∀ guard, op = .drop guard → w.leaseHeldBy guard.nonce = false) ∧
    op ≠ .elect pid true false ∧
      ∀ now, op = .clock now → ({ w with now := now } : Workspace).fresh = true

def ElectionRun (ok : Workspace → ElectionOp → Prop) : Workspace → Workspace → Prop :=
  Relation.ReflTransGen fun w w' => ∃ op, ok w op ∧ w.apply op = w'

theorem given_to_healthy (hhealthy : Healthy w pid) (hok : ElectsWithoutLease w op)
    (hmem : guard ∈ (w.apply op).guards) (hnew : guard ∉ w.guards) : guard.pid = pid := by
  obtain ⟨hfresh, holder, hholder, hpid, hheld⟩ := hhealthy
  cases op with
  | clock now => exact absurd hmem hnew
  | elect p writable builds =>
    simp only [Workspace.apply, Workspace.elect] at hmem
    split_ifs at hmem with hflock
    · exact absurd hmem hnew
    · rcases hok p writable builds rfl with hflock' | hstale | hown
      · exact absurd hflock' hflock
      · rw [hfresh] at hstale
        simp at hstale
      · simp only [Workspace.lead] at hmem
        split_ifs at hmem
        · grind
        · exact absurd hmem hnew
  | tryPromote p writable builds =>
    simp only [Workspace.apply, Workspace.tryPromote, hfresh, if_true, ite_self] at hmem
    exact absurd hmem hnew
  | tryPromoteViaLease p writable builds =>
    simp only [Workspace.apply, Workspace.tryPromoteViaLease, hfresh, if_true] at hmem
    exact absurd hmem hnew
  | heartbeat g writable =>
    simp only [Workspace.apply, Workspace.heartbeat] at hmem
    split_ifs at hmem
    · exact absurd hmem hnew
    · exact absurd hmem hnew
  | drop g =>
    rw [Workspace.apply, Workspace.drop] at hmem
    by_cases hg : g ∈ w.guards
    · rw [if_pos hg] at hmem
      exact absurd (List.mem_of_mem_erase hmem) hnew
    · rw [if_neg hg] at hmem
      exact absurd hmem hnew
  | crash p => exact absurd (List.mem_filter.mp hmem).1 hnew

theorem fresh_writeLease (w : Workspace) (pid nonce : Nat) :
    (w.writeLease pid nonce).fresh = true := by
  simp [Workspace.fresh, Workspace.writeLease, Lease.isStale]

theorem healthy_apply (hhealthy : Healthy w pid) (hok : ElectsWithoutLease w op)
    (hkeeps : KeepsLeading pid w op) : Healthy (w.apply op) pid := by
  obtain ⟨hfresh, holder, hholder, hpid, hheld⟩ := hhealthy
  obtain ⟨hcrash, hdrop, hbuilds, hclock⟩ := hkeeps
  cases op with
  | clock now => exact ⟨hclock now rfl, holder, hholder, hpid, hheld⟩
  | elect p writable builds =>
    simp only [Workspace.apply, Workspace.elect]
    split_ifs with hflock
    · exact ⟨hfresh, holder, hholder, hpid, hheld⟩
    · have hp : p = pid := by
        rcases hok p writable builds rfl with hflock' | hstale | hown
        · exact absurd hflock' hflock
        · rw [hfresh] at hstale
          simp at hstale
        · exact (hown holder hholder hheld).symm.trans hpid
      subst hp
      cases writable with
      | false =>
        refine ⟨hfresh, holder, ?_, hpid, hheld⟩
        simp only [Workspace.lead]
        split_ifs
        · exact List.mem_cons_of_mem _ hholder
        · exact hholder
      | true =>
        cases builds with
        | false => exact absurd rfl hbuilds
        | true =>
          refine ⟨fresh_writeLease w p w.nextNonce, _, List.mem_cons_self, rfl, ?_⟩
          simp [Workspace.leaseHeldBy, Workspace.lead, Workspace.writeLease]
  | tryPromote p writable builds =>
    simp only [Workspace.apply, Workspace.tryPromote, hfresh, if_true, ite_self]
    exact ⟨hfresh, holder, hholder, hpid, hheld⟩
  | tryPromoteViaLease p writable builds =>
    simp only [Workspace.apply, Workspace.tryPromoteViaLease, hfresh, if_true]
    exact ⟨hfresh, holder, hholder, hpid, hheld⟩
  | heartbeat g writable =>
    simp only [Workspace.apply, Workspace.heartbeat]
    split_ifs with hbeat
    · refine ⟨fresh_writeLease w g.pid g.nonce, holder, hholder, hpid, ?_⟩
      have hsame : w.lease.map Lease.nonce = some g.nonce := of_decide_eq_true hbeat.2.1
      have hlease : w.lease.map Lease.nonce = some holder.nonce := of_decide_eq_true hheld
      rw [hsame] at hlease
      exact decide_eq_true hlease
    · exact ⟨hfresh, holder, hholder, hpid, hheld⟩
  | drop g =>
    have hnot : w.leaseHeldBy g.nonce = false := hdrop g rfl
    have hne : holder ≠ g := by
      rintro rfl
      rw [hheld] at hnot
      simp at hnot
    simp only [Workspace.apply, Workspace.drop, hnot, Bool.and_false, Bool.false_eq_true, if_false]
    split_ifs
    · exact ⟨hfresh, holder, (List.mem_erase_of_ne hne).mpr hholder, hpid, hheld⟩
    · exact ⟨hfresh, holder, hholder, hpid, hheld⟩
  | crash p =>
    have hne : holder.pid ≠ p := by
      rintro rfl
      exact hcrash (by rw [hpid])
    exact ⟨hfresh, holder, List.mem_filter.mpr ⟨hholder, decide_eq_true hne⟩, hpid, hheld⟩

/-- As long as a process keeps leading and elections look at no free flock beside its lease, it
stays healthy, and no other process is given a guard. -/
theorem healthy_leader_stays
    (h : ElectionRun (fun w op => ElectsWithoutLease w op ∧ KeepsLeading pid w op) w w')
    (hstart : Healthy w pid) :
    Healthy w' pid ∧ ∀ op, ElectsWithoutLease w' op →
      ∀ guard ∈ (w'.apply op).guards, guard ∉ w'.guards → guard.pid = pid := by
  have hhealthy : Healthy w' pid := by
    induction h with
    | refl => exact hstart
    | tail _ hlast ih =>
      obtain ⟨op, ⟨hok, hkeeps⟩, rfl⟩ := hlast
      exact healthy_apply ih hok hkeeps
  exact ⟨hhealthy, fun op hok guard hmem hnew => given_to_healthy hhealthy hok hmem hnew⟩

def takenOver : Workspace :=
  ⟨20000, some ⟨2, 1, 20000⟩, 2, [⟨2, 1, false⟩, ⟨1, 0, true⟩]⟩

theorem healthy_leader_stays_heartbeat : Healthy (takenOver.heartbeat ⟨2, 1, false⟩ true) 2 := by
  have hrun : ElectionRun (fun w op => ElectsWithoutLease w op ∧ KeepsLeading 2 w op) takenOver
      (takenOver.heartbeat ⟨2, 1, false⟩ true) :=
    .single ⟨.heartbeat ⟨2, 1, false⟩ true,
      ⟨by simp [ElectsWithoutLease], by simp [KeepsLeading]⟩, rfl⟩
  exact (healthy_leader_stays hrun ⟨by decide, ⟨2, 1, false⟩, by decide, rfl, by decide⟩).1

theorem election_preempts_healthy :
    ∃ w, ElectionRun (fun _ _ => True) ⟨0, none, 0, []⟩ w ∧ Healthy w 2 ∧
      ∃ guard ∈ (w.apply (.elect 3 true true)).guards, guard ∉ w.guards ∧ guard.pid = 3 := by
  refine ⟨takenOver.crash 1, ?_, ⟨by decide, ⟨2, 1, false⟩, by decide, rfl, by decide⟩,
    ⟨3, 2, true⟩, by decide, by decide, rfl⟩
  refine .head ⟨.elect 1 true true, trivial, rfl⟩ ?_
  refine .head ⟨.clock 20000, trivial, rfl⟩ ?_
  refine .head ⟨.tryPromoteViaLease 2 true true, trivial, rfl⟩ ?_
  exact .single ⟨.crash 1, trivial, rfl⟩

end SwissArmyHammer.Leader

/-! The discovery file and the sockets of a workspace, whose paths all of its leaders share. -/

namespace SwissArmyHammer.Leader

inductive SharedSocket
  | frontend
  | backend
  | request
  deriving DecidableEq

structure Lead where
  pid : Nat
  holdsFlock : Bool
  writable : Bool
  builds : Bool
  deriving DecidableEq

def Workspace.leadBy (w : Workspace) : ElectionOp → Option Lead
  | .elect pid writable builds => if w.flockHeld then none else some ⟨pid, true, writable, builds⟩
  | .tryPromote pid writable builds =>
    if w.flockHeld then none
    else if w.fresh then none
    else some ⟨pid, true, writable, builds⟩
  | .tryPromoteViaLease pid writable builds =>
    if w.fresh then none
    else if writable then some ⟨pid, !w.flockHeld, true, builds⟩
    else none
  | .clock _ | .heartbeat _ _ | .drop _ | .crash _ => none

/-- `claimed` is the nonce of the last claim of the lease. The discovery file and the sockets are
there with the nonce of the guard that has made them, and `bound` is all that was ever bound. -/
structure Site where
  workspace : Workspace
  claimed : Option Nat
  discovery : Option Nat
  sockets : List (SharedSocket × Nat)
  bound : List (SharedSocket × Nat)
  deriving DecidableEq

/-- A guard whose build fails may have written the discovery file. A lease that is claimed is lost
on its claimer when the lock file cannot be opened then. A socket is bound over what is at its
path. -/
inductive SiteOp
  | election (op : ElectionOp) (announces : Bool)
  | claim (pid : Nat)
  | bind (guard : LeaderGuard) (socket : SharedSocket)
  deriving DecidableEq

namespace Site

def claim (s : Site) (l : Lead) : Site :=
  { s with
    workspace := s.workspace.lead l.pid l.holdsFlock l.writable l.builds
    claimed := if l.writable then some s.workspace.nextNonce else s.claimed }

/-- `build_leader_guard` clears the paths and writes the discovery file. -/
def lead (s : Site) (l : Lead) (announces : Bool) : Site :=
  { s.claim l with
    discovery := if l.builds || announces then some s.workspace.nextNonce else none
    sockets := [] }

def drop (s : Site) (guard : LeaderGuard) : Site :=
  if guard ∈ s.workspace.guards then
    { s with workspace := s.workspace.drop guard, discovery := none, sockets := [] }
  else s

def bind (s : Site) (guard : LeaderGuard) (socket : SharedSocket) : Site :=
  if guard ∈ s.workspace.guards then
    { s with
      sockets := (socket, guard.nonce) :: s.sockets.filter fun other => other.1 ≠ socket
      bound := (socket, guard.nonce) :: s.bound }
  else s

def apply (s : Site) : SiteOp → Site
  | .election (.drop guard) _ => s.drop guard
  | .election op announces =>
    match s.workspace.leadBy op with
    | some l => s.lead l announces
    | none => { s with workspace := s.workspace.apply op }
  | .claim pid =>
    match s.workspace.leadBy (.tryPromoteViaLease pid true false) with
    | some l => s.claim l
    | none => s
  | .bind guard socket => s.bind guard socket

def run (s : Site) (ops : List SiteOp) : Site := ops.foldl apply s

def unled (now : Nat) (lease : Option Lease) (nextNonce : Nat) (discovery : Option Nat)
    (sockets : List (SharedSocket × Nat)) : Site :=
  ⟨⟨now, lease, nextNonce, []⟩, none, discovery, sockets, []⟩

def Leads (s : Site) (guard : LeaderGuard) : Prop :=
  guard ∈ s.workspace.guards ∧ s.claimed = some guard.nonce

structure HasFiles (s : Site) (guard : LeaderGuard) : Prop where
  lock : s.workspace.leaseHeldBy guard.nonce = true
  discovery : s.discovery = some guard.nonce
  sockets : ∀ socket, (socket, guard.nonce) ∈ s.bound → (socket, guard.nonce) ∈ s.sockets

def FilesKept (s : Site) : Prop := ∀ leader, s.Leads leader → s.HasFiles leader

/-- While a process leads, no other guard is dropped, no other guard is built without a lease, and
no other guard binds a socket that the leader has bound. -/
def Spares (s : Site) : SiteOp → Prop
  | .election (.drop guard) _ =>
    guard ∈ s.workspace.guards → ∀ leader, s.Leads leader → leader = guard
  | .election op _ =>
    ∀ l, s.workspace.leadBy op = some l → l.writable = false → ∀ leader, ¬ s.Leads leader
  | .claim _ => True
  | .bind guard socket => guard ∈ s.workspace.guards →
    ∀ leader, s.Leads leader → (socket, leader.nonce) ∈ s.bound → leader = guard

structure Sound (s : Site) : Prop where
  guards : ∀ guard ∈ s.workspace.guards, guard.nonce < s.workspace.nextNonce
  nodup : (s.workspace.guards.map LeaderGuard.nonce).Nodup
  claimed : ∀ n, s.claimed = some n → n < s.workspace.nextNonce
  bound : ∀ b ∈ s.bound, b.2 < s.workspace.nextNonce

end Site

section

variable {w : Workspace} {op : ElectionOp} {l : Lead} {n : Nat}

theorem apply_of_not_lead (h : w.leadBy op = none) :
    w.apply op = w ∨ (∃ now, op = .clock now) ∨ (∃ guard writable, op = .heartbeat guard writable) ∨
      (∃ guard, op = .drop guard) ∨ ∃ pid, op = .crash pid := by
  cases op with
  | clock now => exact .inr (.inl ⟨now, rfl⟩)
  | elect pid writable builds =>
    simp only [Workspace.leadBy] at h
    split_ifs at h with hflock
    exact .inl (by simp only [Workspace.apply, Workspace.elect, if_pos hflock])
  | tryPromote pid writable builds =>
    simp only [Workspace.leadBy] at h
    refine .inl ?_
    simp only [Workspace.apply, Workspace.tryPromote]
    split_ifs at h ⊢
    · rfl
    · rfl
  | tryPromoteViaLease pid writable builds =>
    simp only [Workspace.leadBy] at h
    refine .inl ?_
    simp only [Workspace.apply, Workspace.tryPromoteViaLease]
    split_ifs at h ⊢
    · rfl
    · rfl
  | heartbeat guard writable => exact .inr (.inr (.inl ⟨guard, writable, rfl⟩))
  | drop guard => exact .inr (.inr (.inr (.inl ⟨guard, rfl⟩)))
  | crash pid => exact .inr (.inr (.inr (.inr ⟨pid, rfl⟩)))

theorem nextNonce_of_not_lead (h : w.leadBy op = none) :
    (w.apply op).nextNonce = w.nextNonce := by
  rcases apply_of_not_lead h with hsame | ⟨now, rfl⟩ | ⟨guard, writable, rfl⟩ | ⟨guard, rfl⟩ |
    ⟨pid, rfl⟩
  · rw [hsame]
  · rfl
  · simp only [Workspace.apply, Workspace.heartbeat]
    split_ifs <;> rfl
  · simp only [Workspace.apply, Workspace.drop]
    split_ifs <;> rfl
  · rfl

theorem guards_of_not_lead (h : w.leadBy op = none) : (w.apply op).guards.Sublist w.guards := by
  rcases apply_of_not_lead h with hsame | ⟨now, rfl⟩ | ⟨guard, writable, rfl⟩ | ⟨guard, rfl⟩ |
    ⟨pid, rfl⟩
  · rw [hsame]
  · exact List.Sublist.refl _
  · simp only [Workspace.apply, Workspace.heartbeat]
    split_ifs
    · exact List.Sublist.refl _
    · exact List.Sublist.refl _
  · rw [Workspace.apply, Workspace.drop]
    by_cases hmem : guard ∈ w.guards
    · rw [if_pos hmem]
      exact List.erase_sublist
    · rw [if_neg hmem]
  · exact List.filter_sublist

theorem leaseHeldBy_iff : w.leaseHeldBy n = true ↔ w.lease.map Lease.nonce = some n := by
  rw [Workspace.leaseHeldBy, decide_eq_true_eq]

theorem leaseHeldBy_apply (h : w.leadBy op = none) (hdrop : ∀ guard, op ≠ .drop guard)
    (hheld : w.leaseHeldBy n = true) : (w.apply op).leaseHeldBy n = true := by
  rcases apply_of_not_lead h with hsame | ⟨now, rfl⟩ | ⟨guard, writable, rfl⟩ | ⟨guard, rfl⟩ |
    ⟨pid, rfl⟩
  · rwa [hsame]
  · exact hheld
  · simp only [Workspace.apply, Workspace.heartbeat]
    split_ifs with hbeat
    · have hown := leaseHeldBy_iff.mp hbeat.2.1
      rw [leaseHeldBy_iff.mp hheld] at hown
      rw [leaseHeldBy_iff]
      exact hown.symm
    · exact hheld
  · exact absurd rfl (hdrop guard)
  · exact hheld

end

namespace Site

variable {s : Site} {op : ElectionOp} {l : Lead} {guard leader : LeaderGuard}

theorem apply_of_lead (announces : Bool) (h : s.workspace.leadBy op = some l) :
    s.apply (.election op announces) = s.lead l announces := by
  cases op with
  | drop guard => cases h
  | clock | heartbeat | crash => cases h
  | elect | tryPromote | tryPromoteViaLease =>
    rw [apply, h]
    intro guard heq
    cases heq

theorem apply_of_rest (announces : Bool) (h : s.workspace.leadBy op = none)
    (hdrop : ∀ guard, op ≠ .drop guard) :
    s.apply (.election op announces) = { s with workspace := s.workspace.apply op } := by
  rw [apply, h]
  exact hdrop

theorem Sound.claim (h : s.Sound) : (s.claim l).Sound where
  guards guard hmem := by
    simp only [Site.claim, Workspace.lead] at hmem ⊢
    split_ifs at hmem
    · rcases List.mem_cons.mp hmem with rfl | hmem
      · exact Nat.lt_succ_self _
      · exact Nat.lt_succ_of_lt (h.guards guard hmem)
    · exact Nat.lt_succ_of_lt (h.guards guard hmem)
  nodup := by
    simp only [Site.claim, Workspace.lead]
    split_ifs
    · rw [List.map_cons, List.nodup_cons]
      refine ⟨fun hmem => ?_, h.nodup⟩
      obtain ⟨guard, hguard, hnonce⟩ := List.mem_map.mp hmem
      have hlt := h.guards guard hguard
      exact absurd hnonce (Nat.ne_of_lt hlt)
    · exact h.nodup
  claimed n hn := by
    simp only [Site.claim, Workspace.lead] at hn ⊢
    split_ifs at hn
    · cases hn
      exact Nat.lt_succ_self _
    · exact Nat.lt_succ_of_lt (h.claimed n hn)
  bound b hb := Nat.lt_succ_of_lt (h.bound b hb)

theorem Sound.lead (h : s.Sound) (announces : Bool) : (s.lead l announces).Sound :=
  ⟨(h.claim (l := l)).guards, (h.claim (l := l)).nodup, (h.claim (l := l)).claimed,
    (h.claim (l := l)).bound⟩

theorem Sound.of_sublist {w : Workspace} (h : s.Sound)
    (hnonce : w.nextNonce = s.workspace.nextNonce)
    (hguards : w.guards.Sublist s.workspace.guards) (discovery : Option Nat)
    (sockets : List (SharedSocket × Nat)) :
    Sound { s with workspace := w, discovery := discovery, sockets := sockets } where
  guards guard hmem := hnonce ▸ h.guards guard (hguards.subset hmem)
  nodup := (hguards.map _).nodup h.nodup
  claimed n hn := hnonce ▸ h.claimed n hn
  bound b hb := hnonce ▸ h.bound b hb

theorem Sound.bind (h : s.Sound) (guard : LeaderGuard) (socket : SharedSocket) :
    (s.bind guard socket).Sound := by
  rw [Site.bind]
  split_ifs with hmem
  · refine ⟨h.guards, h.nodup, h.claimed, fun b hb => ?_⟩
    rcases List.mem_cons.mp hb with rfl | hb
    · exact h.guards guard hmem
    · exact h.bound b hb
  · exact h

theorem Sound.apply (h : s.Sound) (op : SiteOp) : (s.apply op).Sound := by
  cases op with
  | election op announces =>
    by_cases hdrop : ∃ guard, op = .drop guard
    · obtain ⟨guard, rfl⟩ := hdrop
      have hnone : s.workspace.leadBy (.drop guard) = none := rfl
      simp only [Site.apply, drop]
      split_ifs
      · exact h.of_sublist (nextNonce_of_not_lead hnone) (guards_of_not_lead hnone) _ _
      · exact h
    · cases hlead : s.workspace.leadBy op with
      | some l =>
        rw [apply_of_lead announces hlead]
        exact h.lead announces
      | none =>
        rw [apply_of_rest announces hlead fun guard heq => hdrop ⟨guard, heq⟩]
        exact h.of_sublist (nextNonce_of_not_lead hlead) (guards_of_not_lead hlead) _ _
  | claim pid =>
    simp only [Site.apply]
    cases s.workspace.leadBy (.tryPromoteViaLease pid true false) with
    | some l => exact h.claim
    | none => exact h
  | bind guard socket => exact h.bind guard socket

theorem Sound.unique (h : s.Sound) (hguard : guard ∈ s.workspace.guards)
    (hleader : leader ∈ s.workspace.guards) (hnonce : guard.nonce = leader.nonce) :
    guard = leader :=
  List.inj_on_of_nodup_map h.nodup hguard hleader hnonce

theorem lead_keeps_iff (h : s.Sound) (announces : Bool) :
    (s.lead l announces).FilesKept ↔ (l.writable = false → ∀ leader, ¬ s.Leads leader) := by
  cases hwritable : l.writable with
  | true =>
    refine iff_of_true ?_ fun hfalse => absurd hfalse (by simp)
    rintro leader ⟨hmem, hclaimed⟩
    simp only [lead, claim, hwritable, if_true, Option.some.injEq] at hclaimed
    have hnew : l.builds = true ∧ leader = ⟨l.pid, s.workspace.nextNonce, l.holdsFlock⟩ := by
      simp only [lead, claim, Workspace.lead, hwritable, if_true, Workspace.writeLease] at hmem
      split_ifs at hmem with hbuilds
      · rcases List.mem_cons.mp hmem with rfl | hmem
        · exact ⟨hbuilds, rfl⟩
        · have hlt := h.guards leader hmem
          omega
      · have hlt := h.guards leader hmem
        omega
    obtain ⟨hbuilds, rfl⟩ := hnew
    refine ⟨?_, ?_, fun socket hbound => ?_⟩
    · rw [leaseHeldBy_iff]
      simp [lead, claim, Workspace.lead, hwritable, Workspace.writeLease]
    · simp [lead, hbuilds]
    · have hlt := h.bound _ hbound
      exact absurd hlt (Nat.lt_irrefl _)
  | false =>
    constructor
    · rintro hkept' - leader ⟨hmem, hclaimed⟩
      have hleads : (s.lead l announces).Leads leader := by
        refine ⟨?_, ?_⟩
        · simp only [lead, claim, Workspace.lead, hwritable]
          split_ifs
          · exact List.mem_cons_of_mem _ hmem
          · exact hmem
        · simpa [lead, claim, hwritable] using hclaimed
      have hdiscovery := (hkept' leader hleads).discovery
      have hlt := h.guards leader hmem
      simp only [lead] at hdiscovery
      split_ifs at hdiscovery
      rw [Option.some.injEq] at hdiscovery
      omega
    · rintro hnone leader ⟨hmem, hclaimed⟩
      exfalso
      simp only [lead, claim, hwritable, Bool.false_eq_true, if_false] at hclaimed
      refine hnone rfl leader ⟨?_, hclaimed⟩
      simp only [lead, claim, Workspace.lead, hwritable, Bool.false_eq_true, if_false] at hmem
      split_ifs at hmem
      · rcases List.mem_cons.mp hmem with rfl | hmem
        · have hlt := h.claimed _ hclaimed
          exact absurd hlt (Nat.lt_irrefl _)
        · exact hmem
      · exact hmem

theorem claim_keeps (h : s.Sound) (hbuilds : l.builds = false) (hwritable : l.writable = true) :
    (s.claim l).FilesKept := by
  rintro leader ⟨hmem, hclaimed⟩
  simp only [claim, Workspace.lead, hwritable, hbuilds, if_true, Option.some.injEq,
    Workspace.writeLease, Bool.false_eq_true, if_false] at hmem hclaimed
  have hlt := h.guards leader hmem
  omega

theorem drop_keeps_iff (h : s.Sound) (hkept : s.FilesKept) : (s.drop guard).FilesKept ↔
    (guard ∈ s.workspace.guards → ∀ leader, s.Leads leader → leader = guard) := by
  rw [drop]
  split_ifs with hmem
  · simp only [hmem, forall_const]
    have hguards : (s.workspace.drop guard).guards = s.workspace.guards.erase guard := by
      rw [Workspace.drop, if_pos hmem]
    constructor
    · rintro hkept' leader ⟨hleader, hclaimed⟩
      by_contra hne
      have hrest : leader ∈ (s.workspace.drop guard).guards := by
        rw [hguards]
        exact (List.mem_erase_of_ne hne).mpr hleader
      have hdiscovery := (hkept' leader ⟨hrest, hclaimed⟩).discovery
      cases hdiscovery
    · rintro hown leader ⟨hleader, hclaimed⟩
      exfalso
      rw [hguards] at hleader
      have hsame := hown leader ⟨List.mem_of_mem_erase hleader, hclaimed⟩
      have hnodup : s.workspace.guards.Nodup := List.Nodup.of_map _ h.nodup
      rw [hsame] at hleader
      exact hnodup.not_mem_erase hleader
  · exact iff_of_true hkept fun habs => absurd habs hmem

theorem bind_keeps_iff (h : s.Sound) (hkept : s.FilesKept) {socket : SharedSocket} :
    (s.bind guard socket).FilesKept ↔ (guard ∈ s.workspace.guards →
      ∀ leader, s.Leads leader → (socket, leader.nonce) ∈ s.bound → leader = guard) := by
  rw [bind]
  split_ifs with hmem
  · simp only [hmem, forall_const]
    constructor
    · intro hkept' leader hleader hbound
      have hthere := (hkept' leader hleader).sockets socket (List.mem_cons_of_mem _ hbound)
      rcases List.mem_cons.mp hthere with hsame | hthere
      · exact h.unique hleader.1 hmem (Prod.mk.inj hsame).2
      · have hne := (List.mem_filter.mp hthere).2
        simp at hne
    · intro hown leader hleader
      obtain ⟨hlock, hdiscovery, hsockets⟩ := hkept leader hleader
      refine ⟨hlock, hdiscovery, fun other hbound => ?_⟩
      by_cases hother : other = socket
      · subst hother
        have hsame : leader = guard := by
          rcases List.mem_cons.mp hbound with hsame | hbound
          · exact h.unique hleader.1 hmem (Prod.mk.inj hsame).2
          · exact hown leader hleader hbound
        rw [hsame]
        exact List.mem_cons_self
      · grind
  · exact iff_of_true hkept fun habs => absurd habs hmem

theorem rest_keeps (hkept : s.FilesKept) (h : s.workspace.leadBy op = none)
    (hdrop : ∀ guard, op ≠ .drop guard) :
    FilesKept { s with workspace := s.workspace.apply op } := by
  rintro leader ⟨hmem, hclaimed⟩
  obtain ⟨hlock, hdiscovery, hsockets⟩ :=
    hkept leader ⟨(guards_of_not_lead h).subset hmem, hclaimed⟩
  exact ⟨leaseHeldBy_apply h hdrop hlock, hdiscovery, hsockets⟩

theorem apply_keeps_iff (h : s.Sound) (hkept : s.FilesKept) (op : SiteOp) :
    (s.apply op).FilesKept ↔ s.Spares op := by
  cases op with
  | election op announces =>
    by_cases hdrop : ∃ guard, op = .drop guard
    · obtain ⟨guard, rfl⟩ := hdrop
      exact drop_keeps_iff h hkept
    · have hspares : s.Spares (.election op announces) ↔
          ∀ l, s.workspace.leadBy op = some l → l.writable = false →
            ∀ leader, ¬ s.Leads leader := by
        cases op with
        | drop guard => exact absurd ⟨guard, rfl⟩ hdrop
        | clock | heartbeat | crash | elect | tryPromote | tryPromoteViaLease => exact Iff.rfl
      rw [hspares]
      cases hlead : s.workspace.leadBy op with
      | some l =>
        rw [apply_of_lead announces hlead, lead_keeps_iff h]
        simp
      | none =>
        have hdrop' : ∀ guard, op ≠ .drop guard := fun guard heq => hdrop ⟨guard, heq⟩
        rw [apply_of_rest announces hlead hdrop']
        exact iff_of_true (rest_keeps hkept hlead hdrop') (by simp)
  | claim pid =>
    refine iff_of_true ?_ trivial
    simp only [apply]
    cases hlead : s.workspace.leadBy (.tryPromoteViaLease pid true false) with
    | some l =>
      simp only [Workspace.leadBy] at hlead
      split_ifs at hlead
      cases hlead
      exact claim_keeps h rfl rfl
    | none => exact hkept
  | bind guard socket => exact bind_keeps_iff h hkept

theorem run_keeps_iff (h : s.Sound) (hkept : s.FilesKept) (ops : List SiteOp) :
    (∀ pre, pre <+: ops → (s.run pre).FilesKept) ↔
      ∀ pre op post, ops = pre ++ op :: post → (s.run pre).Spares op := by
  induction ops generalizing s with
  | nil =>
    refine iff_of_true (fun pre hpre => ?_) fun pre op post hsplit => ?_
    · rw [List.prefix_nil.mp hpre]
      exact hkept
    · simp at hsplit
  | cons first ops ih =>
    have hstep := apply_keeps_iff h hkept first
    constructor
    · intro hall pre op post hsplit
      have hfirst : (s.apply first).FilesKept := hall [first] ⟨ops, rfl⟩
      cases pre with
      | nil =>
        obtain ⟨rfl, -⟩ := List.cons.inj hsplit
        exact hstep.mp hfirst
      | cons _ pre =>
        obtain ⟨rfl, hrest⟩ := List.cons.inj hsplit
        refine (ih (h.apply first) hfirst).mp (fun pre hpre => ?_) pre op post hrest
        exact hall (first :: pre) (List.cons_prefix_cons.mpr ⟨rfl, hpre⟩)
    · intro hspares pre hpre
      cases pre with
      | nil => exact hkept
      | cons _ pre =>
        obtain ⟨rfl, hrest⟩ := List.cons_prefix_cons.mp hpre
        have hfirst := hstep.mpr (hspares [] _ ops rfl)
        refine (ih (h.apply _) hfirst).mpr (fun pre op post hsplit => ?_) pre hrest
        exact hspares (_ :: pre) op post (by rw [hsplit, List.cons_append])

theorem sound_unled (now : Nat) (lease : Option Lease) (nextNonce : Nat) (discovery : Option Nat)
    (sockets : List (SharedSocket × Nat)) : (unled now lease nextNonce discovery sockets).Sound where
  guards _ hmem := absurd hmem List.not_mem_nil
  nodup := List.nodup_nil
  claimed _ hn := by cases hn
  bound _ hb := absurd hb List.not_mem_nil

theorem filesKept_unled (now : Nat) (lease : Option Lease) (nextNonce : Nat)
    (discovery : Option Nat) (sockets : List (SharedSocket × Nat)) :
    (unled now lease nextNonce discovery sockets).FilesKept := fun _ hleads =>
  absurd hleads.1 List.not_mem_nil

/-- In every run the leader has its files throughout if and only if each operation spares the
leader that it finds. -/
theorem leader_keeps_files_iff (now : Nat) (lease : Option Lease) (nextNonce : Nat)
    (discovery : Option Nat) (sockets : List (SharedSocket × Nat)) (ops : List SiteOp) :
    (∀ pre, pre <+: ops → ((unled now lease nextNonce discovery sockets).run pre).FilesKept) ↔
      ∀ pre op post, ops = pre ++ op :: post →
        ((unled now lease nextNonce discovery sockets).run pre).Spares op :=
  run_keeps_iff (sound_unled _ _ _ _ _) (filesKept_unled _ _ _ _ _) ops

def first : LeaderGuard := ⟨1, 0, true⟩

def second : LeaderGuard := ⟨2, 1, false⟩

def takeover : List SiteOp :=
  [.election (.elect 1 true true) true, .election (.clock 20000) true,
    .election (.tryPromoteViaLease 2 true true) true, .bind second .frontend,
    .bind second .backend, .bind second .request]

theorem preempted_drop_takes_files :
    let s := (unled 0 none 0 none []).run takeover
    let s' := s.apply (.election (.drop first) true)
    s.Leads second ∧ s.HasFiles second ∧ s'.Leads second ∧
      s'.workspace.leaseHeldBy second.nonce = true ∧ s'.discovery = none ∧ s'.sockets = [] ∧
        ¬ ∀ ops : List SiteOp, ∀ pre, pre <+: ops → ((unled 0 none 0 none []).run pre).FilesKept := by
  intro s s'
  have hleads : s'.Leads second := ⟨by decide, by decide⟩
  refine ⟨⟨by decide, by decide⟩, ⟨by decide, by decide, ?_⟩, hleads, by decide, by decide,
    by decide, fun h => ?_⟩
  · intro socket _
    cases socket <;> decide
  · have hkept := h _ _ (List.prefix_refl (takeover ++ [.election (.drop first) true]))
    have hdiscovery := (hkept second hleads).discovery
    cases hdiscovery

end Site

end SwissArmyHammer.Leader
