import SwissArmyHammer.Terminals.Progress

/-! The exit status is recorded once, and a released terminal stays released. -/

namespace SwissArmyHammer.Terminals

open Concurrency

variable {terminal terminal' : Terminal} {calls calls' : List Call} {call call' : Call}
  {status : ExitStatus}

def Terminal.IsStatus (terminal : Terminal) (status : ExitStatus) : Prop :=
  ∃ how, terminal.child.ended = some how ∧ status = statusOf how

def Call.status? : Call → Option ExitStatus
  | .waiter (.setStatus status) | .waitForExit (.setStatus status)
  | .waitForExit (.setState status) | .kill (.setStatus status) | .kill (.setForced status) =>
    some status
  | _ => none

structure Recorded (terminal : Terminal) (calls : List Call) : Prop where
  stored : ∀ status, terminal.exitStatus = some status → terminal.IsStatus status
  carried : ∀ call ∈ calls, ∀ status, call.status? = some status → terminal.IsStatus status
  storing : ∀ status, .waitForExit (.setState status) ∈ calls → terminal.exitStatus ≠ none
  answered : ∀ status, some status ∈ terminal.answers →
    terminal.IsStatus status ∧ terminal.exitStatus ≠ none
  ordered : terminal.answers.Pairwise fun earlier later => earlier ≠ none → later = earlier

theorem Terminal.IsStatus.unique {other : ExitStatus} (h : terminal.IsStatus status)
    (hother : terminal.IsStatus other) : other = status := by
  obtain ⟨how, hended, rfl⟩ := h
  obtain ⟨how', hended', rfl⟩ := hother
  rw [hended] at hended'
  rw [Option.some.inj hended']

theorem Move.isStatus (h : Move terminal calls call terminal' call')
    (hstatus : terminal.IsStatus status) : terminal'.IsStatus status := by
  obtain ⟨how, hended, hstatus⟩ := hstatus
  exact ⟨how, h.ended.trans hended, hstatus⟩

theorem Move.stored (h : Move terminal calls call terminal' call') :
    terminal'.exitStatus = terminal.exitStatus ∨
      ∃ status, call.status? = some status ∧ terminal'.exitStatus = some status := by
  cases h <;> first | exact .inl rfl | exact .inr ⟨_, rfl, rfl⟩

theorem Move.stored_ne_none (h : Move terminal calls call terminal' call')
    (hstored : terminal.exitStatus ≠ none) : terminal'.exitStatus ≠ none := by
  rcases h.stored with heq | ⟨status, -, heq⟩
  · rwa [heq]
  · rw [heq]
    exact Option.some_ne_none _

theorem Move.carried (h : Move terminal calls call terminal' call')
    (hmeets : call.Meets ⟨terminal, calls⟩) (hcarried : ∀ status, call.status? = some status →
      terminal.IsStatus status) (hstatus : call'.status? = some status) :
    terminal.IsStatus status := by
  cases h with
  | @waiterReaps how hended =>
    obtain rfl := Option.some.inj hstatus
    refine ⟨how, hended, ?_⟩
    cases how with
    | exited code => rfl
    | signaled sig => exact absurd ⟨sig, hended⟩ hmeets
  | @waitReaps how hended =>
    obtain rfl := Option.some.inj hstatus
    exact ⟨how, hended, rfl⟩
  | waitStores => exact hcarried _ hstatus
  | @killReaps how hended =>
    obtain rfl := Option.some.inj hstatus
    exact ⟨how, hended, rfl⟩
  | @killForcedReaps how hended =>
    obtain rfl := Option.some.inj hstatus
    obtain rfl := hmeets how hended
    exact ⟨_, hended, rfl⟩
  | _ => cases hstatus

theorem Move.answered (h : Move terminal calls call terminal' call') (hinv : Recorded terminal calls)
    (hmem : call ∈ calls) : terminal'.answers = terminal.answers ∨
      ∃ answer, terminal'.answers = terminal.answers ++ [answer] ∧ answer = terminal.exitStatus := by
  cases h with
  | waitKnows hstatus => exact .inr ⟨_, rfl, hstatus.symm⟩
  | @waitMarks status =>
    refine .inr ⟨_, rfl, ?_⟩
    have hstored := hinv.storing status hmem
    cases hexit : terminal.exitStatus with
    | none => exact absurd hexit hstored
    | some other =>
      have hsame := (hinv.carried _ hmem status rfl).unique (hinv.stored other hexit)
      rw [hsame]
  | outputAnswers => exact .inr ⟨_, rfl, rfl⟩
  | _ => exact .inl rfl

theorem Recorded.move (hinv : Recorded terminal calls)
    (h : Move terminal calls call terminal' call') (hmeets : call.Meets ⟨terminal, calls⟩)
    (hreplaces : Replaces call call' calls calls') (hmem : call ∈ calls) :
    Recorded terminal' calls' := by
  have hstored : ∀ status, terminal'.exitStatus = some status → terminal.IsStatus status := by
    intro status hstatus
    rcases h.stored with heq | ⟨other, hother, heq⟩
    · exact hinv.stored status (heq ▸ hstatus)
    · obtain rfl := Option.some.inj (heq.symm.trans hstatus)
      exact hinv.carried call hmem _ hother
  constructor
  · exact fun status hstatus => h.isStatus (hstored status hstatus)
  · intro other hother status hstatus
    rcases hreplaces.origin other hother with rfl | hother'
    · exact h.isStatus (h.carried hmeets (hinv.carried call hmem) hstatus)
    · exact h.isStatus (hinv.carried other hother' status hstatus)
  · intro status hother
    rcases hreplaces.origin _ hother with heq | hother'
    · subst heq
      cases h with
      | waitStores => exact Option.some_ne_none _
    · exact h.stored_ne_none (hinv.storing status hother')
  · intro status hanswer
    rcases h.answered hinv hmem with heq | ⟨answer, heq, hexit⟩
    · rw [heq] at hanswer
      have hboth := hinv.answered status hanswer
      exact ⟨h.isStatus hboth.1, h.stored_ne_none hboth.2⟩
    · rw [heq] at hanswer
      rcases List.mem_append.mp hanswer with hanswer | hanswer
      · have hboth := hinv.answered status hanswer
        exact ⟨h.isStatus hboth.1, h.stored_ne_none hboth.2⟩
      · have hsome := (List.mem_singleton.mp hanswer).trans hexit
        exact ⟨h.isStatus (hinv.stored status hsome.symm),
          h.stored_ne_none (hsome ▸ Option.some_ne_none _)⟩
  · rcases h.answered hinv hmem with heq | ⟨answer, heq, hexit⟩
    · rw [heq]
      exact hinv.ordered
    · rw [heq, List.pairwise_append]
      refine ⟨hinv.ordered, List.pairwise_singleton _ _, fun earlier hearlier later hlater hne => ?_⟩
      obtain rfl := List.mem_singleton.mp hlater
      cases earlier with
      | none => exact absurd rfl hne
      | some status =>
        obtain ⟨hstatus, hsome⟩ := hinv.answered status hearlier
        cases hstored : terminal.exitStatus with
        | none => exact absurd hstored hsome
        | some other => rw [hexit, hstored, hstatus.unique (hinv.stored other hstored)]

theorem signal_statusOf_ne_none (how : End) :
    (statusOf how).signal ≠ none ↔ ∃ sig, how = .signaled sig := by
  cases how with
  | exited code => exact iff_of_false (fun h => h rfl) nofun
  | signaled sig =>
    refine iff_of_true ?_ ⟨sig, rfl⟩
    rw [statusOf]
    unfold getSignalName
    split <;> first | exact Option.some_ne_none _ | contradiction

theorem Recorded.oneExit (hinv : Recorded terminal calls) : Manager.OneExit ⟨terminal, calls⟩ := by
  refine ⟨hinv.ordered, fun status hstatus => ?_⟩
  obtain ⟨how, hended, rfl⟩ := (hinv.answered status hstatus).1
  rw [signal_statusOf_ne_none]
  refine exists_congr fun sig => ?_
  rw [hended, Option.some.injEq]

/-- In a released terminal no call sets the state, but for a waiter task that will not find it. -/
structure Settled (terminal : Terminal) (calls : List Call) : Prop where
  quiet : ∀ call ∈ calls, call.Marking → ∃ t, call = .waiter (.terminals t)
  removing : terminal.removed = true ∨ ∃ t, .release (.remove t) ∈ calls
  late : ∀ t, .waiter (.terminals t) ∈ calls →
    terminal.removed = true ∨ ∃ u, .release (.remove u) ∈ calls ∧ u < t

theorem Move.removed (h : Move terminal calls call terminal' call')
    (hremoved : terminal.removed = true) : terminal'.removed = true := by
  cases h <;> first | exact hremoved | rfl

theorem Replaces.remove {t : Nat} (hreplaces : Replaces call call' calls calls')
    (h : Move terminal calls call terminal' call') (hmem : .release (.remove t) ∈ calls) :
    terminal'.removed = true ∨ .release (.remove t) ∈ calls' := by
  rcases hreplaces.others _ hmem with rfl | hmem'
  · cases h with
    | releaseRemoves hlock => exact .inl rfl
  · exact .inr hmem'

theorem Settled.not_found {t : Nat} (hsettled : Settled terminal calls)
    (hmem : .waiter (.terminals t) ∈ calls) (hlock : GrantsRead (calls.map Call.atTerminals) t) :
    terminal.removed = true := by
  rcases hsettled.late t hmem with hremoved | ⟨u, hu, hlt⟩
  · exact hremoved
  · have hle := hlock.2 u (List.mem_map_of_mem (f := Call.atTerminals) hu)
    omega

theorem Settled.move (hsettled : Settled terminal calls) (hmoving : Moving terminal calls)
    (hstate : terminal.state = .released) (h : Move terminal calls call terminal' call')
    (hreplaces : Replaces call call' calls calls') (hmem : call ∈ calls) :
    terminal'.state = .released ∧ Settled terminal' calls' := by
  have hquiet := hsettled.quiet call hmem
  have hstays : terminal'.state = .released ∧
      (call'.Marking → ∃ t, call' = .waiter (.terminals t)) := by
    have hnever : ∀ {p : Prop}, (∀ t, call ≠ .waiter (.terminals t)) → call.Marking → p := by
      intro p hne hmarking
      obtain ⟨t, rfl⟩ := hquiet hmarking
      exact absurd rfl (hne t)
    cases h with
    | stderrCloses => exact ⟨hstate, fun _ => ⟨_, rfl⟩⟩
    | waiterMisses hlock hremoved => exact ⟨hstate, nofun⟩
    | waiterFinds hlock hremoved =>
      rw [hsettled.not_found hmem hlock] at hremoved
      cases hremoved
    | waitGets hne => exact absurd hstate hne
    | waitValidates hne => exact absurd hstate hne
    | killGets hne => exact absurd hstate hne
    | killValidates hne => exact absurd hstate hne
    | releaseMarks => exact ⟨rfl, nofun⟩
    | _ =>
      first
      | exact ⟨hstate, fun hmarking => hmarking.elim⟩
      | exact hnever (fun _ => nofun) trivial
  refine ⟨hstays.1, ?_, ?_, ?_⟩
  · intro other hother hmarking
    rcases hreplaces.origin other hother with rfl | hother'
    · exact hstays.2 hmarking
    · exact hsettled.quiet other hother' hmarking
  · rcases hsettled.removing with hremoved | ⟨t, ht⟩
    · exact .inl (h.removed hremoved)
    · exact (hreplaces.remove h ht).imp_right fun ht' => ⟨t, ht'⟩
  · intro t ht
    rcases hreplaces.origin _ ht with heq | ht'
    · subst heq
      cases h with
      | stderrCloses =>
        rcases hsettled.removing with hremoved | ⟨u, hu⟩
        · exact .inl hremoved
        · exact (hreplaces.remove .stderrCloses hu).imp_right fun hu' =>
            ⟨u, hu', (hmoving.tickets _ hu).1⟩
    · rcases hsettled.late t ht' with hremoved | ⟨u, hu, hlt⟩
      · exact .inl (h.removed hremoved)
      · exact (hreplaces.remove h hu).imp_right fun hu' => ⟨u, hu', hlt⟩

theorem settled_of_released (hstate : terminal.state ≠ .released)
    (h : Move terminal calls call terminal' call') (hmeets : call.Meets ⟨terminal, calls⟩)
    (hreplaces : Replaces call call' calls calls') (hstate' : terminal'.state = .released) :
    Settled terminal' calls' := by
  cases h with
  | releaseMarks =>
    constructor
    · intro other hother hmarking
      rcases hreplaces.origin other hother with rfl | hother'
      · cases hmarking
      · exact absurd hmarking (hmeets other hother')
    · exact .inr ⟨_, hreplaces.mem⟩
    · intro t ht
      rcases hreplaces.origin _ ht with heq | ht'
      · cases heq
      · exact absurd trivial (hmeets _ ht')
  | waiterMarks => cases hstate'
  | waitMarks => cases hstate'
  | killMarks => cases hstate'
  | _ => exact absurd hstate' hstate

end SwissArmyHammer.Terminals

/-! A terminal that can always be stopped and reports one exit, and a wait that keeps every kill
from the process. -/

namespace SwissArmyHammer.Terminals

open Concurrency

namespace Manager

variable {s s' : Manager} {event : Event} {steps : List (Event × Manager)}

structure Inv (s : Manager) : Prop where
  moving : Moving s.terminal s.calls
  recorded : Recorded s.terminal s.calls
  settled : s.terminal.state = .released → Settled s.terminal s.calls

theorem inv_start (missed : Bool) : Inv (start missed) where
  moving := moving_start missed
  recorded := by
    constructor
    · intro status h
      cases h
    · intro call h status hstatus
      obtain rfl := List.mem_singleton.mp h
      cases missed <;> cases hstatus
    · intro status h
      have heq := List.mem_singleton.mp h
      cases missed <;> cases heq
    · intro status h
      exact absurd h List.not_mem_nil
    · exact .nil
  settled h := by cases h

theorem Inv.step (hinv : s.Inv) (hmeets : s.Meets event) (hstep : s.Step event s') :
    s'.Inv ∧ (s.terminal.state = .released → s'.terminal.state = .released) := by
  have hmoving := moving_step hinv.moving hmeets hstep
  cases event with
  | call request =>
    obtain rfl := hstep
    refine ⟨⟨hmoving, ?_, fun hstate => ?_⟩, id⟩
    · refine ⟨hinv.recorded.stored, ?_, ?_, hinv.recorded.answered, hinv.recorded.ordered⟩
      · intro call hmem status hstatus
        rcases List.mem_append.mp hmem with hmem | hmem
        · exact hinv.recorded.carried call hmem status hstatus
        · obtain rfl := List.mem_singleton.mp hmem
          cases request <;> cases hstatus
      · intro status hmem
        rcases List.mem_append.mp hmem with hmem | hmem
        · exact hinv.recorded.storing status hmem
        · have heq := List.mem_singleton.mp hmem
          cases request <;> cases heq
    · have hsettled := hinv.settled hstate
      refine ⟨?_, ?_, ?_⟩
      · intro call hmem hmarking
        rcases List.mem_append.mp hmem with hmem | hmem
        · exact hsettled.quiet call hmem hmarking
        · obtain rfl := List.mem_singleton.mp hmem
          cases request <;> cases hmarking
      · exact hsettled.removing.imp_right fun ⟨t, ht⟩ => ⟨t, List.mem_append_left _ ht⟩
      · intro t hmem
        rcases List.mem_append.mp hmem with hmem | hmem
        · exact (hsettled.late t hmem).imp_right fun ⟨u, hu, hlt⟩ =>
            ⟨u, List.mem_append_left _ hu, hlt⟩
        · have heq := List.mem_singleton.mp hmem
          cases request <;> cases heq
  | advance i =>
    obtain ⟨before, call, after, terminal, call', hcalls, rfl, hmove, rfl⟩ := hstep
    have hget : s.calls[before.length]? = some call := by
      rw [hcalls]
      simp
    have hmem : call ∈ s.calls := List.mem_of_getElem? hget
    have hcall := hmeets call hget
    have hreplaces : Replaces call call' s.calls (before ++ call' :: after) :=
      hcalls ▸ replaces_split before after
    have hrecorded := hinv.recorded.move hmove hcall hreplaces hmem
    by_cases hstate : s.terminal.state = .released
    · have hnext := (hinv.settled hstate).move hinv.moving hstate hmove hreplaces hmem
      exact ⟨⟨hmoving, hrecorded, fun _ => hnext.2⟩, fun _ => hnext.1⟩
    · exact ⟨⟨hmoving, hrecorded, settled_of_released hstate hmove hcall hreplaces⟩,
        fun h => absurd h hstate⟩
  | childEnds how =>
    obtain ⟨halive, -, rfl⟩ := hstep
    have hnone : ∀ {status}, ¬ s.terminal.IsStatus status := by
      rintro status ⟨how, hended, -⟩
      rw [halive] at hended
      cases hended
    have hrecorded := hinv.recorded
    refine ⟨⟨hmoving, ?_, fun hstate => ?_⟩, id⟩
    · refine ⟨?_, ?_, hrecorded.storing, ?_, hrecorded.ordered⟩
      · exact fun status h => absurd (hrecorded.stored status h) hnone
      · exact fun call hmem status h => absurd (hrecorded.carried call hmem status h) hnone
      · exact fun status h => absurd (hrecorded.answered status h).1 hnone
    · have hsettled := hinv.settled hstate
      exact ⟨hsettled.quiet, hsettled.removing, hsettled.late⟩

/-- Where every step meets the condition, no kill and no release is stuck, one exit is reported,
and a released terminal stays released. -/
theorem stoppable (missed : Bool) (h : Trace Step (start missed) steps)
    (hmeets : Trace.Every (fun s event _ => s.Meets event) (start missed) steps) :
    Trace.Every (fun s _ s' => s.Stoppable s') (start missed) steps := by
  refine Trace.every_of_invariant (I := Inv) ?_ h (inv_start missed) hmeets
  intro s event s' hinv hmeets hstep
  obtain ⟨hinv', hreleased⟩ := hinv.step hmeets hstep
  exact ⟨hinv', not_stuck hinv'.moving, hinv'.recorded.oneExit, hreleased⟩

end Manager

section

variable {terminal terminal' : Terminal} {calls : List Call} {call call' : Call} {s s' : Manager}
  {event : Event} {steps : List (Event × Manager)}

def Call.Outside : Call → Prop
  | .kill (.terminals _) | .kill .getTerminal | .kill .validate | .kill .isFinished
  | .kill (.pid _) | .release (.terminals _) | .release (.process _) => True
  | .kill _ | .release _ => False
  | .waiter _ | .waitForExit _ | .getOutput _ | .returned => True

structure Blocked (i : Nat) (s : Manager) : Prop where
  waiting : s.calls[i]? = some (.waitForExit .wait)
  outside : ∀ call ∈ s.calls, call.Outside
  sent : s.terminal.child.sent = []
  alive : s.terminal.child.ended = none

theorem Move.outside (h : Move terminal calls call terminal' call')
    (hholds : Stand.holdsWrite ∈ calls.map Call.atProcess) (houtside : call.Outside) :
    terminal'.child.sent = terminal.child.sent ∧ call'.Outside := by
  cases h with
  | killNoPid hlock => exact absurd hholds hlock.1
  | killPid hlock => exact absurd hholds hlock.1
  | releaseLocks hlock => exact absurd hholds hlock.2.1
  | _ => first | exact ⟨rfl, trivial⟩ | exact houtside.elim

theorem Blocked.step {i : Nat} (hblocked : Blocked i s) (hstep : s.Step event s') :
    Blocked i s' := by
  have hholds : Stand.holdsWrite ∈ s.calls.map Call.atProcess :=
    List.mem_map_of_mem (f := Call.atProcess) (List.mem_of_getElem? hblocked.waiting)
  cases event with
  | call request =>
    obtain rfl := hstep
    refine ⟨?_, ?_, hblocked.sent, hblocked.alive⟩
    · rw [List.getElem?_append_left (List.getElem?_eq_some_iff.mp hblocked.waiting).1]
      exact hblocked.waiting
    · intro call hmem
      rcases List.mem_append.mp hmem with hmem | hmem
      · exact hblocked.outside call hmem
      · obtain rfl := List.mem_singleton.mp hmem
        cases request <;> trivial
  | advance j =>
    obtain ⟨before, call, after, terminal, call', hcalls, rfl, hmove, rfl⟩ := hstep
    have hget : s.calls[before.length]? = some call := by
      rw [hcalls]
      simp
    have hne : before.length ≠ i := by
      intro heq
      rw [heq, hblocked.waiting] at hget
      obtain rfl := Option.some.inj hget
      cases hmove with
      | waitReaps hended =>
        rw [hblocked.alive] at hended
        cases hended
    have hmem : call ∈ s.calls := List.mem_of_getElem? hget
    obtain ⟨hsent, houtside⟩ := hmove.outside hholds (hblocked.outside call hmem)
    refine ⟨?_, ?_, hsent.trans hblocked.sent, hmove.ended.trans hblocked.alive⟩
    · rw [Manager.getElem?_split_of_ne call hne, ← hcalls]
      exact hblocked.waiting
    · intro other hother
      rcases (hcalls ▸ replaces_split before after : Replaces call call' s.calls _).origin other
        hother with rfl | hother'
      · exact houtside
      · exact hblocked.outside other hother'
  | childEnds how =>
    obtain ⟨-, hmay, rfl⟩ := hstep
    have hnever : ∀ sig, sig ∉ s.terminal.child.sent := fun sig h =>
      absurd (hblocked.sent ▸ h) List.not_mem_nil
    cases how with
    | exited code => exact absurd hmay (hnever _)
    | signaled sig => exact absurd hmay (hnever _)

def AtPid (k t : Nat) (s : Manager) : Prop := s.calls[k]? = some (.kill (.pid t))

theorem AtPid.step {i k t : Nat} (hpid : AtPid k t s) (hblocked : Blocked i s)
    (hstep : s.Step event s') : AtPid k t s' ∧ event ≠ .advance k := by
  have hholds : Stand.holdsWrite ∈ s.calls.map Call.atProcess :=
    List.mem_map_of_mem (f := Call.atProcess) (List.mem_of_getElem? hblocked.waiting)
  cases event with
  | call request =>
    obtain rfl := hstep
    refine ⟨?_, nofun⟩
    rw [AtPid, List.getElem?_append_left (List.getElem?_eq_some_iff.mp hpid).1]
    exact hpid
  | advance j =>
    obtain ⟨before, call, after, terminal, call', hcalls, rfl, hmove, rfl⟩ := hstep
    have hget : s.calls[before.length]? = some call := by
      rw [hcalls]
      simp
    have hne : before.length ≠ k := by
      intro heq
      rw [heq, hpid] at hget
      obtain rfl := Option.some.inj hget
      cases hmove with
      | killNoPid hlock => exact absurd hholds hlock.1
      | killPid hlock => exact absurd hholds hlock.1
    refine ⟨?_, fun heq => hne (Event.advance.inj heq)⟩
    rw [AtPid, Manager.getElem?_split_of_ne call hne, ← hcalls]
    exact hpid
  | childEnds how =>
    obtain ⟨-, -, rfl⟩ := hstep
    exact ⟨hpid, nofun⟩

theorem stuck_of_blocked {i k t : Nat} (hblocked : Blocked i s) (hpid : AtPid k t s) :
    s.Stuck k := by
  refine ⟨⟨_, hpid, trivial⟩, fun steps htrace => ?_⟩
  induction htrace with
  | nil s => exact fun x hx => absurd hx List.not_mem_nil
  | @cons s s' event rest hstep hrest ih =>
    obtain ⟨hpid', hne⟩ := hpid.step hblocked hstep
    intro x hx j hevent hj
    rcases List.mem_cons.mp hx with rfl | hx
    · exact hne (hevent.trans (by rw [hj]))
    · exact ih (hblocked.step hstep) hpid' x hx j hevent hj

end

section

open Manager

theorem stoppable_killed : ∃ steps, steps.map Prod.fst = [.call .kill, .advance 1, .advance 1,
      .advance 1, .advance 1, .advance 1, .advance 1, .advance 1, .childEnds (.exited 0),
      .advance 1, .advance 1, .advance 1, .call .getOutput, .advance 2, .advance 2, .advance 2] ∧
    Trace Step (start false) steps ∧
      Trace.Every (fun s _ s' => s.Stoppable s') (start false) steps := by
  have hruns : ∃ steps, steps.map Prod.fst = [.call .kill, .advance 1, .advance 1,
        .advance 1, .advance 1, .advance 1, .advance 1, .advance 1, .childEnds (.exited 0),
        .advance 1, .advance 1, .advance 1, .call .getOutput, .advance 2, .advance 2, .advance 2] ∧
      Trace Step (start false) steps ∧
        Trace.Every (fun s event _ => s.Meets event) (start false) steps := by
    refine ⟨[(.call .kill, _), (.advance 1, _), (.advance 1, _), (.advance 1, _), (.advance 1, _),
      (.advance 1, _), (.advance 1, _), (.advance 1, _), (.childEnds (.exited 0), _),
      (.advance 1, _), (.advance 1, _), (.advance 1, _), (.call .getOutput, _), (.advance 2, _),
      (.advance 2, _), (.advance 2, _)], rfl, .cons rfl (.cons
      ⟨[.waiter .stderr], _, [], _, _, rfl, rfl, .killFinds ⟨?_, ?_⟩ rfl, rfl⟩ (.cons
      ⟨[.waiter .stderr], _, [], _, _, rfl, rfl, .killGets nofun, rfl⟩ (.cons
      ⟨[.waiter .stderr], _, [], _, _, rfl, rfl, .killValidates nofun, rfl⟩ (.cons
      ⟨[.waiter .stderr], _, [], _, _, rfl, rfl, .killAsks nofun, rfl⟩ (.cons
      ⟨[.waiter .stderr], _, [], _, _, rfl, rfl, .killPid ⟨?_, ?_⟩ rfl, rfl⟩ (.cons
      ⟨[.waiter .stderr], _, [], _, _, rfl, rfl, .killTerms rfl, rfl⟩ (.cons
      ⟨[.waiter .stderr], _, [], _, _, rfl, rfl, .killLocks ⟨?_, ?_, ?_, ?_⟩, rfl⟩ (.cons
      ⟨rfl, List.mem_singleton_self _, rfl⟩ (.cons
      ⟨[.waiter .stderr], _, [], _, _, rfl, rfl, .killReaps rfl, rfl⟩ (.cons
      ⟨[.waiter .stderr], _, [], _, _, rfl, rfl, .killStores, rfl⟩ (.cons
      ⟨[.waiter .stderr], _, [], _, _, rfl, rfl, .killMarks, rfl⟩ (.cons rfl (.cons
      ⟨[.waiter .stderr, .returned], _, [], _, _, rfl, rfl, .outputFinds ⟨?_, ?_⟩ rfl, rfl⟩ (.cons
      ⟨[.waiter .stderr, .returned], _, [], _, _, rfl, rfl, .outputGets nofun, rfl⟩ (.cons
      ⟨[.waiter .stderr, .returned], _, [], _, _, rfl, rfl, .outputAnswers, rfl⟩
      (.nil _)))))))))))))))), ?_⟩
    · decide
    · intro other h
      simp [start, Call.atTerminals, Request.first] at h
    · decide
    · intro other h
      simp [start, Call.atProcess] at h
    · decide
    · decide
    · intro other h
      simp [start, Call.atProcess] at h
    · intro other h
      simp [start, Call.atProcess] at h
      exact Nat.le_of_eq h.symm
    · decide
    · intro other h
      simp [start, Call.atTerminals, Request.first] at h
    · have hmeets : ∀ {s : Manager} {i : Nat} {call : Call}, s.calls[i]? = some call →
          call.Meets s → s.Meets (.advance i) := by
        intro s i call hget hcall other hother
        rw [hget] at hother
        exact Option.some.inj hother ▸ hcall
      exact ⟨trivial, hmeets rfl trivial, hmeets rfl trivial, hmeets rfl trivial,
        hmeets rfl trivial, hmeets rfl trivial, hmeets rfl trivial, hmeets rfl trivial, trivial,
        hmeets rfl trivial, hmeets rfl trivial, hmeets rfl trivial, trivial, hmeets rfl trivial,
        hmeets rfl trivial, hmeets rfl trivial, trivial⟩
  obtain ⟨steps, hevents, htrace, hmeets⟩ := hruns
  exact ⟨steps, hevents, htrace, stoppable false htrace hmeets⟩

theorem kill_stuck_behind_wait : ∃ steps, steps.map Prod.fst = [.call .waitForExit, .advance 1,
      .advance 1, .advance 1, .advance 1, .advance 1, .call .kill, .advance 2, .advance 2,
      .advance 2, .advance 2] ∧
    Trace Step (start false) steps ∧
      ¬ Trace.Every (fun s _ s' => s.Stoppable s') (start false) steps := by
  refine ⟨[(.call .waitForExit, _), (.advance 1, _), (.advance 1, _), (.advance 1, _),
    (.advance 1, _), (.advance 1, _), (.call .kill, _), (.advance 2, _), (.advance 2, _),
    (.advance 2, _), (.advance 2, _)], rfl, .cons rfl (.cons
    ⟨[.waiter .stderr], _, [], _, _, rfl, rfl, .waitFinds ⟨?_, ?_⟩ rfl, rfl⟩ (.cons
    ⟨[.waiter .stderr], _, [], _, _, rfl, rfl, .waitGets nofun, rfl⟩ (.cons
    ⟨[.waiter .stderr], _, [], _, _, rfl, rfl, .waitValidates nofun, rfl⟩ (.cons
    ⟨[.waiter .stderr], _, [], _, _, rfl, rfl, .waitAsks rfl, rfl⟩ (.cons
    ⟨[.waiter .stderr], _, [], _, _, rfl, rfl, .waitLocks ⟨?_, ?_, ?_, ?_⟩, rfl⟩ (.cons rfl (.cons
    ⟨[.waiter .stderr, .waitForExit .wait], _, [], _, _, rfl, rfl, .killFinds ⟨?_, ?_⟩ rfl, rfl⟩
    (.cons ⟨[.waiter .stderr, .waitForExit .wait], _, [], _, _, rfl, rfl, .killGets nofun, rfl⟩
    (.cons ⟨[.waiter .stderr, .waitForExit .wait], _, [], _, _, rfl, rfl, .killValidates nofun, rfl⟩
    (.cons ⟨[.waiter .stderr, .waitForExit .wait], _, [], _, _, rfl, rfl, .killAsks nofun, rfl⟩
    (.nil _))))))))))), ?_⟩
  · decide
  · intro other h
    simp [start, Call.atTerminals, Request.first] at h
  · decide
  · decide
  · intro other h
    simp [start, Call.atProcess] at h
  · intro other h
    simp [start, Call.atProcess] at h
    exact Nat.le_of_eq h.symm
  · decide
  · intro other h
    simp [start, Call.atTerminals, Request.first] at h
  · intro hall
    have hfree := hall.2.2.2.2.2.2.2.2.2.2.1.1 2
    refine hfree (stuck_of_blocked (i := 1) ⟨rfl, ?_, rfl, rfl⟩ rfl)
    intro call hmem
    rcases List.mem_cons.mp hmem with rfl | hmem
    · trivial
    rcases List.mem_cons.mp hmem with rfl | hmem
    · trivial
    · obtain rfl := List.mem_singleton.mp hmem
      trivial

end

end SwissArmyHammer.Terminals
