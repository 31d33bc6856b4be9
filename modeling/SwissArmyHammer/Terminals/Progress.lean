import Mathlib
import SwissArmyHammer.Terminals.Stopping

/-! Where the waits are for a child that is being stopped, every call can be brought to its end. -/

namespace SwissArmyHammer.Terminals

open Concurrency

variable {terminal terminal' : Terminal} {calls calls' : List Call} {call call' : Call} {t : Nat}

def Call.rank : Call → Nat
  | .returned => 0
  | .release (.remove _) => 1
  | .waiter .setState | .waitForExit (.setState _) | .kill .setState | .release .setState => 2
  | .waiter (.setStatus _) | .waitForExit (.setStatus _) | .kill (.setStatus _)
  | .kill (.setForced _) => 3
  | .waiter .wait | .waitForExit .wait | .kill .forcedWait | .release .wait => 4
  | .kill (.forced _) => 5
  | .kill .sigkill | .release .startKill => 6
  | .kill .gracefulWait | .waiter (.process _) | .waitForExit (.process _)
  | .release (.process _) => 7
  | .kill (.graceful _) => 8
  | .kill .sigterm => 9
  | .kill (.pid _) => 10
  | .waitForExit .getStatus | .getOutput .getStatus | .kill .isFinished => 11
  | .waitForExit .validate | .kill .validate => 12
  | .waitForExit .getTerminal | .getOutput .getTerminal | .kill .getTerminal => 13
  | .waiter (.terminals _) | .waitForExit (.terminals _) | .getOutput (.terminals _)
  | .kill (.terminals _) | .release (.terminals _) => 14
  | .waiter .stderr => 15

theorem Move.rank_lt (h : Move terminal calls call terminal' call') : call'.rank < call.rank := by
  cases h <;> simp [Call.rank]

def CanGo (terminal : Terminal) (calls : List Call) : Prop :=
  (∃ call ∈ calls, (call.Asks → terminal.Signalled ∨ ∃ other ∈ calls, other.Stopping) ∧
    ∃ terminal' call', Move terminal calls call terminal' call') ∨
  (terminal.child.ended = none ∧ terminal.child.sent ≠ [])

theorem canGo_of_move (hmem : call ∈ calls) (hasks : ¬ call.Asks)
    (h : Move terminal calls call terminal' call') : CanGo terminal calls :=
  .inl ⟨call, hmem, fun hasked => absurd hasked hasks, terminal', call', h⟩

theorem canGo_of_signalled (hmem : call ∈ calls) (hasks : ¬ call.Asks)
    (hsignalled : terminal.Signalled)
    (h : ∀ how, terminal.child.ended = some how →
      ∃ terminal' call', Move terminal calls call terminal' call') : CanGo terminal calls := by
  cases hended : terminal.child.ended with
  | none => exact .inr ⟨hended, hsignalled.resolve_right fun hne => hne hended⟩
  | some how =>
    obtain ⟨terminal', call', hmove⟩ := h how hended
    exact canGo_of_move hmem hasks hmove

theorem canGo_of_sigterm (hmem : .kill .sigterm ∈ calls) : CanGo terminal calls := by
  cases hreaped : terminal.child.reaped with
  | true => exact canGo_of_move hmem nofun (.killTermFails hreaped)
  | false => exact canGo_of_move hmem nofun (.killTerms hreaped)

theorem canGo_of_holder (hinv : Moving terminal calls) (hmem : call ∈ calls)
    (hholds : call.atProcess = .holdsWrite) : CanGo terminal calls := by
  have hknows := hinv.knows call hmem
  cases call with
  | waiter place =>
    cases place with
    | wait =>
      rcases hknows with hsignalled | hsigterm
      · exact canGo_of_signalled hmem nofun hsignalled fun how h => ⟨_, _, .waiterReaps h⟩
      · exact canGo_of_sigterm hsigterm
    | setStatus status => exact canGo_of_move hmem nofun .waiterStores
    | setState => exact canGo_of_move hmem nofun .waiterMarks
    | _ => cases hholds
  | waitForExit place =>
    cases place with
    | wait =>
      rcases hknows with hsignalled | hsigterm
      · exact canGo_of_signalled hmem nofun hsignalled fun how h => ⟨_, _, .waitReaps h⟩
      · exact canGo_of_sigterm hsigterm
    | _ => cases hholds
  | kill place =>
    cases place with
    | gracefulWait => exact canGo_of_move hmem nofun .killWaitTimesOut
    | forcedWait =>
      exact canGo_of_signalled hmem nofun hknows fun how h => ⟨_, _, .killForcedReaps h⟩
    | setForced status => exact canGo_of_move hmem nofun .killForcedStores
    | _ => cases hholds
  | release place =>
    cases place with
    | startKill =>
      cases hreaped : terminal.child.reaped with
      | true => exact canGo_of_move hmem nofun (.releaseKillFails hreaped)
      | false => exact canGo_of_move hmem nofun (.releaseKills hreaped)
    | wait => exact canGo_of_signalled hmem nofun hknows fun how h => ⟨_, _, .releaseReaps h⟩
    | _ => cases hholds
  | getOutput place => cases hholds
  | returned => cases hholds

theorem atProcess_ne_holdsRead (call : Call) : call.atProcess ≠ .holdsRead := by
  cases call with
  | waiter place => cases place <;> nofun
  | waitForExit place => cases place <;> nofun
  | getOutput place => nofun
  | kill place => cases place <;> nofun
  | release place => cases place <;> nofun
  | returned => nofun

theorem exists_move_of_granted_read (hwaits : call.atProcess = .waitsRead t)
    (hlock : GrantsRead (calls.map Call.atProcess) t) :
    ¬ call.Asks ∧ ∃ terminal' call', Move terminal calls call terminal' call' := by
  cases call with
  | kill place =>
    cases place with
    | pid u =>
      obtain rfl := Stand.waitsRead.inj hwaits
      cases hreaped : terminal.child.reaped with
      | true => exact ⟨id, _, _, .killNoPid hlock hreaped⟩
      | false => exact ⟨id, _, _, .killPid hlock hreaped⟩
    | _ => cases hwaits
  | waiter place => cases place <;> cases hwaits
  | waitForExit place => cases place <;> cases hwaits
  | release place => cases place <;> cases hwaits
  | getOutput place => cases hwaits
  | returned => cases hwaits

theorem exists_move_of_granted_write (hwaits : call.atProcess = .waitsWrite t)
    (hlock : GrantsWrite (calls.map Call.atProcess) t) :
    ¬ call.Asks ∧ ∃ terminal' call', Move terminal calls call terminal' call' := by
  cases call with
  | kill place =>
    cases place with
    | graceful u =>
      obtain rfl := Stand.waitsWrite.inj hwaits
      exact ⟨id, _, _, .killLocks hlock⟩
    | forced u =>
      obtain rfl := Stand.waitsWrite.inj hwaits
      exact ⟨id, _, _, .killForces hlock⟩
    | _ => cases hwaits
  | waiter place =>
    cases place with
    | process u =>
      obtain rfl := Stand.waitsWrite.inj hwaits
      exact ⟨id, _, _, .waiterLocks hlock⟩
    | _ => cases hwaits
  | waitForExit place =>
    cases place with
    | process u =>
      obtain rfl := Stand.waitsWrite.inj hwaits
      exact ⟨id, _, _, .waitLocks hlock⟩
    | _ => cases hwaits
  | release place =>
    cases place with
    | process u =>
      obtain rfl := Stand.waitsWrite.inj hwaits
      exact ⟨id, _, _, .releaseLocks hlock⟩
    | _ => cases hwaits
  | getOutput place => cases hwaits
  | returned => cases hwaits

theorem canGo_of_process (hinv : Moving terminal calls) (hmem : call ∈ calls)
    (hstands : call.atProcess ≠ .away) : CanGo terminal calls := by
  by_cases hholder : Stand.holdsWrite ∈ calls.map Call.atProcess
  · obtain ⟨holder, hholder, hholds⟩ := List.mem_map.mp hholder
    exact canGo_of_holder hinv hholder hholds
  · have hread : Stand.holdsRead ∉ calls.map Call.atProcess := by
      intro h
      obtain ⟨reader, -, hreads⟩ := List.mem_map.mp h
      exact atProcess_ne_holdsRead reader hreads
    have hstand := List.mem_map_of_mem (f := Call.atProcess) hmem
    have hwaits : ∃ t, .waitsRead t ∈ calls.map Call.atProcess ∨
        .waitsWrite t ∈ calls.map Call.atProcess := by
      cases hcall : call.atProcess with
      | away => exact absurd hcall hstands
      | holdsRead => exact absurd hcall (atProcess_ne_holdsRead call)
      | holdsWrite => exact absurd (hcall ▸ hstand) hholder
      | waitsRead t => exact ⟨t, .inl (hcall ▸ hstand)⟩
      | waitsWrite t => exact ⟨t, .inr (hcall ▸ hstand)⟩
    obtain ⟨t, ⟨hfirst, hlock⟩ | ⟨hfirst, hlock⟩⟩ := exists_granted hread hholder hwaits
    · obtain ⟨first, hfirst, hfirstWaits⟩ := List.mem_map.mp hfirst
      obtain ⟨hasks, _, _, hmove⟩ := exists_move_of_granted_read hfirstWaits hlock
      exact canGo_of_move hfirst hasks hmove
    · obtain ⟨first, hfirst, hfirstWaits⟩ := List.mem_map.mp hfirst
      obtain ⟨hasks, _, _, hmove⟩ := exists_move_of_granted_write hfirstWaits hlock
      exact canGo_of_move hfirst hasks hmove

theorem exists_move_of_unblocked (hread : call.atTerminals = .holdsRead)
    (haway : call.atProcess = .away) :
    ∃ terminal' call', Move terminal calls call terminal' call' := by
  cases call with
  | waiter place =>
    cases place with
    | stderr => cases hread
    | terminals t => cases hread
    | _ => cases haway
  | waitForExit place =>
    cases place with
    | terminals t => cases hread
    | getTerminal =>
      by_cases hstate : terminal.state = .released
      · exact ⟨_, _, .waitRefused hstate⟩
      · exact ⟨_, _, .waitGets hstate⟩
    | validate =>
      by_cases hstate : terminal.state = .released
      · exact ⟨_, _, .waitRefusedAgain hstate⟩
      · exact ⟨_, _, .waitValidates hstate⟩
    | getStatus =>
      cases hstatus : terminal.exitStatus with
      | none => exact ⟨_, _, .waitAsks hstatus⟩
      | some status => exact ⟨_, _, .waitKnows hstatus⟩
    | process t => cases haway
    | wait => cases haway
    | setStatus status => exact ⟨_, _, .waitStores⟩
    | setState status => exact ⟨_, _, .waitMarks⟩
  | getOutput place =>
    cases place with
    | terminals t => cases hread
    | getTerminal =>
      by_cases hstate : terminal.state = .released
      · exact ⟨_, _, .outputRefused hstate⟩
      · exact ⟨_, _, .outputGets hstate⟩
    | getStatus => exact ⟨_, _, .outputAnswers⟩
  | kill place =>
    cases place with
    | getTerminal =>
      by_cases hstate : terminal.state = .released
      · exact ⟨_, _, .killRefused hstate⟩
      · exact ⟨_, _, .killGets hstate⟩
    | validate =>
      by_cases hstate : terminal.state = .released
      · exact ⟨_, _, .killRefusedAgain hstate⟩
      · exact ⟨_, _, .killValidates hstate⟩
    | isFinished =>
      by_cases hstate : terminal.state = .finished
      · exact ⟨_, _, .killSkips hstate⟩
      · exact ⟨_, _, .killAsks hstate⟩
    | sigterm =>
      cases hreaped : terminal.child.reaped with
      | true => exact ⟨_, _, .killTermFails hreaped⟩
      | false => exact ⟨_, _, .killTerms hreaped⟩
    | setStatus status => exact ⟨_, _, .killStores⟩
    | sigkill =>
      cases hreaped : terminal.child.reaped with
      | true => exact ⟨_, _, .killKillFails hreaped⟩
      | false => exact ⟨_, _, .killKills hreaped⟩
    | setState => exact ⟨_, _, .killMarks⟩
    | terminals t => cases hread
    | pid t => cases haway
    | graceful t => cases haway
    | gracefulWait => cases haway
    | forced t => cases haway
    | forcedWait => cases haway
    | setForced status => cases haway
  | release place =>
    cases place with
    | setState => exact ⟨_, _, .releaseMarks⟩
    | terminals t => cases hread
    | process t => cases haway
    | startKill => cases haway
    | wait => cases haway
    | remove t => cases hread
  | returned => cases hread

theorem exists_move_of_listed (hwaits : call.atTerminals = .waitsRead t)
    (hlock : GrantsRead (calls.map Call.atTerminals) t) :
    ∃ terminal' call', Move terminal calls call terminal' call' := by
  cases call with
  | waiter place =>
    cases place with
    | terminals u =>
      obtain rfl := Stand.waitsRead.inj hwaits
      cases hremoved : terminal.removed with
      | true => exact ⟨_, _, .waiterMisses hlock hremoved⟩
      | false => exact ⟨_, _, .waiterFinds hlock hremoved⟩
    | _ => cases hwaits
  | waitForExit place =>
    cases place with
    | terminals u =>
      obtain rfl := Stand.waitsRead.inj hwaits
      cases hremoved : terminal.removed with
      | true => exact ⟨_, _, .waitMisses hlock hremoved⟩
      | false => exact ⟨_, _, .waitFinds hlock hremoved⟩
    | _ => cases hwaits
  | getOutput place =>
    cases place with
    | terminals u =>
      obtain rfl := Stand.waitsRead.inj hwaits
      cases hremoved : terminal.removed with
      | true => exact ⟨_, _, .outputMisses hlock hremoved⟩
      | false => exact ⟨_, _, .outputFinds hlock hremoved⟩
    | _ => cases hwaits
  | kill place =>
    cases place with
    | terminals u =>
      obtain rfl := Stand.waitsRead.inj hwaits
      cases hremoved : terminal.removed with
      | true => exact ⟨_, _, .killMisses hlock hremoved⟩
      | false => exact ⟨_, _, .killFinds hlock hremoved⟩
    | _ => cases hwaits
  | release place =>
    cases place with
    | terminals u =>
      obtain rfl := Stand.waitsRead.inj hwaits
      cases hremoved : terminal.removed with
      | true => exact ⟨_, _, .releaseMisses hlock hremoved⟩
      | false => exact ⟨_, _, .releaseFinds hlock hremoved⟩
    | _ => cases hwaits
  | returned => cases hwaits

theorem eq_remove_of_waitsWrite (hwaits : call.atTerminals = .waitsWrite t) :
    call = .release (.remove t) := by
  cases call with
  | release place =>
    cases place with
    | remove u => rw [Stand.waitsWrite.inj hwaits]
    | _ => cases hwaits
  | waiter place => cases place <;> cases hwaits
  | waitForExit place => cases place <;> cases hwaits
  | getOutput place => cases place <;> cases hwaits
  | kill place => cases place <;> cases hwaits
  | returned => cases hwaits

theorem atTerminals_ne_holdsWrite (call : Call) : call.atTerminals ≠ .holdsWrite := by
  cases call with
  | waiter place => cases place <;> nofun
  | waitForExit place => cases place <;> nofun
  | getOutput place => cases place <;> nofun
  | kill place => cases place <;> nofun
  | release place => cases place <;> nofun
  | returned => nofun

theorem holdsWrite_not_mem_atTerminals (calls : List Call) :
    Stand.holdsWrite ∉ calls.map Call.atTerminals := by
  intro h
  obtain ⟨writer, -, hwrites⟩ := List.mem_map.mp h
  exact atTerminals_ne_holdsWrite writer hwrites

theorem canGo_of_terminals (hinv : Moving terminal calls) (hended : terminal.child.ended ≠ none)
    (hmem : call ∈ calls) (hstands : call.atTerminals ≠ .away) : CanGo terminal calls := by
  have hgo : ∀ {mover terminal' call'}, mover ∈ calls → Move terminal calls mover terminal' call' →
      CanGo terminal calls := fun hmover hmove =>
    .inl ⟨_, hmover, fun _ => .inl (.inr hended), _, _, hmove⟩
  by_cases hholder : Stand.holdsRead ∈ calls.map Call.atTerminals
  · obtain ⟨holder, hholder, hholds⟩ := List.mem_map.mp hholder
    by_cases haway : holder.atProcess = .away
    · obtain ⟨_, _, hmove⟩ := exists_move_of_unblocked hholds haway
      exact hgo hholder hmove
    · exact canGo_of_process hinv hholder haway
  · have hstand := List.mem_map_of_mem (f := Call.atTerminals) hmem
    have hwaits : ∃ t, .waitsRead t ∈ calls.map Call.atTerminals ∨
        .waitsWrite t ∈ calls.map Call.atTerminals := by
      cases hcall : call.atTerminals with
      | away => exact absurd hcall hstands
      | holdsRead => exact absurd (hcall ▸ hstand) hholder
      | holdsWrite => exact absurd hcall (atTerminals_ne_holdsWrite call)
      | waitsRead t => exact ⟨t, .inl (hcall ▸ hstand)⟩
      | waitsWrite t => exact ⟨t, .inr (hcall ▸ hstand)⟩
    obtain ⟨t, ⟨hfirst, hlock⟩ | ⟨hfirst, hlock⟩⟩ :=
      exists_granted hholder (holdsWrite_not_mem_atTerminals calls) hwaits
    · obtain ⟨first, hfirst, hfirstWaits⟩ := List.mem_map.mp hfirst
      obtain ⟨_, _, hmove⟩ := exists_move_of_listed hfirstWaits hlock
      exact hgo hfirst hmove
    · obtain ⟨first, hfirst, hfirstWaits⟩ := List.mem_map.mp hfirst
      obtain rfl := eq_remove_of_waitsWrite hfirstWaits
      exact hgo hfirst (.releaseRemoves hlock)

theorem Call.IsStop.listed (hpending : call.IsStop) :
    ¬ call.Asks ∧ call.atTerminals ≠ .away := by
  cases call with
  | kill place => cases place <;> exact ⟨id, nofun⟩
  | release place => cases place <;> exact ⟨id, nofun⟩
  | _ => cases hpending

theorem canGo_of_pending (hinv : Moving terminal calls) (hmem : call ∈ calls)
    (hpending : call.IsStop) : CanGo terminal calls := by
  obtain ⟨hasks, hlisted⟩ := hpending.listed
  by_cases haway : call.atProcess = .away
  · cases hcall : call.atTerminals with
    | away => exact absurd hcall hlisted
    | holdsRead =>
      obtain ⟨_, _, hmove⟩ := exists_move_of_unblocked hcall haway
      exact canGo_of_move hmem hasks hmove
    | holdsWrite => exact absurd hcall (atTerminals_ne_holdsWrite call)
    | waitsRead t =>
      by_cases hwriter : ∃ u, .waitsWrite u ∈ calls.map Call.atTerminals
      · obtain ⟨u, hwriter⟩ := hwriter
        obtain ⟨writer, hwriter, hwaits⟩ := List.mem_map.mp hwriter
        obtain rfl := eq_remove_of_waitsWrite hwaits
        exact canGo_of_terminals hinv (hinv.knows _ hwriter) hmem hlisted
      · have hlock : GrantsRead (calls.map Call.atTerminals) t :=
          ⟨holdsWrite_not_mem_atTerminals calls, fun u hu => absurd ⟨u, hu⟩ hwriter⟩
        obtain ⟨_, _, hmove⟩ := exists_move_of_listed hcall hlock
        exact canGo_of_move hmem hasks hmove
    | waitsWrite t =>
      obtain rfl := eq_remove_of_waitsWrite hcall
      exact canGo_of_terminals hinv (hinv.knows _ hmem) hmem hlisted
  · exact canGo_of_process hinv hmem haway

namespace Manager

variable {s s' : Manager} {event : Event} {i : Nat}

theorem moving_step (hinv : Moving s.terminal s.calls) (hmeets : s.Meets event)
    (hstep : s.Step event s') : Moving s'.terminal s'.calls := by
  cases event with
  | call request =>
    obtain rfl := hstep
    constructor
    · intro other hother
      rcases List.mem_append.mp hother with hother | hother
      · have hboth := hinv.tickets other hother
        exact ⟨hboth.1.mono (Nat.le_succ _), hboth.2.mono (Nat.le_succ _)⟩
      · obtain rfl := List.mem_singleton.mp hother
        cases request <;> exact ⟨Nat.lt_succ_self _, trivial⟩
    · exact hinv.reaped
    · intro other hother
      rcases List.mem_append.mp hother with hother | hother
      · exact (hinv.knows other hother).append
      · obtain rfl := List.mem_singleton.mp hother
        cases request <;> trivial
  | advance i =>
    obtain ⟨before, call, after, terminal, call', hcalls, rfl, hmove, rfl⟩ := hstep
    have hget : s.calls[before.length]? = some call := by
      rw [hcalls]
      simp
    have hmem : call ∈ s.calls := List.mem_of_getElem? hget
    have hasked := hmeets call hget
    refine hinv.move hmove (hcalls ▸ replaces_split before after) hmem fun hasks => ?_
    cases call with
    | waiter place =>
      cases place with
      | terminals t => exact hasked
      | _ => cases hasks
    | waitForExit place =>
      cases place with
      | getStatus => exact hasked
      | _ => cases hasks
    | _ => cases hasks
  | childEnds how =>
    obtain ⟨-, -, rfl⟩ := hstep
    exact hinv.childEnds how

def left (s : Manager) : Nat :=
  (s.calls.map Call.rank).sum + if s.terminal.child.ended = none then 1 else 0

theorem left_lt_of_move {before after : List Call} {call call' : Call} {terminal : Terminal}
    (hcalls : s.calls = before ++ call :: after)
    (hmove : Move s.terminal s.calls call terminal call') :
    left ⟨terminal, before ++ call' :: after⟩ < s.left := by
  have hrank := hmove.rank_lt
  rw [left, left, hcalls, hmove.ended]
  simp only [List.map_append, List.map_cons, List.sum_append, List.sum_cons]
  omega

theorem getElem?_split_of_ne {before after : List Call} {call' : Call} (call : Call)
    (hi : before.length ≠ i) :
    (before ++ call' :: after)[i]? = (before ++ call :: after)[i]? := by grind

theorem not_stuck (hinv : Moving s.terminal s.calls) (i : Nat) : ¬ s.Stuck i := by
  intro hstuck
  obtain ⟨hpending, hnever⟩ := hstuck
  have hgoes : ∃ steps, Trace Step s steps ∧ ∃ x ∈ steps, x.1 = .advance i := by
    refine Trace.exists_wanted (I := fun s => Moving s.terminal s.calls ∧ s.Pending i)
      (W := fun event => event = Event.advance i) left ?_ ⟨hinv, hpending⟩
    intro s ⟨hinv, call, hget, hstop⟩
    rcases canGo_of_pending hinv (List.mem_of_getElem? hget) hstop with
      ⟨mover, hmover, hasks, terminal, mover', hmove⟩ | ⟨halive, hsent⟩
    · obtain ⟨before, after, hcalls⟩ := List.append_of_mem hmover
      refine ⟨.advance before.length, ⟨terminal, before ++ mover' :: after⟩,
        ⟨before, mover, after, terminal, mover', hcalls, rfl, hmove, rfl⟩, ?_⟩
      by_cases hi : before.length = i
      · exact .inl (by rw [hi])
      · refine .inr ⟨⟨hinv.move hmove (hcalls ▸ replaces_split before after) hmover hasks, call, ?_,
          hstop⟩, left_lt_of_move hcalls hmove⟩
        rw [hcalls] at hget
        exact (getElem?_split_of_ne _ hi).trans hget
    · obtain ⟨sig, hsig⟩ := List.exists_mem_of_ne_nil _ hsent
      refine ⟨.childEnds (.signaled sig), _, ⟨halive, hsig, rfl⟩, .inr ⟨⟨hinv.childEnds _, call,
        hget, hstop⟩, ?_⟩⟩
      rw [left, left, if_pos halive]
      exact Nat.lt_succ_self _
  obtain ⟨steps, htrace, x, hx, hevent⟩ := hgoes
  exact hnever steps htrace x hx i hevent rfl

end Manager

end SwissArmyHammer.Terminals
