import SwissArmyHammer.Terminals.Terminal

/-! Whoever holds the lock of the process waits for a child that is being stopped. -/

namespace SwissArmyHammer.Terminals

open Concurrency

variable {terminal terminal' : Terminal} {calls calls' : List Call} {call call' other : Call}
  {t : Nat}

structure Replaces (call call' : Call) (calls calls' : List Call) : Prop where
  mem : call' ∈ calls'
  others : ∀ other ∈ calls, other = call ∨ other ∈ calls'
  origin : ∀ other ∈ calls', other = call' ∨ other ∈ calls

theorem replaces_split (before after : List Call) :
    Replaces call call' (before ++ call :: after) (before ++ call' :: after) where
  mem := List.mem_append_right _ List.mem_cons_self
  others other h := by grind
  origin other h := by grind

def Call.StopsBefore (t : Nat) : Call → Prop
  | .kill (.pid u) | .release (.process u) => u < t
  | .kill .sigterm | .release .startKill => True
  | _ => False

def Call.Knows (terminal : Terminal) (calls : List Call) : Call → Prop
  | .waiter (.process t) | .waitForExit (.process t) =>
    terminal.Signalled ∨ ∃ other ∈ calls, other.StopsBefore t
  | .waiter .wait | .waitForExit .wait => terminal.Signalled ∨ .kill .sigterm ∈ calls
  | .kill (.graceful _) | .kill .gracefulWait | .kill .sigkill | .kill (.forced _)
  | .kill .forcedWait | .release .wait => terminal.Signalled
  | .release .setState | .release (.remove _) => terminal.child.ended ≠ none
  | _ => True

structure Moving (terminal : Terminal) (calls : List Call) : Prop where
  tickets : ∀ call ∈ calls, Stand.Below terminal.tickets call.atTerminals ∧
    Stand.Below terminal.tickets call.atProcess
  reaped : terminal.child.reaped = true → terminal.child.ended ≠ none
  knows : ∀ call ∈ calls, call.Knows terminal calls

theorem moving_start (missed : Bool) :
    Moving (Manager.start missed).terminal (Manager.start missed).calls where
  tickets call h := by
    obtain rfl := List.mem_singleton.mp h
    cases missed with
    | true => exact ⟨trivial, trivial⟩
    | false => exact ⟨trivial, trivial⟩
  reaped h := by cases h
  knows call h := by
    obtain rfl := List.mem_singleton.mp h
    cases missed with
    | true => trivial
    | false => trivial

theorem Move.ended (h : Move terminal calls call terminal' call') :
    terminal'.child.ended = terminal.child.ended := by
  cases h <;> rfl

theorem Move.signalled (h : Move terminal calls call terminal' call')
    (hsignalled : terminal.Signalled) : terminal'.Signalled := by
  have hsent : ∀ sig, (terminal.send sig).Signalled := fun sig =>
    .inl (List.append_ne_nil_of_right_ne_nil _ (List.cons_ne_nil _ _))
  cases h <;> first | exact hsignalled | exact hsent _

theorem Move.tickets_le (h : Move terminal calls call terminal' call') :
    terminal.tickets ≤ terminal'.tickets := by
  cases h <;> first | exact Nat.le_refl _ | exact Nat.le_succ _

theorem Move.below (h : Move terminal calls call terminal' call') :
    Stand.Below terminal'.tickets call'.atTerminals ∧
      Stand.Below terminal'.tickets call'.atProcess := by
  cases h <;> exact ⟨by first | trivial | exact Nat.lt_succ_self _,
    by first | trivial | exact Nat.lt_succ_self _⟩

theorem Move.reaped (h : Move terminal calls call terminal' call')
    (hreaped : terminal.child.reaped = true → terminal.child.ended ≠ none) :
    terminal'.child.reaped = true → terminal'.child.ended ≠ none := by
  rw [h.ended]
  intro hreaped'
  cases h with
  | waiterReaps hended =>
    rw [hended]
    exact Option.some_ne_none _
  | waitReaps hended =>
    rw [hended]
    exact Option.some_ne_none _
  | killReaps hended =>
    rw [hended]
    exact Option.some_ne_none _
  | killForcedReaps hended =>
    rw [hended]
    exact Option.some_ne_none _
  | releaseReaps hended =>
    rw [hended]
    exact Option.some_ne_none _
  | _ => exact hreaped hreaped'

theorem Move.stopsBefore (h : Move terminal calls call terminal' call')
    (hreaped : terminal.child.reaped = true → terminal.child.ended ≠ none)
    (hstops : call.StopsBefore t) : terminal'.Signalled ∨ call'.StopsBefore t := by
  have hsent : ∀ sig, (terminal.send sig).Signalled := fun sig =>
    .inl (List.append_ne_nil_of_right_ne_nil _ (List.cons_ne_nil _ _))
  cases h with
  | killNoPid hlock hgone => exact .inl (.inr (hreaped hgone))
  | killPid hlock hgone => exact .inr trivial
  | killTermFails hgone => exact .inl (.inr (hreaped hgone))
  | killTerms hgone => exact .inl (hsent _)
  | releaseLocks hlock => exact .inr trivial
  | releaseKillFails hgone => exact .inl (.inr (hreaped hgone))
  | releaseKills hgone => exact .inl (hsent _)
  | _ => cases hstops

theorem Move.sigterm (h : Move terminal calls (.kill .sigterm) terminal' call')
    (hreaped : terminal.child.reaped = true → terminal.child.ended ≠ none) :
    terminal'.Signalled := by
  rcases h.stopsBefore (t := 0) hreaped trivial with h' | h'
  · exact h'
  · cases h with
    | killTermFails hgone => exact .inr (hreaped hgone)
    | killTerms hgone =>
      exact .inl (List.append_ne_nil_of_right_ne_nil _ (List.cons_ne_nil _ _))

theorem Call.Knows.step (hknows : other.Knows terminal calls)
    (h : Move terminal calls call terminal' call') (hreplaces : Replaces call call' calls calls')
    (hreaped : terminal.child.reaped = true → terminal.child.ended ≠ none) :
    other.Knows terminal' calls' := by
  have hqueue : ∀ t, (terminal.Signalled ∨ ∃ other ∈ calls, other.StopsBefore t) →
      terminal'.Signalled ∨ ∃ other ∈ calls', other.StopsBefore t := by
    rintro t (hsignalled | ⟨other, hmem, hstops⟩)
    · exact .inl (h.signalled hsignalled)
    · rcases hreplaces.others other hmem with rfl | hmem'
      · rcases h.stopsBefore hreaped hstops with hsignalled | hstops'
        · exact .inl hsignalled
        · exact .inr ⟨call', hreplaces.mem, hstops'⟩
      · exact .inr ⟨other, hmem', hstops⟩
  have hholder : (terminal.Signalled ∨ .kill .sigterm ∈ calls) →
      terminal'.Signalled ∨ .kill .sigterm ∈ calls' := by
    rintro (hsignalled | hmem)
    · exact .inl (h.signalled hsignalled)
    · rcases hreplaces.others _ hmem with rfl | hmem'
      · exact .inl (h.sigterm hreaped)
      · exact .inr hmem'
  have hended : terminal.child.ended ≠ none → terminal'.child.ended ≠ none := by
    rw [h.ended]
    exact id
  cases other with
  | waiter place =>
    cases place with
    | process t => exact hqueue t hknows
    | wait => exact hholder hknows
    | _ => trivial
  | waitForExit place =>
    cases place with
    | process t => exact hqueue t hknows
    | wait => exact hholder hknows
    | _ => trivial
  | kill place =>
    cases place with
    | graceful t => exact h.signalled hknows
    | gracefulWait => exact h.signalled hknows
    | sigkill => exact h.signalled hknows
    | forced t => exact h.signalled hknows
    | forcedWait => exact h.signalled hknows
    | _ => trivial
  | release place =>
    cases place with
    | wait => exact h.signalled hknows
    | setState => exact hended hknows
    | remove t => exact hended hknows
    | _ => trivial
  | getOutput place => trivial
  | returned => trivial

theorem Call.Knows.append {more : List Call} (hknows : other.Knows terminal calls) :
    other.Knows terminal.draw (calls ++ more) := by
  have hqueue : ∀ t, (terminal.Signalled ∨ ∃ other ∈ calls, other.StopsBefore t) →
      terminal.Signalled ∨ ∃ other ∈ calls ++ more, other.StopsBefore t := fun t =>
    Or.imp_right fun ⟨other, hmem, hstops⟩ => ⟨other, List.mem_append_left _ hmem, hstops⟩
  have hholder : (terminal.Signalled ∨ .kill .sigterm ∈ calls) →
      terminal.Signalled ∨ .kill .sigterm ∈ calls ++ more :=
    Or.imp_right fun hmem => List.mem_append_left _ hmem
  cases other with
  | waiter place =>
    cases place with
    | process t => exact hqueue t hknows
    | wait => exact hholder hknows
    | _ => trivial
  | waitForExit place =>
    cases place with
    | process t => exact hqueue t hknows
    | wait => exact hholder hknows
    | _ => trivial
  | kill place => cases place <;> exact hknows
  | release place => cases place <;> exact hknows
  | _ => trivial

def Call.Asks : Call → Prop
  | .waiter (.terminals _) | .waitForExit .getStatus => True
  | _ => False

theorem Call.Stopping.stopsBefore (h : call.Stopping)
    (hbelow : Stand.Below t call.atProcess) : call.StopsBefore t := by
  cases call with
  | kill place =>
    cases place with
    | pid u => exact hbelow
    | sigterm => trivial
    | _ => cases h
  | release place =>
    cases place with
    | process u => exact hbelow
    | startKill => trivial
    | _ => cases h
  | _ => cases h

theorem knows_of_granted (hlock : GrantsWrite (calls.map Call.atProcess) t)
    (h : terminal.Signalled ∨ ∃ other ∈ calls, other.StopsBefore t) :
    terminal.Signalled ∨ .kill .sigterm ∈ calls := by
  obtain ⟨-, hwrite, hreads, hwrites⟩ := hlock
  rcases h with h | ⟨other, hmem, hstops⟩
  · exact .inl h
  · have hstand := List.mem_map_of_mem (f := Call.atProcess) hmem
    cases other with
    | kill place =>
      cases place with
      | pid u =>
        have hle := hreads u hstand
        have hlt : u < t := hstops
        omega
      | sigterm => exact .inr hmem
      | _ => cases hstops
    | release place =>
      cases place with
      | process u =>
        have hle := hwrites u hstand
        have hlt : u < t := hstops
        omega
      | startKill => exact absurd hstand hwrite
      | _ => cases hstops
    | _ => cases hstops

theorem Move.knows (h : Move terminal calls call terminal' call') (hinv : Moving terminal calls)
    (hreplaces : Replaces call call' calls calls') (hmem : call ∈ calls)
    (hasks : call.Asks → terminal.Signalled ∨ ∃ other ∈ calls, other.Stopping) :
    call'.Knows terminal' calls' := by
  have hknows := hinv.knows call hmem
  have hqueue : call.Asks → ¬ call.Stopping →
      terminal.Signalled ∨ ∃ other ∈ calls', other.StopsBefore terminal.tickets := by
    intro hasked hnot
    rcases hasks hasked with hsignalled | ⟨other, hother, hstopping⟩
    · exact .inl hsignalled
    · rcases hreplaces.others other hother with rfl | hother'
      · exact absurd hstopping hnot
      · exact .inr ⟨other, hother', hstopping.stopsBefore (hinv.tickets other hother).2⟩
  have hsigterm : call ≠ .kill .sigterm → .kill .sigterm ∈ calls → .kill .sigterm ∈ calls' := by
    intro hne hsig
    rcases hreplaces.others _ hsig with heq | hmem'
    · exact absurd heq.symm hne
    · exact hmem'
  have hsent : ∀ sig, (terminal.send sig).Signalled := fun sig =>
    .inl (List.append_ne_nil_of_right_ne_nil _ (List.cons_ne_nil _ _))
  cases h with
  | waiterFinds hlock hremoved => exact hqueue trivial id
  | waiterLocks hlock => exact (knows_of_granted hlock hknows).imp_right (hsigterm nofun)
  | waitAsks hstatus => exact hqueue trivial id
  | waitLocks hlock => exact (knows_of_granted hlock hknows).imp_right (hsigterm nofun)
  | killTerms hgone => exact hsent _
  | killLocks hlock => exact hknows
  | killTimesOut => exact hknows
  | killWaitTimesOut => exact hknows
  | killKills hgone => exact hsent _
  | killForces hlock => exact hknows
  | releaseKills hgone => exact hsent _
  | releaseKillFails hgone => exact hinv.reaped hgone
  | releaseReaps hended =>
    change terminal.child.ended ≠ none
    rw [hended]
    exact Option.some_ne_none _
  | releaseMarks => exact hknows
  | _ => trivial

theorem Moving.move (hinv : Moving terminal calls) (h : Move terminal calls call terminal' call')
    (hreplaces : Replaces call call' calls calls') (hmem : call ∈ calls)
    (hasks : call.Asks → terminal.Signalled ∨ ∃ other ∈ calls, other.Stopping) :
    Moving terminal' calls' where
  tickets other hother := by
    rcases hreplaces.origin other hother with rfl | hother'
    · exact h.below
    · have hboth := hinv.tickets other hother'
      exact ⟨hboth.1.mono h.tickets_le, hboth.2.mono h.tickets_le⟩
  reaped := h.reaped hinv.reaped
  knows other hother := by
    rcases hreplaces.origin other hother with rfl | hother'
    · exact h.knows hinv hreplaces hmem hasks
    · exact (hinv.knows other hother').step h hreplaces hinv.reaped

theorem Moving.childEnds (hinv : Moving terminal calls) (how : End) :
    Moving { terminal with child := { terminal.child with ended := some how } } calls where
  tickets := hinv.tickets
  reaped _ := Option.some_ne_none _
  knows other hother := by
    have hsignalled : Terminal.Signalled
        { terminal with child := { terminal.child with ended := some how } } :=
      .inr (Option.some_ne_none _)
    cases other with
    | waiter place =>
      cases place with
      | process t => exact .inl hsignalled
      | wait => exact .inl hsignalled
      | _ => trivial
    | waitForExit place =>
      cases place with
      | process t => exact .inl hsignalled
      | wait => exact .inl hsignalled
      | _ => trivial
    | kill place =>
      cases place with
      | graceful t => exact hsignalled
      | gracefulWait => exact hsignalled
      | sigkill => exact hsignalled
      | forced t => exact hsignalled
      | forcedWait => exact hsignalled
      | _ => trivial
    | release place =>
      cases place with
      | wait => exact hsignalled
      | setState => exact Option.some_ne_none _
      | remove t => exact Option.some_ne_none _
      | _ => trivial
    | getOutput place => trivial
    | returned => trivial

end SwissArmyHammer.Terminals
