import SwissArmyHammer.Common.Traces
import SwissArmyHammer.Concurrency.Interleaving

/-! The calls on one terminal, cut at their awaits: the waiter task, `wait_for_exit`, `get_output`,
`kill_terminal` and `release_terminal`. -/

namespace SwissArmyHammer.Terminals

open Concurrency

inductive TerminalState
  | created | running | finished | killed | released
  deriving DecidableEq

structure ExitStatus where
  exitCode : Option Int
  signal : Option String
  deriving DecidableEq

inductive End
  | exited (code : Int)
  | signaled (sig : Nat)

def End.code : End → Option Int
  | .exited code => some code
  | .signaled _ => none

def getSignalName : End → Option String
  | .exited _ => none
  | .signaled 1 => some "SIGHUP"
  | .signaled 2 => some "SIGINT"
  | .signaled 9 => some "SIGKILL"
  | .signaled 15 => some "SIGTERM"
  | .signaled sig => some ("signal " ++ toString sig)

def statusOf (how : End) : ExitStatus := ⟨how.code, getSignalName how⟩

abbrev sigterm : Nat := 15

abbrev sigkill : Nat := 9

/-- A child ends only when it was sent a signal; it may catch SIGTERM and exit. Once a wait has
returned its end, it has no process id. -/
structure Child where
  sent : List Nat
  ended : Option End
  reaped : Bool

def Child.MayEnd (child : Child) : End → Prop
  | .exited _ => sigterm ∈ child.sent
  | .signaled sig => sig ∈ child.sent

structure Terminal where
  tickets : Nat
  child : Child
  exitStatus : Option ExitStatus
  state : TerminalState
  removed : Bool
  answers : List (Option ExitStatus)

namespace Terminal

variable (terminal : Terminal)

def draw : Terminal := { terminal with tickets := terminal.tickets + 1 }

def answer (status : Option ExitStatus) : Terminal :=
  { terminal with answers := terminal.answers ++ [status] }

def send (sig : Nat) : Terminal :=
  { terminal with child := { terminal.child with sent := terminal.child.sent ++ [sig] } }

def reap : Terminal := { terminal with child := { terminal.child with reaped := true } }

def setExitStatus (status : ExitStatus) : Terminal := { terminal with exitStatus := some status }

def setState (state : TerminalState) : Terminal := { terminal with state := state }

def remove : Terminal := { terminal with removed := true }

end Terminal

inductive Waiter
  | stderr
  | terminals (ticket : Nat)
  | process (ticket : Nat)
  | wait
  | setStatus (status : ExitStatus)
  | setState

inductive WaitForExit
  | terminals (ticket : Nat)
  | getTerminal
  | validate
  | getStatus
  | process (ticket : Nat)
  | wait
  | setStatus (status : ExitStatus)
  | setState (status : ExitStatus)

inductive GetOutput
  | terminals (ticket : Nat)
  | getTerminal
  | getStatus

inductive Kill
  | terminals (ticket : Nat)
  | getTerminal
  | validate
  | isFinished
  | pid (ticket : Nat)
  | sigterm
  | graceful (ticket : Nat)
  | gracefulWait
  | setStatus (status : ExitStatus)
  | sigkill
  | forced (ticket : Nat)
  | forcedWait
  | setForced (status : ExitStatus)
  | setState

inductive Release
  | terminals (ticket : Nat)
  | process (ticket : Nat)
  | startKill
  | wait
  | setState
  | remove (ticket : Nat)

inductive Call
  | waiter (place : Waiter)
  | waitForExit (place : WaitForExit)
  | getOutput (place : GetOutput)
  | kill (place : Kill)
  | release (place : Release)
  | returned

def Call.atTerminals : Call → Stand
  | .waiter (.terminals t) | .waitForExit (.terminals t) | .getOutput (.terminals t)
  | .kill (.terminals t) | .release (.terminals t) => .waitsRead t
  | .release (.remove t) => .waitsWrite t
  | .waiter .stderr | .returned => .away
  | _ => .holdsRead

def Call.atProcess : Call → Stand
  | .waiter (.process t) | .waitForExit (.process t) | .release (.process t)
  | .kill (.graceful t) | .kill (.forced t) => .waitsWrite t
  | .kill (.pid t) => .waitsRead t
  | .waiter .wait | .waiter (.setStatus _) | .waiter .setState | .waitForExit .wait
  | .kill .gracefulWait | .kill .forcedWait | .kill (.setForced _)
  | .release .startKill | .release .wait => .holdsWrite
  | _ => .away

inductive Move (terminal : Terminal) (calls : List Call) : Call → Terminal → Call → Prop
  -- the waiter task
  | stderrCloses :
    Move terminal calls (.waiter .stderr) terminal.draw (.waiter (.terminals terminal.tickets))
  | waiterMisses {t : Nat} (hlock : GrantsRead (calls.map Call.atTerminals) t)
    (hremoved : terminal.removed = true) :
    Move terminal calls (.waiter (.terminals t)) terminal .returned
  | waiterFinds {t : Nat} (hlock : GrantsRead (calls.map Call.atTerminals) t)
    (hremoved : terminal.removed = false) :
    Move terminal calls (.waiter (.terminals t)) terminal.draw (.waiter (.process terminal.tickets))
  | waiterLocks {t : Nat} (hlock : GrantsWrite (calls.map Call.atProcess) t) :
    Move terminal calls (.waiter (.process t)) terminal (.waiter .wait)
  | waiterReaps {how : End} (hended : terminal.child.ended = some how) :
    Move terminal calls (.waiter .wait) terminal.reap (.waiter (.setStatus ⟨how.code, none⟩))
  | waiterStores {status : ExitStatus} :
    Move terminal calls (.waiter (.setStatus status)) (terminal.setExitStatus status)
      (.waiter .setState)
  | waiterMarks :
    Move terminal calls (.waiter .setState) (terminal.setState .finished) .returned
  -- wait_for_exit
  | waitMisses {t : Nat} (hlock : GrantsRead (calls.map Call.atTerminals) t)
    (hremoved : terminal.removed = true) :
    Move terminal calls (.waitForExit (.terminals t)) terminal .returned
  | waitFinds {t : Nat} (hlock : GrantsRead (calls.map Call.atTerminals) t)
    (hremoved : terminal.removed = false) :
    Move terminal calls (.waitForExit (.terminals t)) terminal (.waitForExit .getTerminal)
  | waitRefused (hstate : terminal.state = .released) :
    Move terminal calls (.waitForExit .getTerminal) terminal .returned
  | waitGets (hstate : terminal.state ≠ .released) :
    Move terminal calls (.waitForExit .getTerminal) terminal (.waitForExit .validate)
  | waitRefusedAgain (hstate : terminal.state = .released) :
    Move terminal calls (.waitForExit .validate) terminal .returned
  | waitValidates (hstate : terminal.state ≠ .released) :
    Move terminal calls (.waitForExit .validate) terminal (.waitForExit .getStatus)
  | waitKnows {status : ExitStatus} (hstatus : terminal.exitStatus = some status) :
    Move terminal calls (.waitForExit .getStatus) (terminal.answer (some status)) .returned
  | waitAsks (hstatus : terminal.exitStatus = none) :
    Move terminal calls (.waitForExit .getStatus) terminal.draw
      (.waitForExit (.process terminal.tickets))
  | waitLocks {t : Nat} (hlock : GrantsWrite (calls.map Call.atProcess) t) :
    Move terminal calls (.waitForExit (.process t)) terminal (.waitForExit .wait)
  | waitReaps {how : End} (hended : terminal.child.ended = some how) :
    Move terminal calls (.waitForExit .wait) terminal.reap (.waitForExit (.setStatus (statusOf how)))
  | waitStores {status : ExitStatus} :
    Move terminal calls (.waitForExit (.setStatus status)) (terminal.setExitStatus status)
      (.waitForExit (.setState status))
  | waitMarks {status : ExitStatus} :
    Move terminal calls (.waitForExit (.setState status))
      ((terminal.setState .finished).answer (some status)) .returned
  -- get_output
  | outputMisses {t : Nat} (hlock : GrantsRead (calls.map Call.atTerminals) t)
    (hremoved : terminal.removed = true) :
    Move terminal calls (.getOutput (.terminals t)) terminal .returned
  | outputFinds {t : Nat} (hlock : GrantsRead (calls.map Call.atTerminals) t)
    (hremoved : terminal.removed = false) :
    Move terminal calls (.getOutput (.terminals t)) terminal (.getOutput .getTerminal)
  | outputRefused (hstate : terminal.state = .released) :
    Move terminal calls (.getOutput .getTerminal) terminal .returned
  | outputGets (hstate : terminal.state ≠ .released) :
    Move terminal calls (.getOutput .getTerminal) terminal (.getOutput .getStatus)
  | outputAnswers :
    Move terminal calls (.getOutput .getStatus) (terminal.answer terminal.exitStatus) .returned
  -- kill_terminal
  | killMisses {t : Nat} (hlock : GrantsRead (calls.map Call.atTerminals) t)
    (hremoved : terminal.removed = true) :
    Move terminal calls (.kill (.terminals t)) terminal .returned
  | killFinds {t : Nat} (hlock : GrantsRead (calls.map Call.atTerminals) t)
    (hremoved : terminal.removed = false) :
    Move terminal calls (.kill (.terminals t)) terminal (.kill .getTerminal)
  | killRefused (hstate : terminal.state = .released) :
    Move terminal calls (.kill .getTerminal) terminal .returned
  | killGets (hstate : terminal.state ≠ .released) :
    Move terminal calls (.kill .getTerminal) terminal (.kill .validate)
  | killRefusedAgain (hstate : terminal.state = .released) :
    Move terminal calls (.kill .validate) terminal .returned
  | killValidates (hstate : terminal.state ≠ .released) :
    Move terminal calls (.kill .validate) terminal (.kill .isFinished)
  | killSkips (hstate : terminal.state = .finished) :
    Move terminal calls (.kill .isFinished) terminal .returned
  | killAsks (hstate : terminal.state ≠ .finished) :
    Move terminal calls (.kill .isFinished) terminal.draw (.kill (.pid terminal.tickets))
  | killNoPid {t : Nat} (hlock : GrantsRead (calls.map Call.atProcess) t)
    (hreaped : terminal.child.reaped = true) :
    Move terminal calls (.kill (.pid t)) terminal (.kill .setState)
  | killPid {t : Nat} (hlock : GrantsRead (calls.map Call.atProcess) t)
    (hreaped : terminal.child.reaped = false) :
    Move terminal calls (.kill (.pid t)) terminal (.kill .sigterm)
  | killTermFails (hreaped : terminal.child.reaped = true) :
    Move terminal calls (.kill .sigterm) terminal .returned
  | killTerms (hreaped : terminal.child.reaped = false) :
    Move terminal calls (.kill .sigterm) (terminal.send sigterm).draw
      (.kill (.graceful terminal.tickets))
  | killLocks {t : Nat} (hlock : GrantsWrite (calls.map Call.atProcess) t) :
    Move terminal calls (.kill (.graceful t)) terminal (.kill .gracefulWait)
  | killReaps {how : End} (hended : terminal.child.ended = some how) :
    Move terminal calls (.kill .gracefulWait) terminal.reap (.kill (.setStatus (statusOf how)))
  | killStores {status : ExitStatus} :
    Move terminal calls (.kill (.setStatus status)) (terminal.setExitStatus status) (.kill .setState)
  | killTimesOut {t : Nat} :
    Move terminal calls (.kill (.graceful t)) terminal (.kill .sigkill)
  | killWaitTimesOut :
    Move terminal calls (.kill .gracefulWait) terminal (.kill .sigkill)
  | killKillFails (hreaped : terminal.child.reaped = true) :
    Move terminal calls (.kill .sigkill) terminal .returned
  | killKills (hreaped : terminal.child.reaped = false) :
    Move terminal calls (.kill .sigkill) (terminal.send sigkill).draw
      (.kill (.forced terminal.tickets))
  | killForces {t : Nat} (hlock : GrantsWrite (calls.map Call.atProcess) t) :
    Move terminal calls (.kill (.forced t)) terminal (.kill .forcedWait)
  | killForcedReaps {how : End} (hended : terminal.child.ended = some how) :
    Move terminal calls (.kill .forcedWait) terminal.reap
      (.kill (.setForced ⟨how.code, some "SIGKILL"⟩))
  | killForcedStores {status : ExitStatus} :
    Move terminal calls (.kill (.setForced status)) (terminal.setExitStatus status) (.kill .setState)
  | killMarks :
    Move terminal calls (.kill .setState) (terminal.setState .killed) .returned
  -- release_terminal
  | releaseMisses {t : Nat} (hlock : GrantsRead (calls.map Call.atTerminals) t)
    (hremoved : terminal.removed = true) :
    Move terminal calls (.release (.terminals t)) terminal .returned
  | releaseFinds {t : Nat} (hlock : GrantsRead (calls.map Call.atTerminals) t)
    (hremoved : terminal.removed = false) :
    Move terminal calls (.release (.terminals t)) terminal.draw
      (.release (.process terminal.tickets))
  | releaseLocks {t : Nat} (hlock : GrantsWrite (calls.map Call.atProcess) t) :
    Move terminal calls (.release (.process t)) terminal (.release .startKill)
  | releaseKillFails (hreaped : terminal.child.reaped = true) :
    Move terminal calls (.release .startKill) terminal (.release .setState)
  | releaseKills (hreaped : terminal.child.reaped = false) :
    Move terminal calls (.release .startKill) (terminal.send sigkill) (.release .wait)
  | releaseReaps {how : End} (hended : terminal.child.ended = some how) :
    Move terminal calls (.release .wait) terminal.reap (.release .setState)
  | releaseMarks :
    Move terminal calls (.release .setState) (terminal.setState .released).draw
      (.release (.remove terminal.tickets))
  | releaseRemoves {t : Nat} (hlock : GrantsWrite (calls.map Call.atTerminals) t) :
    Move terminal calls (.release (.remove t)) terminal.remove .returned

/-- A `kill_terminal` or `release_terminal` that has not returned. -/
def Call.IsStop : Call → Prop
  | .kill _ | .release _ => True
  | .waiter _ | .waitForExit _ | .getOutput _ | .returned => False

structure Manager where
  terminal : Terminal
  calls : List Call

inductive Request
  | waitForExit | getOutput | kill | release

def Request.first (ticket : Nat) : Request → Call
  | .waitForExit => .waitForExit (.terminals ticket)
  | .getOutput => .getOutput (.terminals ticket)
  | .kill => .kill (.terminals ticket)
  | .release => .release (.terminals ticket)

inductive Event
  | call (request : Request)
  | advance (i : Nat)
  | childEnds (how : End)

namespace Manager

def start (missed : Bool) : Manager :=
  ⟨⟨0, ⟨[], none, false⟩, none, .running, false, []⟩,
    [if missed then .returned else .waiter .stderr]⟩

def Step (s : Manager) : Event → Manager → Prop
  | .call request, s' =>
    s' = ⟨s.terminal.draw, s.calls ++ [request.first s.terminal.tickets]⟩
  | .advance i, s' => ∃ before call after terminal call', s.calls = before ++ call :: after ∧
    before.length = i ∧ Move s.terminal s.calls call terminal call' ∧
    s' = ⟨terminal, before ++ call' :: after⟩
  | .childEnds how, s' => s.terminal.child.ended = none ∧ s.terminal.child.MayEnd how ∧
    s' = { s with terminal := { s.terminal with
      child := { s.terminal.child with ended := some how } } }

variable (s : Manager)

def Pending (i : Nat) : Prop := ∃ call, s.calls[i]? = some call ∧ call.IsStop

def Stuck (i : Nat) : Prop :=
  s.Pending i ∧ ∀ steps, Trace Step s steps → ∀ x ∈ steps, ∀ j, x.1 = .advance j → j ≠ i

def DiedOfSignal : Prop := ∃ sig, s.terminal.child.ended = some (.signaled sig)

def OneExit : Prop :=
  s.terminal.answers.Pairwise (fun earlier later => earlier ≠ none → later = earlier) ∧
    ∀ status, some status ∈ s.terminal.answers → (status.signal ≠ none ↔ s.DiedOfSignal)

def Stoppable (s s' : Manager) : Prop :=
  (∀ i, ¬ s'.Stuck i) ∧ s'.OneExit ∧
    (s.terminal.state = .released → s'.terminal.state = .released)

end Manager

def Terminal.Signalled (terminal : Terminal) : Prop :=
  terminal.child.sent ≠ [] ∨ terminal.child.ended ≠ none

def Call.Stopping : Call → Prop
  | .kill (.pid _) | .kill .sigterm | .release (.process _) | .release .startKill => True
  | _ => False

def Call.Marking : Call → Prop
  | .waiter .stderr => False
  | .waiter _ => True
  | .waitForExit (.terminals _) | .waitForExit .getTerminal | .waitForExit .validate => False
  | .waitForExit _ => True
  | .kill (.terminals _) | .kill .getTerminal | .kill .validate => False
  | .kill _ => True
  | .getOutput _ | .release _ | .returned => False

/-- The lock that a kill needs is asked for by a wait only where the child is being stopped; the
waiter task waits for a child that exits, and the forced kill for one that it killed; and the
terminal is released where no other call is about to set its state. -/
def Call.Meets (s : Manager) : Call → Prop
  | .waiter (.terminals _) | .waitForExit .getStatus =>
    s.terminal.Signalled ∨ ∃ other ∈ s.calls, other.Stopping
  | .waiter .wait => ¬ s.DiedOfSignal
  | .kill .forcedWait => ∀ how, s.terminal.child.ended = some how → how = .signaled sigkill
  | .release .setState => ∀ other ∈ s.calls, ¬ other.Marking
  | _ => True

def Manager.Meets (s : Manager) : Event → Prop
  | .advance i => ∀ call, s.calls[i]? = some call → call.Meets s
  | .call _ | .childEnds _ => True

end SwissArmyHammer.Terminals
