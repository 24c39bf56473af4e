/-
Running actors: turns, passes and settling.

The run queue is first in, first out. A pass gives a turn to everyone who was in the queue when it began;
settling repeats passes until one finds the queue empty.
-/
import Dataflow.Actor.Turn

set_option autoImplicit false

namespace Dataflow.SystemM

/-- Gives a turn to the first actor in the run queue; the answer is whether there was one. -/
def runNext : SystemM Bool := do
  match ← read (·.runQueue) with
  | [] => return false
  | n :: rest =>
    change fun sys => { sys with runQueue := rest }
    turn n
    return true

/-- Gives that many turns. -/
def runTurns : (turns : Nat) → SystemM Unit
  | 0 => return ()
  | turns + 1 => do
    let _ ← runNext
    runTurns turns

/-- Gives a turn to everyone who is in the run queue; the answer is how many there were. -/
def pass : SystemM Nat := do
  let turns ← read (·.runQueue.length)
  runTurns turns
  return turns

/-- Runs at most `passes` passes, until one has nothing to do; the answer is whether none of them had. -/
def settlePasses : (passes : Nat) → SystemM Bool
  | 0 => return true
  | passes + 1 => do
    if (← pass) = 0 then return false else settlePasses passes

/-- The largest number of passes of a settlement. -/
def maxPasses : Nat := 100

/-- Runs the system until it is idle, or for the largest number of passes. The answer is what was done, and
whether the system is still busy. -/
def settleAll : SystemM (TurnStats × Bool) := do
  let before ← read (·.executor.stats)
  let busy ← settlePasses maxPasses
  let after ← read (·.executor.stats)
  return (after.since before, busy)

/-- The answer that a client has got. -/
def answerOf (client : Nat) : SystemM (Option Value) := do
  return (← read (·.clients.lookup client)).bind Client.answer

/-- Gives turns until a client has its answer or the system is idle, but at most `turns`. -/
def runUntilAnswered (client : Nat) : (turns : Nat) → SystemM Unit
  | 0 => return ()
  | turns + 1 => do
    match ← answerOf client with
    | some _ => return ()
    | none => if ← runNext then runUntilAnswered client turns else return ()

end Dataflow.SystemM
