/-
Outcomes: which kinds of steps an actor takes when one of its computations has ended.

Reading its handlers, or completing the answer that it owes, is composed of steps as instructions are, so what holds of
instructions because of their steps holds of outcomes too.
-/
import Dataflow.Actor.Turn
import Dataflow.Proofs.Kinds

set_option autoImplicit false

namespace Dataflow

/-- A settled value is asked for, or waited for. Nothing else is done. -/
theorem Action.uses_settled (t : Term) : (settled t).Uses [.ask, .wait] := by
  refine Step.bind (.ask (.resolve t)) rfl fun u => ?_
  cases u with
  | val v => exact uses_pure v
  | var x => exact Step.uses (.wait x) rfl

namespace Handlers

theorem uses_read (t : Term) : (read t).Uses [.ask, .wait, .fault] := by
  refine (Action.uses_settled t).bind rfl fun v => ?_
  split
  · exact Action.uses_pure _
  · exact Action.uses_pure _
  · exact Action.Step.uses (.fault (Value.plain_mismatch _ _)) rfl

theorem uses_ofVar (x : VarId) : (ofVar x).Uses [.ask, .wait, .fault, .text] := by
  refine (Action.uses_settled (.var x)).bind rfl fun v => ?_
  refine (Action.uses_ofExcept fun _ => Value.plain_of_asRecord (v := v)).bind rfl fun r => ?_
  refine Action.Step.bind (.ask (.record r id)) rfl fun record => ?_
  split
  · exact (uses_read _).bind rfl fun ask => (uses_read _).bind rfl fun tell => Action.uses_pure _
  · exact Action.Step.uses (.mismatch _ v) rfl

end Handlers

/-- What a task does to find out what it has come to. -/
theorem SystemM.uses_outcome (task : Task) : (outcome task).Uses [.ask, .wait, .fault, .text, .complete] := by
  cases task with
  | configure result => exact (Handlers.uses_ofVar result).bind rfl fun _ => Action.uses_pure _
  | answer requester target response => exact Action.Step.bind (.complete _) rfl fun _ => Action.uses_pure _
  | notify => exact Action.uses_pure _

end Dataflow
