/-
What a computation runs for: its owner, the actor that it speaks for, who makes actors for it, and who
resumes it after it has waited.
-/
import Dataflow.Environment

set_option autoImplicit false

namespace Dataflow

/-- Who makes actors for a computation. -/
inductive Spawner where
  | absent
  /-- Makes none, for a reason. -/
  | refusing (reason : String)
  /-- Makes recorders. -/
  | recording
  /-- Makes live actors. -/
  | system
  deriving Repr, DecidableEq

/-- What a computation runs for. -/
structure Context where
  owner : Address
  actor : Option ActorRef := none
  spawner : Spawner := .absent
  resumer : Resumer

namespace Context

/-- Announces a new actor. -/
def announce (ctx : Context) (child : ActorRef) (config : ConfigId) : Action ActorRef := do
  Action.update fun σ => σ.emit (.spawn child ctx.owner config)
  return child

/-- Makes an actor of the given configuration. -/
def spawn (ctx : Context) (config : ConfigId) : Action ActorRef := do
  match ctx.spawner with
  | .absent => Action.fault .spawnOutsideSystem
  | .refusing reason => Action.fault (.spawnRefused reason)
  | .recording =>
    let n ← Action.take Store.newReceiver
    ctx.announce ⟨.recorder n, ctx.owner ++ "/child"⟩ config
  | .system =>
    let n ← Action.take Store.newReceiver
    let address ← Action.take fun σ => σ.newAddress ctx.owner
    ctx.announce ⟨.actor n, address⟩ config

end Context

end Dataflow
