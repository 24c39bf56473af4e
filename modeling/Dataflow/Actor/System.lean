/-
Actor systems: live actors, the run queue, the registry of addresses, and clients that wait for an answer.

An actor runs at most one activity at a time: making its handlers, answering a request, or handling a
notification. It is in the run queue at most once, which its flag `scheduled` says. What computations do to
the outside is first written to the store's log; `deliver` carries it out in order: envelopes and resumed
computations go into mailboxes, answers to clients into their slots, and new actors are registered. Whatever
concerns nobody in the system is kept in `outside`.
-/
import Dataflow.Kernel
import Dataflow.Actor.Executor
import Dataflow.Actor.Mailbox

set_option autoImplicit false

namespace Dataflow

/-! ## Actors -/

/-- The procedures of an actor; one that is missing was declared `null`. -/
structure Handlers where
  ask : Option Value
  tell : Option Value

/-- The stage of an actor's life. -/
inductive Phase where
  /-- Not configured yet. -/
  | created
  | ready (handlers : Handlers)
  /-- The configuration failed, and requests are answered with the failure. -/
  | failed (f : FailureId)
  | stopped

/-- What an activity is for. -/
inductive Task where
  /-- Makes the handlers, which will be bound to `result`. -/
  | configure (result : VarId)
  /-- Answers a request with what will be bound to `response`. -/
  | answer (requester : ActorRef) (target : Term) (response : VarId)
  | notify

/-- A computation of an actor. -/
structure Activity where
  id : Nat
  task : Task

/-- A live actor. -/
structure Actor where
  address : Address
  mailbox : Mailbox := {}
  /-- Whether the actor is in the run queue or has its turn. -/
  scheduled : Bool := false
  phase : Phase := .created
  activity : Option Activity := none
  /-- Requests and notifications that came while the actor could not take them up. -/
  deferred : List Envelope := []
  /-- The number of activities that have begun. -/
  activities : Nat := 0

/-- Whether an actor in this phase takes up requests and notifications. -/
def Phase.accepts : Phase → Bool
  | .ready _ | .failed _ => true
  | .created | .stopped => false

namespace Actor

/-- Whether the actor can take up a request or notification now. -/
def accepts (a : Actor) : Bool := a.activity.isNone && a.phase.accepts

/-- Whether there is something for the actor to do now. -/
def hasWork (a : Actor) : Bool := (a.accepts && !a.deferred.isEmpty) || !a.mailbox.isEmpty

/-- Ends the actor's life. -/
def halt (a : Actor) : Actor :=
  match a.phase with
  | .stopped => a
  | _ => { a with phase := .stopped, activity := none, deferred := [], mailbox := a.mailbox.close }

end Actor

/-! ## Systems -/

/-- Someone outside who waits for one answer. -/
structure Client where
  answer : Option Value := none
  /-- Nobody waits any more. -/
  abandoned : Bool := false

/-- An actor system. -/
structure ActorSystem where
  kernel : Kernel
  executor : Executor
  actors : List (Nat × Actor) := []
  /-- The actors that can be found by their addresses. -/
  registry : List (Address × Nat) := []
  /-- The actors that wait for their turn. -/
  runQueue : List Nat := []
  clients : List (Nat × Client) := []
  /-- Effects that concern nobody in the system. -/
  outside : Array Effect := #[]

namespace ActorSystem

/-- A system without actors. -/
def create (config : Config) (σ : Store) : Except ConfigError (ActorSystem × Store) := do
  let (kernel, σ) ← Kernel.create config σ
  return ({ kernel, executor := { workers := config.workerThreads } }, σ)

/-- The actor of that number. -/
def actor? (sys : ActorSystem) (n : Nat) : Option Actor := sys.actors.lookup n

/-- Changes an actor. -/
def modifyActor (sys : ActorSystem) (n : Nat) (f : Actor → Actor) : ActorSystem :=
  { sys with actors := sys.actors.map fun (m, a) => (m, if m = n then f a else a) }

/-- Puts an actor into the run queue, unless it is there or has its turn, or the executor is shut down. -/
def schedule (sys : ActorSystem) (n : Nat) : ActorSystem :=
  match sys.actor? n with
  | none => sys
  | some a =>
    if a.scheduled || !sys.executor.running then sys
    else
      { sys.modifyActor n fun a => { a with scheduled := true } with runQueue := sys.runQueue ++ [n] }

/-- Puts an item into the mailbox of an actor; a closed mailbox drops it. -/
def enqueue (sys : ActorSystem) (n : Nat) (item : Item) : ActorSystem :=
  match sys.actor? n with
  | none => sys
  | some a =>
    match a.mailbox.push? item with
    | none => sys
    | some mailbox => (sys.modifyActor n fun a => { a with mailbox }).schedule n

/-- Puts an answer into the slot of a client; only the first one is kept, and none once nobody waits. -/
def answerClient (sys : ActorSystem) (n : Nat) (v : Value) : ActorSystem :=
  { sys with clients := sys.clients.map fun (m, c) =>
      (m, if m = n && !c.abandoned && c.answer.isNone then { c with answer := some v } else c) }

/-- Registers a new actor and has it configured. -/
def register (sys : ActorSystem) (n : Nat) (address : Address) (config : ConfigId) : ActorSystem :=
  { sys with
    actors := sys.actors ++ [(n, ({ address } : Actor))]
    registry := sys.registry ++ [(address, n)] }.enqueue n (.configure config)

/-- Carries out an effect. -/
def route (sys : ActorSystem) (e : Effect) : ActorSystem :=
  match e with
  | .wake (.activity n id) stack => sys.enqueue n (.resume id stack)
  | .send ⟨.actor n, _⟩ envelope => sys.enqueue n (.envelope envelope)
  | .send ⟨.client n, _⟩ (.response v _) => sys.answerClient n v
  | .send ⟨.client _, _⟩ _ => sys
  | .spawn ⟨.actor n, address⟩ _ config => sys.register n address config
  | e => { sys with outside := sys.outside.push e }

end ActorSystem

namespace Store

/-- Takes the log of effects. -/
def takeEffects (σ : Store) : List Effect × Store := (σ.effects.toList, { σ with effects := #[] })

end Store

/-! ## Steps of a system -/

/-- A step of an actor system. -/
abbrev SystemM := StateM (ActorSystem × Store)

namespace SystemM

/-- Looks at the system. -/
def read {α : Type} (f : ActorSystem → α) : SystemM α := fun (sys, σ) => let a := f sys; (a, sys, σ)

/-- Changes the system. -/
def change (f : ActorSystem → ActorSystem) : SystemM Unit := fun (sys, σ) => ((), f sys, σ)

/-- Works on the store. -/
def onStore {α : Type} (f : Store → α × Store) : SystemM α := fun (sys, σ) =>
  let (a, σ) := f σ
  (a, sys, σ)

/-- Takes a step of the kernel. -/
def attempt {α : Type} (act : Action α) : SystemM (Except Interrupt α) := onStore fun σ =>
  match act σ with
  | .ok a σ => (.ok a, σ)
  | .error e σ => (.error e, σ)

/-- Sends an envelope. -/
def send (recipient : ActorRef) (envelope : Envelope) : SystemM Unit :=
  onStore fun σ => ((), σ.emit (.send recipient envelope))

/-- Carries out what is in the log of effects. -/
def deliver : SystemM Unit := do
  let effects ← onStore Store.takeEffects
  change fun sys => effects.foldl ActorSystem.route sys

end SystemM

end Dataflow
