/-
Sessions: computations that someone drives by hand.

A session has a scope, which may grow, and one machine. Computations that its machine has left waiting come
back into its queue when their variables are bound, and preempted ones are kept in the order in which they
were preempted. Effects that leave the kernel for the session are turned into notices.
-/
import Dataflow.Kernel
import Dataflow.Actor.Mailbox

set_option autoImplicit false

namespace Dataflow

/-- A session. -/
structure Session where
  kernel : Kernel
  env : Env
  context : Context
  /-- The number of the session's queue. -/
  queue : Nat
  /-- Resumed computations. -/
  ready : List Stack := []
  preempted : List Stack := []
  /-- Instructions that the machine has executed. -/
  executed : Nat := 0

/-- What a session is told. -/
inductive Notice where
  /-- A computation that waited under a tag goes on. -/
  | woken (tag : String) (depth : Nat)
  /-- A recorder got something. -/
  | sent (text : String)

namespace Store

/-- The text of what a recorder gets. -/
def sendText (σ : Store) (recipient : ActorRef) (envelope : Envelope) : String :=
  recipient.address ++ " <- " ++ envelope.kindName ++ " " ++ σ.envelopeText envelope

/-- The text of a new recorder. -/
def spawnText (σ : Store) (parent : Address) (config : ConfigId) : String :=
  parent ++ " spawns with (" ++ String.intercalate ", " ((σ.config config).args.map σ.valueText) ++ ")"

/-- A reference to a new recorder. -/
def newRecorder (σ : Store) (address : Address) : ActorRef × Store :=
  let (n, σ) := σ.newReceiver
  (⟨.recorder n, address⟩, σ)

end Store

namespace Session

/-- A session with a variable for every identifier. -/
def create (config : Config) (owner : Address) (actor : Option Address) (spawner : Spawner)
    (locals : List Ident) (σ : Store) : Except ConfigError (Session × Store) := do
  let (kernel, σ) ← Kernel.create config σ
  let (queue, σ) := σ.newQueue
  let (stub, σ) := match actor with
    | none => (none, σ)
    | some address =>
      let (stub, σ) := σ.newRecorder address
      (some stub, σ)
  let context := { owner, actor := stub, spawner, resumer := .queue queue }
  match Action.freshBindings locals σ with
  | .ok bindings σ => return ({ kernel, env := kernel.root.extend bindings, context, queue }, σ)
  | .error _ σ => return ({ kernel, env := kernel.root, context, queue }, σ)

/-- Binds a name in the scope. -/
def bindName (s : Session) (x : Ident) (y : VarId) : Session := { s with env := s.env.extend [(x, y)] }

/-- Runs a computation for at most `slice` instructions. -/
def compute (s : Session) (stack : Stack) (slice : Nat) (σ : Store) : Advice × Session × Store :=
  let result := s.context.compute slice stack s.executed σ
  let s := { s with executed := result.executed }
  match result.advice with
  | .preempted rest => (.preempted rest, { s with preempted := s.preempted ++ [rest] }, result.store)
  | advice => (advice, s, result.store)

/-- Takes the next resumed computation. -/
def takeReady (s : Session) : Option (Stack × Session) :=
  match s.ready with
  | [] => none
  | stack :: rest => some (stack, { s with ready := rest })

/-- Takes the oldest preempted computation. -/
def takePreempted (s : Session) : Option (Stack × Session) :=
  match s.preempted with
  | [] => none
  | stack :: rest => some (stack, { s with preempted := rest })

/-- Keeps a computation that another machine has preempted. -/
def keepPreempted (s : Session) (stack : Stack) : Session := { s with preempted := s.preempted ++ [stack] }

/-- Takes an effect in: a resumed computation goes into the queue, and the rest becomes a notice. -/
def absorb (s : Session) (σ : Store) : Effect → Session × List Notice
  | .wake (.queue n) stack => (if n = s.queue then { s with ready := s.ready ++ [stack] } else s, [])
  | .wake (.tag tag) stack => (s, [.woken tag stack.length])
  | .wake (.activity _ _) _ => (s, [])
  | .send recipient envelope => (s, [.sent (σ.sendText recipient envelope)])
  | .spawn _ parent config => (s, [.sent (σ.spawnText parent config)])

/-- Takes several effects in. -/
def absorbAll (s : Session) (σ : Store) : List Effect → Session × List Notice
  | [] => (s, [])
  | e :: rest =>
    let (s, notices) := s.absorb σ e
    let (s, more) := s.absorbAll σ rest
    (s, notices ++ more)

end Session

end Dataflow
