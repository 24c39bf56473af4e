/-
What the outside asks of an actor system: spawning, finding and stopping actors, and requests.

An actor is made in stages: a computation binds an actor constructor, the constructor is applied to
complete arguments, and the configuration that this gives is spawned. Each stage is a computation of the
system's kernel, run to its end.
-/
import Dataflow.Actor.Schedule

set_option autoImplicit false

namespace Dataflow

/-- A request to an actor system that may be refused. -/
abbrev Request := EStateM RuntimeError (ActorSystem × Store)

namespace Request

/-- A step of the system, which is never refused. -/
def ofStep {α : Type} (step : SystemM α) : Request α := fun s =>
  let (a, s) := step s
  .ok a s

instance : MonadLift SystemM Request := ⟨ofStep⟩

/-- A request to the system's kernel. -/
def ofRun {α : Type} (f : Kernel → Run α) : Request α := fun (sys, σ) =>
  match f sys.kernel σ with
  | .ok a σ => .ok a (sys, σ)
  | .error e σ => .error e (sys, σ)

end Request

/-! ## Making actors -/

namespace Kernel

/-- The value of a variable after a computation. -/
def settledValue (x : VarId) : Run Value := Run.ofAction (Action.settled (.var x))

/-- Runs an instruction that binds an actor constructor to an identifier. -/
def construct (k : Kernel) (instr : Instr) (x : Ident) : Run ClosureId := do
  let bindings ← Run.ofAction (Action.freshBindings [x])
  let env := k.root.extend bindings
  k.runToEnd instr env k.config.stepLimit
  match ← settledValue (← Run.ofAction (env.var x)) with
  | .proc (.actorMaker c) => return c
  | v => throw (.notAConstructor x v.kindName)

/-- Applies an actor constructor. -/
def configure (k : Kernel) (c : ClosureId) (args : List Value) : Run ConfigId := do
  let arity ← modifyGet fun σ => let n := (σ.closure c).proc.params.length - 1; (n, σ)
  if args.length ≠ arity then throw (.fault (.invalidArgCount "actor constructor" arity args.length))
  let idents := SystemM.argIdents args.length
  let bound ← Run.ofAction (Action.valueBindings (idents.zip args))
  let maker ← Run.ofAction (Action.valueBindings [("$ctor", .proc (.actorMaker c))])
  let result ← Run.ofAction Action.fresh
  let env := k.root.extend (bound ++ maker ++ [("$cfg", result)])
  k.runToEnd (.apply (.ident "$ctor") ((idents ++ ["$cfg"]).map .ident)) env k.config.stepLimit
  match ← settledValue result with
  | .config config => return config
  | v => throw (.notAConfiguration v.kindName)

end Kernel

namespace SystemM

/-- Runs an instruction that binds an actor constructor. -/
def construct (instr : Instr) (x : Ident) : Request ClosureId :=
  Request.ofRun fun k => k.construct instr x

/-- Applies an actor constructor. -/
def configure (c : ClosureId) (args : List Value) : Request ConfigId :=
  Request.ofRun fun k => k.configure c args

/-- Spawns an actor at an address, or at a new one. -/
def spawn (address : Option Address) (config : ConfigId) : Request ActorRef := do
  let address ← match address with
    | some address => pure address
    | none => liftM (onStore fun σ => σ.newAddress "actor")
  match ← read (·.registry.lookup address) with
  | some _ => throw (.addressInUse address)
  | none =>
    let n ← onStore Store.newReceiver
    change fun sys => sys.register n address config
    return ⟨.actor n, address⟩

/-! ## Finding and stopping actors -/

/-- The actor at an address. -/
def find (address : Address) : Request ActorRef := do
  match ← read (·.registry.lookup address) with
  | some n => return ⟨.actor n, address⟩
  | none => throw (.actorNotFound address)

/-- The number of actors that can be found. -/
def actorCount : SystemM Nat := read (·.registry.length)

/-- Stops an actor behind the items that it has, and forgets its address. -/
def stop (address : Address) : Request Unit := do
  match ← read (·.registry.lookup address) with
  | none => throw (.actorNotFound address)
  | some n =>
    change fun sys =>
      { sys with registry := sys.registry.filter fun entry => entry.1 != address }.enqueue n .stop

/-- Stops every actor at once and shuts the executor down, which first gives those in the run queue their
turns. -/
def shutdown : SystemM Unit := do
  change fun sys =>
    let live := sys.registry.map Prod.snd
    { sys with
      registry := []
      actors := sys.actors.map fun (n, a) => (n, if live.contains n then a.halt else a)
      executor := sys.executor.shutdown }
  let _ ← pass
  return ()

/-! ## Requests -/

/-- Sends a notification. -/
def tell (recipient : ActorRef) (message : Value) : SystemM Unit := send recipient (.notify message)

/-- Sends a request on behalf of a new client. -/
def ask (recipient : ActorRef) (message : Value) : SystemM Nat := do
  let n ← onStore Store.newReceiver
  let address ← onStore fun σ => σ.newAddress "client"
  let target ← freshVar
  change fun sys => { sys with clients := sys.clients ++ [(n, ({} : Client))] }
  send recipient (.request message ⟨.client n, address⟩ (.var target))
  return n

/-- Gives up waiting. -/
def abandon (client : Nat) : SystemM Unit :=
  change fun sys =>
    { sys with clients := sys.clients.map fun (n, c) =>
        (n, if n = client then { c with abandoned := true } else c) }

/-- The answer that a client has got; if there is none, that counts as one that did not come within
`timeout` milliseconds. Nobody waits afterwards. -/
def await (client : Nat) (recipient : ActorRef) (timeout : Nat) : Request Value := do
  let answer ← answerOf client
  abandon client
  match answer with
  | some v => return v
  | none => throw (.requestTimeout recipient.address timeout)

/-- A request waits for at most this many turns. -/
def maxTurns : Nat := 100000

/-- Asks and waits for the answer while actors take their turns. -/
def askAndWait (recipient : ActorRef) (message : Value) : Request Value := do
  let client ← ask recipient message
  deliver
  runUntilAnswered client maxTurns
  await client recipient (← read (·.kernel.config.askTimeout))

end SystemM

end Dataflow
