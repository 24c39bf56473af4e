/-
Turns: what an actor does with the items of its mailbox.

Requests and notifications are taken up in the order of their arrival, one at a time; while the actor is
busy they are deferred, and deferred ones go before those in the mailbox. Everything else is handled at once.
A turn ends when there is nothing to handle, after a hundred items, or when a computation has used up its
time slice; that computation then goes on behind the items that are in the mailbox already.
-/
import Dataflow.Actor.System

set_option autoImplicit false

namespace Dataflow

/-! ## Handlers -/

/-- The value of a term that must be bound. -/
def Action.settled (t : Term) : Action Value := do
  match ← read fun σ => σ.resolve t with
  | .val v => return v
  | .var x => block x

namespace Handlers

/-- A procedure, or `null` for none. -/
def read (t : Term) : Action (Option Value) := do
  match ← Action.settled t with
  | .lit .null => return none
  | .proc p => return some (.proc p)
  | v => Action.fault (v.mismatch "procedure or null")

/-- The handlers `[ask, tell]` that a variable is bound to. -/
def ofVar (x : VarId) : Action Handlers := do
  let v ← Action.settled (.var x)
  let r ← Action.ofExcept v.asRecord
  let record ← Action.read fun σ => σ.record r
  match record.isTuple, record.fields with
  | true, [ask, tell] =>
    let ask ← read ask.value
    let tell ← read tell.value
    return ⟨ask, tell⟩
  | _, _ => Action.fault (.typeMismatch "[ask, tell] handlers" (← Action.read fun σ => σ.valueText v))

end Handlers

/-! ## Activities -/

namespace SystemM

/-- Changes an actor. -/
def changeActor (n : Nat) (f : Actor → Actor) : SystemM Unit := change fun sys => sys.modifyActor n f

/-- Ends the activity of an actor with a failure. -/
def fail (n : Nat) (f : FailureId) : SystemM Unit := do
  match (← read (·.actor? n)).bind Actor.activity with
  | none => return ()
  | some activity =>
    changeActor n fun a => { a with activity := none }
    match activity.task with
    | .configure _ => changeActor n fun a => { a with phase := .failed f }
    | .answer requester target _ => send requester (.response (.failed f) target)
    | .notify => return ()

/-- Ends the activity of an actor with a fault. -/
def failWith (n : Nat) (address : Address) (f : Fault) : SystemM Unit := do
  fail n (← onStore fun σ => σ.failWith address f)

/-- What an activity that has run out of instructions leads to. -/
inductive Settled where
  | configured (handlers : Handlers)
  | answered (requester : ActorRef) (target : Term) (v : Value)
  | notified

/-- The result of an activity. -/
def outcome : Task → Action Settled
  | .configure result => return .configured (← Handlers.ofVar result)
  | .answer requester target response => return .answered requester target (← Action.complete (.var response))
  | .notify => return .notified

/-- Ends an activity that has run out of instructions, or lets it wait until its result is complete. -/
def settle (n : Nat) (address : Address) (activity : Activity) : SystemM Unit := do
  match ← attempt (outcome activity.task) with
  | .ok result =>
    changeActor n fun a => { a with activity := none }
    match result with
    | .configured handlers => changeActor n fun a => { a with phase := .ready handlers }
    | .answered requester target v => send requester (.response v target)
    | .notified => return ()
  | .error (.blocked x) =>
    let _ ← onStore fun σ => σ.suspend x ⟨[], .activity n activity.id⟩
    return ()
  | .error (.fault f) => failWith n address f

/-- Goes on with the activity of an actor; the answer is whether it was preempted. -/
def advance (n : Nat) (address : Address) (activity : Activity) (stack : Stack) : SystemM Bool := do
  let ctx : Context :=
    { owner := address, actor := some ⟨.actor n, address⟩, spawner := .system
      resumer := .activity n activity.id }
  let slice ← read fun sys => sys.kernel.config.timeSlice
  let advice ← onStore fun σ =>
    let s := ctx.compute slice stack 0 σ
    (s.advice, s.store)
  deliver
  match advice with
  | .ended =>
    settle n address activity
    return false
  | .preempted stack =>
    change fun sys => sys.enqueue n (.resume activity.id stack)
    return true
  | .waiting _ => return false
  | .halted f =>
    fail n f
    return false

/-- Begins an activity: a call of `proc` with arguments that are bound in a scope of its own. -/
def launch (n : Nat) (a : Actor) (task : Task) (proc : Ident) (args : List Ident) (bindings : Env) :
    SystemM Bool := do
  let activity := ⟨a.activities + 1, task⟩
  changeActor n fun a => { a with activity := some activity, activities := a.activities + 1 }
  let root ← read fun sys => sys.kernel.root
  advance n a.address activity [.run (.apply (.ident proc) (args.map .ident)) (root.extend bindings)]

/-! ## Items -/

/-- A new unbound variable. -/
def freshVar : SystemM VarId := onStore Store.freshVar

/-- New variables for values. -/
def bindAll : List (Ident × Value) → SystemM Env
  | [] => return []
  | (x, v) :: rest => do
    let y ← onStore fun σ => σ.newVar (.bound v)
    return (x, y) :: (← bindAll rest)

/-- Identifiers for arguments. -/
def argIdents (count : Nat) : List Ident := (List.range count).map fun i => "$a" ++ toString i

/-- Makes the handlers of an actor, once. -/
def startConfigure (n : Nat) (a : Actor) (config : ConfigId) : SystemM Bool := do
  match a.phase with
  | .created =>
    let cfg ← onStore fun σ => let c := σ.config config; (c, σ)
    let result ← freshVar
    let idents := argIdents cfg.args.length
    let args ← bindAll (idents.zip cfg.args)
    let maker ← bindAll [("$handlers_ctor", .proc (.closure cfg.handlers))]
    launch n a (.configure result) "$handlers_ctor" (idents ++ ["$r"]) (args ++ maker ++ [("$r", result)])
  | _ => return false

/-- Takes up a request. -/
def startRequest (n : Nat) (a : Actor) (message : Value) (requester : ActorRef) (target : Term) :
    SystemM Bool := do
  match a.phase with
  | .ready ⟨some ask, _⟩ =>
    let response ← freshVar
    let bindings ← bindAll [("$ask", ask), ("$m", message)]
    launch n a (.answer requester target response) "$ask" ["$m", "$r"] (bindings ++ [("$r", response)])
  | .ready ⟨none, _⟩ =>
    let f ← onStore fun σ => σ.failWith a.address (.notAProc (a.address ++ " has no ask handler"))
    send requester (.response (.failed f) target)
    return false
  | .failed f =>
    send requester (.response (.failed f) target)
    return false
  | .created | .stopped => return false

/-- Takes up a notification; without a handler it is dropped. -/
def startNotify (n : Nat) (a : Actor) (message : Value) : SystemM Bool := do
  match a.phase with
  | .ready ⟨_, some tell⟩ =>
    let bindings ← bindAll [("$tell", tell), ("$m", message)]
    launch n a .notify "$tell" ["$m"] bindings
  | _ => return false

/-- Handles an item; the answer is whether a computation was preempted. -/
def handle (n : Nat) (a : Actor) (item : Item) : SystemM Bool := do
  match item with
  | .envelope (.response v target) =>
    let _ ← attempt (Action.unify target (.val v))
    return false
  | .envelope envelope =>
    if !a.accepts then
      changeActor n fun a => { a with deferred := a.deferred ++ [envelope] }
      return false
    else
      match envelope with
      | .request message requester target => startRequest n a message requester target
      | .notify message => startNotify n a message
      | .response .. => return false
  | .configure config => startConfigure n a config
  | .resume id stack =>
    match a.activity with
    | some activity => if activity.id = id then advance n a.address activity stack else return false
    | none => return false
  | .stop =>
    changeActor n Actor.halt
    return false

/-! ## Turns -/

/-- A turn handles at most this many items. -/
def itemsPerTurn : Nat := 100

/-- Takes the next item of an actor. -/
def nextItem (n : Nat) : SystemM (Option Item) := do
  match ← read (·.actor? n) with
  | none => return none
  | some a =>
    match a.accepts, a.deferred with
    | true, envelope :: rest =>
      changeActor n fun a => { a with deferred := rest }
      return some (.envelope envelope)
    | _, _ =>
      match a.mailbox.pop? with
      | none => return none
      | some (item, mailbox) =>
        changeActor n fun a => { a with mailbox }
        return some item

/-- Handles at most `room` items; `handled` were handled before. The answer is the number of items and
whether a computation was preempted. -/
def handleItems (n : Nat) : (room handled : Nat) → SystemM (Nat × Bool)
  | 0, handled => return (handled, false)
  | room + 1, handled => do
    match ← nextItem n with
    | none => return (handled, false)
    | some item =>
      match ← read (·.actor? n) with
      | none => return (handled, false)
      | some a =>
        let preempted ← handle n a item
        deliver
        if preempted then return (handled + 1, true) else handleItems n room (handled + 1)

/-- Gives an actor its turn, and puts it back into the run queue if there is more to do. -/
def turn (n : Nat) : SystemM Unit := do
  let (handled, preempted) ← handleItems n itemsPerTurn 0
  change fun sys => { sys with executor := sys.executor.record handled preempted }
  changeActor n fun a => { a with scheduled := false }
  match ← read (·.actor? n) with
  | some a => if a.hasWork then change (·.schedule n) else return ()
  | none => return ()

end SystemM

end Dataflow
