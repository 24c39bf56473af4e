/-
Calling procedures.

A closure continues with its body in the scope of its captured variables and its parameters. Every other
procedure does its work at once: it checks the number of its arguments, takes the values that it needs, and
makes its last argument equal to the result.
-/
import Dataflow.Unification
import Dataflow.Completion
import Dataflow.Machine.Context
import Dataflow.Number.Reading

set_option autoImplicit false

namespace Dataflow

/-! ## Results and arguments -/

namespace Operand

/-- Makes the operand equal to a result. -/
def deliver (env : Env) (a : Operand) (v : Value) : Action Unit := do
  Action.unify (← a.term env) (.val v)

/-- The variables of several operands. -/
def vars (env : Env) : List Operand → Action (List VarId)
  | [] => return []
  | a :: rest => do
    let x ← a.toVar env
    return x :: (← vars env rest)

/-- The complete values of several operands. -/
def completes (env : Env) : List Operand → Action (List Value)
  | [] => return []
  | a :: rest => do
    let v ← Action.complete (← a.term env)
    return v :: (← completes env rest)

end Operand

/-- The fault of calling with a wrong number of arguments. -/
def wrongCount {α : Type} (name : String) (expected : Nat) (args : List Operand) : Action α :=
  Action.fault (.invalidArgCount name expected args.length)

/-! ## Iterators -/

namespace Iterator

/-- The item at the position of an iterator. -/
def item (i : Iterator) (f : Field) (σ : Store) : Term × Store :=
  match i.kind with
  | .values => (f.value, σ)
  | .fields =>
    let (r, σ) := σ.newRecord (.tuple .null [.val (.ofFeature f.feature), f.value])
    (.val (.record r), σ)

end Iterator

namespace Store

/-- The iterator of that number. -/
def iterator (σ : Store) (i : IterId) : Iterator := σ.iterators.getD i ⟨0, .values, 0⟩

/-- Moves an iterator. -/
def setIterator (σ : Store) (i : IterId) (it : Iterator) : Store :=
  { σ with iterators := σ.iterators.setIfInBounds i it }

/-- The next item of an iterator, which is `eof` once there are no more fields. -/
def nextItem (σ : Store) (i : IterId) : Term × Store :=
  let it := σ.iterator i
  match (σ.record it.record).fields[it.position]? with
  | none => (.val (.lit .eof), σ)
  | some f => it.item f (σ.setIterator i { it with position := it.position + 1 })

/-- Sets the content of a cell. -/
def setCell (σ : Store) (c : CellId) (t : Term) : Store :=
  { σ with cells := σ.cells.setIfInBounds c t }

end Store

/-! ## Built-in modules -/

namespace Native

/-- The number of arguments of a built-in procedure. -/
def arity : Native → Nat
  | .assign => 3
  | .newToken => 1
  | _ => 2

/-- Makes an iterator over the record `source`. -/
def newIterator (env : Env) (kind : IterKind) (source target : Operand) : Action Unit := do
  let r ← Action.ofExcept (← source.value env).asRecord
  let i ← Action.take fun σ => σ.newIterator ⟨r, kind, 0⟩
  target.deliver env (.proc (.iter i))

/-- Calls a built-in procedure. -/
def call (ctx : Context) (env : Env) : Native → List Operand → Action Unit
  | .spawn, [config, target] => do
    match ← config.value env with
    | .config k =>
      let _ ← Action.complete (.val (.config k))
      let child ← ctx.spawn k
      target.deliver env (.obj (.actor child))
    | v => Action.fault (v.mismatch "ActorCfg")
  | .newCell, [content, target] => do
    let t ← content.term env
    let c ← Action.take fun σ => σ.newCell t
    target.deliver env (.obj (.cell c))
  | .parseInt32, [text, target] => do
    let s ← Action.ofExcept (← text.value env).asStr
    match readInt32? s with
    | some n => target.deliver env (.num (.int32 n))
    | none => Action.fault (.notInt32 s)
  | .assign, [first, second, target] => do
    let v ← first.value env
    let w ← second.value env
    let r ← Action.ofExcept v.asRecord
    let s ← Action.ofExcept w.asRecord
    let merged ← Action.ofExcept (← Action.read fun σ => (σ.record r).assign (σ.record s))
    target.deliver env (.record (← Action.take fun σ => σ.newRecord merged))
  | .size, [record, target] => do
    let r ← Action.ofExcept (← record.value env).asRecord
    let n ← Action.read fun σ => (σ.record r).count
    target.deliver env (.num (.int32 (Int32.ofNat n)))
  | .newToken, [target] => do
    let n ← Action.take Store.newToken
    target.deliver env (.lit (.token n))
  | .fieldIter, [source, target] => newIterator env .fields source target
  | .valueIter, [source, target] => newIterator env .values source target
  | n, args => wrongCount n.name n.arity args

end Native

/-! ## Procedures of objects -/

namespace CellProc

/-- Calls a procedure of a cell. -/
def call (c : CellId) (env : Env) : CellProc → List Operand → Action Unit
  | .get, [target] => do
    let t ← target.term env
    Action.unify t (← Action.read fun σ => σ.cell c)
  | .set, [content] => do
    let t ← content.term env
    Action.update fun σ => σ.setCell c t
  | p, args => wrongCount ("Cell." ++ p.name) 1 args

end CellProc

namespace ActorProc

/-- Sends an envelope. -/
def send (recipient : ActorRef) (envelope : Envelope) : Action Unit :=
  Action.update fun σ => σ.emit (.send recipient envelope)

/-- Calls a procedure of an actor reference. An actor cannot ask itself, and only an actor can ask. -/
def call (ctx : Context) (a : ActorRef) (env : Env) : ActorProc → List Operand → Action Unit
  | .ask, [message, target] => do
    match ctx.actor with
    | none => Action.fault .askOutsideActor
    | some requester =>
      if requester.address = a.address then Action.fault (.selfAsk a.address)
      else
        let v ← Action.complete (← message.term env)
        let t ← target.term env
        send a (.request v requester t)
  | .tell, [message] => do
    let v ← Action.complete (← message.term env)
    send a (.notify v)
  | .ask, args => wrongCount "ActorRef.ask" 2 args
  | .tell, args => wrongCount "ActorRef.tell" 1 args

end ActorProc

/-! ## Every procedure -/

/-- Makes a configuration from an actor constructor: all arguments but the last are its own, the last is the
result. -/
def construct (c : ClosureId) (env : Env) (args : List Operand) : Action Unit := do
  let params ← Action.read fun σ => (σ.closure c).proc.params.length
  let expected := params - 1 + 1
  match args.getLast? with
  | none => wrongCount "actor constructor" expected args
  | some target =>
    if args.length ≠ expected then wrongCount "actor constructor" expected args
    else
      let values ← Operand.completes env args.dropLast
      let k ← Action.take fun σ => σ.newConfig ⟨values, c⟩
      target.deliver env (.config k)

/-- Continues with the body of a closure. -/
def enter (c : ClosureId) (env : Env) (args : List Operand) (rest : Stack) : Action Stack := do
  let closure ← Action.read fun σ => σ.closure c
  let params := closure.proc.params
  if params.length ≠ args.length then wrongCount "procedure" params.length args
  else
    let vars ← Operand.vars env args
    return .run closure.proc.body (closure.env.extend (params.zip vars)) :: rest

/-- Calls a procedure; what is left to do comes before `rest`. -/
def Proc.call (ctx : Context) (env : Env) (args : List Operand) (rest : Stack) : Proc → Action Stack
  | .closure c => enter c env args rest
  | .native n => do
    n.call ctx env args
    return rest
  | .ofCell c p => do
    p.call c env args
    return rest
  | .ofActor a p => do
    p.call ctx a env args
    return rest
  | .iter i =>
    match args with
    | [target] => do
      let t ← target.term env
      Action.unify t (← Action.take fun σ => σ.nextItem i)
      return rest
    | _ => wrongCount "iterator" 1 args
  | .actorMaker c => do
    construct c env args
    return rest

/-- Calls a value, which must be a procedure. -/
def Value.call (ctx : Context) (env : Env) (args : List Operand) (rest : Stack) : Value → Action Stack
  | .proc p => p.call ctx env args rest
  | .failed f => Action.fault (.failedValue f)
  | v => do Action.fault (.notAProc (← Action.read fun σ => σ.valueText v))

end Dataflow
