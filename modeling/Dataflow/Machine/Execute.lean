/-
The effect of one instruction.

An instruction first takes everything that it needs, so that it waits before it has done anything, and then
does its work. Control flow is a change of the stack: what is to be done next comes first.
-/
import Dataflow.Matching
import Dataflow.Machine.Call

set_option autoImplicit false

namespace Dataflow

/-- How a computation goes on after an instruction. -/
inductive Flow where
  | next (stack : Stack)
  | throw (value : Value) (cause : Option Fault)

/-! ## Parts of instructions -/

namespace Value

/-- Applies an arithmetic operator; strings can be added. -/
def arith (op : ArithOp) (a b : Value) : Except Fault Value :=
  match op, a, b with
  | .add, .lit (.str s), .lit (.str t) => .ok (.str (s ++ t))
  | _, _, _ => do
    let m ← a.asNum
    let n ← b.asNum
    match m.arith op n with
    | .ok r => .ok (.num r)
    | .error e => .error (.arithmetic e)

/-- Tests an order relation; strings are ordered too, and nothing is related to a NaN. -/
def related (op : RelOp) (a b : Value) : Except Fault Bool :=
  match a, b with
  | .lit (.str s), .lit (.str t) => .ok (op.test (Ord.compare s t))
  | _, _ => do
    let m ← a.asNum
    let n ← b.asNum
    match m.compare n with
    | .ok (some o) => .ok (op.test o)
    | .ok none => .ok false
    | .error e => .error (.arithmetic e)

end Value

namespace Store

/-- The component of a record or object that a feature selects. -/
def select (σ : Store) (v : Value) (f : Feature) : Except Fault Term :=
  match v with
  | .record r =>
    match (σ.record r).select? f with
    | some t => .ok t
    | none => .error (.missingFeature f (σ.recordText r))
  | .obj o =>
    match o.select? f with
    | some p => .ok (.val (.proc p))
    | none => .error (.missingFeature f o.text)
  | _ => .error (.missingFeature f (σ.valueText v))

end Store

namespace Env

/-- Binds the variable of an identifier. -/
def bind (env : Env) (x : Ident) (v : Value) : Action Unit := do
  Action.bindValue (← env.var x) v

/-- The variables of several identifiers. -/
def capture (env : Env) : List Ident → Action Env
  | [] => return []
  | x :: rest => do
    let y ← env.var x
    return (x, y) :: (← capture env rest)

/-- A closure over the variables that a procedure takes from the scope. -/
def close (env : Env) (proc : ProcDef) : Action ClosureId := do
  let captured ← env.capture proc.captures
  Action.take fun σ => σ.newClosure ⟨proc, captured⟩

/-- The label that an operand gives. -/
def label (env : Env) : Option Operand → Action Literal
  | none => return .null
  | some a => do Action.ofExcept (← a.value env).asLiteral

/-- The fields that pairs of operands give. -/
def fields (env : Env) : List (Operand × Operand) → Action (List Field)
  | [] => return []
  | (feature, value) :: rest => do
    let f ← Action.ofExcept (← feature.value env).toFeature
    let t ← value.term env
    return ⟨f, t⟩ :: (← fields env rest)

/-- The component that an operand selects. -/
def select (env : Env) (record feature : Operand) : Action Term := do
  let v ← record.value env
  let f ← Action.ofExcept (← feature.value env).toFeature
  Action.ofExcept (← Action.read fun σ => σ.select v f)

end Env

/-! ## Instructions -/

/-- Executes an instruction; `rest` is what was to be done after it. -/
def Context.execute (ctx : Context) (env : Env) (rest : Stack) : Instr → Action Flow
  | .skip => return .next rest
  | .seq instrs => return .next (instrs.map (Frame.run · env) ++ rest)
  | .fresh idents body => do
    let bindings ← Action.freshBindings idents
    return .next (.run body (env.extend bindings) :: rest)
  | .bind x y => do
    let target ← env.var x
    Action.bindTerm target (← y.term env)
    return .next rest
  | .arith op a b x => do
    let v ← a.value env
    let w ← b.value env
    env.bind x (← Action.ofExcept (v.arith op w))
    return .next rest
  | .negate a x => do
    let n ← Action.ofExcept (← a.value env).asNum
    env.bind x (.num n.negate)
    return .next rest
  | .not a x => do
    let b ← Action.ofExcept (← a.value env).asBool
    env.bind x (.bool !b)
    return .next rest
  | .rel op a b x => do
    let v ← a.value env
    let w ← b.value env
    env.bind x (.bool (← Action.ofExcept (v.related op w)))
    return .next rest
  | .entails a b x => do
    let s ← a.term env
    let t ← b.term env
    env.bind x (.bool (← Action.entails s t))
    return .next rest
  | .disentails a b x => do
    let s ← a.term env
    let t ← b.term env
    env.bind x (.bool !(← Action.entails s t))
    return .next rest
  | .cond test yes no => do
    let b ← Action.ofExcept (← test.value env).asBool
    return .next (.run (if b then yes else no) env :: rest)
  | .case arg pattern yes no => do
    let t ← arg.term env
    match ← Action.matchTerm pattern t with
    | some captures => return .next (.run yes (env.extend captures) :: rest)
    | none =>
      match no with
      | some no => return .next (.run no env :: rest)
      | none => Action.fault (.noMatch (← Action.read fun σ => σ.termText t))
  | .attempt body caught handler => return .next (.run body env :: .trap caught handler env :: rest)
  | .throw value => do
    let t ← value.term env
    return .throw (← Action.complete t) none
  | .apply proc args => do
    let v ← proc.value env
    return .next (← v.call ctx env args rest)
  | .select record feature x => do
    let t ← env.select record feature
    Action.unify (.var (← env.var x)) t
    return .next rest
  | .selectApply record feature args => do
    let t ← env.select record feature
    match ← Action.read fun σ => σ.resolve t with
    | .var x => Action.block x
    | .val v => return .next (← v.call ctx env args rest)
  | .createRecord x label fields => do
    let label ← env.label label
    let fields ← env.fields fields
    let record ← Action.ofExcept (Record.build label fields)
    env.bind x (.record (← Action.take fun σ => σ.newRecord record))
    return .next rest
  | .createTuple x label values => do
    let label ← env.label label
    let values ← Operand.terms env values
    env.bind x (.record (← Action.take fun σ => σ.newRecord (.tuple label values)))
    return .next rest
  | .createProc x params body => do
    let c ← env.close ⟨params, body⟩
    env.bind x (.proc (.closure c))
    return .next rest
  | .createActor x params body => do
    let c ← env.close ⟨params, body⟩
    env.bind x (.proc (.actorMaker c))
    return .next rest
  | .getCell cell x => do
    let c ← Action.ofExcept (← cell.value env).asCell
    let target ← env.var x
    Action.unify (.var target) (← Action.read fun σ => σ.cell c)
    return .next rest
  | .setCell cell value => do
    let c ← Action.ofExcept (← cell.value env).asCell
    let t ← value.term env
    Action.update fun σ => σ.setCell c t
    return .next rest

end Dataflow
