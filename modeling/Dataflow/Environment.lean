/-
Scopes at run time: what identifiers and operands stand for.

An identifier stands for the variable that the innermost binding gives it. An operand is used in one of three
ways: as a term, which may be an unbound variable; as a value, which must be known and must not be a failure;
or as a variable to pass on, which for a constant is a new one.
-/
import Dataflow.Store.Variable
import Dataflow.Value

set_option autoImplicit false

namespace Dataflow

namespace Env

/-- The variable of an identifier. -/
def find? (env : Env) (x : Ident) : Option VarId := env.lookup x

/-- A scope inside `env`; of two bindings of one identifier the later one counts. -/
def extend (env : Env) (bindings : List (Ident × VarId)) : Env := bindings.reverse ++ env

/-- The variable of an identifier that must be bound. -/
def var (env : Env) (x : Ident) : Action VarId :=
  match env.find? x with
  | some y => pure y
  | none => Action.fault (.identNotFound x)

end Env

namespace Action

/-- A new unbound variable. -/
def fresh : Action VarId := take Store.freshVar

/-- A new variable that is bound to a value. -/
def boundVar (v : Value) : Action VarId := take fun σ => σ.newVar (.bound v)

/-- A new unbound variable for every identifier. -/
def freshBindings : List Ident → Action (List (Ident × VarId))
  | [] => return []
  | x :: rest => do
    let y ← fresh
    return (x, y) :: (← freshBindings rest)

/-- A new variable for every value. -/
def valueBindings : List (Ident × Value) → Action (List (Ident × VarId))
  | [] => return []
  | (x, v) :: rest => do
    let y ← boundVar v
    return (x, y) :: (← valueBindings rest)

end Action

namespace Operand

/-- What the operand stands for: a value or an unbound variable. -/
def term (env : Env) : Operand → Action Term
  | .ident x => do
    let y ← env.var x
    Action.read fun σ => σ.resolveVar y
  | .lit s => return .val s.toValue

/-- The value of the operand. -/
def value (env : Env) (a : Operand) : Action Value := do
  match ← a.term env with
  | .val (.failed f) => Action.fault (.failedValue f)
  | .val v => return v
  | .var x => Action.block x

/-- The variable of the operand. -/
def toVar (env : Env) : Operand → Action VarId
  | .ident x => env.var x
  | .lit s => Action.boundVar s.toValue

/-- The terms of several operands. -/
def terms (env : Env) : List Operand → Action (List Term)
  | [] => return []
  | a :: rest => do
    let t ← a.term env
    return t :: (← terms env rest)

end Operand

end Dataflow
