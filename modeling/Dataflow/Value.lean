/-
What can be asked of a value without looking at the store: its kind, the feature or literal that it is, and
whether it is the same atom as another.
-/
import Dataflow.Record

set_option autoImplicit false

namespace Dataflow

/-! ## Constants -/

/-- The value of a constant. -/
def Scalar.toValue : Scalar → Value
  | .bool b => .lit (.bool b)
  | .null => .lit .null
  | .eof => .lit .eof
  | .str s => .lit (.str s)
  | .num n => .num n

namespace Literal

/-- The name of the kind of a literal. -/
def kindName : Literal → String
  | .bool _ => "Bool"
  | .null => "Null"
  | .eof => "Eof"
  | .str _ => "Str"
  | .token _ => "Token"

end Literal

namespace Obj

/-- The name of the kind of an object. -/
def kindName : Obj → String
  | .cell _ => "Cell"
  | .actor _ => "ActorRef"

end Obj

/-! ## Procedures of objects -/

/-- The name of a procedure of a cell. -/
def CellProc.name : CellProc → String
  | .get => "get"
  | .set => "set"

/-- The name of a procedure of an actor reference. -/
def ActorProc.name : ActorProc → String
  | .ask => "ask"
  | .tell => "tell"

namespace Obj

/-- The procedures of an object in ascending order of their names. -/
def procs : Obj → List (String × Proc)
  | .cell c => [CellProc.get, .set].map fun p => (p.name, .ofCell c p)
  | .actor a => [ActorProc.ask, .tell].map fun p => (p.name, .ofActor a p)

/-- The procedure that a feature selects. -/
def select? (o : Obj) : Feature → Option Proc
  | .str s => o.procs.lookup s
  | _ => none

end Obj

/-- The full name of a built-in procedure. -/
def Native.name : Native → String
  | .spawn => "ActorCfg.spawn"
  | .newCell => "Cell.new"
  | .parseInt32 => "Int32.parse"
  | .assign => "Rec.assign"
  | .size => "Rec.size"
  | .newToken => "Token.new"
  | .fieldIter => "FieldIter.new"
  | .valueIter => "ValueIter.new"

/-! ## Values -/

namespace Value

/-- A truth value. -/
def bool (b : Bool) : Value := .lit (.bool b)

/-- A string. -/
def str (s : String) : Value := .lit (.str s)

/-- The name of the kind of a value. -/
def kindName : Value → String
  | .lit l => l.kindName
  | .num n => n.kindName
  | .record _ => "Rec"
  | .obj o => o.kindName
  | .proc _ => "Proc"
  | .config _ => "ActorCfg"
  | .failed _ => "FailedValue"

/-- The fault of using a value as something that it is not. -/
def mismatch (expected : String) (v : Value) : Fault := .typeMismatch expected v.kindName

/-- The feature that a literal or an integer is. -/
def toFeature (v : Value) : Except Fault Feature :=
  match v with
  | .lit l => .ok l.toFeature
  | .num n =>
    match n.integral? with
    | some i => .ok (.int i)
    | none => .error (v.mismatch "Feature")
  | _ => .error (v.mismatch "Feature")

/-- The integer value that a feature is: an `Int32` if it fits. -/
def ofInt64 (n : Int64) : Value :=
  if Int32.minValue.toInt64 ≤ n ∧ n ≤ Int32.maxValue.toInt64 then .num (.int32 n.toInt32) else .num (.int64 n)

/-- The value that a feature is. -/
def ofFeature : Feature → Value
  | .str s => .lit (.str s)
  | .int n => ofInt64 n
  | .bool b => .lit (.bool b)
  | .eof => .lit .eof
  | .null => .lit .null
  | .token n => .lit (.token n)

/-- The literal that a value is. -/
def asLiteral : Value → Except Fault Literal
  | .lit l => .ok l
  | v => .error (v.mismatch "Literal")

/-- The truth value that a value is. -/
def asBool : Value → Except Fault Bool
  | .lit (.bool b) => .ok b
  | v => .error (v.mismatch "Bool")

/-- The string that a value is. -/
def asStr : Value → Except Fault String
  | .lit (.str s) => .ok s
  | v => .error (v.mismatch "Str")

/-- The number that a value is. -/
def asNum : Value → Except Fault Num
  | .num n => .ok n
  | v => .error (v.mismatch "Num")

/-- The record that a value is. -/
def asRecord : Value → Except Fault RecordId
  | .record r => .ok r
  | v => .error (v.mismatch "Rec")

/-- The cell that a value is. -/
def asCell : Value → Except Fault CellId
  | .obj (.cell c) => .ok c
  | v => .error (v.mismatch "Cell")

/-- A literal or a number. -/
def asScalar : Value → Except Fault Value
  | .lit l => .ok (.lit l)
  | .num n => .ok (.num n)
  | v => .error (v.mismatch "scalar")

/-- Whether two values other than records are the same: literals and numbers by value, everything else by
identity. -/
def sameAtom : Value → Value → Bool
  | .lit a, .lit b => a = b
  | .num a, .num b => a.same b
  | .obj a, .obj b => a = b
  | .proc a, .proc b => a = b
  | .config a, .config b => a = b
  | .failed a, .failed b => a = b
  | _, _ => false

end Value

end Dataflow
