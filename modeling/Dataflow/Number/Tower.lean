/-
The numeric tower: `Int32`, `Int64`, `Flt32`, `Flt64` and `Dec128`, in widening order.

A binary operation first widens both operands to the wider of the two kinds. Integers wrap, and only their
division by zero is undefined; floats follow their own arithmetic; decimals fail when the outcome does not
fit. Numbers of different kinds are never the same, but they can be compared.
-/
import Dataflow.Number.Shortest
import Dataflow.Number.Decimal.Arithmetic
import Dataflow.Number.Decimal.OfBinary

set_option autoImplicit false

namespace Dataflow

/-! ## Operators -/

/-- Arithmetic operators. -/
inductive ArithOp where
  | add | sub | mul | div | mod
  deriving Repr, DecidableEq

/-- Order relations. -/
inductive RelOp where
  | lt | le | gt | ge
  deriving Repr, DecidableEq

namespace ArithOp

/-- The sign written between operands. -/
def symbol : ArithOp → String
  | add => "+" | sub => "-" | mul => "*" | div => "/" | mod => "%"

/-- Every operator. -/
def all : List ArithOp := [add, sub, mul, div, mod]

end ArithOp

namespace RelOp

/-- The sign written between operands. -/
def symbol : RelOp → String
  | lt => "<" | le => "<=" | gt => ">" | ge => ">="

/-- Whether the relation holds of two things in the given order. -/
def test : RelOp → Ordering → Bool
  | lt, o => o == .lt
  | le, o => o != .gt
  | gt, o => o == .gt
  | ge, o => o != .lt

/-- Every relation. -/
def all : List RelOp := [lt, le, gt, ge]

end RelOp

/-! ## Numbers -/

/-- A number of one of the five kinds. -/
inductive Num where
  | int32 (n : Int32)
  | int64 (n : Int64)
  | flt32 (x : Float32)
  | flt64 (x : Float)
  | dec128 (d : Decimal)

/-- Why an arithmetic operation has no result. -/
inductive ArithFailure where
  | divisionByZero
  /-- A float that no decimal represents. -/
  | noDecimal (x : Float)
  /-- A decimal operation whose outcome does not fit. -/
  | noResult (a : Decimal) (op : ArithOp) (b : Decimal)

/-- A pair of numbers of one kind. -/
inductive NumPair where
  | int32 (a b : Int32)
  | int64 (a b : Int64)
  | flt32 (a b : Float32)
  | flt64 (a b : Float)
  | dec128 (a b : Decimal)

/-- Floats in kernel text: always positional, integers end without a point, and of two equally near decimals
the larger one is written. -/
def kernelLayout : DecimalLayout where
  tie := .up
  positional := none
  pointZero := false
  nan := "NaN"
  infinite := fun negative => if negative then "-inf" else "inf"

namespace ArithFailure

/-- What went wrong, in words. -/
def text : ArithFailure → String
  | divisionByZero => "division by zero"
  | noDecimal x => kernelLayout.double x ++ " is not representable as Dec128"
  | noResult a op b => a.text ++ " " ++ op.symbol ++ " " ++ b.text ++ " is not representable"

end ArithFailure

namespace Num

/-- The name of the kind. -/
def kindName : Num → String
  | int32 _ => "Int32" | int64 _ => "Int64" | flt32 _ => "Flt32" | flt64 _ => "Flt64"
  | dec128 _ => "Dec128"

/-- The integer that an integer kind holds. -/
def integral? : Num → Option Int64
  | int32 n => some n.toInt64
  | int64 n => some n
  | _ => none

/-- The text of a number: every kind but `Int32` and `Flt64` is marked by a suffix. -/
def text : Num → String
  | int32 n => toString n.toInt
  | int64 n => toString n.toInt ++ "L"
  | flt32 x => kernelLayout.single x ++ "f"
  | flt64 x => kernelLayout.double x
  | dec128 d => d.text ++ "m"

/-! ## Widening -/

/-- The decimal of a float. -/
def floatToDecimal (x : Float) : Except ArithFailure Decimal :=
  match Decimal.ofFloat? x with
  | some d => .ok d
  | none => .error (.noDecimal x)

/-- The decimal of any number. -/
def toDecimal : Num → Except ArithFailure Decimal
  | int32 n => .ok (.ofInt64 n.toInt64)
  | int64 n => .ok (.ofInt64 n)
  | flt32 x => floatToDecimal x.toFloat
  | flt64 x => floatToDecimal x
  | dec128 d => .ok d

/-- Both numbers in the wider of their two kinds. -/
def align : Num → Num → Except ArithFailure NumPair
  | int32 a, int32 b => .ok (.int32 a b)
  | int32 a, int64 b => .ok (.int64 a.toInt64 b)
  | int64 a, int32 b => .ok (.int64 a b.toInt64)
  | int64 a, int64 b => .ok (.int64 a b)
  | int32 a, flt32 b => .ok (.flt32 a.toFloat32 b)
  | int64 a, flt32 b => .ok (.flt32 a.toFloat32 b)
  | flt32 a, int32 b => .ok (.flt32 a b.toFloat32)
  | flt32 a, int64 b => .ok (.flt32 a b.toFloat32)
  | flt32 a, flt32 b => .ok (.flt32 a b)
  | int32 a, flt64 b => .ok (.flt64 a.toFloat b)
  | int64 a, flt64 b => .ok (.flt64 a.toFloat b)
  | flt32 a, flt64 b => .ok (.flt64 a.toFloat b)
  | flt64 a, int32 b => .ok (.flt64 a b.toFloat)
  | flt64 a, int64 b => .ok (.flt64 a b.toFloat)
  | flt64 a, flt32 b => .ok (.flt64 a b.toFloat)
  | flt64 a, flt64 b => .ok (.flt64 a b)
  | a, b => do return .dec128 (← a.toDecimal) (← b.toDecimal)

/-! ## Arithmetic -/

/-- An operation on 32-bit integers, modulo `2^32`. -/
def arith32 (op : ArithOp) (a b : Int32) : Except ArithFailure Int32 :=
  match op with
  | .add => .ok (a + b)
  | .sub => .ok (a - b)
  | .mul => .ok (a * b)
  | .div => if b = 0 then .error .divisionByZero else .ok (a / b)
  | .mod => if b = 0 then .error .divisionByZero else .ok (a % b)

/-- An operation on 64-bit integers, modulo `2^64`. -/
def arith64 (op : ArithOp) (a b : Int64) : Except ArithFailure Int64 :=
  match op with
  | .add => .ok (a + b)
  | .sub => .ok (a - b)
  | .mul => .ok (a * b)
  | .div => if b = 0 then .error .divisionByZero else .ok (a / b)
  | .mod => if b = 0 then .error .divisionByZero else .ok (a % b)

/-- An operation on singles. -/
def arithSingle (op : ArithOp) (a b : Float32) : Float32 :=
  match op with
  | .add => a + b
  | .sub => a - b
  | .mul => a * b
  | .div => a / b
  | .mod => singleRemainder a b

/-- An operation on doubles. -/
def arithDouble (op : ArithOp) (a b : Float) : Float :=
  match op with
  | .add => a + b
  | .sub => a - b
  | .mul => a * b
  | .div => a / b
  | .mod => doubleRemainder a b

/-- An operation on decimals. -/
def arithDecimal (op : ArithOp) (a b : Decimal) : Except ArithFailure Decimal :=
  let result := match op with
    | .add => a.add b
    | .sub => a.sub b
    | .mul => a.mul b
    | .div => a.div b
    | .mod => a.mod b
  match result with
  | some d => .ok d
  | none => .error (.noResult a op b)

/-- Applies an operator in the wider of the two kinds. -/
def arith (a : Num) (op : ArithOp) (b : Num) : Except ArithFailure Num := do
  match ← a.align b with
  | .int32 a b => return int32 (← arith32 op a b)
  | .int64 a b => return int64 (← arith64 op a b)
  | .flt32 a b => return flt32 (arithSingle op a b)
  | .flt64 a b => return flt64 (arithDouble op a b)
  | .dec128 a b => return dec128 (← arithDecimal op a b)

/-- Flips the sign; the least integer is its own negation. -/
def negate : Num → Num
  | int32 n => int32 (-n)
  | int64 n => int64 (-n)
  | flt32 x => flt32 (-x)
  | flt64 x => flt64 (-x)
  | dec128 d => dec128 (-d)

/-! ## Order and identity -/

/-- The order of two doubles, if neither is a NaN. -/
def compareDouble (a b : Float) : Option Ordering :=
  if a < b then some .lt else if a == b then some .eq else if a > b then some .gt else none

/-- The order of two singles, if neither is a NaN. -/
def compareSingle (a b : Float32) : Option Ordering :=
  if a < b then some .lt else if a == b then some .eq else if a > b then some .gt else none

/-- Compares in the wider of the two kinds; a NaN compares with nothing. -/
def compare (a b : Num) : Except ArithFailure (Option Ordering) := do
  match ← a.align b with
  | .int32 a b => return some (Ord.compare a.toInt b.toInt)
  | .int64 a b => return some (Ord.compare a.toInt b.toInt)
  | .flt32 a b => return compareSingle a b
  | .flt64 a b => return compareDouble a b
  | .dec128 a b => return some (a.compare b)

/-- Same kind and same value. A NaN is not the same as itself, and the two float zeros are the same. -/
def same : Num → Num → Bool
  | int32 a, int32 b => a == b
  | int64 a, int64 b => a == b
  | flt32 a, flt32 b => a == b
  | flt64 a, flt64 b => a == b
  | dec128 a, dec128 b => a.same b
  | _, _ => false

end Num

end Dataflow
