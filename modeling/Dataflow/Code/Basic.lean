/-
Instruction trees: the code that the machine runs.

An instruction names its operands by identifiers of the surrounding scope or by constants. Four
constructs introduce identifiers: `fresh` for its body, the captures of a `case` pattern for the branch
that is taken on a match, the caught value of `attempt` for its handler, and the parameters of a procedure
for its body.
-/
import Dataflow.Number.Tower

set_option autoImplicit false

namespace Dataflow

/-! ## Constants and operands -/

/-- A name in a scope. -/
abbrev Ident := String

/-- A constant in code. -/
inductive Scalar where
  | bool (b : Bool)
  | null
  | eof
  | str (s : String)
  | num (n : Num)

/-- An argument of an instruction. -/
inductive Operand where
  | ident (x : Ident)
  | lit (s : Scalar)

/-! ## Patterns -/

/-- A pattern that a `case` tests. -/
inductive Pattern where
  /-- Matches what equals the constant. -/
  | lit (s : Scalar)
  /-- Matches anything and captures it. -/
  | ident (x : Ident)
  /-- Matches a record of this label and these fields; with `open` it may have further fields. -/
  | record (label : Scalar) (fields : List (Scalar × Pattern)) (isOpen : Bool)

mutual

/-- The identifiers that a pattern captures, in order and with repetitions. -/
def Pattern.captures : Pattern → List Ident
  | .lit _ => []
  | .ident x => [x]
  | .record _ fields _ => Pattern.fieldCaptures fields

/-- The identifiers that the fields of a pattern capture. -/
def Pattern.fieldCaptures : List (Scalar × Pattern) → List Ident
  | [] => []
  | (_, p) :: rest => p.captures ++ Pattern.fieldCaptures rest

end

/-! ## Instructions -/

/-- An instruction. A result goes to the identifier `x`. -/
inductive Instr where
  | skip
  | seq (instrs : List Instr)
  /-- Fresh unbound variables for the body. -/
  | fresh (idents : List Ident) (body : Instr)
  /-- Makes `x` and `y` equal. -/
  | bind (x : Ident) (y : Operand)
  | arith (op : ArithOp) (a b : Operand) (x : Ident)
  | negate (a : Operand) (x : Ident)
  | not (a : Operand) (x : Ident)
  | rel (op : RelOp) (a b : Operand) (x : Ident)
  /-- Whether `a` and `b` are equal. -/
  | entails (a b : Operand) (x : Ident)
  /-- Whether `a` and `b` differ. -/
  | disentails (a b : Operand) (x : Ident)
  | cond (test : Operand) (yes no : Instr)
  | case (arg : Operand) (pattern : Pattern) (yes : Instr) (no : Option Instr)
  /-- Runs the body; `handler` runs on a value thrown in it. -/
  | attempt (body : Instr) (caught : Ident) (handler : Instr)
  | throw (value : Operand)
  | apply (proc : Operand) (args : List Operand)
  | select (record feature : Operand) (x : Ident)
  | selectApply (record feature : Operand) (args : List Operand)
  | createRecord (x : Ident) (label : Option Operand) (fields : List (Operand × Operand))
  | createTuple (x : Ident) (label : Option Operand) (values : List Operand)
  | createProc (x : Ident) (params : List Ident) (body : Instr)
  | createActor (x : Ident) (params : List Ident) (body : Instr)
  | getCell (cell : Operand) (x : Ident)
  | setCell (cell value : Operand)

instance : Inhabited Instr := ⟨.skip⟩

/-- The parameters and the body of a procedure. -/
structure ProcDef where
  params : List Ident
  body : Instr

/-- A program: the identifiers it declares and the instruction it runs. -/
structure Program where
  locals : List Ident
  instr : Instr

end Dataflow
