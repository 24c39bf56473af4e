/-
Free identifiers: what an instruction takes from the scope around it.

`free` lists the identifiers in the order of their first use, repetitions included; what an instruction
introduces for one of its parts is not free in that part. `freeIdents` is the set of these identifiers as
a sorted list. The captures of a procedure are the free identifiers of its body other than its parameters.
-/
import Dataflow.Code.Basic

set_option autoImplicit false

namespace Dataflow

/-! ## Sorted sets of identifiers -/

/-- Inserts an identifier into a sorted list without repetitions. -/
def insertIdent (x : Ident) : List Ident → List Ident
  | [] => [x]
  | y :: rest => if x < y then x :: y :: rest else if x = y then y :: rest else y :: insertIdent x rest

/-- The sorted list of the identifiers that occur in a list. -/
def sortIdents (xs : List Ident) : List Ident := xs.foldr insertIdent []

/-- The identifiers of `xs` that are not among `bound`. -/
def removeIdents (xs bound : List Ident) : List Ident := xs.filter fun x => !bound.contains x

/-! ## Free identifiers -/

/-- The identifier that an operand names. -/
def Operand.free : Operand → List Ident
  | .ident x => [x]
  | .lit _ => []

/-- The identifier that a label names, if there is a label. -/
def Operand.labelFree : Option Operand → List Ident
  | none => []
  | some a => a.free

mutual

/-- The identifiers that an instruction takes from the scope around it. -/
def Instr.free : Instr → List Ident
  | .skip => []
  | .seq instrs => Instr.allFree instrs
  | .fresh idents body => removeIdents body.free idents
  | .bind x y => x :: y.free
  | .arith _ a b x | .rel _ a b x | .entails a b x | .disentails a b x => a.free ++ b.free ++ [x]
  | .negate a x | .not a x => a.free ++ [x]
  | .cond test yes no => test.free ++ yes.free ++ no.free
  | .case arg pattern yes no =>
    arg.free ++ removeIdents yes.free pattern.captures ++ Instr.otherFree no
  | .attempt body caught handler => body.free ++ removeIdents handler.free [caught]
  | .throw value => value.free
  | .apply proc args => proc.free ++ args.flatMap Operand.free
  | .select record feature x => record.free ++ feature.free ++ [x]
  | .selectApply record feature args => record.free ++ feature.free ++ args.flatMap Operand.free
  | .createRecord x label fields =>
    x :: Operand.labelFree label ++ fields.flatMap fun (feature, value) => feature.free ++ value.free
  | .createTuple x label values => x :: Operand.labelFree label ++ values.flatMap Operand.free
  | .createProc x params body | .createActor x params body => x :: removeIdents body.free params
  | .getCell cell x => cell.free ++ [x]
  | .setCell cell value => cell.free ++ value.free

/-- The free identifiers of a list of instructions. -/
def Instr.allFree : List Instr → List Ident
  | [] => []
  | i :: rest => i.free ++ Instr.allFree rest

/-- The free identifiers of a branch that may be missing. -/
def Instr.otherFree : Option Instr → List Ident
  | none => []
  | some i => i.free

end

/-- The free identifiers of an instruction, sorted and without repetitions. -/
def Instr.freeIdents (i : Instr) : List Ident := sortIdents i.free

/-- The identifiers that a procedure takes from the scope of its definition, sorted. -/
def ProcDef.captures (d : ProcDef) : List Ident := sortIdents (removeIdents d.body.free d.params)

end Dataflow
