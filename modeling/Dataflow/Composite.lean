/-
Composites: records and objects seen as lists of fields.

The fields of an object are its procedures, under their names.
-/
import Dataflow.Display

set_option autoImplicit false

namespace Dataflow

/-- A value with fields. -/
structure Composite where
  label : Literal
  fields : List Field
  /-- Whether a record is a tuple; an object is neither. -/
  isTuple : Option Bool

/-- An object as a composite. -/
def Obj.toComposite (o : Obj) : Composite where
  label := .null
  fields := o.procs.map fun (name, p) => ⟨.str name, .val (.proc p)⟩
  isTuple := none

/-- A record as a composite. -/
def Record.toComposite (r : Record) : Composite := ⟨r.label, r.fields, some r.isTuple⟩

/-- A value as a composite, if it has fields. -/
def Store.composite? (σ : Store) : Value → Option Composite
  | .record r => some (σ.record r).toComposite
  | .obj o => some o.toComposite
  | _ => none

/-- The field at an index. -/
def Composite.at (c : Composite) (i : Nat) : Except Fault Field :=
  match c.fields[i]? with
  | some f => .ok f
  | none => .error (.indexOutOfBounds i c.fields.length)

/-- How many arguments a procedure takes that was made by a program: an actor constructor does not count the
result. -/
def Store.arity? (σ : Store) : Value → Option Nat
  | .proc (.closure c) => some (σ.closure c).proc.params.length
  | .proc (.actorMaker c) => some ((σ.closure c).proc.params.length - 1)
  | _ => none

end Dataflow
