/-
Dataflow variables: resolving, binding, merging and waiting.

A chain of links always leads to larger numbers, which is why following it ends. Merging two unbound
variables links the older one to the younger one and hands its waiting computations over, behind those that
the younger one already has. Binding a variable empties its list of waiting computations into the log of
effects, so each of them is resumed once.
-/
import Dataflow.Store.Basic

set_option autoImplicit false

namespace Dataflow.Store

/-! ## Resolving -/

/-- The variable at the end of the chain of links from `x`. -/
def representative (σ : Store) (x : VarId) : VarId :=
  match σ.vars[x]? with
  | some (.link y) => if _h : x < y ∧ y < σ.vars.size then σ.representative y else x
  | _ => x
termination_by σ.vars.size - x
decreasing_by exact Nat.sub_lt_sub_left (Nat.lt_trans _h.1 _h.2) _h.1

/-- The value of a variable, or the unbound variable that stands for it. -/
def resolveVar (σ : Store) (x : VarId) : Term :=
  let y := σ.representative x
  match σ.vars[y]? with
  | some (.bound v) => .val v
  | _ => .var y

/-- Follows the bindings of a term. -/
def resolve (σ : Store) : Term → Term
  | .val v => .val v
  | .var x => σ.resolveVar x

/-- Whether a variable has a value. -/
def isBound (σ : Store) (x : VarId) : Bool :=
  match σ.resolveVar x with
  | .val _ => true
  | .var _ => false

/-! ## Binding and waiting -/

/-- The computations that wait for an unbound variable. -/
def waiting (σ : Store) (x : VarId) : List Continuation :=
  match σ.vars[x]? with
  | some (.unbound ks) => ks
  | _ => []

/-- Sets the state of a variable. -/
def setVar (σ : Store) (x : VarId) (s : VarState) : Store :=
  { σ with vars := σ.vars.setIfInBounds x s }

/-- Hands computations to their resumers. -/
def wakeAll (σ : Store) (ks : List Continuation) : Store :=
  ks.foldl (fun σ k => σ.emit (.wake k.resumer k.stack)) σ

/-- Binds the unbound variable `x` and resumes what waited for it. -/
def assign (σ : Store) (x : VarId) (v : Value) : Store :=
  let ks := σ.waiting x
  (σ.setVar x (.bound v)).wakeAll ks

/-- Merges two different unbound variables. -/
def merge (σ : Store) (x y : VarId) : Store :=
  let older := min x y
  let younger := max x y
  let moved := σ.waiting older
  let σ := σ.setVar younger (.unbound (σ.waiting younger ++ moved))
  σ.setVar older (.link younger)

/-- Adds a computation to those that wait for the unbound variable `x`. -/
def park (σ : Store) (x : VarId) (k : Continuation) : Store :=
  σ.setVar x (.unbound (σ.waiting x ++ [k]))

/-- Lets a computation wait for a variable, unless that has a value already. The first component says
whether it waits. -/
def suspend (σ : Store) (x : VarId) (k : Continuation) : Bool × Store :=
  match σ.resolveVar x with
  | .var y => (true, σ.park y k)
  | .val _ => (false, σ)

end Dataflow.Store
