/-
Completion: turning a term into a value without unbound variables.

The walk goes depth first through the fields of records and the captured variables of closures, and it
enters each record and each closure once. Records are rebuilt with values in place of bound variables; a
record inside itself is represented by the record that is being rebuilt. A closure stands for itself, and so
does whatever is made from it: the first of them that the walk meets stands for all. Cells, their procedures
and iterators are never part of a complete value.
-/
import Dataflow.Store.Variable
import Dataflow.Value
import Std.Data.HashMap

set_option autoImplicit false

namespace Dataflow

/-- What stands for the records and closures that a walk has entered. -/
structure Completed where
  records : Std.HashMap RecordId Value := {}
  closures : Std.HashMap ClosureId Value := {}

/-- A step of completing. -/
abbrev Completer := StateT Completed Action

namespace Completer

/-- Completes the fields of a record. -/
def fields (complete : Term → Completer Value) : List Field → Completer (List Field)
  | [] => return []
  | f :: rest => do
    let v ← complete f.value
    return ⟨f.feature, .val v⟩ :: (← fields complete rest)

/-- Completes captured variables. -/
def captures (complete : Term → Completer Value) : Env → Completer Unit
  | [] => return ()
  | (_, x) :: rest => do
    let _ ← complete (.var x)
    captures complete rest

/-- Completes a record that has not been entered. -/
def record (complete : Term → Completer Value) (r : RecordId) : Completer Value := do
  modify fun done => { done with records := done.records.insert r (.record r) }
  let source ← monadLift (Action.read fun σ => σ.record r)
  let rebuilt ← fields complete source.fields
  let v := Value.record (← monadLift (Action.take fun σ => σ.newRecord ⟨source.label, rebuilt⟩))
  modify fun done => { done with records := done.records.insert r v }
  return v

/-- Completes a value that is made from a closure. -/
def closure (complete : Term → Completer Value) (v : Value) (c : ClosureId) : Completer Value := do
  match (← get).closures[c]? with
  | some w => return w
  | none =>
    modify fun done => { done with closures := done.closures.insert c v }
    captures complete (← monadLift (Action.read fun σ => (σ.closure c).env))
    return v

/-- Stops because a value can never be complete. -/
def refuse (what : Incomplete) : Completer Value := monadLift (Action.fault (.cannotComplete what))

/-- Completes a term that nests at most `depth` records and closures that have not been entered. -/
def term : (depth : Nat) → Term → Completer Value
  | 0, t => do
    match ← monadLift (Action.read fun σ => σ.resolve t) with
    | .var x => monadLift (Action.block x)
    | .val v => return v
  | depth + 1, t => do
    match ← monadLift (Action.read fun σ => σ.resolve t) with
    | .var x => monadLift (Action.block x)
    | .val v =>
      match v with
      | .record r =>
        match (← get).records[r]? with
        | some w => return w
        | none => record (term depth) r
      | .proc (.closure c) | .proc (.actorMaker c) => closure (term depth) v c
      | .config k => closure (term depth) v (← monadLift (Action.read fun σ => (σ.config k).handlers))
      | .obj (.cell _) => refuse .cell
      | .proc (.ofCell _ _) => refuse .cellProc
      | .proc (.iter _) => refuse .iterator
      | .lit _ | .num _ | .failed _ | .obj (.actor _) | .proc (.native _) | .proc (.ofActor _ _) =>
        return v

end Completer

namespace Action

/-- The complete value of a term. There are no more records and closures to enter than the store has. -/
def complete (t : Term) : Action Value := do
  let depth ← read fun σ => σ.records.size + σ.closures.size + 1
  (Completer.term depth t).run' {}

end Action

end Dataflow
