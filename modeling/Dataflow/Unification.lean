/-
Unification: making two terms equal by binding variables.

The walk keeps a list of pairs of terms that are still to be made equal and takes them from the front, so it
goes depth first and through fields in their order. Values are never copied: an unbound variable that faces
a value is bound to it, and two unbound variables are merged. A pair of records that has been met before is
taken to be equal, which is what ends the walk on cyclic records: each of the finitely many pairs of records
is expanded at most once, although binding variables adds edges to the graph that is being walked.

The first conflict ends the walk. What has been bound until then stays bound.
-/
import Dataflow.Display
import Std.Data.HashSet

set_option autoImplicit false

namespace Dataflow

/-- Pairs of records that a walk has met. -/
abbrev PairMemo := Std.HashSet (RecordId × RecordId)

/-- The values of two records of one shape, side by side. -/
def Record.sides (a b : Record) : List (Term × Term) :=
  (a.fields.zip b.fields).map fun (f, g) => (f.value, g.value)

namespace Store

/-- The number of pairs of records that a walk can meet. -/
def pairCount (σ : Store) : Nat := σ.records.size * σ.records.size

/-! ## The walk -/

/-- Makes the two sides of every pair equal. `room` bounds the number of pairs of records that are not in
`memo`, so it is never used up. -/
def unifyAll : (room : Nat) → PairMemo → (work : List (Term × Term)) → Store → Option Fault × Store
  | _, _, [], σ => (none, σ)
  | room, memo, (a, b) :: rest, σ =>
    match σ.resolve a, σ.resolve b with
    | .var x, .var y => unifyAll room memo rest (if x = y then σ else σ.merge x y)
    | .var x, .val v | .val v, .var x => unifyAll room memo rest (σ.assign x v)
    | .val (.record r), .val (.record s) =>
      if r = s ∨ (r, s) ∈ memo then unifyAll room memo rest σ
      else
        let a := σ.record r
        let b := σ.record s
        if a.sameShape b then
          match room with
          | 0 => (none, σ)
          | room + 1 => unifyAll room (memo.insert (r, s)) (a.sides b ++ rest) σ
        else (some (.conflict σ (.record r) (.record s)), σ)
    | .val v, .val w =>
      if v.sameAtom w then unifyAll room memo rest σ else (some (.conflict σ v w), σ)
termination_by room _ work => (room, work.length)

/-- Makes two terms equal; the fault is the first conflict. -/
def unify (σ : Store) (a b : Term) : Option Fault × Store := unifyAll σ.pairCount {} [(a, b)] σ

/-- Makes two variables equal. A variable is equal to itself whatever it is bound to, and of two values that
of the older variable comes first. -/
def unifyVars (σ : Store) (x y : VarId) : Option Fault × Store :=
  let x := σ.representative x
  let y := σ.representative y
  if x = y then (none, σ) else σ.unify (.var (min x y)) (.var (max x y))

end Store

/-! ## Steps of the kernel -/

namespace Action

/-- A change of the store that may be at fault; the change stays. -/
def ofChange (f : Store → Option Fault × Store) : Action Unit := fun σ =>
  match f σ with
  | (none, σ) => .ok () σ
  | (some fault, σ) => .error (.fault fault) σ

/-- Makes two terms equal. -/
def unify (a b : Term) : Action Unit := ofChange fun σ => σ.unify a b

/-- Binds a variable to a value. -/
def bindValue (x : VarId) (v : Value) : Action Unit := unify (.var x) (.val v)

/-- Makes two variables equal. -/
def bindVar (x y : VarId) : Action Unit := ofChange fun σ => σ.unifyVars x y

/-- Binds a variable to a value or makes it equal to another variable. -/
def bindTerm (x : VarId) : Term → Action Unit
  | .val v => bindValue x v
  | .var y => bindVar x y

end Action

end Dataflow
