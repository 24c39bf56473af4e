/-
Entailment: are two terms equal already?

The walk is the one of unification, without binding anything. A part that definitely differs answers no,
whatever else is unknown; otherwise the answer waits for the first unbound variable that faces something
other than itself; otherwise it is yes. A yes or no is final: later bindings do not change it.
-/
import Dataflow.Unification

set_option autoImplicit false

namespace Dataflow

/-- What is known about two terms. -/
inductive Verdict where
  | equal
  | different
  /-- It depends on an unbound variable. -/
  | unknown (x : VarId)
  deriving Repr, DecidableEq

namespace Verdict

/-- The verdict on several pairs none of which differs: the first variable that one of them waits for. -/
def ofWaiting : Option VarId → Verdict
  | none => equal
  | some x => unknown x

end Verdict

namespace Store

/-- Compares the two sides of every pair. `waiting` is the first variable that the answer has been found to
depend on; `room` bounds the number of pairs of records that are not in `memo`, so it is never used up. -/
def compareAll (σ : Store) :
    (room : Nat) → PairMemo → (waiting : Option VarId) → (work : List (Term × Term)) → Verdict
  | _, _, waiting, [] => .ofWaiting waiting
  | room, memo, waiting, (a, b) :: rest =>
    match σ.resolve a, σ.resolve b with
    | .var x, .var y =>
      σ.compareAll room memo (if x = y then waiting else waiting.or (some x)) rest
    | .var x, .val _ | .val _, .var x => σ.compareAll room memo (waiting.or (some x)) rest
    | .val (.record r), .val (.record s) =>
      if r = s ∨ (r, s) ∈ memo then σ.compareAll room memo waiting rest
      else
        let a := σ.record r
        let b := σ.record s
        if a.sameShape b then
          match room with
          | 0 => .ofWaiting waiting
          | room + 1 => σ.compareAll room (memo.insert (r, s)) waiting (a.sides b ++ rest)
        else .different
    | .val v, .val w => if v.sameAtom w then σ.compareAll room memo waiting rest else .different
termination_by room _ _ work => (room, work.length)

/-- Compares two terms. -/
def compare (σ : Store) (a b : Term) : Verdict := σ.compareAll σ.pairCount {} none [(a, b)]

end Store

namespace Action

/-- Whether two terms are equal. -/
def entails (a b : Term) : Action Bool := do
  match ← read fun σ => σ.compare a b with
  | .equal => return true
  | .different => return false
  | .unknown x => block x

end Action

end Dataflow
