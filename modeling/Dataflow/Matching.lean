/-
Pattern matching.

A pattern looks at a term from the outside in and at fields in the order in which the pattern lists them.
It answers no at the first difference and waits at the first unbound variable whose value it needs. An
identifier captures the variable that it faces; facing a value it captures a new variable bound to that
value. What has been captured before a mismatch is kept, for whoever asks for it.
-/
import Dataflow.Entailment

set_option autoImplicit false

namespace Dataflow

/-- Identifiers and the variables that they captured, in order. -/
abbrev Captures := List (Ident × VarId)

/-- A step of matching: it works on the store and on what has been captured so far. -/
abbrev Matcher := EStateM Interrupt (Store × Captures)

namespace Matcher

/-- A step of the kernel. -/
def lift {α : Type} (act : Action α) : Matcher α := fun (σ, captures) =>
  match act σ with
  | .ok a σ => .ok a (σ, captures)
  | .error e σ => .error e (σ, captures)

/-- Captures a term under a name. -/
def capture (x : Ident) (t : Term) : Matcher Unit := fun (σ, captures) =>
  match t with
  | .var y => .ok () (σ, captures ++ [(x, y)])
  | .val v =>
    let (y, σ) := σ.newVar (.bound v)
    .ok () (σ, captures ++ [(x, y)])

end Matcher

/-- Whether a constant is the given literal. -/
def Scalar.isLiteral (s : Scalar) (l : Literal) : Bool :=
  match s.toValue with
  | .lit k => k = l
  | _ => false

mutual

/-- Matches a term. -/
def Pattern.test : Pattern → Term → Matcher Bool
  | .ident x, t => do
    Matcher.capture x t
    return true
  | .lit s, t => Matcher.lift (Action.entails t (.val s.toValue))
  | .record label fields isOpen, t => do
    match ← Matcher.lift (Action.read fun σ => σ.resolve t) with
    | .var x => throw (.blocked x)
    | .val (.record r) =>
      let record ← Matcher.lift (Action.read fun σ => σ.record r)
      if !label.isLiteral record.label then return false
      else if !isOpen && record.count != fields.length then return false
      else Pattern.testFields fields record
    | .val _ => return false

/-- Matches the fields of a record against those of a pattern. -/
def Pattern.testFields : List (Scalar × Pattern) → Record → Matcher Bool
  | [], _ => return true
  | (s, p) :: rest, r => do
    let feature ← Matcher.lift (Action.ofExcept s.toValue.toFeature)
    match r.select? feature with
    | none => return false
    | some t =>
      if ← p.test t then Pattern.testFields rest r else return false

end

namespace Action

/-- Matches a term; the captures are those of a successful match. -/
def matchTerm (p : Pattern) (t : Term) : Action (Option Captures) := fun σ =>
  match p.test t (σ, []) with
  | .ok true (σ, captures) => .ok (some captures) σ
  | .ok false (σ, _) => .ok none σ
  | .error e (σ, _) => .error e σ

end Action

end Dataflow
