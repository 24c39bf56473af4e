/-
Running a computation for a number of instructions.

A computation is a stack of frames. It ends when no instruction is left, it is preempted when its slice is
used up, it waits when an instruction needs the value of an unbound variable, and it halts on a throw that
nothing catches. A waiting computation is kept with the variable, its instruction included, and runs that
instruction again once the variable is bound. A fault is thrown as a record that describes it; a failure
that is used as a value throws what it failed with.
-/
import Dataflow.Machine.Execute

set_option autoImplicit false

namespace Dataflow

/-! ## Throwing -/

namespace Fault

/-- The record that programs see. -/
def record (σ : Store) (f : Fault) : Record :=
  ⟨.str "error", [⟨.str "message", .val (.str (f.message σ))⟩, ⟨.str "name", .val (.str f.name)⟩]⟩

/-- The record that programs see, as a value. -/
def toValue (f : Fault) (σ : Store) : Value × Store :=
  let (r, σ) := σ.newRecord (f.record σ)
  (.record r, σ)

end Fault

namespace Store

/-- A failure that a fault is the cause of. -/
def failWith (σ : Store) (owner : Address) (f : Fault) : FailureId × Store :=
  let (v, σ) := f.toValue σ
  σ.newFailure ⟨owner, v, some f⟩

end Store

/-- What one instruction leads to. -/
inductive Outcome where
  | next (stack : Stack)
  | waiting (x : VarId)
  | halted (f : FailureId)

/-- Hands a thrown value to the innermost trap; without one the computation halts. -/
def unwind (owner : Address) (v : Value) (cause : Option Fault) : Stack → Store → Outcome × Store
  | [], σ =>
    let (f, σ) := σ.newFailure ⟨owner, v, cause⟩
    (.halted f, σ)
  | .trap caught handler env :: rest, σ =>
    let (x, σ) := σ.newVar (.bound v)
    (.next (.run handler (env.extend [(caught, x)]) :: rest), σ)
  | .run _ _ :: rest, σ => unwind owner v cause rest σ

/-- Throws a fault. -/
def raise (owner : Address) (f : Fault) (stack : Stack) (σ : Store) : Outcome × Store :=
  match f with
  | .failedValue g =>
    let failure := σ.failure g
    unwind owner failure.error failure.cause stack σ
  | f =>
    let (v, σ) := f.toValue σ
    unwind owner v (some f) stack σ

/-! ## Running -/

/-- The instruction that comes next, with its scope and what follows. Traps above it are done with: their
bodies ended without a throw. -/
def next? : Stack → Option (Instr × Env × Stack)
  | [] => none
  | .run instr env :: rest => some (instr, env, rest)
  | .trap _ _ _ :: rest => next? rest

/-- Runs one instruction. -/
def Context.step (ctx : Context) (instr : Instr) (env : Env) (rest : Stack) (σ : Store) : Outcome × Store :=
  match ctx.execute env rest instr σ with
  | .ok (.next stack) σ => (.next stack, σ)
  | .ok (.throw v cause) σ => unwind ctx.owner v cause rest σ
  | .error (.blocked x) σ =>
    let stack := .run instr env :: rest
    match σ.suspend x ⟨stack, ctx.resumer⟩ with
    | (true, σ) => (.waiting x, σ)
    | (false, σ) => (.next stack, σ)
  | .error (.fault f) σ => raise ctx.owner f rest σ

/-- How a computation stands after its slice. -/
inductive Advice where
  | ended
  | preempted (stack : Stack)
  | waiting (x : VarId)
  | halted (f : FailureId)

/-- What a slice of a computation leads to. -/
structure Slice where
  advice : Advice
  /-- The number of instructions that have been executed, those that had to wait included. -/
  executed : Nat
  store : Store

/-- Runs at most `slice` instructions; `executed` were executed before. -/
def Context.compute (ctx : Context) : (slice : Nat) → Stack → (executed : Nat) → Store → Slice
  | slice, stack, executed, σ =>
    match next? stack with
    | none => ⟨.ended, executed, σ⟩
    | some (instr, env, rest) =>
      match slice with
      | 0 => ⟨.preempted (.run instr env :: rest), executed, σ⟩
      | slice + 1 =>
        match ctx.step instr env rest σ with
        | (.next stack, σ) => ctx.compute slice stack (executed + 1) σ
        | (.waiting x, σ) => ⟨.waiting x, executed + 1, σ⟩
        | (.halted f, σ) => ⟨.halted f, executed + 1, σ⟩

end Dataflow
