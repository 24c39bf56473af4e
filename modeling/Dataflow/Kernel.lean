/-
The kernel: settings, the scope of the built-in modules, and computations that run outside of actors.

A computation is run to its end slice by slice. Since a slice executes at least one instruction, the number
of slices is bounded by the number of instructions that the computation may execute.
-/
import Dataflow.Config.Basic
import Dataflow.Machine.Compute

set_option autoImplicit false

namespace Dataflow

/-! ## Built-in modules -/

/-- The built-in modules and their procedures. -/
def modules : List (Ident × List (String × Native)) :=
  [("ActorCfg", [("spawn", .spawn)]),
   ("Cell", [("new", .newCell)]),
   ("Int32", [("parse", .parseInt32)]),
   ("Rec", [("assign", .assign), ("size", .size)]),
   ("Token", [("new", .newToken)]),
   ("FieldIter", [("new", .fieldIter)]),
   ("ValueIter", [("new", .valueIter)])]

/-- The record of a module. -/
def moduleRecord (procs : List (String × Native)) : Record :=
  ⟨.null, procs.map fun (name, n) => ⟨.str name, .val (.proc (.native n))⟩⟩

/-- Allocates modules, each in a variable of its own. -/
def loadModules (σ : Store) : List (Ident × List (String × Native)) → Env × Store
  | [] => ([], σ)
  | (name, procs) :: rest =>
    let (r, σ) := σ.newRecord (moduleRecord procs)
    let (x, σ) := σ.newVar (.bound (.record r))
    let (env, σ) := loadModules σ rest
    ((name, x) :: env, σ)

/-! ## Errors -/

/-- Why a request to the kernel or to an actor system is not fulfilled. -/
inductive RuntimeError where
  | actorNotFound (address : Address)
  | addressInUse (address : Address)
  /-- No answer came within some milliseconds. -/
  | requestTimeout (address : Address) (timeout : Nat)
  /-- What should be an actor constructor is something else. -/
  | notAConstructor (x : Ident) (kind : String)
  /-- What should be a configuration is something else. -/
  | notAConfiguration (kind : String)
  /-- The computation waits for a variable that nothing will bind. -/
  | blocked (x : VarId)
  | stepLimitExceeded (limit : Nat)
  | failed (f : FailureId)
  | fault (f : Fault)

/-- What a request leads to: a result or an error, and the store in either case. -/
abbrev Run := EStateM RuntimeError Store

namespace Run

/-- A step of the kernel that cannot wait for anything but a variable. -/
def ofAction {α : Type} (act : Action α) : Run α := fun σ =>
  match act σ with
  | .ok a σ => .ok a σ
  | .error (.blocked x) σ => .error (.blocked x) σ
  | .error (.fault f) σ => .error (.fault f) σ

end Run

/-! ## Queues of resumed computations -/

/-- The computation that an effect hands to a queue. -/
def Effect.wakes? (queue : Nat) : Effect → Option Stack
  | .wake (.queue n) stack => if n = queue then some stack else none
  | _ => none

namespace Store

/-- Takes the computations that were handed to a queue out of the log. -/
def takeWakes (σ : Store) (queue : Nat) : List Stack × Store :=
  if σ.effects.isEmpty then ([], σ)
  else
    (σ.effects.toList.filterMap (Effect.wakes? queue),
      { σ with effects := σ.effects.filter fun e => (e.wakes? queue).isNone })

end Store

/-! ## The kernel -/

/-- Settings and the scope of the built-in modules. -/
structure Kernel where
  config : Config
  valid : config.Valid
  root : Env

/-- The owner of computations that the kernel runs itself. -/
def kernelOwner : Address := "kernel"

/-- A run of a computation slice by slice. -/
structure RunState where
  /-- The computation to go on with. -/
  current : Option Stack
  /-- Resumed computations. -/
  queue : List Stack
  /-- The variables that were waited for. -/
  parked : List VarId
  executed : Nat

namespace RunState

/-- The next computation, and the state without it. -/
def pop (s : RunState) : Option (Stack × RunState) :=
  match s.current, s.queue with
  | some stack, _ => some (stack, { s with current := none })
  | none, stack :: rest => some (stack, { s with queue := rest })
  | none, [] => none

/-- The first variable that is still unbound. -/
def blockedOn (s : RunState) (σ : Store) : Option VarId :=
  s.parked.find? fun x => !σ.isBound x

end RunState

namespace Kernel

/-- A kernel with the given settings. -/
def create (config : Config) (σ : Store) : Except ConfigError (Kernel × Store) := do
  let valid ← config.check
  let (root, σ) := loadModules σ modules
  return (⟨config, valid.down, root⟩, σ)

/-- Goes on for at most `rounds` slices. -/
def drive (k : Kernel) (queue limit : Nat) : (rounds : Nat) → RunState → Run Unit
  | 0, _ => throw (.stepLimitExceeded limit)
  | rounds + 1, s => fun σ =>
    match s.pop with
    | none =>
      match s.blockedOn σ with
      | some x => .error (.blocked x) σ
      | none => .ok () σ
    | some (stack, s) =>
      if limit ≤ s.executed then .error (.stepLimitExceeded limit) σ
      else
        let ctx : Context := { owner := kernelOwner, resumer := .queue queue }
        let slice := min k.config.timeSlice (limit - s.executed)
        let result := ctx.compute slice stack s.executed σ
        let advice := result.advice
        let executed := result.executed
        let (woken, σ) := result.store.takeWakes queue
        let s := { s with queue := s.queue ++ woken, executed }
        match advice with
        | .ended => k.drive queue limit rounds s σ
        | .preempted stack => k.drive queue limit rounds { s with current := some stack } σ
        | .waiting x => k.drive queue limit rounds { s with parked := s.parked ++ [x] } σ
        | .halted f => .error (.failed f) σ

/-- Runs an instruction to its end, within a limit on the number of instructions. -/
def runToEnd (k : Kernel) (instr : Instr) (env : Env) (limit : Nat) : Run Unit := do
  let queue ← modifyGet Store.newQueue
  k.drive queue limit (limit + 1) ⟨some [.run instr env], [], [], 0⟩

/-- Runs an instruction for one time slice; if it waits, it is resumed through `queue`. -/
def computeInstr (k : Kernel) (instr : Instr) (env : Env) (queue : Nat) (σ : Store) : Slice :=
  let ctx : Context := { owner := kernelOwner, resumer := .queue queue }
  ctx.compute k.config.timeSlice [.run instr env] 0 σ

/-- Runs a program in a scope of its own and gives its identifiers with their variables. -/
def runProgram (k : Kernel) (p : Program) : Run (List (Ident × VarId)) := do
  let bindings ← Run.ofAction (Action.freshBindings p.locals)
  k.runToEnd p.instr (k.root.extend bindings) k.config.stepLimit
  return bindings

end Kernel

/-! ## Errors in words -/

/-- A time in its largest unit below it: seconds with their fraction, or milliseconds. -/
def durationText (ms : Nat) : String :=
  if ms = 0 then "0ns"
  else if ms < 1000 then toString ms ++ "ms"
  else
    let digits := (toString (1000 + ms % 1000)).toList.drop 1
    let fraction := (digits.reverse.dropWhile (· == '0')).reverse
    toString (ms / 1000) ++ (if fraction.isEmpty then "" else "." ++ String.ofList fraction) ++ "s"

namespace RuntimeError

/-- The name of the error. -/
def name : RuntimeError → String
  | .actorNotFound _ => "ActorNotFound"
  | .addressInUse _ => "AddressInUse"
  | .requestTimeout _ _ => "RequestTimeout"
  | .notAConstructor _ _ | .notAConfiguration _ => "ConfigureFailed"
  | .blocked _ => "Blocked"
  | .stepLimitExceeded _ => "StepLimitExceeded"
  | .failed _ => "Failed"
  | .fault _ => "Kernel"

/-- The error in words. -/
def message (σ : Store) : RuntimeError → String
  | .actorNotFound address => "Actor " ++ address ++ " not found"
  | .addressInUse address => "Address " ++ address ++ " is already in use"
  | .requestTimeout address timeout =>
    "Request to " ++ address ++ " timed out after " ++ durationText timeout
  | .notAConstructor x kind =>
    "Configure failed: " ++ x ++ " is bound to " ++ kind ++ ", not an actor constructor"
  | .notAConfiguration kind => "Configure failed: constructor produced " ++ kind
  | .blocked x => "Computation blocked on unbound variable " ++ varName x
  | .stepLimitExceeded limit => "Step limit of " ++ toString limit ++ " exceeded"
  | .failed f => "Computation failed: " ++ σ.failureText f
  | .fault f => "Kernel error: " ++ f.message σ

end RuntimeError

end Dataflow
