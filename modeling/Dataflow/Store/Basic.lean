/-
The store: everything that values refer to by identity.

Values are flat. A record, closure, configuration, failure, cell or iterator inside a value is a number that
the store looks up, so two values are the same object exactly when they carry the same number, and cyclic
structures are ordinary data: a cycle always passes through a variable.

A variable is unbound, bound to a value, or linked to the variable that it was merged with. Computations
that wait for a variable are kept with it, in the order in which they arrived. Whatever leaves the kernel
(computations to resume, envelopes, new actors) is appended to the store's log of effects.
-/
import Dataflow.Code.Scope

set_option autoImplicit false

namespace Dataflow

/-! ## Names of things in the store -/

/-- A variable; later variables have larger numbers. -/
abbrev VarId := Nat
/-- A record. -/
abbrev RecordId := Nat
/-- A closure. -/
abbrev ClosureId := Nat
/-- An actor configuration. -/
abbrev ConfigId := Nat
/-- A failure. -/
abbrev FailureId := Nat
/-- A cell. -/
abbrev CellId := Nat
/-- An iterator. -/
abbrev IterId := Nat
/-- The address of an actor. -/
abbrev Address := String

/-! ## Literals and features -/

/-- An atomic value other than a number. -/
inductive Literal where
  | bool (b : Bool)
  | null
  | eof
  | str (s : String)
  | token (n : Nat)
  deriving Repr, DecidableEq

/-- The key of a field. -/
inductive Feature where
  | str (s : String)
  | int (n : Int64)
  | bool (b : Bool)
  | eof
  | null
  | token (n : Nat)
  deriving DecidableEq

/-! ## Values -/

/-- Who takes envelopes: an actor of the system, a recorder outside it, or a client that waits for one
answer. -/
inductive Receiver where
  | actor (n : Nat)
  | recorder (n : Nat)
  | client (n : Nat)
  deriving Repr, DecidableEq

/-- A reference to a receiver. Two receivers may have had one address at different times. -/
structure ActorRef where
  receiver : Receiver
  address : Address
  deriving Repr, DecidableEq

/-- An object with procedures of its own. -/
inductive Obj where
  | cell (c : CellId)
  | actor (a : ActorRef)
  deriving Repr, DecidableEq

/-- The procedures of a cell. -/
inductive CellProc where
  | get | set
  deriving Repr, DecidableEq

/-- The procedures of an actor reference. -/
inductive ActorProc where
  | ask | tell
  deriving Repr, DecidableEq

/-- The procedures of the built-in modules. -/
inductive Native where
  | spawn | newCell | parseInt32 | assign | size | newToken | fieldIter | valueIter
  deriving Repr, DecidableEq

/-- A callable value. -/
inductive Proc where
  | closure (c : ClosureId)
  | native (n : Native)
  | ofCell (c : CellId) (p : CellProc)
  | ofActor (a : ActorRef) (p : ActorProc)
  | iter (i : IterId)
  /-- An actor constructor, which is known by the closure that makes the handlers. -/
  | actorMaker (c : ClosureId)
  deriving Repr, DecidableEq

/-- A value. -/
inductive Value where
  | lit (l : Literal)
  | num (n : Num)
  | record (r : RecordId)
  | obj (o : Obj)
  | proc (p : Proc)
  | config (c : ConfigId)
  | failed (f : FailureId)

/-- A value, or a variable that stands for one. -/
inductive Term where
  | val (v : Value)
  | var (x : VarId)

instance : Inhabited Value := ⟨.lit .null⟩
instance : Inhabited Term := ⟨.val default⟩

/-! ## Faults -/

/-- What can never be part of a complete value. -/
inductive Incomplete where
  | cell | cellProc | iterator
  deriving Repr, DecidableEq

/-- Why an instruction cannot be carried out. -/
inductive Fault where
  | featureNotFound (feature value : String)
  | indexOutOfBounds (index count : Nat)
  | invalidArgCount (name : String) (expected actual : Nat)
  | cannotComplete (what : Incomplete)
  | selfAsk (address : Address)
  | bindConflict (existing incoming : String)
  | typeMismatch (expected actual : String)
  | identNotFound (x : Ident)
  | arithmetic (failure : ArithFailure)
  | noMatch (value : String)
  | duplicateFeature (feature : Feature)
  | askOutsideActor
  | spawnOutsideSystem
  | spawnRefused (reason : String)
  | notInt32 (text : String)
  | notAProc (value : String)
  | failedValue (f : FailureId)

/-- Why a step of the kernel did not finish: it needs the value of an unbound variable, or it is at fault. -/
inductive Interrupt where
  | blocked (x : VarId)
  | fault (f : Fault)

/-! ## Computations -/

/-- A scope: identifiers and their variables, the innermost first. -/
abbrev Env := List (Ident × VarId)

/-- A part of a computation that is still to be done. -/
inductive Frame where
  /-- An instruction to run in a scope. -/
  | run (instr : Instr) (env : Env)
  /-- A mark below the body of an `attempt`: `handler` takes what is thrown above it. -/
  | trap (caught : Ident) (handler : Instr) (env : Env)

/-- A computation: what to do next comes first. -/
abbrev Stack := List Frame

/-- Who resumes a computation that waited for a variable. -/
inductive Resumer where
  /-- A queue of computations outside any actor. -/
  | queue (n : Nat)
  /-- An observer, known by a tag. -/
  | tag (name : String)
  /-- An activity of an actor. -/
  | activity (actor activity : Nat)
  deriving Repr, DecidableEq

/-- A computation that waits for a variable. -/
structure Continuation where
  stack : Stack
  resumer : Resumer

/-! ## What the store holds -/

/-- The state of a variable. -/
inductive VarState where
  | unbound (waiting : List Continuation)
  | bound (v : Value)
  | link (x : VarId)

/-- A field of a record. -/
structure Field where
  feature : Feature
  value : Term

/-- A record: a label and fields in ascending order of their features. -/
structure Record where
  label : Literal
  fields : List Field

/-- A procedure with the variables that it captured. -/
structure Closure where
  proc : ProcDef
  env : Env

/-- The arguments of an actor and the closure that makes its handlers from them. -/
structure ActorConfig where
  args : List Value
  handlers : ClosureId

/-- A computation that ended with a throw that nothing caught. -/
structure Failure where
  /-- Whose computation it was. -/
  owner : Address
  /-- The thrown value. -/
  error : Value
  /-- The fault that raised the throw, if it was one. -/
  cause : Option Fault

/-- What an iterator yields. -/
inductive IterKind where
  /-- Pairs of feature and value. -/
  | fields
  | values
  deriving Repr, DecidableEq

/-- An iterator over the fields of a record. -/
structure Iterator where
  record : RecordId
  kind : IterKind
  position : Nat

/-- A unit of communication. The values in it are complete. -/
inductive Envelope where
  /-- The answer goes to `requester`, who binds it to `target`. -/
  | request (message : Value) (requester : ActorRef) (target : Term)
  | notify (message : Value)
  | response (value : Value) (target : Term)

/-- Something that leaves the kernel. -/
inductive Effect where
  /-- A computation whose variable has been bound. -/
  | wake (resumer : Resumer) (stack : Stack)
  | send (recipient : ActorRef) (envelope : Envelope)
  | spawn (child : ActorRef) (parent : Address) (config : ConfigId)

/-- The state of the kernel. -/
structure Store where
  vars : Array VarState := #[]
  records : Array Record := #[]
  closures : Array Closure := #[]
  configs : Array ActorConfig := #[]
  failures : Array Failure := #[]
  cells : Array Term := #[]
  iterators : Array Iterator := #[]
  /-- Tokens minted so far. -/
  tokens : Nat := 0
  /-- Receivers created so far. -/
  receivers : Nat := 0
  /-- Addresses generated so far. -/
  addresses : Nat := 0
  /-- Queues opened so far. -/
  queues : Nat := 0
  /-- What has left the kernel and has not been taken yet, in order. -/
  effects : Array Effect := #[]

instance : Inhabited Store := ⟨{}⟩

/-- A step of the kernel: it works on the store, and what it did to the store stays when it is
interrupted. -/
abbrev Action := EStateM Interrupt Store

namespace Action

/-- Stops with a fault. -/
def fault {α : Type} (f : Fault) : Action α := throw (.fault f)

/-- Stops until `x` is bound. -/
def block {α : Type} (x : VarId) : Action α := throw (.blocked x)

/-- Stops with the fault if there is one. -/
def ofExcept {α : Type} : Except Fault α → Action α
  | .ok a => pure a
  | .error f => fault f

/-- Looks at the store. -/
def read {α : Type} (f : Store → α) : Action α := fun σ => let a := f σ; .ok a σ

/-- Takes something out of the store, usually a name for what it puts there. -/
def take {α : Type} (f : Store → α × Store) : Action α := modifyGet f

/-- Changes the store. -/
def update (f : Store → Store) : Action Unit := modify f

end Action

namespace Store

/-! ## Allocation -/

/-- Allocates a variable. -/
def newVar (σ : Store) (s : VarState) : VarId × Store :=
  (σ.vars.size, { σ with vars := σ.vars.push s })

/-- Allocates an unbound variable. -/
def freshVar (σ : Store) : VarId × Store := σ.newVar (.unbound [])

/-- Allocates a record. -/
def newRecord (σ : Store) (r : Record) : RecordId × Store :=
  (σ.records.size, { σ with records := σ.records.push r })

/-- Allocates a closure. -/
def newClosure (σ : Store) (c : Closure) : ClosureId × Store :=
  (σ.closures.size, { σ with closures := σ.closures.push c })

/-- Allocates a configuration. -/
def newConfig (σ : Store) (c : ActorConfig) : ConfigId × Store :=
  (σ.configs.size, { σ with configs := σ.configs.push c })

/-- Allocates a failure. -/
def newFailure (σ : Store) (f : Failure) : FailureId × Store :=
  (σ.failures.size, { σ with failures := σ.failures.push f })

/-- Allocates a cell. -/
def newCell (σ : Store) (content : Term) : CellId × Store :=
  (σ.cells.size, { σ with cells := σ.cells.push content })

/-- Allocates an iterator. -/
def newIterator (σ : Store) (i : Iterator) : IterId × Store :=
  (σ.iterators.size, { σ with iterators := σ.iterators.push i })

/-- Mints a token; the first one is number 1. -/
def newToken (σ : Store) : Nat × Store :=
  (σ.tokens + 1, { σ with tokens := σ.tokens + 1 })

/-- A number for a receiver that no other receiver has. -/
def newReceiver (σ : Store) : Nat × Store :=
  (σ.receivers, { σ with receivers := σ.receivers + 1 })

/-- A number for a queue that no other queue has. -/
def newQueue (σ : Store) : Nat × Store :=
  (σ.queues, { σ with queues := σ.queues + 1 })

/-- Appends to the log of effects. -/
def emit (σ : Store) (e : Effect) : Store := { σ with effects := σ.effects.push e }

/-! ## Generated addresses -/

/-- `n` in hexadecimal with at least `width` digits. -/
def hex (width n : Nat) : String :=
  let digits := Nat.toDigits 16 n
  String.ofList (List.replicate (width - digits.length) '0' ++ digits)

/-- A suffix in the form of a universally unique identifier, different for every `n`. -/
def uniqueSuffix (n : Nat) : String :=
  "00000000-0000-4000-8000-" ++ hex 12 n

/-- A new address that starts with `stem`. -/
def newAddress (σ : Store) (stem : String) : Address × Store :=
  (stem ++ "-" ++ uniqueSuffix σ.addresses, { σ with addresses := σ.addresses + 1 })

/-! ## Looking up -/

/-- The record of that number. -/
def record (σ : Store) (r : RecordId) : Record := σ.records.getD r ⟨.null, []⟩

/-- The closure of that number. -/
def closure (σ : Store) (c : ClosureId) : Closure := σ.closures.getD c ⟨⟨[], .skip⟩, []⟩

/-- The configuration of that number. -/
def config (σ : Store) (c : ConfigId) : ActorConfig := σ.configs.getD c ⟨[], 0⟩

/-- The failure of that number. -/
def failure (σ : Store) (f : FailureId) : Failure := σ.failures.getD f ⟨"", default, none⟩

/-- The content of a cell. -/
def cell (σ : Store) (c : CellId) : Term := σ.cells.getD c default

end Store

end Dataflow
