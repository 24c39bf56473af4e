/-
Carrying out commands.

A command reads files and writes lines. It stops at the first error; what it has written until then stays.
-/
import Dataflow.Code.Document
import Dataflow.CommandLine.Basic
import Dataflow.Config.Document
import Dataflow.Export
import Dataflow.Json.Printer
import Dataflow.Json.Reader
import Dataflow.Kernel

set_option autoImplicit false

namespace Dataflow

/-- Why a command fails. -/
inductive CommandError where
  /-- A file cannot be read. -/
  | unreadable
  | program (e : JsonError)
  | config (e : ConfigError)
  | runtime (e : RuntimeError)

/-- Something that a command writes. -/
inductive OutputLine where
  | text (s : String)
  /-- The time that the computation took. -/
  | elapsed
  deriving Repr, DecidableEq

/-- What a command leads to. -/
structure CommandOutcome where
  lines : List OutputLine
  error : Option CommandError
  store : Store

/-- The files that a command can read. -/
abbrev Files := String → Option String

namespace Command

/-- The files that the command reads. -/
def inputs : Command → List String
  | .run file _ settings _ => file :: settings.toList
  | .config file => file.toList

/-- The settings of a file, or the usual ones. -/
def loadConfig (files : Files) : Option String → Except ConfigError Config
  | none => .ok {}
  | some path =>
    match files path with
    | none => .error .unreadable
    | some text => Config.parse text

/-- The text of a result: JSON if it is complete. -/
def localText (x : VarId) (σ : Store) : String × Store :=
  match σ.resolveVar x with
  | .var _ => ("<unbound>", σ)
  | .val v =>
    match Action.complete (.val v) σ with
    | .ok w σ => ((σ.toJson w).text, σ)
    | .error _ σ => (σ.valueText v, σ)

/-- The lines of the results of a program. -/
def localLines : List (Ident × VarId) → Store → List OutputLine × Store
  | [], σ => ([], σ)
  | (name, x) :: rest, σ =>
    let (text, σ) := localText x σ
    let (lines, σ) := localLines rest σ
    (.text (name ++ " = " ++ text) :: lines, σ)

/-- Reads and runs a program. -/
def runFile (files : Files) (file : String) (config : Config) (time : Bool) :
    Except CommandError (List OutputLine) × Store :=
  let start : Except CommandError (Program × Kernel × Store) := do
    let text ← match files file with
      | none => .error .unreadable
      | some text => .ok text
    let program ← (Program.parse text).mapError CommandError.program
    let (kernel, σ) ← (Kernel.create config {}).mapError CommandError.config
    return (program, kernel, σ)
  match start with
  | .error e => (.error e, {})
  | .ok (program, kernel, σ) =>
    match kernel.runProgram program σ with
    | .error e σ => (.error (.runtime e), σ)
    | .ok locals σ =>
      let (lines, σ) := localLines locals σ
      (.ok (lines ++ if time then [OutputLine.elapsed] else []), σ)

/-- Carries out a command. -/
def execute (files : Files) : Command → CommandOutcome
  | .run file timeSlice settings time =>
    match loadConfig files settings with
    | .error e => ⟨[], some (.config e), {}⟩
    | .ok c =>
      let c := { c with timeSlice := timeSlice.getD c.timeSlice }
      let running := OutputLine.text ("Running: " ++ file)
      match runFile files file c time with
      | (.error e, σ) => ⟨[running], some e, σ⟩
      | (.ok lines, σ) => ⟨running :: lines, none, σ⟩
  | .config file =>
    match loadConfig files file with
    | .error e => ⟨[], some (.config e), {}⟩
    | .ok c => ⟨c.lines.map .text, none, {}⟩

end Command

namespace CommandError

/-- The error in words. -/
def message (σ : Store) : CommandError → String
  | .unreadable => "I/O error: the file cannot be read"
  | .program .truncated => "Invalid program: the document ends early"
  | .program .malformed => "Invalid program: the document is not JSON"
  | .program .mismatched => "Invalid program: the document is not a program"
  | .config e => "Config error: " ++ e.message
  | .runtime e => "Runtime error: " ++ e.message σ

end CommandError

end Dataflow
