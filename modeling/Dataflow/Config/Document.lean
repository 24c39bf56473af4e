/-
Configurations as TOML documents.

A document may leave out any setting and may have entries that are no settings. The name of the system is a
string, and every other setting a natural number.
-/
import Dataflow.Config.Basic
import Dataflow.Toml.Reader
import Dataflow.Toml.Printer

set_option autoImplicit false

namespace Dataflow.Config

/-- A natural number, if there is one. -/
def natOf (entries : Toml.Entries) (name : String) (default : Nat) : Option Nat :=
  match entries.lookup name with
  | none => some default
  | some (.int n) => if 0 ≤ n then some n.toNat else none
  | some _ => none

/-- A string, if there is one. -/
def stringOf (entries : Toml.Entries) (name : String) (default : String) : Option String :=
  match entries.lookup name with
  | none => some default
  | some (.str s) => some s
  | some _ => none

/-- The settings in the entries of a document. -/
def ofEntries? (entries : Toml.Entries) : Option Config := do
  let base : Config := {}
  return {
    systemName := ← stringOf entries "system_name" base.systemName
    timeSlice := ← natOf entries "time_slice" base.timeSlice
    workerThreads := ← natOf entries "worker_threads" base.workerThreads
    askTimeout := ← natOf entries "ask_timeout_ms" base.askTimeout
    stepLimit := ← natOf entries "configure_step_limit" base.stepLimit }

/-- Reads valid settings. -/
def parse (text : String) : Except ConfigError Config :=
  match (Toml.parse? text).bind ofEntries? with
  | none => .error .malformed
  | some c => do
    let _ ← c.check
    return c

/-- Settings as the lines of a document. -/
def lines (c : Config) : List String :=
  ["system_name = " ++ Toml.quote c.systemName,
   "time_slice = " ++ toString c.timeSlice,
   "worker_threads = " ++ toString c.workerThreads,
   "ask_timeout_ms = " ++ toString c.askTimeout,
   "configure_step_limit = " ++ toString c.stepLimit]

/-- Settings as a document. -/
def text (c : Config) : String := String.join (c.lines.map (· ++ "\n"))

end Dataflow.Config
