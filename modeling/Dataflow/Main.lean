/-
The program: reads the files that a command needs, carries it out, and writes what it wrote.
-/
import Dataflow.CommandLine.Execute

set_option autoImplicit false

namespace Dataflow

/-- The content of a file, if it can be read. -/
def readFile? (path : String) : IO (Option String) := do
  try
    return some (← IO.FS.readFile path)
  catch _ =>
    return none

/-- A time in milliseconds and microseconds. -/
def elapsedText (nanoseconds : Nat) : String :=
  let micros := nanoseconds / 1000
  toString (micros / 1000) ++ "." ++ String.ofList ((toString (1000 + micros % 1000)).toList.drop 1) ++ "ms"

/-- Carries out an invocation; the answer is the exit code. -/
def Invocation.perform (i : Invocation) : IO UInt32 := do
  let contents ← i.command.inputs.mapM fun path => do return (path, ← readFile? path)
  let start ← IO.monoNanosNow
  let outcome ← IO.lazyPure fun _ => i.command.execute fun path => (contents.lookup path).join
  let stop ← IO.monoNanosNow
  for line in outcome.lines do
    match line with
    | .text s => IO.println s
    | .elapsed => IO.println ("Elapsed: " ++ elapsedText (stop - start))
  match outcome.error with
  | none => return 0
  | some e =>
    IO.eprintln ("Error: " ++ e.message outcome.store)
    return 1

end Dataflow

/-- Reads the command line and does what it asks for. -/
def main (args : List String) : IO UInt32 := do
  match Dataflow.Invocation.ofArgs args with
  | .ok i => i.perform
  | .error .help =>
    IO.println "Usage: klvm [--log-level LEVEL] [--no-color] <run FILE | config>"
    return 0
  | .error .version =>
    IO.println "klvm 0.1.0"
    return 0
  | .error .wrong =>
    IO.eprintln "error: wrong arguments; try --help"
    return 2
