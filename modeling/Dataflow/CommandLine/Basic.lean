/-
The command line: what can be asked for, and how it is written.

Arguments are read from left to right. The first one that is wrong ends the reading, and so does the first
one that asks for help or for the version. The options of every command may stand before the command or
after it; after it they count more. An option takes its value after an equals sign or from the next
argument, which must not look like an option; letters can be joined behind one dash. No option may be given
twice in one place.

A value from the next argument stays pending: it is judged when the next option or operand of its place is
taken, or when all arguments have been read. So a request for help after the command is heard although a
value before the command is wrong.
-/
import Dataflow.Number.Reading

set_option autoImplicit false

namespace Dataflow

/-! ## Invocations -/

/-- How much is logged. -/
inductive LogLevel where
  | trace | debug | info | warn | error
  deriving Repr, DecidableEq

namespace LogLevel

/-- The name of a level. -/
def name : LogLevel → String
  | trace => "trace" | debug => "debug" | info => "info" | warn => "warn" | error => "error"

/-- The level of the given name. -/
def ofName? (s : String) : Option LogLevel :=
  [trace, debug, info, warn, error].find? fun level => level.name = s

end LogLevel

/-- A command. -/
inductive Command where
  /-- Runs a program. -/
  | run (file : String) (timeSlice : Option Nat) (config : Option String) (time : Bool)
  /-- Shows the settings. -/
  | config (file : Option String)
  deriving Repr, DecidableEq

/-- A command and the options that every command has. -/
structure Invocation where
  command : Command
  logLevel : LogLevel
  noColor : Bool
  deriving Repr, DecidableEq

/-- Why arguments give no invocation. -/
inductive UsageStop where
  | help
  | version
  | wrong
  deriving Repr, DecidableEq

/-- The exit code. -/
def UsageStop.code : UsageStop → Nat
  | .help | .version => 0
  | .wrong => 2

/-! ## Options -/

/-- Options. -/
inductive CliOption where
  | help | version | logLevel | noColor | timeSlice | config | time
  deriving Repr, DecidableEq

/-- Where an argument stands. -/
inductive Place where
  | beforeCommand | afterRun | afterConfig
  deriving Repr, DecidableEq

namespace CliOption

/-- Whether the option has a value. -/
def takesValue : CliOption → Bool
  | logLevel | timeSlice | config => true
  | help | version | noColor | time => false

/-- The long name of the option. -/
def long : CliOption → String
  | help => "help" | version => "version" | logLevel => "log-level" | noColor => "no-color"
  | timeSlice => "time-slice" | config => "config" | time => "time"

/-- The letter of the option. -/
def short? : CliOption → Option Char
  | help => some 'h' | version => some 'V' | config => some 'c' | time => some 't'
  | logLevel | noColor | timeSlice => none

/-- The options that may stand in a place. -/
def allowed : Place → List CliOption
  | .beforeCommand => [help, version, logLevel, noColor]
  | .afterRun => [help, logLevel, noColor, timeSlice, config, time]
  | .afterConfig => [help, logLevel, noColor, config]

end CliOption

/-- The options and operands that have been given in one place, and an option whose value has not been
judged yet. -/
structure Given where
  logLevel : Option LogLevel := none
  noColor : Bool := false
  timeSlice : Option Nat := none
  config : Option String := none
  time : Bool := false
  file : Option String := none
  pending : Option (CliOption × String) := none

/-- The result of reading arguments. -/
abbrev Usage := Except UsageStop

/-- A natural number below `2^64`, with an optional plus sign. -/
def readCount? (s : String) : Option Nat := do
  let n ← match s.toList with
    | '+' :: cs => digitsValue? cs
    | cs => digitsValue? cs
  if n < Nat.pow 2 64 then some n else none

/-- A path, which must not be empty. -/
def readPath? (s : String) : Option String := if s.isEmpty then none else some s

namespace Given

/-- Sets something that has not been set before. -/
def once {α : Type} (old : Option α) (new : Option α) : Usage (Option α) :=
  match old, new with
  | none, some a => .ok (some a)
  | _, _ => .error .wrong

/-- Sets an option to a value. -/
def set (g : Given) (o : CliOption) (v : String) : Usage Given :=
  match o with
  | .logLevel => do return { g with logLevel := ← once g.logLevel (LogLevel.ofName? v) }
  | .timeSlice => do return { g with timeSlice := ← once g.timeSlice (readCount? v) }
  | .config => do return { g with config := ← once g.config (readPath? v) }
  | .help | .version | .noColor | .time => .error .wrong

/-- Judges the pending value. -/
def settle (g : Given) : Usage Given :=
  match g.pending with
  | some (o, v) => { g with pending := none }.set o v
  | none => .ok g

/-- Takes an option without a value. -/
def flag (g : Given) (o : CliOption) : Usage Given := do
  let g ← g.settle
  match o with
  | .help => .error .help
  | .version => .error .version
  | .noColor => if g.noColor then .error .wrong else return { g with noColor := true }
  | .time => if g.time then .error .wrong else return { g with time := true }
  | .logLevel | .timeSlice | .config => .error .wrong

/-- Takes an option with its value. -/
def option (g : Given) (o : CliOption) (v : String) : Usage Given := do (← g.settle).set o v

/-- Takes an option whose value is the next argument. -/
def optionLater (g : Given) (o : CliOption) (v : String) : Usage Given := do
  return { ← g.settle with pending := some (o, v) }

/-- Takes an operand. -/
def operand (g : Given) (place : Place) (v : String) : Usage Given := do
  let g ← g.settle
  match place with
  | .afterRun => return { g with file := ← once g.file (readPath? v) }
  | .beforeCommand | .afterConfig => .error .wrong

end Given

/-! ## Arguments -/

/-- What an argument looks like. -/
inductive Shape where
  /-- Two dashes: only operands follow. -/
  | separator
  /-- A long name, and what stands behind an equals sign. -/
  | long (name : String) (value : Option String)
  /-- Letters behind a dash. -/
  | letters (cs : List Char)
  | operand (v : String)
  deriving Repr, DecidableEq

/-- What an argument looks like. -/
def Shape.of (arg : String) : Shape :=
  match arg.toList with
  | ['-', '-'] => .separator
  | '-' :: '-' :: cs =>
    let name := cs.takeWhile (· != '=')
    match cs.drop name.length with
    | [] => .long (String.ofList name) none
    | _ :: value => .long (String.ofList name) (some (String.ofList value))
  | '-' :: c :: cs => .letters (c :: cs)
  | _ => .operand arg

/-- Takes a value from the next argument. -/
def nextValue (g : Given) (o : CliOption) : List String → Usage (Given × List String)
  | arg :: rest =>
    match Shape.of arg with
    | .operand v => do return (← g.optionLater o v, rest)
    | _ => .error .wrong
  | [] => .error .wrong

/-- Takes letters behind a dash; the value of an option may follow it at once. -/
def takeLetters (place : Place) (rest : List String) : List Char → Given → Usage (Given × List String)
  | [], g => .ok (g, rest)
  | c :: cs, g =>
    match (CliOption.allowed place).find? fun o => o.short? = some c with
    | none => .error .wrong
    | some o =>
      if o.takesValue then
        match cs with
        | [] => nextValue g o rest
        | '=' :: value => do return (← g.option o (String.ofList value), rest)
        | value => do return (← g.option o (String.ofList value), rest)
      else do takeLetters place rest cs (← g.flag o)

/-- Takes a long option. -/
def takeLong (place : Place) (g : Given) (name : String) (value : Option String) (rest : List String) :
    Usage (Given × List String) :=
  match (CliOption.allowed place).find? fun o => o.long = name with
  | none => .error .wrong
  | some o =>
    match o.takesValue, value with
    | true, some v => do return (← g.option o v, rest)
    | true, none => nextValue g o rest
    | false, none => do return (← g.flag o, rest)
    | false, some _ => .error .wrong

/-- Takes operands only. -/
def takeOperands (place : Place) (g : Given) : List String → Usage Given
  | [] => g.settle
  | arg :: rest => do takeOperands place (← g.operand place arg) rest

/-- Takes the arguments after a command, at most `count`. -/
def takeAll (place : Place) : (count : Nat) → Given → List String → Usage Given
  | 0, g, _ | _, g, [] => g.settle
  | count + 1, g, arg :: rest =>
    match Shape.of arg with
    | .separator => takeOperands place g rest
    | .long name value => do
      let (g, rest) ← takeLong place g name value rest
      takeAll place count g rest
    | .letters cs => do
      let (g, rest) ← takeLetters place rest cs g
      takeAll place count g rest
    | .operand v => do takeAll place count (← g.operand place v) rest

/-- The invocation of a command, from the options before it and after it. -/
def Invocation.of (before after : Given) (command : Command) : Invocation where
  command := command
  logLevel := (after.logLevel.or before.logLevel).getD .warn
  noColor := before.noColor || after.noColor

/-- Reads what follows the name of a command: the options given there, and the command. -/
def readCommand (name : String) (rest : List String) : Usage (Given × Command) :=
  match name with
  | "run" => do
    let g ← takeAll .afterRun rest.length {} rest
    match g.file with
    | some file => return (g, .run file g.timeSlice g.config g.time)
    | none => .error .wrong
  | "config" => do
    let g ← takeAll .afterConfig rest.length {} rest
    return (g, .config g.config)
  | "help" =>
    match rest with
    | [] | ["run"] | ["config"] | ["help"] => .error .help
    | _ => .error .wrong
  | _ => .error .wrong

/-- Reads at most `count` arguments up to the command. -/
def readBefore : (count : Nat) → Given → List String → Usage Invocation
  | 0, _, _ => .error .wrong
  | _, _, [] => .error .wrong
  | count + 1, g, arg :: rest =>
    match Shape.of arg with
    | .separator => .error .wrong
    | .long name value => do
      let (g, rest) ← takeLong .beforeCommand g name value rest
      readBefore count g rest
    | .letters cs => do
      let (g, rest) ← takeLetters .beforeCommand rest cs g
      readBefore count g rest
    | .operand v => do
      let (after, command) ← readCommand v rest
      return .of (← g.settle) after command

/-- Reads the arguments of the command line. -/
def Invocation.ofArgs (args : List String) : Usage Invocation := readBefore args.length {} args

end Dataflow
