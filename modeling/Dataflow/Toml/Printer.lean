/-
Writing strings as TOML.

A string is written in the first of these forms that needs no escapes: in double quotes, in single quotes, in
double quotes over several lines, in single quotes over several lines. If none does, it is written in double
quotes with escapes, over several lines if it has line ends. A string of several lines starts on a line of
its own.
-/
import Dataflow.Toml.Basic

set_option autoImplicit false

namespace Dataflow.Toml

/-- Control characters that no string may hold as they are. -/
def isControl (c : Char) : Bool := (c.toNat ≤ 31 || c.toNat = 127) && c != '\t' && c != '\n'

/-- The length of the longest row of `q` in a text; `run` stand right before it. -/
def longestRun (q : Char) : (run : Nat) → List Char → Nat
  | run, [] => run
  | run, c :: cs => if c = q then longestRun q (run + 1) cs else max run (longestRun q 0 cs)

/-- The forms of strings. -/
inductive StringForm where
  | basic | literal | longBasic | longLiteral
  deriving Repr, DecidableEq

namespace StringForm

/-- The form in which a string is written. -/
def of (cs : List Char) : StringForm :=
  let control := cs.any isControl
  let backslash := cs.contains '\\'
  let newline := cs.contains '\n'
  if !control && !backslash && !newline && longestRun '"' 0 cs = 0 then basic
  else if !control && !newline && longestRun '\'' 0 cs = 0 then literal
  else if !control && !backslash && longestRun '"' 0 cs ≤ 2 then longBasic
  else if !control && longestRun '\'' 0 cs ≤ 2 then longLiteral
  else if newline then longBasic else basic

end StringForm

/-- A number of four hexadecimal digits. -/
def hex4 (n : Nat) : List Char :=
  let digits := (Nat.toDigits 16 n).map Char.toUpper
  List.replicate (4 - digits.length) '0' ++ digits

/-- A text with escapes; `run` double quotes stand right before it. A long string keeps up to two double
quotes in a row as they are. -/
def escape (long : Bool) : (run : Nat) → List Char → List Char
  | _, [] => []
  | run, c :: cs =>
    if c = '"' then
      if (if long then 2 else 0) < run + 1 then '\\' :: '"' :: escape long 0 cs
      else '"' :: escape long (run + 1) cs
    else
      let here :=
        if c.toNat = 8 then ['\\', 'b']
        else if c = '\t' then ['\\', 't']
        else if c = '\n' then (if long then ['\n'] else ['\\', 'n'])
        else if c.toNat = 12 then ['\\', 'f']
        else if c = '\r' then ['\\', 'r']
        else if c = '\\' then ['\\', '\\']
        else if c.toNat ≤ 31 || c.toNat = 127 then '\\' :: 'u' :: hex4 c.toNat
        else [c]
      here ++ escape long 0 cs

/-- A string as TOML. -/
def quote (s : String) : String :=
  let cs := s.toList
  let lead := if cs.contains '\n' then "\n" else ""
  match StringForm.of cs with
  | .basic => "\"" ++ String.ofList (escape false 0 cs) ++ "\""
  | .literal => "'" ++ s ++ "'"
  | .longBasic => "\"\"\"" ++ lead ++ String.ofList (escape true 0 cs) ++ "\"\"\""
  | .longLiteral => "'''" ++ lead ++ s ++ "'''"

end Dataflow.Toml
