/-
JSON text of a document, without blanks.

Strings escape the quote, the backslash and control characters, and nothing else. Doubles are written
positionally from `1e-5` up to `1e16` and singles from `1e-6` up to `1e13`; other numbers are written with
an exponent that always has a sign. What JSON cannot express, a NaN or an infinity, becomes `null`.
-/
import Dataflow.Json.Basic
import Dataflow.Number.Shortest

set_option autoImplicit false

namespace Dataflow.Json

/-- Doubles in documents. -/
def doubleLayout : DecimalLayout where
  tie := .even
  positional := some (-4, 16)
  pointZero := true
  nan := "null"
  infinite := fun _ => "null"

/-- Singles in documents. -/
def singleLayout : DecimalLayout where
  tie := .even
  positional := some (-5, 13)
  pointZero := true
  nan := "null"
  infinite := fun _ => "null"

/-- The digit of value `n`, in lower case. -/
def hexDigit (n : Nat) : Char := Nat.digitChar n

/-- A character inside a string. -/
def escapeChar (c : Char) : List Char :=
  if c = '"' then ['\\', '"']
  else if c = '\\' then ['\\', '\\']
  else if c = '\n' then ['\\', 'n']
  else if c = '\r' then ['\\', 'r']
  else if c = '\t' then ['\\', 't']
  else if c.toNat = 8 then ['\\', 'b']
  else if c.toNat = 12 then ['\\', 'f']
  else if c.toNat < 32 then ['\\', 'u', '0', '0', hexDigit (c.toNat / 16), hexDigit (c.toNat % 16)]
  else [c]

/-- A string in quotes. -/
def quote (s : String) : String :=
  "\"" ++ String.ofList (s.toList.flatMap escapeChar) ++ "\""

mutual

/-- The text of a document. -/
def text : Json → String
  | .null => "null"
  | .bool b => if b then "true" else "false"
  | .int n => toString n
  | .double x => doubleLayout.double x
  | .single x => singleLayout.single x
  | .str s => quote s
  | .arr items => "[" ++ String.intercalate "," (itemTexts items) ++ "]"
  | .obj members => "\x7b" ++ String.intercalate "," (memberTexts members) ++ "\x7d"

/-- The text of every item. -/
def itemTexts : List Json → List String
  | [] => []
  | j :: rest => j.text :: itemTexts rest

/-- The text of every member. -/
def memberTexts : List (String × Json) → List String
  | [] => []
  | (name, j) :: rest => (quote name ++ ":" ++ j.text) :: memberTexts rest

end

end Dataflow.Json
