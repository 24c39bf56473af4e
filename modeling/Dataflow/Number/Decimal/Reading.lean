/-
Reading decimals from text.

A decimal is an optional sign and digits with at most one point; underscores may separate digits once one
has been seen. Digits beyond the 28th place, or beyond what 96 bits can hold after the point, find no room:
the first of them decides the rounding, a half upwards. Scientific notation shifts the scale of such a
decimal by an exponent, and drops the places beyond the 28th in the same way.
-/
import Dataflow.Number.Decimal.Basic

set_option autoImplicit false

namespace Dataflow.Decimal

/-! ## Plain notation -/

/-- The value of a decimal digit. -/
def digit? (c : Char) : Option Nat := if c.isDigit then some (c.toNat - '0'.toNat) else none

/-- Ends the reading at `rest`, which the mantissa has no room for: digits, with underscores among them. -/
def roundAt (negative : Bool) (m scale : Nat) (rest : List Char) : Option Decimal :=
  if rest.all fun c => c.isDigit || c = '_' then
    match rest.findSome? digit? with
    | none => ofParts? negative m scale
    | some d =>
      if d < 5 then ofParts? negative m scale
      else if m + 1 < bound then ofParts? negative (m + 1) scale
      else if scale = 0 then none
      else ofParts? negative ((m + 5) / 10) (scale - 1)
  else none

/-- Reads what follows the sign: `point` and `seen` say whether a point and a digit have been read. -/
def readDigits (negative : Bool) : (point seen : Bool) → (m scale : Nat) → List Char → Option Decimal
  | _, seen, m, scale, [] => if seen then ofParts? negative m scale else none
  | point, seen, m, scale, c :: cs =>
    if point && maxScale ≤ scale then roundAt negative m scale (c :: cs)
    else
      match digit? c with
      | some d =>
        if 10 * m + d < bound then
          readDigits negative point true (10 * m + d) (if point then scale + 1 else 0) cs
        else if point then roundAt negative m scale (c :: cs)
        else none
      | none =>
        if c = '.' ∧ !point then readDigits negative true seen m scale cs
        else if c = '_' ∧ seen then readDigits negative point seen m scale cs
        else none

/-- Reads a decimal in plain notation. -/
def ofPlain? : List Char → Option Decimal
  | [] => none
  | '-' :: cs => readDigits true false false 0 0 cs
  | '+' :: cs => readDigits false false false 0 0 cs
  | cs => readDigits false false false 0 0 cs

/-! ## Scientific notation -/

/-- An unsigned 32-bit number: an optional plus sign and at least one digit. -/
def exponent? (cs : List Char) : Option Nat :=
  let digits := match cs with
    | '+' :: rest => rest
    | _ => cs
  if digits.isEmpty || !digits.all Char.isDigit then none
  else
    let n := digits.foldl (fun n c => 10 * n + (c.toNat - '0'.toNat)) 0
    if n < Nat.pow 2 32 then some n else none

/-- `m / 10^places` rounded to the nearest integer, a half upwards. -/
def dropPlacesHalfUp (m : Nat) : (places : Nat) → Nat
  | 0 => m
  | places + 1 =>
    let n := m / Nat.pow 10 places
    if 5 ≤ n % 10 then n / 10 + 1 else n / 10

/-- Moves the point to the left by at most 28 places. Decimal places for which there is no room are dropped;
the sign stays, also on a zero. -/
def shiftLeft (d : Decimal) (places : Nat) : Option Decimal :=
  if maxScale < places then none
  else
    let excess := d.scale + places - maxScale
    signed? d.negative (dropPlacesHalfUp d.mantissa excess) (d.scale + places - excess)

/-- Moves the point to the right, by using up decimal places and then by multiplying. -/
def shiftRight (d : Decimal) (places : Nat) : Option Decimal :=
  if places ≤ d.scale then ofParts? d.negative d.mantissa (d.scale - places)
  else if maxScale < places then none
  else ofParts? d.negative (d.mantissa * Nat.pow 10 (places - d.scale)) 0

/-- Reads a decimal in scientific notation: a plain decimal, `e` or `E`, an optional minus sign, and an
exponent, which may have a plus sign of its own. -/
def ofScientific? (cs : List Char) : Option Decimal :=
  let isMark := fun c => c == 'e' || c == 'E'
  match cs.dropWhile (fun c => !isMark c) with
  | [] => none
  | _ :: exponent =>
    match ofPlain? (cs.takeWhile fun c => !isMark c) with
    | none => none
    | some d =>
      match exponent with
      | '-' :: rest => (exponent? rest).bind d.shiftLeft
      | rest => (exponent? rest).bind d.shiftRight

/-- Reads a decimal in plain notation or, failing that, in scientific notation. -/
def ofString? (s : String) : Option Decimal :=
  (ofPlain? s.toList).orElse fun _ => ofScientific? s.toList

end Dataflow.Decimal
