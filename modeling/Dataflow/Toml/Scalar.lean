/-
Numbers, truth values and times in TOML documents.

All of them are words of letters, digits and a few signs, so a word is cut off first and classified then.
Underscores may stand between digits, decimal integers have no leading zeros, integers fit 64 bits, positive
floats fit the range of doubles, and the parts of a time are in range.
-/
import Dataflow.Toml.Basic
import Dataflow.Json.Reader

set_option autoImplicit false

namespace Dataflow.Toml

/-! ## Digits -/

/-- The digits of a group without the underscores between them. -/
def digitGroup? (isDigit : Char → Bool) : List Char → Option (List Char)
  | [] => none
  | [c] => if isDigit c then some [c] else none
  | c :: '_' :: rest => if isDigit c then (digitGroup? isDigit rest).map (c :: ·) else none
  | c :: rest => if isDigit c then (digitGroup? isDigit rest).map (c :: ·) else none

/-- The number that digits spell in a base. -/
def digitsNumber (base : Nat) (cs : List Char) : Nat :=
  cs.foldl (fun n c => base * n + (Json.hexValue? c).getD 0) 0

/-- Whether a character is a digit of a base. -/
def isDigitOf (base : Nat) (c : Char) : Bool :=
  match Json.hexValue? c with
  | some d => d < base
  | none => false

/-- Decimal digits without a leading zero. -/
def plainDigits? (cs : List Char) : Option (List Char) := do
  let digits ← digitGroup? Char.isDigit cs
  match digits with
  | '0' :: _ :: _ => none
  | _ => return digits

/-! ## Integers and floats -/

/-- Takes a sign off; the first component says whether it is a minus. -/
def splitSign : List Char → Bool × List Char
  | '-' :: cs => (true, cs)
  | '+' :: cs => (false, cs)
  | cs => (false, cs)

/-- An integer. -/
def integer? (word : List Char) : Option Int := do
  let n ← match word with
    | '0' :: 'x' :: cs => return ((digitsNumber 16 (← digitGroup? (isDigitOf 16) cs) : Nat) : Int)
    | '0' :: 'o' :: cs => return ((digitsNumber 8 (← digitGroup? (isDigitOf 8) cs) : Nat) : Int)
    | '0' :: 'b' :: cs => return ((digitsNumber 2 (← digitGroup? (isDigitOf 2) cs) : Nat) : Int)
    | cs =>
      let (negative, cs) := splitSign cs
      let n := digitsNumber 10 (← plainDigits? cs)
      some (if negative then -(n : Int) else n)
  if Int64.minValue.toInt ≤ n ∧ n ≤ Int64.maxValue.toInt then some n else none

/-- A float that has been read: `digits · 10^(-places) · 10^exponent`, up to sign. -/
structure FloatParts where
  digits : List Char
  places : Nat
  exponent : Int
  deriving Repr, DecidableEq

/-- An exponent with an optional sign. -/
def exponent? (cs : List Char) : Option Int := do
  let (negative, cs) := splitSign cs
  let n := digitsNumber 10 (← digitGroup? Char.isDigit cs)
  return if negative then -(n : Int) else n

/-- A float of the given whole digits, from its fraction with an optional exponent. -/
def fraction? (whole cs : List Char) : Option FloatParts := do
  let fraction := cs.takeWhile fun c => c != 'e' && c != 'E'
  let digits ← digitGroup? Char.isDigit fraction
  let exponent ← match cs.drop fraction.length with
    | [] => some 0
    | _ :: rest => exponent? rest
  return ⟨whole ++ digits, digits.length, exponent⟩

/-- A float in digits, after its sign. -/
def floatParts? (cs : List Char) : Option FloatParts := do
  let whole := cs.takeWhile fun c => c.isDigit || c = '_'
  let digits ← plainDigits? whole
  match cs.drop whole.length with
  | '.' :: rest => fraction? digits rest
  | 'e' :: rest | 'E' :: rest => return ⟨digits, 0, ← exponent? rest⟩
  | _ => none

/-- The least number that no double is nearest to: halfway between the greatest double and the next power of
two. -/
def doubleBound : Nat := Nat.pow 2 1024 - Nat.pow 2 970

/-- Whether a float is beyond every double. The position of its first digit decides this for all but the
numbers of 309 digits. -/
def FloatParts.isHuge (f : FloatParts) : Bool :=
  let digits := f.digits.dropWhile (· = '0')
  let shift := f.exponent - f.places
  let position := digits.length + shift
  if digits.isEmpty || position < 309 then false
  else if 309 < position then true
  else
    let m := digitsNumber 10 digits
    doubleBound * Nat.pow 10 (-shift).toNat ≤ m * Nat.pow 10 shift.toNat

/-- Whether a word is a float. -/
def isFloat (word : List Char) : Bool :=
  let (negative, cs) := splitSign word
  if cs = ['i', 'n', 'f'] || cs = ['n', 'a', 'n'] then true
  else
    match floatParts? cs with
    | some f => negative || !f.isHuge
    | none => false

/-! ## Times -/

/-- The number that exactly two digits spell, within bounds. -/
def twoDigits? (low high : Nat) (a b : Char) : Option Nat :=
  if a.isDigit && b.isDigit then
    let n := digitsNumber 10 [a, b]
    if low ≤ n ∧ n ≤ high then some n else none
  else none

/-- The number of days of a month. -/
def daysIn (year month : Nat) : Nat :=
  if month = 2 then (if year % 4 = 0 ∧ (year % 100 ≠ 0 ∨ year % 400 = 0) then 29 else 28)
  else if month = 4 ∨ month = 6 ∨ month = 9 ∨ month = 11 then 30
  else 31

/-- What follows a date. -/
def afterDate? : List Char → Option (List Char)
  | a :: b :: c :: d :: '-' :: e :: f :: '-' :: g :: h :: rest => do
    if !([a, b, c, d].all Char.isDigit) then none
    let month ← twoDigits? 1 12 e f
    let _ ← twoDigits? 1 (daysIn (digitsNumber 10 [a, b, c, d]) month) g h
    return rest
  | _ => none

/-- What follows a time of day. -/
def afterTime? : List Char → Option (List Char)
  | a :: b :: ':' :: c :: d :: ':' :: e :: f :: rest => do
    let _ ← twoDigits? 0 23 a b
    let _ ← twoDigits? 0 59 c d
    let _ ← twoDigits? 0 60 e f
    match rest with
    | '.' :: more =>
      let digits := more.takeWhile Char.isDigit
      if digits.isEmpty then none else return more.drop digits.length
    | rest => return rest
  | _ => none

/-- Whether a text is the offset of a time zone, or nothing. -/
def isOffset : List Char → Bool
  | [] | ['Z'] | ['z'] => true
  | [sign, a, b, ':', c, d] =>
    (sign = '+' || sign = '-') && (twoDigits? 0 23 a b).isSome && (twoDigits? 0 59 c d).isSome
  | _ => false

/-- Whether a word is a date, a time of day, or both. -/
def isDateTime (word : List Char) : Bool :=
  match afterDate? word with
  | some [] => true
  | some (separator :: rest) =>
    (separator = 'T' || separator = 't' || separator = ' ')
      && match afterTime? rest with
        | some offset => isOffset offset
        | none => false
  | none => afterTime? word == some []

/-! ## Words -/

/-- Characters of words. -/
def isWordChar (c : Char) : Bool := c.isAlphanum || c = '+' || c = '-' || c = '_' || c = '.' || c = ':'

/-- The length of the word that a text starts with. A date and a time of day that a blank separates are one
word. -/
def wordLength (cs : List Char) : Nat :=
  let word := cs.takeWhile isWordChar
  match afterDate? word, cs.drop word.length with
  | some [], ' ' :: a :: b :: rest =>
    if a.isDigit && b.isDigit && rest.head? = some ':' then
      word.length + 1 + ((a :: b :: rest).takeWhile isWordChar).length
    else word.length
  | _, _ => word.length

/-- What a word means. -/
def ofWord? (word : List Char) : Option Toml :=
  if word = ['t', 'r', 'u', 'e'] then some (.bool true)
  else if word = ['f', 'a', 'l', 's', 'e'] then some (.bool false)
  else
    match integer? word with
    | some n => some (.int n)
    | none =>
      if isFloat word then some (.float (String.ofList word))
      else if isDateTime word then some (.dateTime (String.ofList word))
      else none

end Dataflow.Toml
