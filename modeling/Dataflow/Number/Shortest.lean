/-
The shortest decimal that reads back as a given binary number, and how it is written.

Every finite binary number is the nearest one to a whole interval of reals. Among the decimals in that
interval, `shortest` picks one with the fewest digits, and of those the nearest to the number itself. For
each digit count the only candidates are the two neighbours of the number on the decimal grid: if any
point of the grid lies in the interval, so does one of these two.

Which of two neighbours wins that are equally near, and how the digits are laid out (where positional
notation ends, whether an integer keeps `.0`, what infinities look like), are separate decisions, made once
per output format in a `DecimalLayout`.
-/
import Dataflow.Number.Binary

set_option autoImplicit false

namespace Dataflow

/-! ## Digits -/

/-- `coefficient · 10^exponent`. -/
structure ShortDecimal where
  coefficient : Nat
  exponent : Int
  deriving Repr, DecidableEq

/-- Which of two neighbours is taken when the number lies in the middle between them. -/
inductive Tie where
  /-- The larger one. -/
  | up
  /-- The one whose last digit is even. -/
  | even
  deriving Repr, DecidableEq

/-- Whether the neighbour above `c` is taken. -/
def Tie.takesUpper : Tie → (c : Nat) → Bool
  | .up, _ => true
  | .even, c => c % 2 == 1

/-- The rational `top / bottom` and the ends of the interval that rounds to it, over one denominator. -/
structure RoundingInterval where
  low : Nat
  top : Nat
  high : Nat
  bottom : Nat
  /-- Whether the two ends belong to the interval. -/
  closed : Bool
  deriving Repr

namespace RoundingInterval

/-- The interval of the number `m · 2^q`. The gap below a power of two is half the gap above it. -/
def ofBinary (f : BinaryFormat) (m : Nat) (q : Int) : RoundingInterval :=
  let below := if m = Nat.pow 2 f.fraction then 1 else 2
  let up := Nat.pow 2 (q - 2).toNat
  { low := (4 * m - below) * up
    top := 4 * m * up
    high := (4 * m + 2) * up
    bottom := Nat.pow 2 (2 - q).toNat
    closed := m % 2 == 0 }

/-- Whether `c · 10^e` lies in the interval. -/
def contains (i : RoundingInterval) (c : Nat) (e : Int) : Bool :=
  let value := c * Nat.pow 10 e.toNat * i.bottom
  let scale := Nat.pow 10 (-e).toNat
  if i.closed then i.low * scale ≤ value && value ≤ i.high * scale
  else i.low * scale < value && value < i.high * scale

/-- The least `k` with `top / bottom < 10^k`, found from an estimate `k` that is never too large. -/
def magnitudeFrom (i : RoundingInterval) : Nat → Int → Int
  | 0, k => k
  | n + 1, k =>
    if i.top * Nat.pow 10 (-k).toNat < Nat.pow 10 k.toNat * i.bottom then k else i.magnitudeFrom n (k + 1)

/-- The position of the decimal point: `10^(k-1) ≤ top / bottom < 10^k`. The binary logarithm gives an
estimate that is at most two too small. -/
def magnitude (i : RoundingInterval) : Int :=
  let bits := (Nat.log2 i.top : Int) - (Nat.log2 i.bottom : Int) - 1
  i.magnitudeFrom 4 ((bits * 30103).fdiv 100000)

/-- The candidate of least distance among the two neighbours of the number on the grid of `10^e`. -/
def nearest? (i : RoundingInterval) (tie : Tie) (e : Int) : Option Nat :=
  let top := i.top * Nat.pow 10 (-e).toNat
  let unit := Nat.pow 10 e.toNat * i.bottom
  let c := top / unit
  let rest := top % unit
  let lower := i.contains c e
  let upper := i.contains (c + 1) e
  match lower, upper with
  | true, true =>
    some (if unit < 2 * rest || (2 * rest == unit && tie.takesUpper c) then c + 1 else c)
  | true, false => some c
  | false, true => some (c + 1)
  | false, false => none

/-- Tries ever finer grids, starting with one digit. The upper neighbour on a grid of `n` digits may be the
next power of ten, which has one digit. -/
def search (i : RoundingInterval) (tie : Tie) (k : Int) : Nat → Nat → ShortDecimal
  | 0, n => ⟨i.top * Nat.pow 10 (n - k).toNat / (Nat.pow 10 (k - n).toNat * i.bottom), k - n⟩
  | more + 1, n =>
    match i.nearest? tie (k - n) with
    | some c => if c = Nat.pow 10 n then ⟨1, k⟩ else ⟨c, k - n⟩
    | none => i.search tie k more (n + 1)

end RoundingInterval

/-- The shortest decimal that reads back as the positive number `m · 2^q` of format `f`. Seventeen digits
always suffice. -/
def shortest (f : BinaryFormat) (tie : Tie) (m : Nat) (q : Int) : ShortDecimal :=
  let i := RoundingInterval.ofBinary f m q
  i.search tie i.magnitude 17 1

/-! ## Layout -/

/-- How a format writes the digits of a binary number. -/
structure DecimalLayout where
  /-- Which of two equally near decimals is written. -/
  tie : Tie
  /-- Positional notation is used when the decimal point stands at `first` to `last` digits from the
  start of the coefficient; `none` stands for always. -/
  positional : Option (Int × Int)
  /-- Integers end in `.0`. -/
  pointZero : Bool
  /-- Text of a NaN. -/
  nan : String
  /-- Text of an infinity, by sign. -/
  infinite : Bool → String

namespace DecimalLayout

/-- `n` zeros. -/
def zeros (n : Nat) : String := String.ofList (List.replicate n '0')

/-- The digits of `d` around a decimal point that stands after `k` of them. -/
def positionalText (layout : DecimalLayout) (digits : List Char) (k : Int) : String :=
  if k ≤ 0 then
    "0." ++ zeros (-k).toNat ++ String.ofList digits
  else if digits.length ≤ k.toNat then
    String.ofList digits ++ zeros (k.toNat - digits.length) ++ (if layout.pointZero then ".0" else "")
  else
    String.ofList (digits.take k.toNat) ++ "." ++ String.ofList (digits.drop k.toNat)

/-- One digit, the rest after a point, and a signed exponent. -/
def scientificText (digits : List Char) (k : Int) : String :=
  let lead := String.ofList (digits.take 1)
  let rest := digits.drop 1
  let mark := if k - 1 < 0 then "e-" else "e+"
  lead ++ (if rest.isEmpty then "" else "." ++ String.ofList rest) ++ mark ++ toString (k - 1).natAbs

/-- The text of a positive decimal. -/
def magnitudeText (layout : DecimalLayout) (d : ShortDecimal) : String :=
  let digits := Nat.toDigits 10 d.coefficient
  let k := d.exponent + digits.length
  match layout.positional with
  | none => layout.positionalText digits k
  | some (first, last) =>
    if first ≤ k && k ≤ last then layout.positionalText digits k else scientificText digits k

/-- The text of a word of format `f`. -/
def text (layout : DecimalLayout) (f : BinaryFormat) (bits : Nat) : String :=
  match f.decode bits with
  | .nan => layout.nan
  | .infinite negative => layout.infinite negative
  | .finite negative m q =>
    let body :=
      if m = 0 then (if layout.pointZero then "0.0" else "0")
      else layout.magnitudeText (shortest f layout.tie m q)
    if negative then "-" ++ body else body

/-- The text of a double. -/
def double (layout : DecimalLayout) (x : Float) : String :=
  layout.text .double x.toBits.toNat

/-- The text of a single. -/
def single (layout : DecimalLayout) (x : Float32) : String :=
  layout.text .single x.toBits.toNat

end DecimalLayout

end Dataflow
