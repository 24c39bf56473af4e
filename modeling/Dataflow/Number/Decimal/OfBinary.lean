/-
Decimals from binary floating-point numbers.

An integer is taken as it is. A fraction `m · 2^(-n)` is turned into `m' · 10^p` without leaving 96 bits:
each factor of two is either taken out of the mantissa or paid for by a factor of five, and a bit is given
up only when the mantissa would overflow. What remains is cut down to the 52 bits that a double guarantees,
one rounded decimal place at a time, and trailing zeros are removed.
-/
import Dataflow.Number.Binary
import Dataflow.Number.Decimal.Basic

set_option autoImplicit false

namespace Dataflow.Decimal

/-- One decimal place less, a half rounded up. -/
def dropPlaceHalfUp (m : Nat) : Nat := if 5 ≤ m % 10 then m / 10 + 1 else m / 10

/-- `m · 2^(-n) · 10^p` as a multiple of a power of ten: a factor of two is cancelled where there is one,
otherwise a factor of five replaces it, unless that would leave 96 bits; then a bit is lost. -/
def payFives : (n m : Nat) → (p : Int) → Nat × Int
  | 0, m, p => (m, p)
  | n + 1, m, p =>
    if m % 2 = 0 then payFives n (m / 2) (p + 1)
    else if 5 * m < bound then payFives n (5 * m) p
    else payFives n (m / 2) (p + 1)

/-- Brings the number of decimal places down by `n`; a mantissa that vanishes has none. -/
def dropExcess : (n m : Nat) → (places : Nat) → Nat × Nat
  | 0, m, places => (m, places)
  | n + 1, m, places =>
    if m / 10 = 0 then (0, 0) else dropExcess n (dropPlaceHalfUp m) (places - 1)

/-- Removes places until the mantissa is below `2^52`. -/
def toPrecision : (places m : Nat) → Nat × Nat
  | 0, m => (m, 0)
  | places + 1, m =>
    if m < Nat.pow 2 52 then (m, places + 1) else toPrecision places (dropPlaceHalfUp m)

/-- Removes trailing zeros. -/
def trimZeros : (places m : Nat) → Nat × Nat
  | 0, m => (m, 0)
  | places + 1, m => if m % 10 = 0 then trimZeros places (m / 10) else (m, places + 1)

/-- The decimal of a fraction `m · 2^(-n)` with `m` not zero. -/
def ofFraction? (negative : Bool) (m n : Nat) : Option Decimal :=
  let (m, p) := payFives n m (-n)
  let places := (-p).toNat
  let (m, places) := dropExcess (places - maxScale) m places
  let (m, places) := toPrecision places m
  let (m, places) := trimZeros places m
  if m = 0 then some (if negative then negativeZero else zero)
  else ofParts? negative m places

/-- The decimal of a finite binary number `m · 2^q` with `m` not zero. -/
def ofBinary? (negative : Bool) (m : Nat) (q : Int) : Option Decimal :=
  if q < 0 then ofFraction? negative m (-q).toNat
  else ofParts? negative (m * Nat.pow 2 q.toNat) 0

/-- The decimal of a double; `none` for infinities, NaNs and numbers out of range. -/
def ofFloat? (x : Float) : Option Decimal :=
  match BinaryFormat.double.decode x.toBits.toNat with
  | .finite negative m q =>
    if m = 0 then some (if negative then negativeZero else zero) else ofBinary? negative m q
  | _ => none

end Dataflow.Decimal
