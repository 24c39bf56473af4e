/-
Binary floating-point words taken apart and put together again.

A word of a binary interchange format is a sign, an exponent field and a fraction field. `decode` reads
it as a signed multiple `m · 2^q` of a power of two, and `encode` writes such a multiple back when the
format can hold it exactly. Everything between the two is exact arithmetic on natural numbers, so the
remainder below is the mathematical remainder: it never needs to be rounded.
-/

set_option autoImplicit false

namespace Dataflow

/-! ## Formats -/

/-- Field widths of a binary interchange format. -/
structure BinaryFormat where
  /-- Width of the fraction field. -/
  fraction : Nat
  /-- Width of the exponent field. -/
  exponent : Nat
  deriving Repr, DecidableEq

namespace BinaryFormat

/-- The 64-bit format: 11 exponent bits and 52 fraction bits. -/
def double : BinaryFormat := ⟨52, 11⟩

/-- The 32-bit format: 8 exponent bits and 23 fraction bits. -/
def single : BinaryFormat := ⟨23, 8⟩

/-- The largest value of the exponent field, which marks infinities and NaNs. -/
def topExponent (f : BinaryFormat) : Nat := Nat.pow 2 f.exponent - 1

/-- The power of two that a unit of the last place has in subnormal numbers: the least one there is. -/
def leastPower (f : BinaryFormat) : Int := 2 - (Nat.pow 2 (f.exponent - 1) : Int) - (f.fraction : Int)

end BinaryFormat

/-! ## Words -/

/-- What a word of a binary format stands for. -/
inductive BinaryWord where
  | nan
  | infinite (negative : Bool)
  /-- `m · 2^q`, negated if `negative`; a zero keeps its sign. -/
  | finite (negative : Bool) (m : Nat) (q : Int)
  deriving Repr, DecidableEq

namespace BinaryFormat

/-- Reads a word. Subnormal numbers share the power of two of the least normal ones. -/
def decode (f : BinaryFormat) (bits : Nat) : BinaryWord :=
  let negative := (bits >>> (f.fraction + f.exponent)) % 2 == 1
  let e := (bits >>> f.fraction) % Nat.pow 2 f.exponent
  let m := bits % Nat.pow 2 f.fraction
  if e = f.topExponent then
    if m = 0 then .infinite negative else .nan
  else if e = 0 then
    .finite negative m f.leastPower
  else
    .finite negative (Nat.pow 2 f.fraction + m) (f.leastPower + (e - 1 : Nat))

/-- Writes `m · 2^q`, which the format must be able to hold exactly: the significand is shifted until it
fills the fraction field or the power of two is the least one. -/
def encode (f : BinaryFormat) (negative : Bool) (m : Nat) (q : Int) : Nat :=
  let sign := if negative then Nat.pow 2 (f.fraction + f.exponent) else 0
  if m = 0 then sign
  else
    let room := f.fraction - Nat.log2 m
    let shift := min room (q - f.leastPower).toNat
    let m := m <<< shift
    let q := q - shift
    if m < Nat.pow 2 f.fraction then sign + m
    else sign + (((q - f.leastPower).toNat + 1) <<< f.fraction) + (m - Nat.pow 2 f.fraction)

end BinaryFormat

/-! ## Remainders -/

/-- The remainder of a division that truncates: it has the sign of the dividend and is smaller than the
divisor. Both operands are multiples of the smaller of their two powers of two, and so is the result. -/
def BinaryFormat.remainder (f : BinaryFormat) (x y : Nat) : Option Nat :=
  match f.decode x, f.decode y with
  | .finite s m q, .finite _ n r =>
    if n = 0 then none
    else
      let p := min q r
      some (f.encode s ((m <<< (q - p).toNat) % (n <<< (r - p).toNat)) p)
  | .finite .., .infinite _ => some x
  | _, _ => none

/-- Remainder of doubles; not a number when the divisor is zero or the dividend infinite. -/
def doubleRemainder (x y : Float) : Float :=
  match BinaryFormat.double.remainder x.toBits.toNat y.toBits.toNat with
  | some bits => Float.ofBits (UInt64.ofNat bits)
  | none => 0.0 / 0.0

/-- Remainder of singles; not a number when the divisor is zero or the dividend infinite. -/
def singleRemainder (x y : Float32) : Float32 :=
  match BinaryFormat.single.remainder x.toBits.toNat y.toBits.toNat with
  | some bits => Float32.ofBits (UInt32.ofNat bits)
  | none => 0.0 / 0.0

end Dataflow
