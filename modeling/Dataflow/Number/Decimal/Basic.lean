/-
Scaled decimals of 96 bits: a sign, a mantissa below `2^96` and a scale of at most 28 decimal places.

Equal numbers may have different scales (`1.0` and `1.00`), and the scale is part of the text. The two
bounds are part of the type, so an operation whose outcome does not fit has to say so: `signed?` is the
only way in from unchecked numbers, and `ofParts?` the usual one.
-/

set_option autoImplicit false

namespace Dataflow

/-- Mantissas stay below this bound. -/
def Decimal.bound : Nat := Nat.pow 2 96

/-- Scales go up to this bound. -/
def Decimal.maxScale : Nat := 28

/-- `mantissa / 10^scale`, negated if `negative`. -/
structure Decimal where
  negative : Bool
  mantissa : Nat
  scale : Nat
  mantissa_lt : mantissa < Decimal.bound
  scale_le : scale ≤ Decimal.maxScale
  deriving DecidableEq

namespace Decimal

/-! ## Construction -/

/-- A decimal from unchecked parts, the sign kept also on a zero. -/
def signed? (negative : Bool) (mantissa scale : Nat) : Option Decimal :=
  if h : mantissa < bound ∧ scale ≤ maxScale then some ⟨negative, mantissa, scale, h.1, h.2⟩ else none

/-- A decimal from unchecked parts. A zero made this way is not negative. -/
def ofParts? (negative : Bool) (mantissa scale : Nat) : Option Decimal :=
  signed? (negative && mantissa != 0) mantissa scale

/-- Zero without decimal places. -/
def zero : Decimal := ⟨false, 0, 0, by decide, by decide⟩

/-- Zero with a minus sign. -/
def negativeZero : Decimal := ⟨true, 0, 0, by decide, by decide⟩

instance : Inhabited Decimal := ⟨zero⟩

/-- An integer of at most 64 bits. -/
def ofInt64 (n : Int64) : Decimal :=
  (ofParts? (n.toInt < 0) n.toInt.natAbs 0).getD zero

/-- Flips the sign, also of a zero. -/
def neg (d : Decimal) : Decimal := { d with negative := !d.negative }

instance : Neg Decimal := ⟨neg⟩

/-- Whether the value is zero, whatever its sign and scale. -/
def isZero (d : Decimal) : Bool := d.mantissa == 0

/-! ## Order -/

/-- The value multiplied by `10^28`, an integer. -/
def units (d : Decimal) : Int :=
  let magnitude := d.mantissa * Nat.pow 10 (maxScale - d.scale)
  if d.negative then -(magnitude : Int) else magnitude

/-- Order by value: scale and sign of zero play no part. -/
def compare (a b : Decimal) : Ordering := Ord.compare a.units b.units

/-- Equality by value. -/
def same (a b : Decimal) : Bool := a.units == b.units

/-! ## Text -/

/-- All decimal places are written, with at least one digit before the point. -/
def text (d : Decimal) : String :=
  let digits := Nat.toDigits 10 d.mantissa
  let padded := List.replicate (d.scale + 1 - digits.length) '0' ++ digits
  let whole := padded.take (padded.length - d.scale)
  let places := padded.drop (padded.length - d.scale)
  let body := String.ofList whole ++ (if places.isEmpty then "" else "." ++ String.ofList places)
  if d.negative then "-" ++ body else body

end Decimal

end Dataflow
