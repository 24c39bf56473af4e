/-
Arithmetic on 96-bit decimals.

Sums and products are computed exactly and then brought back into range: `fit` drops the fewest decimal
places that make the mantissa fit and rounds a half to the even neighbour. A quotient grows digit by digit
while there is room, and then loses the trailing zeros it gained, in steps of eight, four, two and one.
A remainder by a small mantissa is exact; by a large one it is what long division over 32-bit words gives,
which takes a leading word equal to that of the divisor for zero. `none` means that the outcome is out of
range or undefined.
-/
import Dataflow.Number.Decimal.Basic

set_option autoImplicit false

namespace Dataflow.Decimal

/-! ## Rounding back into range -/

/-- `n / 10^places` rounded to the nearest integer, a half to the even one. -/
def dropPlaces (n places : Nat) : Nat :=
  let unit := Nat.pow 10 places
  let q := n / unit
  let r := n % unit
  if unit < 2 * r || (2 * r == unit && q % 2 == 1) then q + 1 else q

/-- The fewest places, from `places` up to `places + more`, whose removal makes `n` fit. -/
def placesToDrop (n : Nat) : (more places : Nat) → Option Nat
  | 0, places => if n / Nat.pow 10 places < bound then some places else none
  | more + 1, places =>
    if n / Nat.pow 10 places < bound then some places else placesToDrop n more (places + 1)

/-- The decimal of value `n / 10^scale` with at most 28 places and a mantissa in range. If rounding up
leaves the range, one more place goes. -/
def fit (negative : Bool) (n scale : Nat) : Option Decimal :=
  let least := scale - maxScale
  match placesToDrop n (scale - least) least with
  | none => none
  | some places =>
    let m := dropPlaces n places
    if m < bound then ofParts? negative m (scale - places)
    else if scale - places = 0 then none
    else ofParts? negative (dropPlaces m 1) (scale - places - 1)

/-! ## Sums -/

/-- The sum of two decimals of which neither is zero. -/
def addAligned (a b : Decimal) : Option Decimal :=
  let scale := max a.scale b.scale
  let m := a.mantissa * Nat.pow 10 (scale - a.scale)
  let n := b.mantissa * Nat.pow 10 (scale - b.scale)
  if a.negative == b.negative then fit a.negative (m + n) scale
  else if n ≤ m then fit a.negative (m - n) scale
  else fit b.negative (n - m) scale

/-- Sum. A zero operand leaves the other one as it is, scale included. -/
def add (a b : Decimal) : Option Decimal :=
  if a.isZero then some b else if b.isZero then some a else addAligned a b

/-- Difference. A zero operand leaves the other one as it is, up to sign. -/
def sub (a b : Decimal) : Option Decimal :=
  if a.isZero then some (if b.isZero then b else b.neg)
  else if b.isZero then some a else addAligned a b.neg

/-! ## Products -/

/-- Whether a mantissa fills one word only. -/
def isSmall (d : Decimal) : Bool := d.mantissa < Nat.pow 2 32

/-- Product. The scales add up. A factor zero gives the plain zero, and so does a product of two small
mantissas that is far too small to show. Any other product that rounds to zero keeps its places, and unless
both mantissas are small also its sign. -/
def mul (a b : Decimal) : Option Decimal :=
  if a.isZero || b.isZero then some zero
  else
    let scale := a.scale + b.scale
    let negative := a.negative != b.negative
    let small := a.isSmall && b.isSmall
    if small && maxScale + 19 < scale then some zero
    else
      (fit negative (a.mantissa * b.mantissa) scale).map fun d =>
        if small then d else { d with negative := negative }

/-! ## Quotients -/

/-- The largest step of at most `limit` places by which `q` can grow and stay in range. -/
def growth (q : Nat) : (limit : Nat) → Nat
  | 0 => 0
  | k + 1 => if q * Nat.pow 10 (k + 1) < bound then k + 1 else growth q k

/-- `n`, which has just left the range, with one place less; `sticky` says that more digits follow. -/
def shrink (n : Nat) (scale : Int) (sticky : Bool) : Option (Nat × Int) :=
  if scale - 1 < 0 then none
  else
    let q := n / 10
    let r := n % 10
    some (if 5 < r || (r == 5 && (sticky || q % 2 == 1)) then q + 1 else q, scale - 1)

/-- The quotient `q` with remainder `r` of a division by `divisor`, rounded to the nearest integer. -/
def roundQuotient (q r divisor : Nat) (scale : Int) : Option (Nat × Int) :=
  if divisor < 2 * r || (2 * r == divisor && q % 2 == 1) then
    if q + 1 < bound then some (q + 1, scale) else shrink (q + 1) scale true
  else some (q, scale)

/-- Extends the quotient `q` of remainder `r` at `scale` by further decimal places until it is exact, or
until no place is left: nine places at a time while there is room. It fails if the room is used up before
the scale has reached zero. Every round adds a place, so `rounds` only has to cover the distance from the
least scale to the greatest. -/
def extend (divisor : Nat) : (rounds q r : Nat) → (scale : Int) → Option (Nat × Int)
  | 0, q, _, scale => some (q, scale)
  | rounds + 1, q, r, scale =>
    if r = 0 ∧ 0 ≤ scale then some (q, scale)
    else
      let step := if r = 0 then min 9 (-scale).toNat else growth q (min 9 (maxScale - scale).toNat)
      if r ≠ 0 ∧ (scale = maxScale ∨ (step = 0 ∧ 0 ≤ scale)) then roundQuotient q r divisor scale
      else if r ≠ 0 ∧ step < 9 ∧ step + scale < 0 then none
      else
        let scale := scale + step
        let q := q * Nat.pow 10 step
        if bound ≤ q then none
        else
          let q := q + r * Nat.pow 10 step / divisor
          let r := r * Nat.pow 10 step % divisor
          if q < bound then extend divisor rounds q r scale else shrink q scale (r != 0)

/-- Takes `places` trailing zeros off a mantissa that has them. -/
def stripZeros (places : Nat) (m scale : Nat) : Nat × Nat :=
  if places ≤ scale ∧ m % Nat.pow 10 places = 0 then (m / Nat.pow 10 places, scale - places) else (m, scale)

/-- Takes trailing zeros off in blocks of eight, as long as the low 32 bits of the mantissa are zero. -/
def stripBlocks : (rounds m scale : Nat) → Nat × Nat
  | 0, m, scale => (m, scale)
  | rounds + 1, m, scale =>
    if m % Nat.pow 2 32 = 0 ∧ 8 ≤ scale ∧ m % Nat.pow 10 8 = 0 then
      stripBlocks rounds (m / Nat.pow 10 8) (scale - 8)
    else (m, scale)

/-- Takes trailing zeros off: whole blocks of eight, then at most four, two and one. A result may keep
some of its zeros. -/
def strip (m scale : Nat) : Nat × Nat :=
  let (m, scale) := stripBlocks 4 m scale
  let (m, scale) := stripZeros 4 m scale
  let (m, scale) := stripZeros 2 m scale
  stripZeros 1 m scale

/-- Quotient. An exact quotient of the mantissas keeps the difference of the scales. -/
def div (a b : Decimal) : Option Decimal :=
  if b.isZero then none
  else if a.isZero then some zero
  else
    let scale := (a.scale : Int) - b.scale
    let q := a.mantissa / b.mantissa
    let r := a.mantissa % b.mantissa
    match extend b.mantissa 64 q r scale with
    | none => none
    | some (m, s) =>
      let (m, s) := if r = 0 then (m, s.toNat) else strip m s.toNat
      ofParts? (a.negative != b.negative) m s

/-! ## Remainders -/

/-- The 32-bit words of a number from the least to the most significant, at most `count`. -/
def words : (count : Nat) → Nat → List Nat
  | 0, _ => []
  | count + 1, n => if n = 0 then [] else n % Nat.pow 2 32 :: words count (n / Nat.pow 2 32)

/-- One step of long division: the remainder `r` so far, extended by a word, is reduced by `divisor`, whose
leading word is the third and has its highest bit set. The quotient of a step has one word, so it is
estimated from the leading words alone; where they are equal, the estimate loses the leading word. -/
def reduceWord (divisor r word : Nat) : Nat :=
  let n := r * Nat.pow 2 32 + word
  (if n / Nat.pow 2 96 = divisor / Nat.pow 2 64 then n % Nat.pow 2 96 else n) % divisor

/-- The remainder of long division over words by a divisor of three words. Both numbers are shifted so that
the leading word of the divisor has its highest bit set. -/
def longRemainder (m n : Nat) : Nat :=
  let unit := Nat.pow 2 (95 - Nat.log2 n)
  let shifted := m * unit
  (words (shifted.log2 / 32 + 1) shifted).foldr (fun word r => reduceWord (n * unit) r word) 0 / unit

/-- Remainder of the truncating division, with the sign of the dividend. A dividend that is smaller than
the divisor stays as it is; otherwise the result has the larger of the two scales. -/
def mod (a b : Decimal) : Option Decimal :=
  if b.isZero then none
  else if a.isZero then some zero
  else
    let scale := max a.scale b.scale
    let m := a.mantissa * Nat.pow 10 (scale - a.scale)
    let n := b.mantissa * Nat.pow 10 (scale - b.scale)
    if m = n then some zero
    else if m < n then some a
    else ofParts? a.negative (if n < Nat.pow 2 64 then m % n else longRemainder m n) scale

end Dataflow.Decimal
