/-
Decimals read back from their text.

The text of a decimal has all its places and no exponent, so it is read in plain notation, digit by digit. No digit of it
is ever refused: what has been read is the beginning of the mantissa, which is below its bound, and there are as many
digits after the point as the decimal has places, which find room. Hence the text gives the mantissa and the scale again
(`Decimal.ofString?_text`). The sign of a zero is the only thing that is not read.
-/
import Mathlib.Data.List.Basic
import Dataflow.Number.Decimal.Reading

set_option autoImplicit false

namespace Dataflow.Decimal

/-- The decimal without the sign that a zero may have. -/
def unsigned (d : Decimal) : Decimal := { d with negative := d.negative && d.mantissa != 0 }

theorem ofParts?_eq_unsigned (d : Decimal) : ofParts? d.negative d.mantissa d.scale = some d.unsigned := by
  rw [ofParts?, signed?, dif_pos ⟨d.mantissa_lt, d.scale_le⟩]
  rfl

/-! ## Reading digits -/

theorem le_ofDigitChars (ds : List Char) (m : Nat) : m ≤ Nat.ofDigitChars 10 ds m := by
  rw [Nat.ofDigitChars_eq_ofDigitChars_zero]
  have hpos : 0 < 10 ^ ds.length := Nat.pow_pos (by omega)
  exact Nat.le_add_right_of_le (Nat.le_mul_of_pos_left m hpos)

theorem digit?_of_isDigit {c : Char} (h : c.isDigit = true) : digit? c = some (c.toNat - '0'.toNat) := if_pos h

/-- Digits before the point are read as long as there is room for their value. -/
theorem readDigits_whole (negative seen : Bool) {m : Nat} {ds : List Char} (rest : List Char)
    (hds : ∀ c ∈ ds, c.isDigit = true) (hm : Nat.ofDigitChars 10 ds m < bound) :
    readDigits negative false seen m 0 (ds ++ rest) =
      readDigits negative false (seen || !ds.isEmpty) (Nat.ofDigitChars 10 ds m) 0 rest := by
  induction ds generalizing seen m with
  | nil => simp
  | cons c ds ih =>
    obtain ⟨hc, hds⟩ := List.forall_mem_cons.mp hds
    rw [Nat.ofDigitChars_cons] at hm ⊢
    have hroom : 10 * m + (c.toNat - '0'.toNat) < bound := Nat.lt_of_le_of_lt (le_ofDigitChars ds _) hm
    have hstep : readDigits negative false seen m 0 (c :: (ds ++ rest)) =
        readDigits negative false true (10 * m + (c.toNat - '0'.toNat)) 0 (ds ++ rest) := by
      rw [readDigits, digit?_of_isDigit hc]
      exact if_pos hroom
    rw [List.cons_append, hstep, ih true hds hm]
    simp

/-- Digits after the point are read if they are no more than there may be places. -/
theorem readDigits_places (negative : Bool) {m scale : Nat} {ds : List Char} (hds : ∀ c ∈ ds, c.isDigit = true)
    (hm : Nat.ofDigitChars 10 ds m < bound) (hscale : scale + ds.length ≤ maxScale) :
    readDigits negative true true m scale ds = ofParts? negative (Nat.ofDigitChars 10 ds m) (scale + ds.length) := by
  induction ds generalizing m scale with
  | nil => simp [readDigits]
  | cons c ds ih =>
    obtain ⟨hc, hds⟩ := List.forall_mem_cons.mp hds
    rw [Nat.ofDigitChars_cons] at hm ⊢
    rw [List.length_cons] at hscale ⊢
    have hroom : 10 * m + (c.toNat - '0'.toNat) < bound := Nat.lt_of_le_of_lt (le_ofDigitChars ds _) hm
    have hplace : ¬ (true && decide (maxScale ≤ scale)) = true := by
      rw [Bool.true_and, decide_eq_true_eq]
      omega
    have hstep : readDigits negative true true m scale (c :: ds) =
        readDigits negative true true (10 * m + (c.toNat - '0'.toNat)) (scale + 1) ds := by
      rw [readDigits, digit?_of_isDigit hc]
      exact (if_neg hplace).trans (if_pos hroom)
    rw [hstep, ih hds hm (by omega)]
    congr 1
    omega

/-! ## The text of a decimal -/

/-- The digits of the mantissa, at least one more than there are places. -/
def digits (d : Decimal) : List Char :=
  List.replicate (d.scale + 1 - (Nat.toDigits 10 d.mantissa).length) '0' ++ Nat.toDigits 10 d.mantissa

variable (d : Decimal)

theorem isDigit_of_mem_digits : ∀ c ∈ d.digits, c.isDigit = true := by
  intro c hc
  rcases List.mem_append.mp hc with hc | hc
  · rw [(List.mem_replicate.mp hc).2]
    rfl
  · exact Nat.isDigit_of_mem_toDigits (by omega) (by omega) hc

theorem scale_lt_length_digits : d.scale < d.digits.length := by
  rw [digits, List.length_append, List.length_replicate]
  omega

theorem ofDigitChars_digits : Nat.ofDigitChars 10 d.digits 0 = d.mantissa := by
  rw [digits, Nat.ofDigitChars_append, Nat.ofDigitChars_replicate_zero, Nat.mul_zero, Nat.ofDigitChars_ten_toDigits]

/-- The digits before the point. -/
def whole : List Char := d.digits.take (d.digits.length - d.scale)

/-- The digits after the point. -/
def places : List Char := d.digits.drop (d.digits.length - d.scale)

theorem length_places : d.places.length = d.scale := by
  have hscale := d.scale_lt_length_digits
  rw [places, List.length_drop]
  omega

theorem exists_whole : ∃ c cs, d.whole = c :: cs := by
  have hscale := d.scale_lt_length_digits
  refine List.exists_cons_of_length_pos ?_
  rw [whole, List.length_take]
  omega

/-- The characters of the text: a sign, the whole part, and the places behind a point if there are any. -/
theorem toList_text :
    d.text.toList = (if d.negative then ['-'] else []) ++ (d.whole ++ if d.places.isEmpty then [] else '.' :: d.places) := by
  have hbody : (String.ofList d.whole ++ (if d.places.isEmpty then "" else "." ++ String.ofList d.places)).toList =
      d.whole ++ if d.places.isEmpty then [] else '.' :: d.places := by
    split <;> simp
  rw [text, ← hbody]
  split
  · simp [whole, places, digits]
  · rfl

/-- The digits and the point are read as the decimal, apart from the sign of a zero. -/
theorem readDigits_text :
    readDigits d.negative false false 0 0 (d.whole ++ if d.places.isEmpty then [] else '.' :: d.places) =
      some d.unsigned := by
  obtain ⟨c, cs, hwhole⟩ := d.exists_whole
  have hsplit : d.whole ++ d.places = d.digits := List.take_append_drop _ _
  have hdigits := d.isDigit_of_mem_digits
  rw [← hsplit] at hdigits
  obtain ⟨hdigitsWhole, hdigitsPlaces⟩ := List.forall_mem_append.mp hdigits
  have hvalue : Nat.ofDigitChars 10 d.places (Nat.ofDigitChars 10 d.whole 0) = d.mantissa := by
    rw [← Nat.ofDigitChars_append, hsplit, ofDigitChars_digits]
  have hbound := d.mantissa_lt
  rw [← hvalue] at hbound
  have hboundWhole := Nat.lt_of_le_of_lt (le_ofDigitChars d.places _) hbound
  have hseen : (false || !d.whole.isEmpty) = true := by
    rw [hwhole]
    rfl
  rw [readDigits_whole _ _ _ hdigitsWhole hboundWhole, hseen]
  have hlength := d.length_places
  split
  · next hempty =>
    -- without a point there are no places
    rw [List.isEmpty_iff.mp hempty] at hvalue hlength
    rw [readDigits, if_pos rfl, ← ofParts?_eq_unsigned, ← hvalue, ← hlength]
    rfl
  · have hpoint : ∀ m, readDigits d.negative false true m 0 ('.' :: d.places) =
        readDigits d.negative true true m 0 d.places := by
      intro m
      rw [readDigits]
      simp [digit?]
    rw [hpoint, readDigits_places _ hdigitsPlaces hbound (by rw [hlength, Nat.zero_add]; exact d.scale_le), hvalue,
      hlength, Nat.zero_add, ofParts?_eq_unsigned]

/-- **The text of a decimal is read as that decimal**, apart from the sign of a zero. -/
theorem ofString?_text : ofString? d.text = some d.unsigned := by
  have hplain : ofPlain? d.text.toList = some d.unsigned := by
    obtain ⟨c, cs, hwhole⟩ := d.exists_whole
    have hread := d.readDigits_text
    rw [toList_text]
    cases hnegative : d.negative with
    | true =>
      rw [hnegative] at hread
      exact hread
    | false =>
      -- the first character is a digit and no sign
      have hc : c.isDigit = true :=
        d.isDigit_of_mem_digits c (List.take_subset _ _ (show c ∈ d.whole by rw [hwhole]; exact List.mem_cons_self))
      rw [hnegative, hwhole] at hread
      rw [hwhole]
      show ofPlain? (c :: (cs ++ _)) = _
      rw [ofPlain?.eq_def]
      split
      · next h => cases h
      · next h =>
        cases h
        cases hc
      · next h =>
        cases h
        cases hc
      · exact hread
  rw [ofString?, hplain]
  rfl

end Dataflow.Decimal
