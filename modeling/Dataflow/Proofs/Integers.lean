/-
Arithmetic of integers is exact up to the width.

An integer number holds an integer `m` that fits into `w` bits: `Num.Holds n w m`. Widening keeps what a number holds,
and every operator applies the exact operation to what its operands hold and reduces the outcome to two's complement
of the wider of the two widths; only a quotient or remainder by zero is refused. The outcome of a truncated division
fits already, but for the quotient of the least integer by `-1`, which wraps to the least integer.

Reducing at the end is as good as reducing at every step. That is why the identity of division survives the wrapping:
the wrapped quotient times the divisor plus the remainder is the reduced dividend, and the dividend fits. Comparing is
comparing what is held, so the order of the integers carries over to both kinds together.
-/
import Mathlib
import Dataflow.Number.Tower

set_option autoImplicit false

namespace Dataflow

/-! ## Exact operations -/

namespace ArithOp

/-- The operation on integers of any size; the quotient is truncated, and the remainder goes with it. -/
def exact : ArithOp → ℤ → ℤ → ℤ
  | add, m, n => m + n
  | sub, m, n => m - n
  | mul, m, n => m * n
  | div, m, n => m.tdiv n
  | mod, m, n => m.tmod n

/-- A quotient or a remainder by zero. -/
def ByZero (op : ArithOp) (n : ℤ) : Prop := (op = div ∨ op = mod) ∧ n = 0

theorem byZero_div {n : ℤ} : div.ByZero n ↔ n = 0 := by simp [ByZero]

theorem byZero_mod {n : ℤ} : mod.ByZero n ↔ n = 0 := by simp [ByZero]

theorem not_byZero (op : ArithOp) (hd : op ≠ div) (hm : op ≠ mod) (n : ℤ) : ¬ op.ByZero n := by
  rintro ⟨h | h, -⟩
  · exact hd h
  · exact hm h

end ArithOp

namespace Num

/-! ## One width -/

/-- The remainder of two integers that fit needs no reduction. -/
theorem tmod_bmod (a b : Int32) : (a.toInt.tmod b.toInt).bmod (2 ^ 32) = a.toInt.tmod b.toInt := by
  rw [← Int32.toInt_mod]
  exact Int32.toInt_bmod _

theorem tmod_bmod64 (a b : Int64) : (a.toInt.tmod b.toInt).bmod (2 ^ 64) = a.toInt.tmod b.toInt := by
  rw [← Int64.toInt_mod]
  exact Int64.toInt_bmod _

theorem arith32_byZero {op : ArithOp} {b : Int32} (h : op.ByZero b.toInt) (a : Int32) :
    arith32 op a b = .error .divisionByZero := by
  have hb : b = 0 := Int32.toInt_inj.1 h.2
  obtain rfl | rfl := h.1 <;> simp [arith32, hb]

/-- Arithmetic of 32 bits is exact, but for the reduction into the range, unless it divides by zero. -/
theorem arith32_exact {op : ArithOp} {b : Int32} (h : ¬ op.ByZero b.toInt) (a : Int32) :
    ∃ r, arith32 op a b = .ok r ∧ r.toInt = (op.exact a.toInt b.toInt).bmod (2 ^ 32) := by
  have hb : b = 0 → b.toInt = 0 := fun hb => by rw [hb, Int32.toInt_zero]
  cases op with
  | add => exact ⟨a + b, rfl, Int32.toInt_add a b⟩
  | sub => exact ⟨a - b, rfl, Int32.toInt_sub a b⟩
  | mul => exact ⟨a * b, rfl, Int32.toInt_mul a b⟩
  | div =>
    rw [ArithOp.byZero_div] at h
    exact ⟨a / b, if_neg (mt hb h), Int32.toInt_div a b⟩
  -- a remainder is in the range already, so that reducing it does nothing
  | mod =>
    rw [ArithOp.byZero_mod] at h
    exact ⟨a % b, if_neg (mt hb h), (Int32.toInt_mod a b).trans (tmod_bmod a b).symm⟩

theorem arith64_byZero {op : ArithOp} {b : Int64} (h : op.ByZero b.toInt) (a : Int64) :
    arith64 op a b = .error .divisionByZero := by
  have hb : b = 0 := Int64.toInt_inj.1 h.2
  obtain rfl | rfl := h.1 <;> simp [arith64, hb]

/-- Arithmetic of 64 bits is exact, but for the reduction into the range, unless it divides by zero. -/
theorem arith64_exact {op : ArithOp} {b : Int64} (h : ¬ op.ByZero b.toInt) (a : Int64) :
    ∃ r, arith64 op a b = .ok r ∧ r.toInt = (op.exact a.toInt b.toInt).bmod (2 ^ 64) := by
  have hb : b = 0 → b.toInt = 0 := fun hb => by rw [hb, Int64.toInt_zero]
  cases op with
  | add => exact ⟨a + b, rfl, Int64.toInt_add a b⟩
  | sub => exact ⟨a - b, rfl, Int64.toInt_sub a b⟩
  | mul => exact ⟨a * b, rfl, Int64.toInt_mul a b⟩
  | div =>
    rw [ArithOp.byZero_div] at h
    exact ⟨a / b, if_neg (mt hb h), Int64.toInt_div a b⟩
  -- a remainder is in the range already, so that reducing it does nothing
  | mod =>
    rw [ArithOp.byZero_mod] at h
    exact ⟨a % b, if_neg (mt hb h), (Int64.toInt_mod a b).trans (tmod_bmod64 a b).symm⟩

/-! ## What a number holds -/

/-- A number of an integer kind, with the width of the kind and the integer that it holds. -/
inductive Holds : Num → ℕ → ℤ → Prop where
  | int32 (n : Int32) : Holds (.int32 n) 32 n.toInt
  | int64 (n : Int64) : Holds (.int64 n) 64 n.toInt

/-- Two numbers of one integer kind. -/
inductive HoldsBoth : NumPair → ℕ → ℤ → ℤ → Prop where
  | int32 (a b : Int32) : HoldsBoth (.int32 a b) 32 a.toInt b.toInt
  | int64 (a b : Int64) : HoldsBoth (.int64 a b) 64 a.toInt b.toInt

variable {a b c q r : Num} {p : NumPair} {op : ArithOp} {u v w : ℕ} {l m n : ℤ}

/-- What a number holds fits into its width, and so into every wider one. -/
theorem Holds.bmod_of_le (h : a.Holds v m) (hw : v ≤ w) : m.bmod (2 ^ w) = m := by
  have hpow : (2 ^ v : ℤ) ≤ 2 ^ w := mod_cast Nat.pow_le_pow_right (by decide) hw
  cases h with
  | int32 n =>
    have h₁ := n.le_toInt
    have h₂ := n.toInt_lt
    apply Int.bmod_eq_of_le <;> push_cast <;> omega
  | int64 n =>
    have h₁ := n.le_toInt
    have h₂ := n.toInt_lt
    apply Int.bmod_eq_of_le <;> push_cast <;> omega

/-- Widening keeps what is held. -/
theorem Holds.align (ha : a.Holds v m) (hb : b.Holds w n) :
    ∃ p, a.align b = .ok p ∧ HoldsBoth p (max v w) m n := by
  cases ha with
  | int32 x =>
    cases hb with
    | int32 y => exact ⟨_, rfl, .int32 x y⟩
    | int64 y => exact ⟨_, rfl, by simpa using HoldsBoth.int64 x.toInt64 y⟩
  | int64 x =>
    cases hb with
    | int32 y => exact ⟨_, rfl, by simpa using HoldsBoth.int64 x y.toInt64⟩
    | int64 y => exact ⟨_, rfl, .int64 x y⟩

/-! ## Operators -/

/-- A quotient or a remainder by zero is refused. -/
theorem Holds.arith_byZero (ha : a.Holds v m) (hb : b.Holds w n) (h : op.ByZero n) :
    a.arith op b = .error .divisionByZero := by
  obtain ⟨p, hp, hold⟩ := ha.align hb
  unfold Num.arith
  rw [hp]
  generalize max v w = k at hold
  cases hold with
  | int32 x y => simp [bind, Except.bind, arith32_byZero h]
  | int64 x y => simp [bind, Except.bind, arith64_byZero h]

/-- Everything else has a result: the exact one, reduced to the wider of the two widths. -/
theorem Holds.arith (ha : a.Holds v m) (hb : b.Holds w n) (h : ¬ op.ByZero n) :
    ∃ r, a.arith op b = .ok r ∧ r.Holds (max v w) ((op.exact m n).bmod (2 ^ max v w)) := by
  obtain ⟨p, hp, hold⟩ := ha.align hb
  unfold Num.arith
  rw [hp]
  generalize max v w = k at hold ⊢
  cases hold with
  | int32 x y =>
    obtain ⟨r, hr, hrx⟩ := arith32_exact h x
    exact ⟨.int32 r, by simp [bind, Except.bind, hr, pure, Except.pure], hrx ▸ .int32 r⟩
  | int64 x y =>
    obtain ⟨r, hr, hrx⟩ := arith64_exact h x
    exact ⟨.int64 r, by simp [bind, Except.bind, hr, pure, Except.pure], hrx ▸ .int64 r⟩

/-- An operation on integers goes wrong if it divides by zero, and only then. -/
theorem Holds.arith_eq_error_iff (ha : a.Holds v m) (hb : b.Holds w n) :
    (∃ e, a.arith op b = .error e) ↔ op.ByZero n := by
  constructor
  · rintro ⟨e, he⟩
    by_contra hz
    obtain ⟨r, hr, -⟩ := ha.arith hb hz
    rw [hr] at he
    cases he
  · intro hz
    exact ⟨_, ha.arith_byZero hb hz⟩

/-- Quotient times divisor plus remainder is the dividend, although the quotient and the product may both wrap. -/
theorem Holds.div_mul_add_mod (ha : a.Holds v m) (hb : b.Holds w n) (hn : n ≠ 0) :
    ∃ q p r s, a.arith .div b = .ok q ∧ q.arith .mul b = .ok p ∧ a.arith .mod b = .ok r ∧
      p.arith .add r = .ok s ∧ s.Holds (max v w) m := by
  obtain ⟨q, hq, hqh⟩ := ha.arith hb (mt ArithOp.byZero_div.1 hn)
  obtain ⟨p, hp, hph⟩ := hqh.arith hb (ArithOp.not_byZero .mul nofun nofun n)
  obtain ⟨r, hr, hrh⟩ := ha.arith hb (mt ArithOp.byZero_mod.1 hn)
  obtain ⟨s, hs, hsh⟩ := hph.arith hrh (ArithOp.not_byZero .add nofun nofun _)
  refine ⟨q, p, r, s, hq, hp, hr, hs, ?_⟩
  have hk : max (max (max v w) w) (max v w) = max v w := by omega
  have hk' : max (max v w) w = max v w := by omega
  rw [hk, hk'] at hsh
  have hm : ((m.tdiv n * n) + m.tmod n).bmod (2 ^ max v w) = m := by
    rw [Int.tdiv_mul_add_tmod]
    exact ha.bmod_of_le (Nat.le_max_left v w)
  simpa [ArithOp.exact, hm] using hsh

/-- Negation is the difference from zero. -/
theorem Holds.negate (ha : a.Holds v m) : (Num.int32 0).arith .sub a = .ok a.negate := by
  cases ha with
  | int32 n =>
    show Except.ok (Num.int32 (0 - n)) = _
    rw [Int32.zero_sub]
    rfl
  | int64 n =>
    show Except.ok (Num.int64 ((0 : Int32).toInt64 - n)) = _
    rw [show (0 : Int32).toInt64 = 0 from rfl, Int64.zero_sub]
    rfl

/-! ## Order -/

/-- Numbers are compared by what they hold. -/
theorem Holds.compare (ha : a.Holds v m) (hb : b.Holds w n) : a.compare b = .ok (some (Ord.compare m n)) := by
  obtain ⟨p, hp, hold⟩ := ha.align hb
  unfold Num.compare
  rw [hp]
  generalize max v w = k at hold
  cases hold with
  | int32 | int64 => rfl

/-- The order of integers is transitive, across the kinds of numbers. -/
theorem Holds.compare_trans (ha : a.Holds u l) (hb : b.Holds v m) (hc : c.Holds w n) {o o' : Ordering}
    (hab : a.compare b = .ok (some o)) (hbc : b.compare c = .ok (some o')) (ho : o ≠ .gt) (ho' : o' ≠ .gt) :
    a.compare c = .ok (some (o.then o')) := by
  rw [ha.compare hb] at hab
  rw [hb.compare hc] at hbc
  cases hab
  cases hbc
  rw [ha.compare hc]
  have hlm : l ≤ m := compare_le_iff_le.1 ho
  have hmn : m ≤ n := compare_le_iff_le.1 ho'
  -- the first two are equal, and the third decides, or else the first is smaller than both
  obtain rfl | hlt := hlm.eq_or_lt
  · rw [compare_eq_iff_eq.2 rfl, Ordering.eq_then]
  · rw [compare_lt_iff_lt.2 hlt, compare_lt_iff_lt.2 (hlt.trans_le hmn), Ordering.lt_then]

/-- **Integer arithmetic is exact modulo the width.** Of two integers, only quotients and remainders by zero are
refused. Everything else is the exact outcome reduced to two's complement of the wider of the two widths; the identity
of division holds, whatever wraps; negation is the difference from zero; and comparing decides the order of the
integers, across both kinds. -/
theorem integers_exact (ha : a.Holds v m) (hb : b.Holds w n) :
    (∀ op : ArithOp, (∃ e, a.arith op b = .error e) ↔ (op = .div ∨ op = .mod) ∧ n = 0) ∧
    (∀ op : ArithOp, ¬((op = .div ∨ op = .mod) ∧ n = 0) →
      ∃ r, a.arith op b = .ok r ∧ r.Holds (max v w) ((op.exact m n).bmod (2 ^ max v w))) ∧
    (n ≠ 0 → ∃ q p r s, a.arith .div b = .ok q ∧ q.arith .mul b = .ok p ∧ a.arith .mod b = .ok r ∧
      p.arith .add r = .ok s ∧ s.Holds (max v w) m) ∧
    (int32 0).arith .sub a = .ok a.negate ∧
    a.compare b = .ok (some (Ord.compare m n)) ∧
    b.compare a = .ok (some (Ord.compare m n).swap) ∧
    (∀ c u l o o', c.Holds u l → a.compare b = .ok (some o) → b.compare c = .ok (some o') → o ≠ .gt → o' ≠ .gt →
      a.compare c = .ok (some (o.then o'))) := by
  refine ⟨fun op => ha.arith_eq_error_iff hb, fun op h => ha.arith hb h, ha.div_mul_add_mod hb, ha.negate,
    ha.compare hb, ?_, ?_⟩
  · rw [hb.compare ha, Std.OrientedOrd.eq_swap]
  · intro c u l o o' hc hab hbc ho ho'
    exact ha.compare_trans hb hc hab hbc ho ho'

/-- The least integer by `-1`: the exact quotient `2^63` does not fit and wraps, the remainder is `0`, and quotient
times divisor plus remainder is the least integer again. -/
theorem integers_exact_least :
    (int64 Int64.minValue).Holds 64 (-2 ^ 63) ∧ (int32 (-1)).Holds 32 (-1) ∧
    (∃ r, (int64 Int64.minValue).arith .div (int32 (-1)) = .ok r ∧ r.Holds 64 (-2 ^ 63)) ∧
    (∃ r, (int64 Int64.minValue).arith .mod (int32 (-1)) = .ok r ∧ r.Holds 64 0) ∧
    (∃ q p r s, (int64 Int64.minValue).arith .div (int32 (-1)) = .ok q ∧ q.arith .mul (int32 (-1)) = .ok p ∧
      (int64 Int64.minValue).arith .mod (int32 (-1)) = .ok r ∧ p.arith .add r = .ok s ∧ s.Holds 64 (-2 ^ 63)) ∧
    (int64 Int64.minValue).compare (int32 (-1)) = .ok (some .lt) := by
  have ha : (int64 Int64.minValue).Holds 64 (-2 ^ 63) := .int64 Int64.minValue
  have hb : (int32 (-1)).Holds 32 (-1) := .int32 (-1)
  obtain ⟨-, hops, hid, -, hcmp, -⟩ := integers_exact ha hb
  exact ⟨ha, hb, hops .div (by decide), hops .mod (by decide), hid (by decide), hcmp⟩

end Num

end Dataflow
