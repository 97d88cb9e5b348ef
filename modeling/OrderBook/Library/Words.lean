/-
**Words in two's complement.**

A 64-bit word shows an integer up to multiples of `2 ^ 64`. `wrap` is what it shows of an integer,
and `size` what a program gets that takes the absolute value of a word.

* `wrap_fits`, `wrap_past` — a word shows an integer as it is, or one turn less.
* `size_fits`, `size_half`, `size_past` — so the absolute value is right, negative at `2 ^ 63`, or
  counts down from there.
* `toInt_size` — the absolute value of a word, computed.
-/

import Mathlib.Algebra.Order.Group.Abs
import Mathlib.Algebra.Order.Ring.Int

namespace Words

/-- What a word shows of an integer. -/
def wrap (x : Int) : Int := x.bmod (2 ^ 64)

/-- What a program gets for the absolute value of a word that stands for `x`. -/
def size (x : Int) : Int := wrap |wrap x|

/-! ### Turns -/

theorem wrap_bounds (x : Int) : -2 ^ 63 ≤ wrap x ∧ wrap x < 2 ^ 63 := by
  have lower : -((2 ^ 64 : Nat) / 2 : Int) ≤ wrap x := Int.le_bmod (by decide)
  have upper : wrap x < ((2 ^ 64 : Nat) + 1 : Int) / 2 := Int.bmod_lt (by decide)
  omega

theorem wrap_fits {x : Int} (lower : -2 ^ 63 ≤ x) (upper : x < 2 ^ 63) : wrap x = x :=
  Int.bmod_eq_of_le (by omega) (by omega)

theorem wrap_wrap (x : Int) : wrap (wrap x) = wrap x := Int.bmod_bmod

/-- A turn more or less does not show. -/
theorem wrap_turn (x : Int) : wrap (x - 2 ^ 64) = wrap x := Int.sub_bmod_right x (2 ^ 64)

theorem wrap_past {x : Int} (lower : 2 ^ 63 ≤ x) (upper : x < 2 ^ 63 + 2 ^ 64) :
    wrap x = x - 2 ^ 64 := by
  rw [← wrap_turn]
  exact wrap_fits (by omega) (by omega)

/-- From the least word on, no word shows more than there is. -/
theorem wrap_le {x : Int} (lower : -2 ^ 63 ≤ x) : wrap x ≤ x := by
  obtain ⟨turns, off⟩ : ((2 ^ 64 : Nat) : Int) ∣ x - wrap x := Int.dvd_self_sub_bmod
  have bounds := wrap_bounds x
  omega

@[simp] theorem wrap_add_wrap (x y : Int) : wrap (x + wrap y) = wrap (x + y) := Int.add_bmod_bmod

@[simp] theorem wrap_sub_wrap (x y : Int) : wrap (x - wrap y) = wrap (x - y) := Int.sub_bmod_bmod

theorem wrap_neg_wrap (x : Int) : wrap (-wrap x) = wrap (-x) := Int.bmod_neg_bmod

/-- A quotient is no further from zero than what is divided. -/
theorem wrap_tdiv (x : Int) {k : Int} (positive : 0 < k) :
    wrap ((wrap x).tdiv k) = (wrap x).tdiv k := by
  have bounds := wrap_bounds x
  have le : ((wrap x).tdiv k).natAbs ≤ (wrap x).natAbs := Int.natAbs_tdiv_le_natAbs _ _
  by_cases nonneg : 0 ≤ wrap x
  · have := Int.tdiv_nonneg nonneg (Int.le_of_lt positive)
    exact wrap_fits (by omega) (by omega)
  · have : 0 ≤ (-wrap x).tdiv k := Int.tdiv_nonneg (by omega) (Int.le_of_lt positive)
    rw [Int.neg_tdiv] at this
    exact wrap_fits (by omega) (by omega)

/-! ### Absolute values -/

theorem size_neg (x : Int) : size (-x) = size x := by
  unfold size
  rw [← wrap_neg_wrap]
  have bounds := wrap_bounds x
  by_cases least : wrap x = -2 ^ 63
  · rw [least]
    rfl
  · rw [wrap_fits (by omega : -2 ^ 63 ≤ -wrap x) (by omega), abs_neg]

theorem size_abs (x : Int) : size |x| = size x := by
  rcases abs_choice x with same | flipped
  · rw [same]
  · rw [flipped, size_neg]

theorem size_fits {x : Int} (fits : |x| < 2 ^ 63) : size x = |x| := by
  have nonneg := abs_nonneg x
  rw [← size_abs, size, wrap_fits (by omega) fits, abs_abs, wrap_fits (by omega) fits]

theorem size_half {x : Int} (half : |x| = 2 ^ 63) : size x = -2 ^ 63 := by
  rw [← size_abs, half]
  rfl

theorem size_past {x : Int} (lower : 2 ^ 63 < |x|) (upper : |x| ≤ 2 ^ 64) :
    size x = 2 ^ 64 - |x| := by
  have shown : wrap |x| = |x| - 2 ^ 64 := wrap_past (by omega) (by omega)
  rw [← size_abs, size, shown, abs_of_nonpos (by omega), Int.neg_sub]
  exact wrap_fits (by omega) (by omega)

/-! ### Words -/

theorem pos_iff {a : Int64} : 0 < a ↔ 0 < a.toInt := Int64.lt_iff_toInt_lt

theorem nonpos_iff {a : Int64} : a ≤ 0 ↔ a.toInt ≤ 0 := Int64.le_iff_toInt_le

@[simp] theorem wrap_toInt (a : Int64) : wrap a.toInt = a.toInt :=
  wrap_fits a.le_toInt a.toInt_lt

theorem toInt_add (a b : Int64) : (a + b).toInt = wrap (a.toInt + b.toInt) := Int64.toInt_add a b

theorem toInt_sub (a b : Int64) : (a - b).toInt = wrap (a.toInt - b.toInt) := Int64.toInt_sub a b

theorem toInt_mul (a b : Int64) : (a * b).toInt = wrap (a.toInt * b.toInt) := Int64.toInt_mul a b

/-- Dividing by something positive does not wrap. -/
theorem toInt_div (a : Int64) {b : Int64} (positive : 0 < b.toInt) :
    (a / b).toInt = a.toInt.tdiv b.toInt := by
  have fits := wrap_tdiv a.toInt positive
  rw [wrap_toInt] at fits
  exact (Int64.toInt_div a b).trans fits

/-- **The absolute value of a word**, as a program computes it. -/
theorem toInt_size (a : Int64) : (if a < 0 then -a else a).toInt = size a.toInt := by
  rw [size, wrap_toInt]
  by_cases negative : a < 0
  · rw [if_pos negative, abs_of_neg (Int64.lt_iff_toInt_lt.mp negative)]
    exact Int64.toInt_neg a
  · have nonneg : 0 ≤ a.toInt := Int.not_lt.mp fun lt => negative (Int64.lt_iff_toInt_lt.mpr lt)
    rw [if_neg negative, abs_of_nonneg nonneg, wrap_toInt]

theorem size_wrap (x : Int) : size (wrap x) = size x := by
  rw [size, wrap_wrap, size]

/-- An unsigned word below `2 ^ 63` is cast to itself, any other one to something negative. -/
theorem toInt_cast (q : UInt64) :
    q.toInt64.toInt = if q.toNat < 2 ^ 63 then (q.toNat : Int) else q.toNat - 2 ^ 64 := by
  have bound := q.toNat_lt
  have shown : q.toInt64.toInt = wrap q.toNat := by
    rw [← UInt64.ofNat_toNat (x := q), UInt64.toInt64_ofNat', Int64.toInt_ofNat',
      UInt64.ofNat_toNat]
    rfl
  rw [shown]
  split
  · exact wrap_fits (by omega) (by omega)
  · exact wrap_past (by omega) (by omega)

/-- A positive word is cast to itself. -/
theorem toNat_cast {a : Int64} (positive : 0 < a.toInt) : (a.toUInt64.toNat : Int) = a.toInt := by
  have nonneg : 0 ≤ a := Int64.le_iff_toInt_le.mpr (Int.le_of_lt positive)
  rw [Int64.toNat_toUInt64_of_le nonneg]
  exact Int64.cast_toNatClampNeg _ nonneg

end Words
