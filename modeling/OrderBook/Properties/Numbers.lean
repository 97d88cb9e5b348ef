/-
**No price and no quantity is distorted by a double.**

* `units_round_trip` — scaled integers below `2 ^ 51` are found again when they are converted to
  doubles and back, are printed as that many cents or millionths, and are found again from the text.
-/

import OrderBook.Source.Feed

namespace Ob

open Double

theorem toPrice_scaled (on : Platform) {x : Float.Model} {n : ℤ} (rounds : Rounds (n / 100) x)
    (small : |n| < 2 ^ 51) : (toPrice on x).toInt = n := by
  have near := lt_of_le_of_lt (rounds.scaled (d := 100) (by decide) (by decide)) (quarter small)
  exact llround_scaled rounds.finite small (by decide) near on.llround

theorem toQty_scaled (on : Platform) {x : Float.Model} {n : ℕ}
    (rounds : Rounds (((n : ℤ) : ℚ) / ((1000000 : ℤ) : ℚ)) x) (small : n < 2 ^ 51) : (toQty on x).toNat = n := by
  have small' : |(n : ℤ)| < 2 ^ 51 := by
    rw [abs_of_nonneg (Int.natCast_nonneg n)]
    exact_mod_cast small
  have near := lt_of_le_of_lt (rounds.scaled (by decide) (by decide)) (quarter small')
  have same := llround_scaled rounds.finite small' (by decide) near on.llround
  have nonneg : 0 ≤ llround on.llround (x * .ofInt 1000000) :=
    Int64.le_iff_toInt_le.mpr (by rw [same]; exact Int.natCast_nonneg n)
  have cast := Int64.cast_toNatClampNeg _ nonneg
  rw [same] at cast
  show (llround on.llround (x * .ofInt 1000000)).toUInt64.toNat = n
  rw [Int64.toNat_toUInt64_of_le nonneg]
  exact_mod_cast cast

/-- A price below `2 ^ 51` in a double. -/
theorem fromPrice_rounds {p : Price} (small : |p.toInt| < 2 ^ 51) :
    Rounds (p.toInt / 100) (fromPrice p) := by
  have rounds := quotient_rounds (n := p.toInt) (d := 100) (by omega) (by decide) (by decide)
  exact_mod_cast rounds

theorem fromQty_rounds {q : Quantity} (small : q.toNat < 2 ^ 51) :
    Rounds (((q.toNat : ℤ) : ℚ) / ((1000000 : ℤ) : ℚ)) (fromQty q) := by
  have bits : |(q.toNat : ℤ)| ≤ 2 ^ 53 := by
    rw [abs_of_nonneg (Int.natCast_nonneg _)]
    omega
  exact quotient_rounds (n := q.toNat) (d := 1000000) bits (by decide) (by decide)

theorem toPrice_fromPrice (on : Platform) {p : Price} (small : |p.toInt| < 2 ^ 51) :
    toPrice on (fromPrice p) = p :=
  Int64.toInt_inj.mp (toPrice_scaled on (fromPrice_rounds small) small)

theorem toQty_fromQty (on : Platform) {q : Quantity} (small : q.toNat < 2 ^ 51) :
    toQty on (fromQty q) = q :=
  UInt64.toNat_inj.mp (toQty_scaled on (fromQty_rounds small) small)

/-- **The text of a price** has its cents. -/
theorem fixed_fromPrice {p : Price} (small : |p.toInt| < 2 ^ 52) :
    fixed 2 (fromPrice p) = units 2 p.toInt :=
  fixed_decimal small (by decide)

/-- **The text of a quantity** has its millionths. -/
theorem fixed_fromQty {q : Quantity} (small : q.toNat < 2 ^ 52) :
    fixed 6 (fromQty q) = units 6 q.toNat := by
  refine fixed_decimal (n := q.toNat) ?_ (by decide)
  rw [abs_of_nonneg (Int.natCast_nonneg _)]
  exact_mod_cast small

/-- The text of a whole number of units is read as a double nearest to it. -/
theorem stod_units (places : ℕ) (n : ℤ) (some_places : 0 < places) (fits : places ≤ 15)
    (small : |n| < 2 ^ 53) (underflow : ℚ → Float.Model → Bool) :
    ∃ x, stod underflow (units places n) = some x ∧ Rounds (n / 10 ^ places) x := by
  have unit : 10 ^ places ≤ 2 ^ 200 :=
    (Nat.pow_le_pow_right (by decide) fits).trans (by decide)
  have bound : n.natAbs < 2 ^ 53 := by
    have cast : ((n.natAbs : ℕ) : ℤ) < 2 ^ 53 := by rwa [Int.natCast_natAbs]
    exact_mod_cast cast
  obtain ⟨x, read, rounds⟩ := stod_decimal (units_decimal some_places n) (by
      refine Nat.eq_zero_or_pos _ |>.imp_right fun positive => ?_
      exact unit.trans (Nat.le_mul_of_pos_left _ positive))
    (bound.le.trans ((by decide : 2 ^ 53 ≤ 2 ^ 200 * 1).trans
      (Nat.mul_le_mul_left _ (Nat.one_le_pow _ _ (by decide))))) underflow
  refine ⟨x, read, ?_⟩
  have signed : (if decide (n < 0) = true then (-1 : ℚ) else 1) * ((n.natAbs : ℚ) / 10 ^ places) =
      n / 10 ^ places := by
    rw [Nat.cast_natAbs, Int.cast_abs]
    by_cases negative : n < 0
    · rw [if_pos (decide_eq_true negative), abs_of_neg (by exact_mod_cast negative)]
      ring
    · rw [if_neg (by simpa using negative), abs_of_nonneg (by exact_mod_cast not_lt.mp negative)]
      ring
  rwa [signed] at rounds

/-- **No price and no quantity is distorted.** What is below `2 ^ 51` cents, or millionths, is found
again after it was a double, and after it was a text; the text has exactly its cents, or millionths. -/
theorem units_round_trip (on : Platform) (p : Price) (q : Quantity) (small : |p.toInt| < 2 ^ 51)
    (small' : q.toNat < 2 ^ 51) :
    (toPrice on (fromPrice p) = p ∧ toQty on (fromQty q) = q) ∧
      (fixed 2 (fromPrice p) = units 2 p.toInt ∧ fixed 6 (fromQty q) = units 6 q.toNat) ∧
      (stod on.underflow (fixed 2 (fromPrice p))).map (toPrice on) = some p ∧
      (stod on.underflow (fixed 6 (fromQty q))).map (toQty on) = some q := by
  have price := fixed_fromPrice (p := p) (by omega)
  have quantity := fixed_fromQty (q := q) (by omega)
  refine ⟨⟨toPrice_fromPrice on small, toQty_fromQty on small'⟩, ⟨price, quantity⟩, ?_, ?_⟩
  · obtain ⟨x, read, rounds⟩ := stod_units 2 p.toInt (by decide) (by decide)
      (by omega) on.underflow
    rw [price, read]
    refine congrArg some (Int64.toInt_inj.mp (toPrice_scaled on ?_ small))
    exact_mod_cast rounds
  · obtain ⟨x, read, rounds⟩ := stod_units 6 q.toNat (by decide) (by decide)
      (by rw [abs_of_nonneg (Int.natCast_nonneg _)]; omega) on.underflow
    rw [quantity, read]
    refine congrArg some (UInt64.toNat_inj.mp (toQty_scaled on ?_ small'))
    rw [show ((1000000 : ℤ) : ℚ) = 10 ^ 6 by norm_num]
    exact rounds

theorem units_round_trip_short :
    let on : Platform := { llround := fun _ => 0, underflow := fun q x => value x ≠ q }
    (toPrice on (fromPrice (-6500042)) = -6500042 ∧ toQty on (fromQty 12345) = 12345) ∧
      (fixed 2 (fromPrice (-6500042)) = units 2 (-6500042) ∧ fixed 6 (fromQty 12345) = units 6 12345) ∧
      (stod on.underflow (fixed 2 (fromPrice (-6500042)))).map (toPrice on) = some (-6500042) ∧
      (stod on.underflow (fixed 6 (fromQty 12345))).map (toQty on) = some 12345 :=
  units_round_trip _ (-6500042) 12345 (by decide) (by decide)

end Ob
