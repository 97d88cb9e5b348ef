/-
**Whole numbers and decimal fractions as doubles.**

* `llround_eq` — `llround` rounds what fits to the nearest integer, halves away from zero.
* `fixed_decimal` — the digits that `printf` writes are those of the nearest number of units of the last
  decimal place.
* `Rounds.scaled`, `llround_scaled` — a whole number of units below `2 ^ 51` in a double is found again
  when it is multiplied and rounded.
* `ofScientific_rounds` — a decimal numeral is read as a nearest double.
-/

import OrderBook.Library.Binary64

namespace Double

open Float.Model Float.Model.UnpackedFloat Rounding

/-! ### Relative errors -/

/-- **A relative error** of half of the last of 53 bits, above the least normal number. -/
theorem Rounds.relative {q : ℚ} {x : Float.Model} (rounds : Rounds q x)
    (normal : q = 0 ∨ 2 ^ (-1022 : ℤ) ≤ |q|) : |value x - q| ≤ |q| / 2 ^ 53 := by
  rcases normal with rfl | normal
  · rw [rounds.exact zero_nearest.mem]
    norm_num
  · have some : 0 < |q| := lt_of_lt_of_le (by positivity) normal
    obtain ⟨k, low, high⟩ : ∃ k : ℤ, (2 : ℚ) ^ k ≤ |q| ∧ |q| < 2 ^ (k + 1) :=
      ⟨Int.log 2 |q|, by exact_mod_cast Int.zpow_log_le_self (by norm_num) some,
        by exact_mod_cast Int.lt_zpow_succ_log_self (by norm_num) |q|⟩
    have place : -1022 ≤ k := by
      by_contra past
      have less : (2 : ℚ) ^ (k + 1) ≤ 2 ^ (-1022 : ℤ) := zpow_le_zpow_right₀ (by norm_num) (by omega)
      linarith
    have near := rounds.error (e := k - 52) (by omega) (by
      rw [show (2 : ℚ) ^ 53 * 2 ^ (k - 52) = 2 ^ (k + 1) by
        rw [← zpow_natCast, ← zpow_add₀ (by norm_num)]
        congr 1
        push_cast
        ring]
      exact high.le)
    have unit : (2 : ℚ) ^ (k - 52) / 2 = 2 ^ k / 2 ^ 53 := by
      rw [zpow_sub₀ (by norm_num)]
      norm_num
      ring
    rw [unit] at near
    exact near.trans (by gcongr)

/-- A relative error, and next to nothing where numbers are very small. -/
theorem Rounds.close {q : ℚ} {x : Float.Model} (rounds : Rounds q x) :
    |value x - q| ≤ |q| / 2 ^ 53 + 1 / 2 ^ 200 := by
  have nonneg : (0 : ℚ) ≤ |q| / 2 ^ 53 := by positivity
  by_cases normal : 2 ^ (-1022 : ℤ) ≤ |q|
  · refine (rounds.relative (.inr normal)).trans (le_add_of_nonneg_right ?_)
    norm_num
  · have power : (2 : ℚ) ^ (-1022 : ℤ) ≤ 2 ^ 53 * 2 ^ (-1074 : ℤ) := by
      rw [← zpow_natCast, ← zpow_add₀ two_ne_zero]
      exact zpow_le_zpow_right₀ (by norm_num) (by decide)
    have error := rounds.error (e := -1074) (le_refl _) ((not_le.mp normal).le.trans power)
    have tiny : (2 : ℚ) ^ (-1074 : ℤ) ≤ 2 ^ (-200 : ℤ) := zpow_le_zpow_right₀ (by norm_num) (by decide)
    have same : (2 : ℚ) ^ (-200 : ℤ) = 1 / 2 ^ 200 := by
      rw [zpow_neg, one_div]
      rfl
    have positive : (0 : ℚ) < 2 ^ (-1074 : ℤ) := zpow_pos (by norm_num) _
    rw [same] at tiny
    linarith

theorem pow_le_magnitude {n : ℕ} (le : n ≤ 1023) : (2 : ℚ) ^ n ≤ 2 ^ 1023 :=
  pow_le_pow_right₀ (by norm_num) le

/-- An integer of 53 bits is not rounded. -/
theorem ofInt_exact {n : ℤ} (small : |n| ≤ 2 ^ 53) :
    (Float.Model.ofInt n).isFinite ∧ value (Float.Model.ofInt n) = n := by
  have cast : |(n : ℚ)| ≤ 2 ^ 53 := by exact_mod_cast small
  have rounds := ofInt_rounds (cast.trans (pow_le_magnitude (by decide)))
  exact ⟨rounds.finite, rounds.exact (int_grid small)⟩

/-- A quotient of integers of 53 bits. -/
theorem quotient_rounds {n d : ℤ} (small : |n| ≤ 2 ^ 53) (small' : |d| ≤ 2 ^ 53) (some : d ≠ 0) :
    Rounds (n / d) (Float.Model.ofInt n / Float.Model.ofInt d) := by
  obtain ⟨finite, exact_⟩ := ofInt_exact small
  obtain ⟨finite', exact'⟩ := ofInt_exact small'
  have some' : value (Float.Model.ofInt d) ≠ 0 := by
    rw [exact']
    exact_mod_cast some
  have bound : |(n : ℚ) / d| ≤ 2 ^ 1023 := by
    have cast : |(n : ℚ)| ≤ 2 ^ 53 := by exact_mod_cast small
    have one : (1 : ℚ) ≤ |(d : ℚ)| := by exact_mod_cast Int.one_le_abs some
    rw [abs_div]
    calc |(n : ℚ)| / |(d : ℚ)| ≤ |(n : ℚ)| := div_le_self (abs_nonneg _) one
      _ ≤ 2 ^ 53 := cast
      _ ≤ 2 ^ 1023 := pow_le_magnitude (by decide)
  have rounds := div_rounds finite finite' some' (by rwa [exact_, exact'])
  rwa [exact_, exact'] at rounds

/-- A quotient that is not zero is not below the normal numbers. -/
theorem quotient_normal {n d : ℤ} (small' : |d| ≤ 2 ^ 53) (some : d ≠ 0) :
    (n : ℚ) / d = 0 ∨ 2 ^ (-1022 : ℤ) ≤ |(n : ℚ) / d| := by
  by_cases zero : n = 0
  · left
    rw [zero, Int.cast_zero, zero_div]
  · right
    have one : (1 : ℚ) ≤ |(n : ℚ)| := by exact_mod_cast Int.one_le_abs zero
    have pos : (0 : ℚ) < |(d : ℚ)| := by
      have : (d : ℚ) ≠ 0 := by exact_mod_cast some
      positivity
    have cast : |(d : ℚ)| ≤ 2 ^ 53 := by exact_mod_cast small'
    rw [abs_div, le_div_iff₀ pos]
    calc (2 : ℚ) ^ (-1022 : ℤ) * |(d : ℚ)| ≤ 2 ^ (-1022 : ℤ) * 2 ^ 53 := by gcongr
      _ ≤ 1 := by
        rw [zpow_neg, inv_mul_le_iff₀ (by positivity), mul_one]
        exact_mod_cast pow_le_pow_right₀ (by norm_num : (1 : ℚ) ≤ 2) (by decide : 53 ≤ 1022)
      _ ≤ |(n : ℚ)| := one

/-- **A whole number of units as a double** is off by a small part of a unit. -/
theorem Rounds.scaled {n d : ℤ} {x : Float.Model} (rounds : Rounds (n / d) x) (small' : |d| ≤ 2 ^ 53)
    (some : d ≠ 0) : |value x * d - n| ≤ |(n : ℚ)| / 2 ^ 53 := by
  have error := rounds.relative (quotient_normal small' some)
  have cast : (d : ℚ) ≠ 0 := by exact_mod_cast some
  have scaled : value x * d - n = (value x - n / d) * d := by
    field_simp
  rw [scaled, abs_mul]
  calc |value x - n / d| * |(d : ℚ)| ≤ |(n : ℚ) / d| / 2 ^ 53 * |(d : ℚ)| := by gcongr
    _ = |(n : ℚ)| / 2 ^ 53 := by
      have pos : |(d : ℚ)| ≠ 0 := abs_ne_zero.mpr cast
      rw [abs_div]
      field_simp

theorem quarter {n : ℤ} (small : |n| < 2 ^ 51) : |(n : ℚ)| / 2 ^ 53 < 1 / 4 := by
  have cast : |(n : ℚ)| < 2 ^ 51 := by exact_mod_cast small
  rw [div_lt_iff₀ (by norm_num)]
  linarith

/-! ### Decimal texts -/

theorem roundDiv_nearest (num : ℕ) {den : ℕ} (some_den : 0 < den) :
    |((roundDiv num den : ℤ) : ℚ) - num / den| ≤ 1 / 2 := by
  have pos : (0 : ℚ) < den := by exact_mod_cast some_den
  have whole : (num : ℚ) = den * ((num / den : ℕ) : ℚ) + ((num % den : ℕ) : ℚ) := by
    exact_mod_cast (Nat.div_add_mod num den).symm
  have less : ((num % den : ℕ) : ℚ) < den := by exact_mod_cast Nat.mod_lt num some_den
  have nonneg : (0 : ℚ) ≤ ((num % den : ℕ) : ℚ) := Nat.cast_nonneg _
  have split : (num : ℚ) / den = ((num / den : ℕ) : ℚ) + ((num % den : ℕ) : ℚ) / den := by
    rw [div_eq_iff pos.ne', add_mul, div_mul_cancel₀ _ pos.ne', mul_comm ((num / den : ℕ) : ℚ)]
    exact whole
  rw [split, abs_le, Int.cast_natCast]
  unfold roundDiv
  split_ifs with down
  · have half : ((num % den : ℕ) : ℚ) / den ≤ 1 / 2 := by
      rw [div_le_div_iff₀ pos (by norm_num)]
      have : 2 * (num % den) ≤ den := by omega
      have : (2 : ℚ) * ((num % den : ℕ) : ℚ) ≤ den := by exact_mod_cast this
      linarith
    have : 0 ≤ ((num % den : ℕ) : ℚ) / den := by positivity
    constructor <;> linarith
  · have half : 1 / 2 ≤ ((num % den : ℕ) : ℚ) / den := by
      rw [div_le_div_iff₀ (by norm_num) pos]
      have : den ≤ 2 * (num % den) := by omega
      have : (den : ℚ) ≤ 2 * ((num % den : ℕ) : ℚ) := by exact_mod_cast this
      linarith
    have : ((num % den : ℕ) : ℚ) / den < 1 := by rwa [div_lt_one pos]
    rw [Nat.cast_succ]
    constructor <;> linarith

theorem unpackedValue_abs (s : UnpackedFloat.Sign) (m : ℕ) (e : ℤ) (pos : 0 < m) :
    |unpackedValue (.finite s m e pos)| = m * 2 ^ e := by
  rw [unpackedValue, abs_mul, signFactor_abs, one_mul]
  exact abs_of_nonneg (by positivity)

/-- A finite double that is not zero. -/
theorem exists_finite {x : Float.Model} (finite : x.isFinite) (some : value x ≠ 0) :
    ∃ s m e pos, x.unpack = .finite s m e pos := by
  unfold Float.Model.isFinite at finite
  cases shape : x.unpack with
  | notANumber | infinity s =>
    rw [shape] at finite
    cases finite
  | zero s =>
    rw [value, shape, unpackedValue_zero] at some
    exact absurd rfl some
  | finite s m e pos => exact ⟨s, m, e, pos, rfl⟩

theorem signed_of_value {x : Float.Model} {s : UnpackedFloat.Sign} {m : ℕ} {e : ℤ} {pos : 0 < m}
    (shape : x.unpack = .finite s m e pos) : s = if value x < 0 then .negative else .positive := by
  have some : (0 : ℚ) < m * 2 ^ e := by
    have : (0 : ℚ) < m := by exact_mod_cast pos
    positivity
  rw [value, shape, unpackedValue]
  cases s with
  | negative =>
    rw [signFactor, if_pos (by linarith)]
  | positive =>
    rw [signFactor, if_neg (by linarith)]

/-- The text of a number that is less than half a unit of the last place away from a whole number of
them. -/
theorem fixed_near {places n : ℕ} {x : Float.Model} {s : UnpackedFloat.Sign} {m : ℕ} {e : ℤ}
    {pos : 0 < m} (shape : x.unpack = .finite s m e pos)
    (near : |(n : ℚ) - |value x| * 10 ^ places| < 1 / 2) :
    fixed places x = signText s ++ decimal places n := by
  have some_den : 0 < 2 ^ (-e).toNat := Nat.two_pow_pos _
  have half := roundDiv_nearest (m * 2 ^ e.toNat * 10 ^ places) some_den
  have same : ((m * 2 ^ e.toNat * 10 ^ places : ℕ) : ℚ) / ((2 ^ (-e).toNat : ℕ) : ℚ) =
      |value x| * 10 ^ places := by
    rw [value, shape, unpackedValue_abs, two_zpow]
    push_cast
    ring
  rw [same] at half
  have digits := int_eq half (n := n) (by exact_mod_cast near)
  unfold fixed
  rw [shape]
  simp only
  rw [Int.ofNat.inj digits]

/-- A whole number of units, with the sign that it is printed with. -/
def units (places : ℕ) (n : ℤ) : List Char :=
  (if n < 0 then ['-'] else []) ++ decimal places n.natAbs

/-- **What is printed of a whole number of units** is that number of them. -/
theorem fixed_decimal {places : ℕ} {n : ℤ} (small : |n| < 2 ^ 52) (fits : 10 ^ places ≤ 2 ^ 53) :
    fixed places (Float.Model.ofInt n / Float.Model.ofInt (10 ^ places)) = units places n := by
  have fits' : |(10 : ℤ) ^ places| ≤ 2 ^ 53 := by
    rw [abs_of_pos (by positivity)]
    exact_mod_cast fits
  have some : (10 : ℤ) ^ places ≠ 0 := by positivity
  have unit : (0 : ℚ) < 10 ^ places := by positivity
  have rounds := quotient_rounds (n := n) (by omega) fits' some
  have error := rounds.scaled fits' some
  have half : |(n : ℚ)| / 2 ^ 53 < 1 / 2 := by
    have cast : |(n : ℚ)| < 2 ^ 52 := by exact_mod_cast small
    rw [div_lt_iff₀ (by positivity)]
    linarith
  push_cast at error
  by_cases zero : n = 0
  · subst zero
    -- the text of zero has no sign
    have shape : (Float.Model.ofInt 0 / Float.Model.ofInt (10 ^ places)).unpack = .zero .positive := by
      obtain ⟨finite, exact_⟩ := ofInt_exact fits'
      have positive : 0 < value (Float.Model.ofInt (10 ^ places)) := by
        rw [exact_]
        exact_mod_cast unit
      obtain ⟨s, m, e, pos, shape⟩ := exists_finite finite positive.ne'
      have sign := signed_of_value shape
      rw [if_neg (not_lt.mpr positive.le)] at sign
      subst sign
      have packed : (Float.Model.pack (.zero .positive)).unpack = .zero .positive :=
        unpack_pack trivial trivial
      have zero : (Float.Model.ofInt 0).unpack = .zero .positive := packed
      show (Float.Model.pack (UnpackedFloat.div .binary64 (Float.Model.ofInt 0).unpack
        (Float.Model.ofInt (10 ^ places)).unpack)).unpack = _
      rw [shape, zero]
      exact packed
    unfold fixed
    rw [shape]
    rfl
  · have one : (1 : ℚ) ≤ |(n : ℚ)| := by exact_mod_cast Int.one_le_abs zero
    generalize Float.Model.ofInt n / Float.Model.ofInt (10 ^ places) = x at error rounds ⊢
    have some_value : value x ≠ 0 := by
      intro none
      rw [none, zero_mul, zero_sub, abs_neg] at error
      linarith
    obtain ⟨s, m, e, pos, shape⟩ := exists_finite rounds.finite some_value
    have signs : value x < 0 ↔ n < 0 := by
      obtain ⟨low, high⟩ := abs_lt.mp (lt_of_le_of_lt error half)
      constructor
      · intro negative
        by_contra nonneg
        have : (1 : ℚ) ≤ n := by exact_mod_cast (by omega : 1 ≤ n)
        have := mul_neg_of_neg_of_pos negative unit
        linarith
      · intro negative
        by_contra nonneg
        have : (n : ℚ) ≤ -1 := by exact_mod_cast (by omega : n ≤ -1)
        have := mul_nonneg (not_lt.mp nonneg) unit.le
        linarith
    rw [fixed_near (n := n.natAbs) shape, signed_of_value shape, units]
    · simp only [signs]
      split <;> rfl
    · have magnitudes : ((n.natAbs : ℕ) : ℚ) = |(n : ℚ)| := by
        rw [Nat.cast_natAbs, Int.cast_abs]
      rw [magnitudes, abs_sub_comm]
      calc |(|value x| * 10 ^ places - |(n : ℚ)|)| = |(|value x * 10 ^ places| - |(n : ℚ)|)| := by
            rw [abs_mul, abs_of_pos unit]
        _ ≤ |value x * 10 ^ places - n| := abs_abs_sub_abs_le _ _
        _ < 1 / 2 := lt_of_le_of_lt error half

/-! ### Whole numbers -/

/-- The nearest whole number, of two the one further from zero. -/
def wholeNumber : UnpackedFloat → Option ℤ
  | .finite s m e _ =>
    some (s.apply ((2 * (m * 2 ^ e.toNat) + 2 ^ (-e).toNat) / (2 * 2 ^ (-e).toNat) : ℕ))
  | .zero _ => some 0
  | .infinity _ | .notANumber => none

/-- `llround`. What it returns is not said of a number that has no 64 bits; `other` is any answer. -/
def llround (other : Float.Model → Int64) (x : Float.Model) : Int64 :=
  match wholeNumber x.unpack with
  | some n => if -2 ^ 63 ≤ n ∧ n < 2 ^ 63 then Int64.ofInt n else other x
  | none => other x

theorem wholeNumber_eq {x : Float.Model} (finite : x.isFinite) :
    wholeNumber x.unpack = some (away (value x)) := by
  unfold Float.Model.isFinite at finite
  rw [value]
  cases shape : x.unpack with
  | notANumber | infinity s =>
    rw [shape] at finite
    cases finite
  | zero s =>
    rw [unpackedValue_zero, away, if_neg (lt_irrefl 0)]
    have : ⌊(0 : ℚ) + 1 / 2⌋ = 0 := by norm_num
    rw [this]
    rfl
  | finite s m e pos =>
    have some_den : 0 < 2 ^ (-e).toNat := Nat.two_pow_pos _
    have floor := floor_fraction (m * 2 ^ e.toNat) (2 ^ (-e).toNat) 1 some_den Nat.one_pos
    have same : ((m * 2 ^ e.toNat : ℕ) : ℚ) / ((2 ^ (-e).toNat : ℕ) : ℚ) = m * 2 ^ e := by
      rw [two_zpow]
      push_cast
      ring
    rw [same, Nat.cast_one, mul_one, Nat.mul_one, Nat.mul_one] at floor
    have positive : (0 : ℚ) < m * 2 ^ e := by
      have : (0 : ℚ) < m := by exact_mod_cast pos
      positivity
    have cast : ⌊(m : ℚ) * 2 ^ e + 1 / 2⌋ = ((⌊(m : ℚ) * 2 ^ e + 1 / 2⌋₊ : ℕ) : ℤ) :=
      (Int.natCast_floor_eq_floor (by linarith)).symm
    rw [wholeNumber, ← floor, ← cast, unpackedValue, away]
    cases s with
    | negative =>
      rw [signFactor, if_pos (by linarith), neg_one_mul, neg_neg]
      rfl
    | positive =>
      rw [signFactor, if_neg (by linarith), one_mul]
      rfl

theorem llround_eq {x : Float.Model} (finite : x.isFinite) (small : |value x| ≤ 2 ^ 62)
    (other : Float.Model → Int64) : (llround other x).toInt = away (value x) := by
  have near := away_near (value x)
  have bound : |away (value x)| < 2 ^ 63 := by
    have way := abs_sub_abs_le_abs_sub ((away (value x) : ℤ) : ℚ) (value x)
    have cast : |((away (value x) : ℤ) : ℚ)| < ((2 ^ 63 : ℤ) : ℚ) := by
      push_cast
      linarith
    rw [← Int.cast_abs] at cast
    exact Int.cast_lt.mp cast
  obtain ⟨low, high⟩ := abs_lt.mp bound
  rw [llround, wholeNumber_eq finite]
  simp only
  rw [if_pos ⟨low.le, high⟩]
  exact Int64.toInt_ofInt_of_le low.le high

theorem away_eq {q : ℚ} {n : ℤ} (near : |(n : ℚ) - q| < 1 / 2) : away q = n :=
  int_eq (away_near q) near

/-- **A number of units is found again**: what is less than a quarter of a unit away from a whole number
of units, in parts of a unit, is rounded to that number of them. -/
theorem llround_scaled {x : Float.Model} {n d : ℤ} (finite : x.isFinite) (small : |n| < 2 ^ 51)
    (small' : |d| ≤ 2 ^ 53) (near : |value x * d - n| < 1 / 4) (other : Float.Model → Int64) :
    (llround other (x * Float.Model.ofInt d)).toInt = n := by
  obtain ⟨finite', exact'⟩ := ofInt_exact small'
  have cast : |(n : ℚ)| < 2 ^ 51 := by exact_mod_cast small
  have bound : |value x * d| ≤ 2 ^ 52 := by
    have way := abs_sub_abs_le_abs_sub (value x * d) (n : ℚ)
    linarith
  have rounds := mul_rounds finite finite' (by
    rw [exact']
    exact bound.trans (pow_le_magnitude (by decide)))
  rw [exact'] at rounds
  -- the product is at least as close to the exact one as the whole number is
  have closest := rounds.nearest.closest n (int_grid (by omega))
  have total : |(n : ℚ) - value (x * Float.Model.ofInt d)| < 1 / 2 := by
    have way := abs_sub_le (n : ℚ) (value x * d) (value (x * Float.Model.ofInt d))
    rw [abs_sub_comm (n : ℚ) (value x * d)] at way closest
    rw [abs_sub_comm (value x * d) (value (x * Float.Model.ofInt d))] at way
    linarith
  have small_value : |value (x * Float.Model.ofInt d)| ≤ 2 ^ 62 := by
    have way := abs_sub_abs_le_abs_sub (value (x * Float.Model.ofInt d)) (n : ℚ)
    rw [abs_sub_comm] at way
    linarith
  rw [llround_eq rounds.finite small_value, away_eq total]

/-! ### Numerals -/

theorem ofScientific_nearest {m : ℕ} {e : ℤ} (low : m = 0 ∨ -(2048 + m.log2) ≤ e) (high : e ≤ 2048) :
    Canonical (UnpackedFloat.ofScientific .binary64 m e) ∧
      Nearest grid (m * 10 ^ e) (unpackedValue (UnpackedFloat.ofScientific .binary64 m e)) := by
  have bits : Format.mantissaBits .binary64 = 53 := rfl
  unfold UnpackedFloat.ofScientific
  simp only [bits]
  by_cases zero : m = 0
  · rw [dif_pos zero, zero, Nat.cast_zero, zero_mul]
    exact ⟨trivial, zero_nearest⟩
  · have some_bits := Nat.pos_of_ne_zero zero
    rw [dif_neg zero, if_neg (by norm_num; omega), if_neg (by norm_num; omega)]
    split
    · rename_i whole
      obtain ⟨n, rfl⟩ := Int.eq_ofNat_of_zero_le whole
      have some_ten : 0 < 10 ^ n := Nat.pow_pos (by decide)
      have shifted : m <<< 53 = m * 2 ^ 53 := Nat.shiftLeft_eq m 53
      have some_bits' : 0 < m <<< 53 := by
        rw [shifted]
        exact Nat.mul_pos some_bits (Nat.two_pow_pos 53)
      have log : 53 ≤ (m <<< 53 * 10 ^ n).log2 := by
        rw [Nat.le_log2 (Nat.mul_pos some_bits' some_ten).ne', shifted]
        calc 2 ^ 53 ≤ m * 2 ^ 53 := Nat.le_mul_of_pos_left _ some_bits
          _ ≤ m * 2 ^ 53 * 10 ^ n := Nat.le_mul_of_pos_right _ some_ten
      have product := mul_finite (e := -53) (f := 0) .positive .positive some_bits' some_ten
        (by omega)
      have value : unpackedValue (.finite .positive (m <<< 53) (-53) some_bits') *
          unpackedValue (.finite .positive (10 ^ n) 0 some_ten) = m * 10 ^ (n : ℤ) := by
        rw [unpackedValue, unpackedValue, signFactor, shifted, zpow_natCast, zpow_zero]
        push_cast
        rw [show (2 : ℚ) ^ (-53 : ℤ) = (2 ^ 53)⁻¹ from zpow_neg 2 53]
        field_simp
        norm_num
      rw [value] at product
      exact product
    · rename_i fraction
      obtain ⟨n, rfl⟩ : ∃ n : ℕ, e = -n := ⟨(-e).toNat, by omega⟩
      have some_ten : 0 < 10 ^ n := Nat.pow_pos (by decide)
      have quotient := div_finite (e := 0) (f := 0) .positive .positive some_bits some_ten
      have value : unpackedValue (.finite .positive m 0 some_bits) /
          unpackedValue (.finite .positive (10 ^ n) 0 some_ten) = m * 10 ^ (-n : ℤ) := by
        rw [unpackedValue, unpackedValue, signFactor, zpow_neg, zpow_natCast, zpow_zero]
        push_cast
        field_simp
      rw [value] at quotient
      simp only [neg_neg, Int.toNat_natCast]
      exact quotient

/-- **A decimal numeral is read as a nearest double.** -/
theorem ofScientific_rounds {m : ℕ} {e : ℤ} (low : m = 0 ∨ -(2048 + m.log2) ≤ e) (high : e ≤ 2048)
    (small : (m : ℚ) * 10 ^ e ≤ 2 ^ 1023) : Rounds (m * 10 ^ e) (Float.Model.ofScientific m e) :=
  pack_rounds (ofScientific_nearest low high) ((abs_of_nonneg
    (mul_nonneg (Nat.cast_nonneg m) (zpow_nonneg (by norm_num) e))).trans_le small)

end Double
