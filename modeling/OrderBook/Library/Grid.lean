/-
**The numbers of binary64 and the rounding to them.**

A finite double is a rational number, its `value`; `grid` has the numbers of at most 53 bits that the
exponents of binary64 begin with.

* `grid_nearest` — which numbers of the grid are nearest.
* `Shows`, `Shows.rounded` — what the bits say that the kernel's model keeps of a number.
* `roundWithAccuracy_nearest` — the rounding of the kernel's model is one to the nearest.
-/

import OrderBook.Library.Double
import OrderBook.Library.Nearest

namespace Double

open Float.Model Float.Model.UnpackedFloat Rounding

/-! ### Values -/

/-- The factor of a sign. -/
def signFactor : UnpackedFloat.Sign → ℚ
  | .negative => -1
  | .positive => 1

def unpackedValue : UnpackedFloat → ℚ
  | .finite s m e _ => signFactor s * (m * 2 ^ e)
  | _ => 0

@[simp] theorem unpackedValue_zero (s : UnpackedFloat.Sign) : unpackedValue (.zero s) = 0 := rfl

/-- What a finite double stands for. -/
def value (x : Float.Model) : ℚ := unpackedValue x.unpack

/-- The numbers of at most 53 bits, the last of which is one of binary64 or a larger one. -/
def grid : Set ℚ := {q | ∃ (m : ℤ) (e : ℤ), |m| ≤ 2 ^ 53 ∧ -1074 ≤ e ∧ q = m * 2 ^ e}

/-- All 53 bits are used, or the last one is the least there is. -/
def Canonical : UnpackedFloat → Prop
  | .finite _ m e _ => m < 2 ^ 53 ∧ -1074 ≤ e ∧ (2 ^ 52 ≤ m ∨ e = -1074)
  | .zero _ => True
  | .infinity _ | .notANumber => False

@[simp] theorem signFactor_ne (s : UnpackedFloat.Sign) : signFactor s ≠ 0 := by
  cases s <;> decide

theorem signFactor_abs (s : UnpackedFloat.Sign) : |signFactor s| = 1 := by
  cases s <;> rfl

theorem signFactor_mul (s t : UnpackedFloat.Sign) :
    signFactor (s * t) = signFactor s * signFactor t := by
  cases s <;> cases t
  · show (1 : ℚ) = -1 * -1
    norm_num
  · show (-1 : ℚ) = -1 * 1
    norm_num
  · show (-1 : ℚ) = 1 * -1
    norm_num
  · show (1 : ℚ) = 1 * 1
    norm_num

theorem signFactor_div (s t : UnpackedFloat.Sign) :
    signFactor (s / t) = signFactor s / signFactor t := by
  cases s <;> cases t
  · show (1 : ℚ) = -1 / -1
    norm_num
  · show (-1 : ℚ) = -1 / 1
    norm_num
  · show (-1 : ℚ) = 1 / -1
    norm_num
  · show (1 : ℚ) = 1 / 1
    norm_num

theorem signFactor_neg (s : UnpackedFloat.Sign) : signFactor (-s) = -signFactor s := by
  cases s <;> rfl

theorem grid_of {m e : ℤ} (bits : |m| ≤ 2 ^ 53) (least : -1074 ≤ e) : (m : ℚ) * 2 ^ e ∈ grid :=
  ⟨m, e, bits, least, rfl⟩

theorem int_grid {m : ℤ} (bits : |m| ≤ 2 ^ 53) : (m : ℚ) ∈ grid :=
  ⟨m, 0, bits, by decide, by rw [zpow_zero, mul_one]⟩

theorem grid_neg {q : ℚ} (mem : q ∈ grid) : -q ∈ grid := by
  obtain ⟨m, e, bits, least, rfl⟩ := mem
  exact ⟨-m, e, by rwa [abs_neg], least, by push_cast; ring⟩

theorem grid_sign {q : ℚ} (mem : q ∈ grid) (s : UnpackedFloat.Sign) : signFactor s * q ∈ grid := by
  cases s with
  | negative => simpa [signFactor] using grid_neg mem
  | positive => simpa [signFactor] using mem

/-! ### The nearest number of the grid -/

/-- A whole number of units, half a unit away at most, where the number to round has 53 bits of them or
the unit is the least one. -/
theorem grid_nearest {q : ℚ} {e r : ℤ} (least : -1074 ≤ e) (bits : |r| ≤ 2 ^ 53)
    (half : |(r : ℚ) - q / 2 ^ e| ≤ 1 / 2) (full : e = -1074 ∨ 2 ^ (e + 52) ≤ |q|) :
    Nearest grid q (r * 2 ^ e) := by
  have unit : (0 : ℚ) < 2 ^ e := by positivity
  -- no other number of these units is closer
  have units : ∀ k : ℤ, |(r : ℚ) * 2 ^ e - q| ≤ |(k : ℚ) * 2 ^ e - q| := by
    intro k
    have closest := (nearest_int half).closest k ⟨k, rfl⟩
    have scaled : ∀ n : ℤ, |(n : ℚ) * 2 ^ e - q| = |(n : ℚ) - q / 2 ^ e| * 2 ^ e := by
      intro n
      rw [← abs_of_pos unit, ← abs_mul, abs_of_pos unit, sub_mul, div_mul_cancel₀ _ unit.ne']
    rw [scaled, scaled]
    exact mul_le_mul_of_nonneg_right closest unit.le
  refine ⟨grid_of bits least, ?_⟩
  rintro _ ⟨m, f, small, least', rfl⟩
  by_cases coarse : e ≤ f
  · -- a number of larger units is one of these
    obtain ⟨n, rfl⟩ : ∃ n : ℕ, f = e + n := ⟨(f - e).toNat, by omega⟩
    have whole : (m : ℚ) * 2 ^ (e + n : ℤ) = ((m * 2 ^ n : ℤ) : ℚ) * 2 ^ e := by
      rw [zpow_add₀ (by norm_num)]
      push_cast
      rw [zpow_natCast]
      ring
    rw [whole]
    exact units _
  · -- a number of smaller units does not reach the least one of 53 bits
    have above : 2 ^ (e + 52) ≤ |q| := full.resolve_left (by omega)
    have top : (2 : ℚ) ^ (e + 52) = ((2 ^ 52 : ℤ) : ℚ) * 2 ^ e := by
      rw [add_comm, zpow_add₀ (by norm_num)]
      norm_num
    have below : |(m : ℚ) * 2 ^ f| ≤ 2 ^ (e + 52) := by
      have cast : |(m : ℚ)| ≤ 2 ^ 53 := by exact_mod_cast small
      calc |(m : ℚ) * 2 ^ f| = |(m : ℚ)| * 2 ^ f := by rw [abs_mul, abs_of_pos (by positivity : (0 : ℚ) < 2 ^ f)]
        _ ≤ 2 ^ 53 * 2 ^ f := by gcongr
        _ = (2 : ℚ) ^ (f + 53) := by rw [add_comm, zpow_add₀ (by norm_num)]; norm_num
        _ ≤ 2 ^ (e + 52) := zpow_le_zpow_right₀ (by norm_num) (by omega)
    rcases le_total 0 q with nonneg | nonpos
    · have closest := units (2 ^ 52)
      rw [abs_of_nonneg nonneg] at above
      rw [← top, abs_of_nonpos (by linarith : (2 : ℚ) ^ (e + 52) - q ≤ 0)] at closest
      have past := (abs_le.mp below).2
      rw [abs_of_nonpos (by linarith : (m : ℚ) * 2 ^ f - q ≤ 0)]
      linarith
    · have closest := units (-2 ^ 52)
      have bottom : ((-2 ^ 52 : ℤ) : ℚ) * 2 ^ e = -2 ^ (e + 52) := by
        rw [top]
        push_cast
        ring
      rw [abs_of_nonpos nonpos] at above
      rw [bottom, abs_of_nonneg (by linarith : 0 ≤ -(2 : ℚ) ^ (e + 52) - q)] at closest
      have past := (abs_le.mp below).1
      rw [abs_of_nonneg (by linarith : 0 ≤ (m : ℚ) * 2 ^ f - q)]
      linarith

/-! ### The bits that are kept -/

/-- What a mantissa and its two further bits say of a number. -/
structure Shows (em : ExtendedMantissa) (v : ℚ) : Prop where
  floor : ⌊v⌋ = em.mantissa
  half : em.roundBit = true ↔ 1 / 2 ≤ Int.fract v
  sticky : em.stickyBit = true ↔ Int.fract v ≠ 0 ∧ Int.fract v ≠ 1 / 2

theorem shows_exact (m : ℕ) : Shows (ExtendedMantissa.ofMantissaAndAccuracy m .exact) m where
  floor := Int.floor_natCast m
  half := by simp [ExtendedMantissa.ofMantissaAndAccuracy]
  sticky := by simp [ExtendedMantissa.ofMantissaAndAccuracy]

theorem shows_fraction {num den : ℕ} (some_den : 0 < den) :
    Shows (ExtendedMantissa.ofMantissaAndAccuracy (num / den)
      (accuracyOfFraction (num % den) den)) (num / den) := by
  have some : (0 : ℚ) < den := by exact_mod_cast some_den
  have floor : ⌊(num : ℚ) / den⌋ = ((num / den : ℕ) : ℤ) := by
    rw [← Int.natCast_floor_eq_floor (by positivity), Nat.floor_div_eq_div]
  have fract : Int.fract ((num : ℚ) / den) = ((num % den : ℕ) : ℚ) / den := by
    have whole : (num : ℚ) = den * ((num / den : ℕ) : ℚ) + ((num % den : ℕ) : ℚ) := by
      exact_mod_cast (Nat.div_add_mod num den).symm
    rw [Int.fract, floor, Int.cast_natCast]
    field_simp
    linarith
  have halves : ∀ {k : ℕ}, (1 / 2 ≤ (k : ℚ) / den ↔ den ≤ 2 * k) ∧
      ((k : ℚ) / den = 1 / 2 ↔ 2 * k = den) := by
    intro k
    rw [div_le_div_iff₀ (by norm_num) some, div_eq_div_iff some.ne' (by norm_num)]
    refine ⟨⟨fun le => ?_, fun le => ?_⟩, ⟨fun eq => ?_, fun eq => ?_⟩⟩
    · exact_mod_cast (by linarith : (den : ℚ) ≤ 2 * k)
    · have : (den : ℚ) ≤ 2 * k := by exact_mod_cast le
      linarith
    · exact_mod_cast (by linarith : (2 : ℚ) * k = den)
    · have : (2 : ℚ) * k = den := by exact_mod_cast eq
      linarith
  have zero : ∀ {k : ℕ}, (k : ℚ) / den = 0 ↔ k = 0 := by
    intro k
    rw [div_eq_zero_iff, or_iff_left some.ne', Nat.cast_eq_zero]
  unfold accuracyOfFraction
  by_cases exact : num % den = 0
  · rw [if_pos exact]
    refine ⟨floor, ?_, ?_⟩ <;> rw [fract, exact] <;>
      simp [ExtendedMantissa.ofMantissaAndAccuracy]
  · rw [if_neg exact]
    rcases order : compare (2 * (num % den)) den with _ | _ | _
    all_goals
      simp only [Nat.compare_eq_lt, Nat.compare_eq_eq, Nat.compare_eq_gt] at order
      refine ⟨floor, ?_, ?_⟩ <;>
        simp only [ExtendedMantissa.ofMantissaAndAccuracy, fract, halves, zero, ne_eq, true_iff,
          Bool.false_eq_true, false_iff] <;> omega

theorem Shows.shiftRightOne {em : ExtendedMantissa} {v : ℚ} (shown : Shows em v) :
    Shows em.shiftRightOne (v / 2) := by
  obtain ⟨m, roundBit, stickyBit⟩ := em
  obtain ⟨floor, half, sticky⟩ := shown
  have nonneg := Int.fract_nonneg v
  have below := Int.fract_lt_one v
  have parts : v = m + Int.fract v := by
    have whole := Int.floor_add_fract v
    rw [floor] at whole
    exact_mod_cast whole.symm
  generalize Int.fract v = f at *
  obtain ⟨k, b, digit, rfl⟩ : ∃ k b, b < 2 ∧ m = 2 * k + b :=
    ⟨m / 2, m % 2, Nat.mod_lt m (by decide), (Nat.div_add_mod m 2).symm⟩
  have quotient : (2 * k + b) / 2 = k := by omega
  have rest : (2 * k + b) % 2 = b := by omega
  have bit : (b : ℚ) ≤ 1 := by exact_mod_cast Nat.lt_succ_iff.mp digit
  have floor' : ⌊v / 2⌋ = (k : ℤ) := by
    rw [Int.floor_eq_iff, parts]
    push_cast
    constructor <;> linarith [(Nat.cast_nonneg b : (0 : ℚ) ≤ b)]
  have fract' : Int.fract (v / 2) = (b + f) / 2 := by
    rw [Int.fract, floor', parts]
    push_cast
    ring
  have sum : (roundBit || stickyBit) = true ↔ f ≠ 0 := by
    rw [Bool.or_eq_true, half, sticky]
    by_cases high : 1 / 2 ≤ f
    · simp only [high, true_or, true_iff]
      linarith
    · simp only [high, false_or, and_iff_left_iff_imp]
      intro _ eq
      exact high eq.ge
  refine ⟨?_, ?_, ?_⟩
  · rw [floor', ExtendedMantissa.shiftRightOne, quotient]
  · simp only [ExtendedMantissa.shiftRightOne, fract', rest, bne_iff_ne]
    interval_cases b
    · simp only [ne_eq, not_true, false_iff]
      push_cast
      linarith
    · simp only [ne_eq, one_ne_zero, not_false_iff, true_iff]
      push_cast
      linarith
  · simp only [ExtendedMantissa.shiftRightOne, fract', sum]
    interval_cases b
    · push_cast
      refine ⟨fun some => ⟨fun none => some (by linarith), by linarith⟩, fun some none => ?_⟩
      exact some.1 (by rw [none]; norm_num)
    · push_cast
      refine ⟨fun some => ⟨by linarith, fun none => some (by linarith)⟩, fun some none => ?_⟩
      exact some.2 (by rw [none]; norm_num)

theorem Shows.shiftRight {em : ExtendedMantissa} {v : ℚ} (shown : Shows em v) (n : ℕ) :
    Shows (em >>> n) (v / 2 ^ n) := by
  show Shows (n.repeat ExtendedMantissa.shiftRightOne em) _
  induction n with
  | zero =>
    rw [pow_zero, div_one]
    exact shown
  | succ n ih =>
    rw [pow_succ, ← div_div]
    exact ih.shiftRightOne

/-- **The rounded mantissa** is half of one away at most. -/
theorem Shows.rounded {em : ExtendedMantissa} {v : ℚ} (shown : Shows em v) :
    |((em.roundedMantissa : ℤ) : ℚ) - v| ≤ 1 / 2 := by
  obtain ⟨m, roundBit, stickyBit⟩ := em
  obtain ⟨floor, half, sticky⟩ := shown
  have nonneg := Int.fract_nonneg v
  have below := Int.fract_lt_one v
  have parts : v = m + Int.fract v := by
    have whole := Int.floor_add_fract v
    rw [floor] at whole
    exact_mod_cast whole.symm
  rw [parts, abs_le]
  generalize Int.fract v = f at *
  have bit : (((m : ℤ) % 2 : ℤ) : ℚ) ≤ 1 := by exact_mod_cast (by omega : (m : ℤ) % 2 ≤ 1)
  have bit' : (0 : ℚ) ≤ (((m : ℤ) % 2 : ℤ) : ℚ) := by exact_mod_cast (by omega : 0 ≤ (m : ℤ) % 2)
  rw [ExtendedMantissa.roundedMantissa]
  cases roundBit <;> cases stickyBit <;>
    simp only [ExtendedMantissa.accuracy, Accuracy.roundToNearestEven, true_iff,
      Bool.false_eq_true, false_iff, not_le, not_and_or, not_not] at half sticky ⊢ <;>
    push_cast
  · have := sticky.resolve_right (by linarith)
    constructor <;> linarith
  · constructor <;> linarith
  · have := sticky.resolve_left (by linarith)
    constructor <;> linarith
  · constructor <;> linarith

/-! ### Rounding -/

theorem targetExponent_eq (m : ℕ) (e : ℤ) :
    Format.binary64.targetExponent (totalExponent m e) = max (m.log2 + 1 + e - 53) (-1074) := by
  have bits : (Format.mantissaBits .binary64 : Int) = 53 := rfl
  have least : Format.minExponent .binary64 = -1074 := rfl
  rw [Format.targetExponent, totalExponent, bits, least]

/-- A carry out of the mantissa is its only overflow, and is undone without loss. -/
theorem carried {r : ℕ} {e : ℤ} (least : -1074 ≤ e) (bits : r ≤ 2 ^ 53)
    (full : e = -1074 ∨ 2 ^ 52 ≤ r) (s : UnpackedFloat.Sign) :
    let shifted := shiftToTargetExponent .binary64 r e .exact
    let x := if zero : shifted.1.mantissa = 0 then UnpackedFloat.zero s
      else .finite s shifted.1.mantissa shifted.2 (Nat.pos_of_ne_zero zero)
    Canonical x ∧ unpackedValue x = signFactor s * (r * 2 ^ e) := by
  by_cases small : r < 2 ^ 53
  · have stays : shiftToTargetExponent .binary64 r e .exact =
        (ExtendedMantissa.ofMantissaAndAccuracy r .exact, e) := by
      have log : r.log2 ≤ 52 := by
        by_cases zero : r = 0
        · subst zero
          decide
        · exact Nat.lt_succ_iff.mp ((Nat.log2_lt zero).mpr small)
      rw [shiftToTargetExponent, shiftToExponent, targetExponent_eq]
      have none : (max ((r.log2 : ℤ) + 1 + e - 53) (-1074) - e).toNat = 0 := by omega
      rw [none]
      exact Prod.ext rfl (add_zero e)
    simp only [stays, ExtendedMantissa.ofMantissaAndAccuracy]
    split
    · rename_i zero
      subst zero
      exact ⟨trivial, by simp [unpackedValue]⟩
    · exact ⟨⟨small, least, full.symm⟩, rfl⟩
  · have top : r = 2 ^ 53 := by omega
    subst top
    have shifts : shiftToTargetExponent .binary64 (2 ^ 53) e .exact =
        (ExtendedMantissa.ofMantissaAndAccuracy (2 ^ 52) .exact, e + 1) := by
      rw [shiftToTargetExponent, shiftToExponent, targetExponent_eq, Nat.log2_two_pow]
      have one : (max (((53 : ℕ) : ℤ) + 1 + e - 53) (-1074) - e).toNat = 1 := by omega
      rw [one]
      rfl
    simp only [shifts, ExtendedMantissa.ofMantissaAndAccuracy]
    rw [dif_neg (by decide)]
    refine ⟨⟨by decide, by omega, .inl (le_refl _)⟩, ?_⟩
    rw [unpackedValue, zpow_add₀ (by norm_num)]
    push_cast
    ring

theorem nearest_signed {q x : ℚ} (nearest : Nearest grid q x) (s : UnpackedFloat.Sign) :
    Nearest grid (signFactor s * q) (signFactor s * x) := by
  refine ⟨grid_sign nearest.mem s, fun y mem => ?_⟩
  have twice : signFactor s * (signFactor s * y) = y := by
    rw [← mul_assoc, ← signFactor_mul]
    cases s <;> exact one_mul y
  have closest := nearest.closest _ (grid_sign mem s)
  rw [← mul_sub, abs_mul, signFactor_abs, one_mul]
  calc |x - q| ≤ |signFactor s * y - q| := closest
    _ = |signFactor s| * |signFactor s * y - q| := by rw [signFactor_abs, one_mul]
    _ = |y - signFactor s * q| := by rw [← abs_mul, mul_sub, twice]

/-- What the first shift leaves of a number: 53 bits, all of which are used, and the nearest of their
units. -/
theorem kept {v : ℚ} {m n r : ℕ} {e : ℤ} (floor : ⌊v⌋ = m)
    (target : max (m.log2 + 1 + e - 53) (-1074) = e + n) (rounded : |((r : ℤ) : ℚ) - v / 2 ^ n| ≤ 1 / 2) :
    r ≤ 2 ^ 53 ∧ (e + n = -1074 ∨ 2 ^ 52 ≤ r) ∧
      Nearest grid (v * 2 ^ e) (((r : ℤ) : ℚ) * 2 ^ (e + n)) := by
  obtain ⟨from_, below⟩ := Int.floor_eq_iff.mp floor
  have unit : (0 : ℚ) < 2 ^ n := by positivity
  have bits : r ≤ 2 ^ 53 := by
    have top : (m : ℚ) + 1 ≤ 2 ^ (53 + n) := by
      have log : m + 1 ≤ 2 ^ (m.log2 + 1) := Nat.lt_log2_self
      have le : 2 ^ (m.log2 + 1) ≤ 2 ^ (53 + n) := Nat.pow_le_pow_right (by decide) (by omega)
      exact_mod_cast log.trans le
    have quotient : v / 2 ^ n < 2 ^ 53 := by
      rw [div_lt_iff₀ unit, ← pow_add]
      push_cast at below
      linarith
    have less : ((r : ℤ) : ℚ) < ((2 ^ 53 + 1 : ℤ) : ℚ) := by
      have near := (abs_le.mp rounded).2
      push_cast at near ⊢
      linarith
    have := Int.cast_lt.mp less
    omega
  have full : e + n = -1074 ∨ 2 ^ (m.log2 : ℤ) ≤ v ∧ (n : ℤ) = m.log2 - 52 := by
    by_cases least : e + n = -1074
    · exact .inl least
    · have some_bits : m ≠ 0 := by
        rintro rfl
        have log : Nat.log2 0 = 0 := by decide
        rw [log] at target
        omega
      refine .inr ⟨?_, by omega⟩
      have log : ((2 ^ m.log2 : ℕ) : ℚ) ≤ m := by exact_mod_cast Nat.log2_self_le some_bits
      rw [zpow_natCast]
      push_cast at log from_
      linarith
  have normal : e + n = -1074 ∨ 2 ^ 52 ≤ r := by
    refine full.imp_right fun ⟨high, amount⟩ => ?_
    have quotient : 2 ^ 52 ≤ v / 2 ^ n := by
      have places : ((52 + n : ℕ) : ℤ) = m.log2 := by omega
      rw [le_div_iff₀ unit, ← pow_add, ← zpow_natCast, places]
      exact high
    have more : ((2 ^ 52 - 1 : ℤ) : ℚ) < ((r : ℤ) : ℚ) := by
      have near := (abs_le.mp rounded).1
      push_cast at near ⊢
      linarith
    have := Int.cast_lt.mp more
    omega
  refine ⟨bits, normal, grid_nearest (by omega) ?_ ?_ ?_⟩
  · rw [abs_of_nonneg (Int.natCast_nonneg r)]
    exact_mod_cast bits
  · rw [zpow_add₀ (by norm_num), zpow_natCast, ← div_div, mul_div_cancel_right₀ _ (by positivity)]
    exact rounded
  · refine full.imp_right fun ⟨high, amount⟩ => ?_
    have place : e + n + 52 = (m.log2 : ℤ) + e := by omega
    rw [place, zpow_add₀ (by norm_num), abs_mul, abs_of_pos (by positivity : (0 : ℚ) < 2 ^ e)]
    exact mul_le_mul_of_nonneg_right (high.trans (le_abs_self v)) (by positivity)

/-- **The rounding of the kernel's model**: the nearest number to what the bits that it keeps show. -/
theorem roundWithAccuracy_nearest (s : UnpackedFloat.Sign) {m : ℕ} {e : ℤ} {accuracy : Accuracy} {v : ℚ}
    (shown : Shows (ExtendedMantissa.ofMantissaAndAccuracy m accuracy) v)
    (fine : e ≤ max (m.log2 + 1 + e - 53) (-1074)) :
    Canonical (roundWithAccuracy .binary64 s m e accuracy) ∧
      Nearest grid (signFactor s * (v * 2 ^ e))
        (unpackedValue (roundWithAccuracy .binary64 s m e accuracy)) := by
  obtain ⟨n, target⟩ : ∃ n : ℕ, max (m.log2 + 1 + e - 53) (-1074) = e + n :=
    ⟨(max (m.log2 + 1 + e - 53) (-1074) - e).toNat, by omega⟩
  have first : shiftToTargetExponent .binary64 m e accuracy =
      (ExtendedMantissa.ofMantissaAndAccuracy m accuracy >>> n, e + n) := by
    have amount : (e + n - e).toNat = n := by omega
    rw [shiftToTargetExponent, shiftToExponent, targetExponent_eq, target, amount]
  have floor := shown.floor
  rw [ofMantissaAndAccuracy_mantissa] at floor
  obtain ⟨bits, normal, nearest⟩ := kept floor target (shown.shiftRight n).rounded
  rw [roundWithAccuracy]
  simp only [first]
  obtain ⟨canonical, value⟩ := carried (by omega : -1074 ≤ e + n) bits normal s
  refine ⟨canonical, ?_⟩
  rw [value]
  exact_mod_cast nearest_signed nearest s

end Double
