/-
**Doubles and their decimal texts.**

The numbers are those of the kernel's own model of binary64, with its conversions and its division.
`Below e x`: `x` is finite, and the last of its at most 53 bits stands for at most `2 ^ e`.

* `ofInt_below`, `div_below` — how large an integer of 64 bits and a quotient are as doubles.
* `fixed` — the text that `printf` makes of a double for a number of decimal places: the digits of
  the nearest multiple, ties going to the even one.
* `fixed_length`, `fixed_length_eq` — how long it is at most, and exactly; `fixed_spells` — it is a
  JSON number.
-/

import Mathlib
import OrderBook.Library.JsonTexts

namespace Double

open Float.Model Float.Model.UnpackedFloat

/-! ### Magnitudes -/

/-- At most 53 bits, the last of them at most `2 ^ e`. -/
def Below (e : Int) : UnpackedFloat → Prop
  | .finite _ m f _ => m < 2 ^ 53 ∧ f ≤ e
  | .zero _ => True
  | .infinity _ | .notANumber => False

theorem Below.mono {e f : Int} {x : UnpackedFloat} (below : Below e x) (le : e ≤ f) :
    Below f x := by
  cases x with
  | notANumber | infinity s => exact below.elim
  | zero s => trivial
  | finite s m g pos => exact ⟨below.1, Int.le_trans below.2 le⟩

/-- The last bit is at most `2 ^ e`. -/
def Coarse (e : Int) : UnpackedFloat → Prop
  | .finite _ _ f _ => f ≤ e
  | .zero _ => True
  | .infinity _ | .notANumber => False

/-- What a word stands for, from the field of its exponent. -/
theorem unpack_components (s : UnpackedFloat.Sign) {exponent : BitVec 11} (mantissa : BitVec 52)
    {e : Int} (finite : exponent.toNat < 2047) (low : -1074 ≤ e) (le : exponent.toNat ≤ e + 1075) :
    Below e (UnpackedFloat.unpack .binary64 (packComponents .binary64 s exponent mantissa)) := by
  have bias : ((Format.exponentBias .binary64 : Nat) : Int) = 1023 := rfl
  have bits : (Format.binary64.mantissaBitsWithoutImplicit : Int) = 52 := rfl
  have no_infinity : exponent ≠ -1#_ := by
    rintro rfl
    exact absurd finite (by decide)
  simp only [UnpackedFloat.unpack, unpackMantissa_packComponents, unpackExponent_packComponents,
    if_neg no_infinity]
  split
  · rename_i subnormal
    split
    · trivial
    · refine ⟨Nat.lt_of_lt_of_le mantissa.isLt (by decide), ?_⟩
      rw [bias, bits, subnormal, BitVec.toNat_ofNat]
      omega
  · refine ⟨(1#1 ++ mantissa).isLt, ?_⟩
    rw [bias, bits]
    omega

theorem pack_below {x : UnpackedFloat} {e : Int} (coarse : Coarse e x) (low : -1074 ≤ e)
    (high : e ≤ 900) : Below e (Float.Model.pack x).unpack := by
  show Below e (UnpackedFloat.unpack .binary64 (UnpackedFloat.pack .binary64 x))
  cases x with
  | notANumber | infinity s => exact coarse.elim
  | zero s =>
    have field : ((0 : BitVec 11).toNat : Int) = 0 := rfl
    exact unpack_components s 0 (by decide) low (by rw [field]; omega)
  | finite s m f pos =>
    have le : f ≤ e := coarse
    have bias : ((Format.exponentBias .binary64 : Nat) : Int) = 1023 := rfl
    have bits : (Format.binary64.mantissaBitsWithoutImplicit : Int) = 52 := rfl
    have field : (f + 1023 + 52).toNat < 2047 := by omega
    have fits : ¬2 ^ 11 ≤ (f + 1023 + 52).toNat + 1 := by omega
    rw [UnpackedFloat.pack]
    simp only [bias, bits]
    rw [if_neg fits]
    split
    · refine unpack_components s _ ?_ low ?_
      · rw [BitVec.toNat_ofNat]
        exact Nat.lt_of_le_of_lt (Nat.mod_le _ _) field
      · rw [BitVec.toNat_ofNat, Nat.mod_eq_of_lt (show _ < 2 ^ 11 by omega)]
        omega
    · exact unpack_components s _ (by decide) low (by rw [BitVec.toNat_ofNat]; omega)

/-! ### Rounding -/

theorem shiftRight_mantissa (em : ExtendedMantissa) (n : Nat) :
    (em >>> n).mantissa = em.mantissa / 2 ^ n := by
  show (n.repeat ExtendedMantissa.shiftRightOne em).mantissa = _
  induction n with
  | zero => exact (Nat.div_one _).symm
  | succ n ih =>
    rw [Nat.repeat, ExtendedMantissa.shiftRightOne, ih, Nat.div_div_eq_div_mul, Nat.pow_succ]

theorem roundedMantissa_le (em : ExtendedMantissa) : em.roundedMantissa ≤ em.mantissa + 1 := by
  obtain ⟨m, roundBit, stickyBit⟩ := em
  rw [ExtendedMantissa.roundedMantissa]
  cases roundBit <;> cases stickyBit <;>
    simp only [ExtendedMantissa.accuracy, Accuracy.roundToNearestEven] <;> omega

theorem ofMantissaAndAccuracy_mantissa (m : Nat) (accuracy : Accuracy) :
    (ExtendedMantissa.ofMantissaAndAccuracy m accuracy).mantissa = m := by
  unfold ExtendedMantissa.ofMantissaAndAccuracy
  split <;> rfl

/-- The exponent that a number of so many bits is rounded to. -/
theorem targetExponent_le {m bits : Nat} {e f : Int} (lt : m < 2 ^ bits) (some_bits : 0 < bits)
    (low : -1074 ≤ e) (fits : bits + f - 53 ≤ e) :
    Format.binary64.targetExponent (totalExponent m f) ≤ e := by
  have log : m.log2 + 1 ≤ bits := by
    by_cases zero : m = 0
    · subst zero
      exact some_bits
    · exact (Nat.log2_lt zero).mpr lt
  have mantissaBits : (Format.mantissaBits .binary64 : Int) = 53 := rfl
  have least : Format.minExponent .binary64 = -1074 := rfl
  rw [Format.targetExponent, totalExponent, mantissaBits, least]
  omega

theorem coarse_dite {e f : Int} {none : Prop} [Decidable none] {s : UnpackedFloat.Sign} {m : Nat}
    {pos : ¬none → 0 < m} (le : f ≤ e) :
    Coarse e (if zero : none then .zero s else .finite s m f (pos zero)) := by
  split
  · trivial
  · exact le

/-- A number of so many bits, rounded: a carry may add one. -/
theorem round_coarse (s : UnpackedFloat.Sign) {m bits : Nat} {e f : Int} (accuracy : Accuracy)
    (lt : m < 2 ^ bits) (some_bits : 0 < bits) (low : -1074 ≤ e) (fits : bits + f - 52 ≤ e)
    (le : f ≤ e) : Coarse e (roundWithAccuracy .binary64 s m f accuracy) := by
  rw [roundWithAccuracy]
  simp only [shiftToTargetExponent, shiftToExponent]
  refine coarse_dite ?_
  have first : Format.binary64.targetExponent (totalExponent m f) ≤ e :=
    targetExponent_le lt some_bits low (by omega)
  generalize Format.binary64.targetExponent (totalExponent m f) = target at first ⊢
  generalize amount : (target - f).toNat = n
  have shifted := shiftRight_mantissa (ExtendedMantissa.ofMantissaAndAccuracy m accuracy) n
  rw [ofMantissaAndAccuracy_mantissa] at shifted
  have rounded := roundedMantissa_le (ExtendedMantissa.ofMantissaAndAccuracy m accuracy >>> n)
  rw [shifted] at rounded
  generalize (ExtendedMantissa.ofMantissaAndAccuracy m accuracy >>> n).roundedMantissa = r
    at rounded ⊢
  have small : r < 2 ^ (bits - n + 1) := by
    have quotient : m / 2 ^ n < 2 ^ (bits - n) := by
      rw [Nat.div_lt_iff_lt_mul (Nat.two_pow_pos n), ← Nat.pow_add]
      exact Nat.lt_of_lt_of_le lt (Nat.pow_le_pow_right (by decide) (by omega))
    rw [Nat.pow_succ]
    omega
  have second : Format.binary64.targetExponent (totalExponent r (f + n)) ≤ e :=
    targetExponent_le small (Nat.succ_pos _) low (by omega)
  omega

theorem ofInt_below {n : Int} (lt : n.natAbs < 2 ^ 64) : Below 12 (Float.Model.ofInt n).unpack := by
  have coarse : ∀ s : UnpackedFloat.Sign, ∀ m < 2 ^ 64,
      Coarse 12 (UnpackedFloat.round .binary64 s m 0) := by
    intro s m small
    rw [UnpackedFloat.round]
    simp only [decreaseExponent]
    generalize (0 - Format.binary64.targetExponent (totalExponent m 0)).toNat = k
    have shifted : m <<< k < 2 ^ (64 + k) := by
      rw [Nat.shiftLeft_eq, Nat.pow_add]
      exact Nat.mul_lt_mul_of_pos_right small (Nat.two_pow_pos k)
    exact round_coarse s .exact shifted (by omega) (by decide) (by omega) (by omega)
  refine pack_below ?_ (by decide) (by decide)
  rw [UnpackedFloat.ofInt, UnpackedFloat.normalize]
  split
  · exact coarse _ _ (by omega)
  · trivial
  · exact coarse _ _ (by omega)

/-- The quotient by a number of 53 bits. -/
theorem div_below {x y : Float.Model} {e f : Int} {s : UnpackedFloat.Sign} {m : Nat} {pos : 0 < m}
    (below : Below e x.unpack) (divisor : y.unpack = .finite s m f pos) (normal : 2 ^ 52 ≤ m)
    (low : -1074 ≤ e - f - 51) (high : e - f - 51 ≤ 900) :
    Below (e - f - 51) (x / y).unpack := by
  refine pack_below ?_ low high
  rw [divisor]
  cases shape : x.unpack with
  | notANumber | infinity s =>
    rw [shape] at below
    exact below.elim
  | zero s => trivial
  | finite s' m' f' pos' =>
    rw [shape] at below
    obtain ⟨bits, le⟩ := below
    rw [UnpackedFloat.div]
    simp only [divCore]
    have target :
        Format.binary64.targetExponent (totalExponent m' f' - totalExponent m f) ≤ e - f - 51 := by
      have log : m'.log2 < 53 := (Nat.log2_lt (Nat.pos_iff_ne_zero.mp pos')).mpr bits
      have log' : 52 ≤ m.log2 := (Nat.le_log2 (Nat.pos_iff_ne_zero.mp pos)).mpr normal
      have mantissaBits : (Format.mantissaBits .binary64 : Int) = 53 := rfl
      have least : Format.minExponent .binary64 = -1074 := rfl
      rw [Format.targetExponent, totalExponent, totalExponent, mantissaBits, least]
      omega
    generalize Format.binary64.targetExponent (totalExponent m' f' - totalExponent m f) = t
      at target ⊢
    generalize shift : (f' - f - min (f' - f) t).toNat = k
    -- the quotient has the bits of the shift and at most one more
    have quotient : m' <<< k / m < 2 ^ (k + 1) := by
      rw [Nat.div_lt_iff_lt_mul pos, Nat.shiftLeft_eq]
      calc m' * 2 ^ k < 2 ^ 53 * 2 ^ k := Nat.mul_lt_mul_of_pos_right bits (Nat.two_pow_pos k)
        _ = 2 ^ (k + 1) * 2 ^ 52 := by ring
        _ ≤ 2 ^ (k + 1) * m := Nat.mul_le_mul_left _ normal
    exact round_coarse _ _ quotient (Nat.succ_pos k) low (by omega) (by omega)

/-! ### Decimal texts -/

/-- The nearest natural number to a quotient, or of two the even one. -/
def roundDiv (num den : Nat) : Nat :=
  if 2 * (num % den) < den ∨ 2 * (num % den) = den ∧ num / den % 2 = 0 then num / den
  else num / den + 1

/-- So many units of the last of the decimal places. -/
def decimal (places n : Nat) : List Char :=
  Nat.toDigits 10 (n / 10 ^ places) ++
    '.' :: List.leftpad places '0' (Nat.toDigits 10 (n % 10 ^ places))

def signText : UnpackedFloat.Sign → List Char
  | .negative => ['-']
  | .positive => []

/-- `%f` with a precision other than 0. -/
def fixed (places : Nat) (x : Float.Model) : List Char :=
  match x.unpack with
  | .notANumber => ['n', 'a', 'n']
  | .infinity s => signText s ++ ['i', 'n', 'f']
  | .zero s => signText s ++ decimal places 0
  | .finite s m e _ =>
    signText s ++ decimal places (roundDiv (m * 2 ^ e.toNat * 10 ^ places) (2 ^ (-e).toNat))

/-- A half goes to the even neighbour. -/
example : fixed 2 (.ofInt64 1 / .ofInt64 8) = ['0', '.', '1', '2'] ∧
    fixed 2 (.ofInt64 (-3) / .ofInt64 8) = ['-', '0', '.', '3', '8'] := by decide

theorem roundDiv_le (num den : Nat) : roundDiv num den ≤ num + 1 := by
  have quotient := Nat.div_le_self num den
  unfold roundDiv
  split <;> omega

theorem length_toDigits (n : Nat) : (Nat.toDigits 10 n).length = Nat.log 10 n + 1 := by
  refine Nat.le_antisymm ?_ ?_
  · exact (Nat.length_toDigits_le_iff (by decide) (Nat.succ_pos _)).mpr
      (Nat.lt_pow_succ_log_self (by decide) n)
  · have some_digit : 0 < (Nat.toDigits 10 n).length := Nat.length_toDigits_pos
    have small := (Nat.length_toDigits_le_iff (by decide) some_digit).mp (Nat.le_refl _)
    exact Nat.log_lt_of_lt_pow' (Nat.pos_iff_ne_zero.mp some_digit) small

theorem decimal_length_eq {places : Nat} (some_places : 0 < places) (n : Nat) :
    (decimal places n).length = Nat.log 10 (n / 10 ^ places) + 1 + 1 + places := by
  have part : (Nat.toDigits 10 (n % 10 ^ places)).length ≤ places :=
    (Nat.length_toDigits_le_iff (by decide) some_places).mpr
      (Nat.mod_lt _ (Nat.pow_pos (by decide)))
  rw [decimal, List.length_append, List.length_cons, List.length_leftpad, length_toDigits,
    Nat.max_eq_left part]
  omega

theorem decimal_length {places digits n : Nat} (some_places : 0 < places) (some_digits : 0 < digits)
    (lt : n < 10 ^ digits * 10 ^ places) : (decimal places n).length ≤ digits + 1 + places := by
  have whole : Nat.log 10 (n / 10 ^ places) < digits :=
    Nat.log_lt_of_lt_pow' (Nat.pos_iff_ne_zero.mp some_digits)
      (Nat.div_lt_of_lt_mul (by rwa [Nat.mul_comm]))
  rw [decimal_length_eq some_places]
  omega

theorem signText_length (s : UnpackedFloat.Sign) : (signText s).length ≤ 1 := by
  cases s <;> decide

/-- **The text of a number below `10 ^ digits`.** -/
theorem fixed_length {places digits : Nat} {e : Int} {x : Float.Model} (below : Below e x.unpack)
    (some_places : 0 < places) (some_digits : 0 < digits)
    (fits : 2 ^ 53 * 2 ^ e.toNat ≤ 10 ^ digits) :
    (fixed places x).length ≤ digits + places + 2 := by
  have unit : 1 < 10 ^ places := Nat.one_lt_pow (Nat.pos_iff_ne_zero.mp some_places) (by decide)
  unfold fixed
  cases shape : x.unpack with
  | notANumber | infinity s =>
    rw [shape] at below
    exact below.elim
  | zero s =>
    have sign := signText_length s
    have rest : (decimal places 0).length ≤ digits + 1 + places :=
      decimal_length some_places some_digits
        (Nat.mul_pos (Nat.pow_pos (by decide)) (Nat.pow_pos (by decide)))
    rw [List.length_append]
    omega
  | finite s m f pos =>
    rw [shape] at below
    have sign := signText_length s
    have small : m * 2 ^ f.toNat < 10 ^ digits := by
      refine Nat.lt_of_lt_of_le (Nat.mul_lt_mul_of_lt_of_le below.1 ?_ (Nat.two_pow_pos _)) fits
      exact Nat.pow_le_pow_right (by decide) (Int.toNat_le_toNat below.2)
    have scaled : m * 2 ^ f.toNat * 10 ^ places + 10 ^ places ≤ 10 ^ digits * 10 ^ places := by
      rw [← Nat.succ_mul]
      exact Nat.mul_le_mul_right _ small
    have rounded := roundDiv_le (m * 2 ^ f.toNat * 10 ^ places) (2 ^ (-f).toNat)
    have rest := decimal_length some_places some_digits
      (show roundDiv (m * 2 ^ f.toNat * 10 ^ places) (2 ^ (-f).toNat) < _ by omega)
    rw [List.length_append]
    omega

/-! ### Exact lengths -/

/-- What a finite number is, without its sign. -/
def magnitude (x : Float.Model) : ℚ :=
  match x.unpack with
  | .finite _ m e _ => m * 2 ^ e
  | _ => 0

/-- The place that a minus sign takes. -/
def signWidth (x : Float.Model) : Nat :=
  match x.unpack with
  | .zero .negative | .finite .negative _ _ _ => 1
  | _ => 0

/-- The digits before the point, when the number is rounded to so many decimal places. -/
def wholeDigits (places : Nat) (x : Float.Model) : Nat :=
  Nat.log 10 ⌊magnitude x + 1 / (2 * 10 ^ places)⌋₊ + 1

/-- What a number takes of a line, the point and the decimal places aside. -/
def columns (places : Nat) (x : Float.Model) : Nat := signWidth x + wholeDigits places x

/-- The whole part of a rounded number of units: a tie just below a whole part is at an odd number
of them, so it goes up. -/
theorem roundDiv_whole {den unit : Nat} (num : Nat) (some_den : 0 < den) (even : 2 ∣ unit) :
    roundDiv num den / unit = (2 * num + den) / (2 * den * unit) := by
  have split := Nat.div_add_mod num den
  have less := Nat.mod_lt num some_den
  have half : (2 * num + den) / (2 * den) =
      if den ≤ 2 * (num % den) then num / den + 1 else num / den := by
    rw [show 2 * num + den = 2 * (num % den) + den + 2 * den * (num / den) by
      nth_rewrite 1 [← split]
      ring, Nat.add_mul_div_left _ _ (by omega)]
    split
    · rw [Nat.div_eq_of_lt_le (show 1 * (2 * den) ≤ _ by omega) (by omega), Nat.add_comm]
    · rw [Nat.div_eq_of_lt (by omega), Nat.zero_add]
  rw [← Nat.div_div_eq_div_mul, half, roundDiv]
  generalize num / den = q
  generalize num % den = r at less
  by_cases down : 2 * r < den ∨ 2 * r = den ∧ q % 2 = 0
  · rw [if_pos down]
    rcases down with below | ⟨tie, even_q⟩
    · rw [if_neg (Nat.not_le.mpr below)]
    · rw [if_pos (Nat.le_of_eq tie.symm), Nat.succ_div_of_not_dvd]
      intro whole
      have := even.trans whole
      omega
  · rw [if_neg down, if_pos (by omega)]

theorem floor_fraction (num den unit : Nat) (some_den : 0 < den) (some_unit : 0 < unit) :
    ⌊(num : ℚ) / den + 1 / (2 * unit)⌋₊ = (2 * (num * unit) + den) / (2 * den * unit) := by
  have joint : (num : ℚ) / den + 1 / (2 * unit) =
      ((2 * (num * unit) + den : ℕ) : ℚ) / ((2 * den * unit : ℕ) : ℚ) := by
    have : (den : ℚ) ≠ 0 := Nat.cast_ne_zero.mpr (Nat.pos_iff_ne_zero.mp some_den)
    have : (unit : ℚ) ≠ 0 := Nat.cast_ne_zero.mpr (Nat.pos_iff_ne_zero.mp some_unit)
    push_cast
    field_simp
  rw [joint, Nat.floor_div_eq_div]

theorem two_zpow (e : Int) :
    (2 : ℚ) ^ e = ((2 ^ e.toNat : ℕ) : ℚ) / ((2 ^ (-e).toNat : ℕ) : ℚ) := by
  obtain ⟨n, rfl | rfl⟩ := e.eq_nat_or_neg
  · rw [Int.toNat_natCast, Int.toNat_neg_natCast, pow_zero, Nat.cast_one, div_one, Nat.cast_pow,
      zpow_natCast]
    rfl
  · rw [Int.toNat_neg_natCast, neg_neg, Int.toNat_natCast, pow_zero, Nat.cast_one, Nat.cast_pow,
      zpow_neg, zpow_natCast, one_div]
    rfl

/-- **How long the text of a finite number is.** -/
theorem fixed_length_eq {places : Nat} (some_places : 0 < places) {x : Float.Model}
    (finite : x.isFinite) : (fixed places x).length = columns places x + 1 + places := by
  have unit : 0 < 10 ^ places := Nat.pow_pos (by decide)
  unfold Float.Model.isFinite at finite
  unfold fixed columns signWidth wholeDigits magnitude
  cases shape : x.unpack with
  | notANumber | infinity s =>
    rw [shape] at finite
    cases finite
  | zero s =>
    have whole : ⌊(0 : ℚ) + 1 / (2 * 10 ^ places)⌋₊ = 0 := by
      have none := floor_fraction 0 1 (10 ^ places) Nat.one_pos unit
      rw [Nat.zero_mul, Nat.mul_zero, Nat.zero_add, Nat.div_eq_of_lt (by omega)] at none
      simpa using none
    rw [List.length_append, decimal_length_eq some_places, whole, Nat.zero_div]
    cases s <;> simp only [signText, List.length_cons, List.length_nil] <;> omega
  | finite s m e pos =>
    have some_den : 0 < 2 ^ (-e).toNat := Nat.two_pow_pos _
    have whole : ⌊(m : ℚ) * 2 ^ e + 1 / (2 * 10 ^ places)⌋₊ =
        roundDiv (m * 2 ^ e.toNat * 10 ^ places) (2 ^ (-e).toNat) / 10 ^ places := by
      have ten : 2 ∣ 10 ^ places := Dvd.dvd.trans (by decide) (dvd_pow_self 10 (by omega))
      rw [roundDiv_whole _ some_den ten, ← floor_fraction _ _ _ some_den unit, two_zpow]
      push_cast
      rw [mul_div_assoc]
    rw [List.length_append, decimal_length_eq some_places, whole]
    cases s <;> simp only [signText, List.length_cons, List.length_nil] <;> omega

/-- A number that is a whole one below a power of ten. -/
theorem columns_le {places digits : Nat} {x : Float.Model} (some_digits : 0 < digits)
    (small : magnitude x + 1 ≤ 10 ^ digits) : columns places x ≤ digits + 1 := by
  have sign : signWidth x ≤ 1 := by
    unfold signWidth
    split <;> decide
  have some_floor : 0 ≤ magnitude x := by
    unfold magnitude
    split
    · positivity
    · exact le_refl _
  have half : (1 : ℚ) / (2 * 10 ^ places) < 1 := by
    rw [div_lt_one (by positivity)]
    exact lt_of_lt_of_le (by norm_num)
      (mul_le_mul_of_nonneg_left (one_le_pow₀ (by norm_num)) (by norm_num))
  have floor : ⌊magnitude x + 1 / (2 * 10 ^ places)⌋₊ < 10 ^ digits := by
    refine (Nat.floor_lt (by positivity)).mpr ?_
    push_cast
    linarith
  have digits_le := Nat.log_lt_of_lt_pow' (Nat.pos_iff_ne_zero.mp some_digits) floor
  rw [columns, wholeDigits]
  omega

/-! ### Decimal texts as JSON numbers -/

theorem digits_whole (n : Nat) : Json.Whole (Nat.toDigits 10 n) where
  nonempty := Nat.toDigits_ne_nil
  digits _ member := Nat.isDigit_of_mem_toDigits (by decide) (by decide) member
  leading := by
    induction n using Nat.strong_induction_on with
    | h n ih =>
      intro zero
      rw [Nat.toDigits_eq_if (by decide)] at zero ⊢
      split at zero
      · rename_i small
        rw [if_pos small, Option.some.inj zero]
      · rename_i large
        -- the leading digit is that of the tenth, which is not zero
        rw [List.head?_append_of_ne_nil _ Nat.toDigits_ne_nil] at zero
        have tenth := ih (n / 10) (by omega) zero
        have value := congrArg (Nat.ofDigitChars 10 · 0) tenth
        simp only [Nat.ofDigitChars_ten_toDigits] at value
        have none : n / 10 = 0 := value
        omega

/-- `%llu`. -/
theorem digits_spells (n : Nat) : Json.Spells (Nat.toDigits 10 n) (.num (Nat.toDigits 10 n)) :=
  Json.spells_num fun _ delimits => Json.number_whole false (digits_whole n) delimits

theorem decimal_item {places : Nat} (s : UnpackedFloat.Sign) (n : Nat) :
    Json.Item Json.number (signText s ++ decimal places n) (signText s ++ decimal places n) := by
  intro rest delimits
  obtain ⟨negative, sign⟩ : ∃ negative, signText s = Json.sign negative := by
    cases s with
    | negative => exact ⟨true, rfl⟩
    | positive => exact ⟨false, rfl⟩
  have digits : ∀ d ∈ List.leftpad places '0' (Nat.toDigits 10 (n % 10 ^ places)), d.isDigit := by
    intro d member
    rcases List.mem_append.mp member with padded | printed
    · rw [List.eq_of_mem_replicate padded]
      rfl
    · exact Nat.isDigit_of_mem_toDigits (by decide) (by decide) printed
  have nonempty : List.leftpad places '0' (Nat.toDigits 10 (n % 10 ^ places)) ≠ [] :=
    List.append_ne_nil_of_right_ne_nil _ Nat.toDigits_ne_nil
  rw [sign, decimal, ← List.append_assoc]
  exact Json.number_fraction negative (digits_whole (n / 10 ^ places)) nonempty digits delimits

/-- **A finite double is printed as a JSON number.** -/
theorem fixed_spells {places : Nat} {e : Int} {x : Float.Model}
    (below : Below e x.unpack) : Json.Spells (fixed places x) (.num (fixed places x)) := by
  unfold fixed
  cases shape : x.unpack with
  | notANumber | infinity s =>
    rw [shape] at below
    exact below.elim
  | zero s => exact Json.spells_num (decimal_item s 0)
  | finite s m f pos => exact Json.spells_num (decimal_item s _)

end Double
