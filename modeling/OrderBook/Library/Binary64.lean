/-
**What the operations on doubles round.**

`Rounds q x`: `x` is finite, and of the numbers of binary64 one of the nearest to `q`.

* `add_rounds`, `sub_rounds`, `mul_rounds`, `div_rounds`, `ofInt_rounds` — what an operation rounds is
  the exact result.
* `Rounds.exact`, `Rounds.error` — what is on the grid is not changed, and what is at most `2 ^ 53`
  units is changed by half a unit at most.
* `lt_iff`, `le_iff` — comparing doubles is comparing their values.
-/

import OrderBook.Library.Grid

namespace Double

open Float.Model Float.Model.UnpackedFloat Rounding

/-! ### Packing -/

theorem unpackSign_components (s : UnpackedFloat.Sign) (exponent : BitVec 11) (mantissa : BitVec 52) :
    UnpackedFloat.Sign.ofBitVec (unpackSign (packComponents .binary64 s exponent mantissa)) = s := by
  have bit : unpackSign (packComponents .binary64 s exponent mantissa) = s.toBitVec := by
    apply BitVec.eq_of_getLsbD_eq
    intro i small
    obtain rfl : i = 0 := by omega
    simp only [unpackSign, packComponents, BitVec.getLsbD_cast, BitVec.getLsbD_extractLsb]
    show (decide (0 ≤ 63 - 63) && (s.toBitVec ++ exponent ++ mantissa).getLsbD 63) = _
    rw [BitVec.getLsbD_append, BitVec.getLsbD_append]
    rfl
  rw [bit]
  cases s <;> rfl

/-- The bits of a mantissa with its leading one. -/
theorem implicit_toNat (mantissa : BitVec 52) :
    (1#1 ++ mantissa).toNat = 2 ^ 52 + mantissa.toNat := by
  rw [BitVec.toNat_append, ← Nat.shiftLeft_add_eq_or_of_lt mantissa.isLt]
  rfl

theorem unpack_bits (s : UnpackedFloat.Sign) {exponent : BitVec 11} (mantissa : BitVec 52)
    (finite : exponent.toNat < 2047) :
    UnpackedFloat.unpack .binary64 (packComponents .binary64 s exponent mantissa) =
      if exponent.toNat = 0 then
        if zero : mantissa.toNat = 0 then .zero s
        else .finite s mantissa.toNat (-1074) (Nat.pos_of_ne_zero zero)
      else .finite s (2 ^ 52 + mantissa.toNat) (exponent.toNat - 1075) (by omega) := by
  have bias : ((Format.exponentBias .binary64 : Nat) : Int) = 1023 := rfl
  have width : (Format.binary64.mantissaBitsWithoutImplicit : Int) = 52 := rfl
  have no_infinity : exponent ≠ -1#_ := by
    rintro rfl
    exact absurd finite (by decide)
  have zero_iff : ∀ {w : ℕ} {b : BitVec w}, b = 0#w ↔ b.toNat = 0 := by
    intro w b
    rw [← BitVec.toNat_inj, BitVec.toNat_ofNat, Nat.zero_mod]
  simp only [UnpackedFloat.unpack, unpackMantissa_packComponents, unpackExponent_packComponents,
    unpackSign_components, if_neg no_infinity, bias, width, zero_iff, implicit_toNat]
  split
  · rename_i subnormal
    simp only [subnormal]
    rfl
  · rfl

/-- What is packed in canonical form is what is unpacked. -/
theorem unpack_pack {x : UnpackedFloat} (canonical : Canonical x) (coarse : Coarse 971 x) :
    (Float.Model.pack x).unpack = x := by
  show UnpackedFloat.unpack .binary64 (UnpackedFloat.pack .binary64 x) = x
  cases x with
  | notANumber | infinity s => exact canonical.elim
  | zero s => exact unpack_bits s 0 (by decide)
  | finite s m e pos =>
    obtain ⟨bits, least, full⟩ := canonical
    have bias : ((Format.exponentBias .binary64 : Nat) : Int) = 1023 := rfl
    have width : (Format.binary64.mantissaBitsWithoutImplicit : Int) = 52 := rfl
    have fits : e ≤ 971 := coarse
    have log : m.log2 + 1 = 53 ↔ 2 ^ 52 ≤ m := by
      have some_bits := Nat.pos_iff_ne_zero.mp pos
      rw [Nat.le_log2 some_bits |>.symm]
      have := (Nat.log2_lt some_bits).mpr bits
      omega
    have mantissaBits : Format.mantissaBits .binary64 = 53 := rfl
    rw [UnpackedFloat.pack]
    simp only [bias, width, mantissaBits]
    rw [if_neg (by omega)]
    split
    · rename_i normal
      have leading := log.mp normal
      have field : (BitVec.ofNat 11 (e + 1023 + 52).toNat).toNat = (e + 1075).toNat := by
        rw [BitVec.toNat_ofNat, Nat.mod_eq_of_lt (by omega)]
        omega
      have rest : (BitVec.ofNat 52 m).toNat = m - 2 ^ 52 := by
        rw [BitVec.toNat_ofNat, Nat.mod_eq_sub_mod leading, Nat.mod_eq_of_lt (by omega)]
      rw [unpack_bits s _ (by rw [field]; omega)]
      simp only [field, rest]
      have whole : 2 ^ 52 + (m - 2 ^ 52) = m := by omega
      have place : (((e + 1075).toNat : ℕ) : ℤ) - 1075 = e := by omega
      rw [if_neg (by omega)]
      simp only [whole, place]
    · rename_i subnormal
      have small : m < 2 ^ 52 := Nat.not_le.mp fun leading => subnormal (log.mpr leading)
      obtain rfl : e = -1074 := full.resolve_left (by omega)
      have rest : (BitVec.ofNat 52 m).toNat = m := by
        rw [BitVec.toNat_ofNat, Nat.mod_eq_of_lt small]
      rw [unpack_bits s _ (by decide)]
      simp only [rest, BitVec.toNat_ofNat, Nat.zero_mod, if_true]
      rw [dif_neg (Nat.pos_iff_ne_zero.mp pos)]

/-- What is unpacked is in canonical form. -/
theorem unpack_canonical {x : Float.Model} (finite : x.isFinite) :
    Canonical x.unpack ∧ Coarse 971 x.unpack := by
  have bias : ((Format.exponentBias .binary64 : Nat) : Int) = 1023 := rfl
  have width : (Format.binary64.mantissaBitsWithoutImplicit : Int) = 52 := rfl
  have finite' : (UnpackedFloat.unpack .binary64 x.toBits.toBitVec).isFinite = true := finite
  show Canonical (UnpackedFloat.unpack .binary64 x.toBits.toBitVec) ∧
    Coarse 971 (UnpackedFloat.unpack .binary64 x.toBits.toBitVec)
  generalize x.toBits.toBitVec = b at finite'
  revert finite'
  simp only [UnpackedFloat.unpack, bias, width]
  split
  · split <;> exact fun finite => Bool.noConfusion finite
  · rename_i no_infinity
    split
    · rename_i subnormal
      split
      · exact fun _ => ⟨trivial, trivial⟩
      · intro _
        rw [subnormal]
        refine ⟨⟨Nat.lt_of_lt_of_le (BitVec.isLt _) (by decide), by decide, .inr (by decide)⟩, ?_⟩
        exact (by decide : ((0#11 : BitVec 11).toNat : ℤ) - (1023 + 52) + 1 ≤ 971)
    · rename_i some_exponent
      intro _
      have some_bit := fun zero => some_exponent (BitVec.eq_of_toNat_eq zero)
      have some_zero := fun ones => no_infinity (BitVec.eq_of_toNat_eq ones)
      have low := Int.ofNat_le.mpr (Nat.one_le_iff_ne_zero.mpr some_bit)
      have high := Int.ofNat_le.mpr (Nat.le_of_lt_succ (Nat.lt_of_le_of_ne
        (Nat.le_of_lt_succ (BitVec.isLt _)) some_zero))
      exact ⟨⟨BitVec.isLt _, Int.sub_le_sub_right low (1023 + 52),
        .inl ((Nat.le_add_right _ _).trans (Nat.le_of_eq (implicit_toNat _).symm))⟩,
        Int.sub_le_sub_right high (1023 + 52)⟩

/-! ### What an operation rounds -/

/-- `x` is finite, and a nearest number to `q`. -/
structure Rounds (q : ℚ) (x : Float.Model) : Prop where
  finite : x.isFinite
  nearest : Nearest grid q (value x)

theorem isFinite_of_canonical {x : UnpackedFloat} (canonical : Canonical x) : x.isFinite = true := by
  cases x with
  | notANumber | infinity s => exact canonical.elim
  | zero s | finite s m e pos => rfl

theorem coarse_of_small {x : UnpackedFloat} (canonical : Canonical x)
    (small : |unpackedValue x| ≤ 2 ^ 1023) : Coarse 971 x := by
  cases x with
  | notANumber | infinity s => exact canonical.elim
  | zero s => trivial
  | finite s m e pos =>
    obtain ⟨bits, least, full⟩ := canonical
    show e ≤ 971
    by_contra past
    have leading : (2 : ℚ) ^ 52 ≤ m := by exact_mod_cast full.resolve_right (by omega)
    have large : (2 : ℚ) ^ 972 ≤ 2 ^ e := by
      rw [← zpow_natCast]
      exact zpow_le_zpow_right₀ (by norm_num) (by push_cast; omega)
    rw [unpackedValue, abs_mul, signFactor_abs, one_mul, abs_of_nonneg (by positivity)] at small
    have more : (2 : ℚ) ^ 1023 < 2 ^ 52 * 2 ^ 972 := by
      rw [← pow_add]
      exact pow_lt_pow_right₀ (by norm_num) (by decide)
    have least : (2 : ℚ) ^ 52 * 2 ^ 972 ≤ m * 2 ^ e := by gcongr
    exact absurd small (not_le.mpr (more.trans_le least))

theorem two_zpow_grid {e : ℤ} (least : -1074 ≤ e) : (2 : ℚ) ^ e ∈ grid :=
  ⟨1, e, by decide, least, by rw [Int.cast_one, one_mul]⟩

/-- A number of the model in canonical form, packed: what it rounds is not too large. -/
theorem pack_rounds {x : UnpackedFloat} {q : ℚ}
    (rounded : Canonical x ∧ Nearest grid q (unpackedValue x)) (small : |q| ≤ 2 ^ 1023) :
    Rounds q (Float.Model.pack x) := by
  obtain ⟨canonical, nearest⟩ := rounded
  have top : (2 : ℚ) ^ 1023 ∈ grid := by
    have mem := two_zpow_grid (e := 1023) (by decide)
    exact_mod_cast mem
  obtain ⟨low, high⟩ := abs_le.mp small
  have magnitude : |unpackedValue x| ≤ 2 ^ 1023 :=
    abs_le.mpr ⟨nearest.ge (grid_neg top) low, nearest.le top high⟩
  have same := unpack_pack canonical (coarse_of_small canonical magnitude)
  refine ⟨?_, ?_⟩
  · rw [Float.Model.isFinite, same]
    exact isFinite_of_canonical canonical
  · rw [value, same]
    exact nearest

theorem log2_mul_le {m n : ℕ} (some_m : m ≠ 0) (some_n : n ≠ 0) : m.log2 + n.log2 ≤ (m * n).log2 := by
  rw [Nat.le_log2 (Nat.mul_ne_zero some_m some_n), pow_add]
  exact Nat.mul_le_mul (Nat.log2_self_le some_m) (Nat.log2_self_le some_n)

theorem zero_nearest : Nearest grid 0 0 := by
  refine ⟨int_grid (m := 0) (by decide), fun y _ => ?_⟩
  rw [sub_zero, abs_zero]
  exact abs_nonneg _

theorem canonical_log {m : ℕ} {e : ℤ} (some_bits : 0 < m) (full : 2 ^ 52 ≤ m ∨ e = -1074) :
    52 ≤ m.log2 ∨ e = -1074 :=
  full.imp_left (Nat.le_log2 (Nat.pos_iff_ne_zero.mp some_bits)).mpr

theorem mul_finite (s s' : UnpackedFloat.Sign) {m m' : ℕ} {e f : ℤ} (pos : 0 < m) (pos' : 0 < m')
    (fine : e + f ≤ max ((m * m').log2 + 1 + (e + f) - 53) (-1074)) :
    Canonical (UnpackedFloat.mul .binary64 (.finite s m e pos) (.finite s' m' f pos')) ∧
      Nearest grid (unpackedValue (.finite s m e pos) * unpackedValue (.finite s' m' f pos'))
        (unpackedValue (UnpackedFloat.mul .binary64 (.finite s m e pos) (.finite s' m' f pos'))) := by
  have rounded := roundWithAccuracy_nearest (s * s') (shows_exact (m * m')) fine
  refine ⟨rounded.1, ?_⟩
  have product : unpackedValue (.finite s m e pos) * unpackedValue (.finite s' m' f pos') =
      signFactor (s * s') * (((m * m' : ℕ) : ℚ) * 2 ^ (e + f)) := by
    rw [unpackedValue, unpackedValue, signFactor_mul, zpow_add₀ (by norm_num)]
    push_cast
    ring
  rw [product]
  exact rounded.2

/-- **A product.** -/
theorem mul_nearest {x y : UnpackedFloat} (canonical : Canonical x) (canonical' : Canonical y) :
    Canonical (UnpackedFloat.mul .binary64 x y) ∧
      Nearest grid (unpackedValue x * unpackedValue y)
        (unpackedValue (UnpackedFloat.mul .binary64 x y)) := by
  cases x with
  | notANumber | infinity s => exact canonical.elim
  | zero s =>
    cases y with
    | notANumber | infinity s => exact canonical'.elim
    | zero s' | finite s' m' e' pos' =>
      refine ⟨trivial, ?_⟩
      simp only [unpackedValue, UnpackedFloat.mul, zero_mul]
      exact zero_nearest
  | finite s m e pos =>
    cases y with
    | notANumber | infinity s => exact canonical'.elim
    | zero s' =>
      refine ⟨trivial, ?_⟩
      simp only [unpackedValue, UnpackedFloat.mul, mul_zero]
      exact zero_nearest
    | finite s' m' e' pos' =>
      have log := canonical_log pos canonical.2.2
      have log' := canonical_log pos' canonical'.2.2
      have logs := log2_mul_le (Nat.pos_iff_ne_zero.mp pos) (Nat.pos_iff_ne_zero.mp pos')
      have least := canonical.2.1
      have least' := canonical'.2.1
      exact mul_finite s s' pos pos' (by omega)

/-- The integer quotient of a division has 53 bits, if the unit is not the least one. -/
theorem divCore_fine {m n : ℕ} {e f : ℤ} (some_m : 0 < m) (some_n : 0 < n) :
    ∃ (k : ℕ) (t : ℤ), divCore .binary64 m e n f =
        (m * 2 ^ k / n, t, accuracyOfFraction (m * 2 ^ k % n) n) ∧ k + t = e - f ∧
      t ≤ max ((m * 2 ^ k / n).log2 + 1 + t - 53) (-1074) := by
  have bits : (Format.mantissaBits .binary64 : Int) = 53 := rfl
  have least : Format.minExponent .binary64 = -1074 := rfl
  simp only [divCore, Format.targetExponent, totalExponent, bits, least, Nat.shiftLeft_eq]
  generalize target : min (e - f) (max (m.log2 + 1 + e - (n.log2 + 1 + f) - 53) (-1074)) = t
  obtain ⟨k, shift⟩ : ∃ k : ℕ, e - f - t = k := ⟨(e - f - t).toNat, by omega⟩
  rw [shift, Int.toNat_natCast]
  refine ⟨k, t, rfl, by omega, ?_⟩
  by_cases low : t ≤ -1074
  · omega
  · have places : n.log2 + 53 ≤ m.log2 + k := by omega
    have some_quotient : 2 ^ 52 ≤ m * 2 ^ k / n := by
      rw [Nat.le_div_iff_mul_le some_n]
      calc 2 ^ 52 * n ≤ 2 ^ 52 * 2 ^ (n.log2 + 1) := Nat.mul_le_mul_left _ Nat.lt_log2_self.le
        _ = 2 ^ (n.log2 + 53) := by rw [← pow_add, Nat.add_comm, Nat.add_assoc]
        _ ≤ 2 ^ (m.log2 + k) := Nat.pow_le_pow_right (by decide) places
        _ = 2 ^ m.log2 * 2 ^ k := pow_add _ _ _
        _ ≤ m * 2 ^ k :=
          Nat.mul_le_mul_right _ (Nat.log2_self_le (Nat.pos_iff_ne_zero.mp some_m))
    have log : 52 ≤ (m * 2 ^ k / n).log2 :=
      (Nat.le_log2 (Nat.pos_iff_ne_zero.mp (lt_of_lt_of_le (by decide) some_quotient))).mpr
        some_quotient
    omega

theorem div_finite (s s' : UnpackedFloat.Sign) {m m' : ℕ} {e f : ℤ} (pos : 0 < m) (pos' : 0 < m') :
    Canonical (UnpackedFloat.div .binary64 (.finite s m e pos) (.finite s' m' f pos')) ∧
      Nearest grid (unpackedValue (.finite s m e pos) / unpackedValue (.finite s' m' f pos'))
        (unpackedValue (UnpackedFloat.div .binary64 (.finite s m e pos) (.finite s' m' f pos'))) := by
  obtain ⟨k, t, parts, place, fine⟩ := divCore_fine (e := e) (f := f) pos pos'
  have rounded := roundWithAccuracy_nearest (s / s') (shows_fraction pos') fine
  have quotient : unpackedValue (.finite s m e pos) / unpackedValue (.finite s' m' f pos') =
      signFactor (s / s') * (((m * 2 ^ k : ℕ) : ℚ) / m' * 2 ^ t) := by
    have scale : (2 : ℚ) ^ e = 2 ^ k * 2 ^ t * 2 ^ f := by
      rw [← zpow_natCast, ← zpow_add₀ (by norm_num), ← zpow_add₀ (by norm_num), place,
        sub_add_cancel]
    have some_sign := signFactor_ne s'
    have some_bits : (m' : ℚ) ≠ 0 := Nat.cast_ne_zero.mpr (Nat.pos_iff_ne_zero.mp pos')
    have some_unit : (2 : ℚ) ^ f ≠ 0 := by positivity
    rw [unpackedValue, unpackedValue, signFactor_div, scale]
    push_cast
    field_simp
  rw [quotient, UnpackedFloat.div]
  simp only [parts]
  exact rounded

/-- **A quotient.** -/
theorem div_nearest {x y : UnpackedFloat} (canonical : Canonical x) (canonical' : Canonical y)
    (some : unpackedValue y ≠ 0) :
    Canonical (UnpackedFloat.div .binary64 x y) ∧
      Nearest grid (unpackedValue x / unpackedValue y)
        (unpackedValue (UnpackedFloat.div .binary64 x y)) := by
  cases y with
  | notANumber | infinity s => exact canonical'.elim
  | zero s => exact absurd rfl some
  | finite s' m' e' pos' =>
    cases x with
    | notANumber | infinity s => exact canonical.elim
    | zero s =>
      refine ⟨trivial, ?_⟩
      simp only [unpackedValue, UnpackedFloat.div, zero_div]
      exact zero_nearest
    | finite s m e pos => exact div_finite s s' pos pos'

/-- **Signed bits**, as sums and differences have them. -/
theorem normalize_nearest (n : ℤ) (e : ℤ) (zero : UnpackedFloat.Sign) :
    Canonical (UnpackedFloat.normalize .binary64 n e zero) ∧
      Nearest grid (n * 2 ^ e) (unpackedValue (UnpackedFloat.normalize .binary64 n e zero)) := by
  have rounded : ∀ (s : UnpackedFloat.Sign) (m : ℕ), 0 < m →
      Canonical (UnpackedFloat.round .binary64 s m e) ∧
        Nearest grid (signFactor s * (m * 2 ^ e))
          (unpackedValue (UnpackedFloat.round .binary64 s m e)) := by
    intro s m some_bits
    rw [UnpackedFloat.round]
    simp only [decreaseExponent, targetExponent_eq, Nat.shiftLeft_eq]
    generalize shift : (e - max (m.log2 + 1 + e - 53) (-1074)).toNat = k
    have log : (m * 2 ^ k).log2 = m.log2 + k := by
      rw [Nat.log2_eq_iff (Nat.pos_iff_ne_zero.mp (Nat.mul_pos some_bits (Nat.two_pow_pos k)))]
      rw [pow_add, Nat.add_right_comm, pow_add]
      exact ⟨Nat.mul_le_mul_right _ (Nat.log2_self_le (Nat.pos_iff_ne_zero.mp some_bits)),
        Nat.mul_lt_mul_of_pos_right Nat.lt_log2_self (Nat.two_pow_pos k)⟩
    have nearest := roundWithAccuracy_nearest s (e := e - k) (shows_exact (m * 2 ^ k))
      (by rw [log]; push_cast; omega)
    have same : ((m * 2 ^ k : ℕ) : ℚ) * 2 ^ (e - k) = m * 2 ^ e := by
      rw [zpow_sub₀ (by norm_num), zpow_natCast]
      push_cast
      field_simp
    rwa [same] at nearest
  rw [UnpackedFloat.normalize]
  rcases order : compare n 0 with _ | _ | _
  · obtain ⟨m, rfl⟩ : ∃ m : ℕ, n = -m := ⟨(-n).toNat, by rw [Int.compare_eq_lt] at order; omega⟩
    rw [Int.compare_eq_lt] at order
    have negated := rounded .negative m (by omega)
    rw [show signFactor .negative * ((m : ℚ) * 2 ^ e) = ((-m : ℤ) : ℚ) * 2 ^ e by
      rw [signFactor]; push_cast; ring] at negated
    simpa using negated
  · rw [Int.compare_eq_eq] at order
    subst order
    refine ⟨trivial, ?_⟩
    rw [Int.cast_zero, zero_mul]
    exact zero_nearest
  · obtain ⟨m, rfl⟩ : ∃ m : ℕ, n = m := ⟨n.toNat, by rw [Int.compare_eq_gt] at order; omega⟩
    rw [Int.compare_eq_gt] at order
    have same := rounded .positive m (by omega)
    rw [signFactor, one_mul] at same
    simpa using same

theorem apply_cast (s : UnpackedFloat.Sign) (m : ℕ) : ((s.apply m : ℤ) : ℚ) = signFactor s * m := by
  cases s with
  | negative =>
    show ((-(m : ℤ) : ℤ) : ℚ) = -1 * m
    push_cast
    ring
  | positive =>
    show ((m : ℤ) : ℚ) = 1 * m
    push_cast
    ring

/-- A number in canonical form is on the grid. -/
theorem canonical_nearest {x : UnpackedFloat} (canonical : Canonical x) :
    Nearest grid (unpackedValue x) (unpackedValue x) := by
  refine ⟨?_, fun y _ => ?_⟩
  · cases x with
    | notANumber | infinity s => exact canonical.elim
    | zero s => exact zero_nearest.mem
    | finite s m e pos =>
      have bits : |((m : ℕ) : ℤ)| ≤ 2 ^ 53 := by
        rw [abs_of_nonneg (Int.natCast_nonneg m)]
        exact_mod_cast canonical.1.le
      have mem := grid_of bits canonical.2.1
      exact_mod_cast grid_sign mem s
  · rw [sub_self, abs_zero]
    exact abs_nonneg _

theorem canonical_neg {x : UnpackedFloat} (canonical : Canonical x) : Canonical x.neg := by
  cases x with
  | notANumber | infinity s => exact canonical.elim
  | zero s => trivial
  | finite s m e pos => exact canonical

theorem unpackedValue_neg (x : UnpackedFloat) : unpackedValue x.neg = -unpackedValue x := by
  cases x with
  | notANumber | infinity s | zero s => exact neg_zero.symm
  | finite s m e pos =>
    rw [UnpackedFloat.neg, unpackedValue, unpackedValue, signFactor_neg]
    ring

/-- Both numbers in units of the smaller of their exponents. -/
theorem aligned (s s' : UnpackedFloat.Sign) (m m' : ℕ) (e f : ℤ) (pos : 0 < m) (pos' : 0 < m') :
    unpackedValue (.finite s m e pos) =
        ((s.apply (decreaseExponent m e (min e f)).1 : ℤ) : ℚ) * 2 ^ min e f ∧
      unpackedValue (.finite s' m' f pos') =
        ((s'.apply (decreaseExponent m' f (min e f)).1 : ℤ) : ℚ) * 2 ^ min e f := by
  have scaled : ∀ (s : UnpackedFloat.Sign) (m : ℕ) (e t : ℤ), t ≤ e → ∀ pos : 0 < m,
      unpackedValue (.finite s m e pos) =
        ((s.apply (decreaseExponent m e t).1 : ℤ) : ℚ) * 2 ^ t := by
    intro s m e t le pos
    obtain ⟨k, rfl⟩ : ∃ k : ℕ, e = t + k := ⟨(e - t).toNat, by omega⟩
    have shift : (t + k - t).toNat = k := by omega
    rw [apply_cast, unpackedValue, decreaseExponent, shift, Nat.shiftLeft_eq,
      zpow_add₀ (by norm_num), zpow_natCast]
    push_cast
    ring
  exact ⟨scaled s m e _ (min_le_left _ _) pos, scaled s' m' f _ (min_le_right _ _) pos'⟩

/-- **A sum.** -/
theorem add_nearest {x y : UnpackedFloat} (canonical : Canonical x) (canonical' : Canonical y) :
    Canonical (UnpackedFloat.add .binary64 x y) ∧
      Nearest grid (unpackedValue x + unpackedValue y)
        (unpackedValue (UnpackedFloat.add .binary64 x y)) := by
  cases x with
  | notANumber | infinity s => exact canonical.elim
  | zero s =>
    cases y with
    | notANumber | infinity s => exact canonical'.elim
    | zero s' =>
      rw [UnpackedFloat.add]
      have sum : unpackedValue (.zero s) + unpackedValue (.zero s') = 0 := add_zero 0
      rw [sum]
      split <;> exact ⟨trivial, zero_nearest⟩
    | finite s' m' e' pos' =>
      have sum : unpackedValue (.zero s) + unpackedValue (.finite s' m' e' pos') =
        unpackedValue (.finite s' m' e' pos') := zero_add _
      rw [sum]
      exact ⟨canonical', canonical_nearest canonical'⟩
  | finite s m e pos =>
    cases y with
    | notANumber | infinity s => exact canonical'.elim
    | zero s' =>
      have sum : unpackedValue (.finite s m e pos) + unpackedValue (.zero s') =
        unpackedValue (.finite s m e pos) := add_zero _
      rw [sum]
      exact ⟨canonical, canonical_nearest canonical⟩
    | finite s' m' e' pos' =>
      obtain ⟨first, second⟩ := aligned s s' m m' e e' pos pos'
      rw [first, second, ← add_mul, ← Int.cast_add]
      exact normalize_nearest _ _ _

/-- **A difference** is the sum with the negated number. -/
theorem sub_nearest {x y : UnpackedFloat} (canonical : Canonical x) (canonical' : Canonical y) :
    Canonical (UnpackedFloat.sub .binary64 x y) ∧
      Nearest grid (unpackedValue x - unpackedValue y)
        (unpackedValue (UnpackedFloat.sub .binary64 x y)) := by
  cases x with
  | notANumber | infinity s => exact canonical.elim
  | zero s =>
    cases y with
    | notANumber | infinity s => exact canonical'.elim
    | zero s' =>
      rw [UnpackedFloat.sub]
      have difference : unpackedValue (.zero s) - unpackedValue (.zero s') = 0 := sub_zero 0
      rw [difference]
      split <;> exact ⟨trivial, zero_nearest⟩
    | finite s' m' e' pos' =>
      have difference : unpackedValue (.zero s) - unpackedValue (.finite s' m' e' pos') =
          unpackedValue (UnpackedFloat.neg (.finite s' m' e' pos')) := by
        rw [unpackedValue_neg]
        exact zero_sub _
      rw [difference]
      exact ⟨canonical_neg canonical', canonical_nearest (canonical_neg canonical')⟩
  | finite s m e pos =>
    cases y with
    | notANumber | infinity s => exact canonical'.elim
    | zero s' =>
      have difference : unpackedValue (.finite s m e pos) - unpackedValue (.zero s') =
        unpackedValue (.finite s m e pos) := sub_zero _
      rw [difference]
      exact ⟨canonical, canonical_nearest canonical⟩
    | finite s' m' e' pos' =>
      obtain ⟨first, second⟩ := aligned s s' m m' e e' pos pos'
      rw [first, second, ← sub_mul, ← Int.cast_sub]
      exact normalize_nearest _ _ _

/-! ### The operations of doubles -/

section

variable {x y : Float.Model} (finite : x.isFinite) (finite' : y.isFinite)
include finite

theorem add_rounds (finite' : y.isFinite) (small : |value x + value y| ≤ 2 ^ 1023) :
    Rounds (value x + value y) (x + y) :=
  pack_rounds (add_nearest (unpack_canonical finite).1 (unpack_canonical finite').1) small

theorem sub_rounds (finite' : y.isFinite) (small : |value x - value y| ≤ 2 ^ 1023) :
    Rounds (value x - value y) (x - y) :=
  pack_rounds (sub_nearest (unpack_canonical finite).1 (unpack_canonical finite').1) small

theorem mul_rounds (finite' : y.isFinite) (small : |value x * value y| ≤ 2 ^ 1023) :
    Rounds (value x * value y) (x * y) :=
  pack_rounds (mul_nearest (unpack_canonical finite).1 (unpack_canonical finite').1) small

theorem div_rounds (finite' : y.isFinite) (some : value y ≠ 0)
    (small : |value x / value y| ≤ 2 ^ 1023) : Rounds (value x / value y) (x / y) :=
  pack_rounds (div_nearest (unpack_canonical finite).1 (unpack_canonical finite').1 some) small

theorem neg_finite : (-x).isFinite ∧ value (-x) = -value x := by
  obtain ⟨canonical, coarse⟩ := unpack_canonical finite
  have coarse' : Coarse 971 x.unpack.neg := by
    cases shape : x.unpack with
    | notANumber | infinity s =>
      rw [shape] at coarse
      exact coarse.elim
    | zero s => trivial
    | finite s m e pos =>
      rw [shape] at coarse
      exact coarse
  have same : (-x).unpack = x.unpack.neg := unpack_pack (canonical_neg canonical) coarse'
  refine ⟨?_, ?_⟩
  · rw [Float.Model.isFinite, same]
    exact isFinite_of_canonical (canonical_neg canonical)
  · rw [value, same, unpackedValue_neg, value]

end

/-- **An integer.** -/
theorem ofInt_rounds {n : ℤ} (small : |(n : ℚ)| ≤ 2 ^ 1023) : Rounds n (Float.Model.ofInt n) := by
  refine pack_rounds ?_ small
  have rounded := normalize_nearest n 0 .positive
  rw [zpow_zero, mul_one] at rounded
  exact rounded

/-- What is on the grid is not changed. -/
theorem Rounds.exact {q : ℚ} {x : Float.Model} (rounds : Rounds q x) (mem : q ∈ grid) : value x = q :=
  rounds.nearest.eq mem

/-- **How much is lost**: half of a unit of which there are at most `2 ^ 53`. -/
theorem Rounds.error {q : ℚ} {x : Float.Model} {e : ℤ} (rounds : Rounds q x) (least : -1074 ≤ e)
    (small : |q| ≤ 2 ^ 53 * 2 ^ e) : |value x - q| ≤ 2 ^ e / 2 := by
  have unit : (0 : ℚ) < 2 ^ e := by positivity
  obtain ⟨r, half⟩ := exists_nearest_int (q / 2 ^ e)
  have bits : |r| ≤ 2 ^ 53 := by
    have quotient : |q / 2 ^ e| ≤ 2 ^ 53 := by
      rw [abs_div, abs_of_pos unit, div_le_iff₀ unit]
      exact small
    have near : |(r : ℚ)| < ((2 ^ 53 + 1 : ℤ) : ℚ) := by
      have way := abs_sub_abs_le_abs_sub (r : ℚ) (q / 2 ^ e)
      push_cast
      linarith
    rw [← Int.cast_abs] at near
    have := Int.cast_lt.mp near
    omega
  refine (rounds.nearest.closest _ (grid_of bits least)).trans ?_
  have scaled : (r : ℚ) * 2 ^ e - q = (r - q / 2 ^ e) * 2 ^ e := by
    rw [sub_mul, div_mul_cancel₀ _ unit.ne']
  rw [scaled, abs_mul, abs_of_pos unit]
  calc |(r : ℚ) - q / 2 ^ e| * 2 ^ e ≤ 1 / 2 * 2 ^ e := mul_le_mul_of_nonneg_right half unit.le
    _ = 2 ^ e / 2 := by ring

/-! ### Comparisons -/

/-- Numbers in canonical form are compared by their exponents first. -/
theorem magnitude_lt {m m' : ℕ} {e f : ℤ} (bits : m < 2 ^ 53) (least : -1074 ≤ e)
    (full : 2 ^ 52 ≤ m' ∨ f = -1074) (lt : e < f) : (m : ℚ) * 2 ^ e < m' * 2 ^ f := by
  have leading : (2 : ℚ) ^ 52 ≤ m' := by exact_mod_cast full.resolve_right (by omega)
  have less : (m : ℚ) < 2 ^ 53 := by exact_mod_cast bits
  calc (m : ℚ) * 2 ^ e < 2 ^ 53 * 2 ^ e := by gcongr
    _ = 2 ^ 52 * 2 ^ (e + 1) := by rw [zpow_add₀ (by norm_num)]; ring
    _ ≤ m' * 2 ^ f := by
      have : (2 : ℚ) ^ (e + 1) ≤ 2 ^ f := zpow_le_zpow_right₀ (by norm_num) (by omega)
      gcongr

theorem compare_magnitude {m m' : ℕ} {e f : ℤ} (bits : m < 2 ^ 53) (least : -1074 ≤ e)
    (full : 2 ^ 52 ≤ m ∨ e = -1074) (bits' : m' < 2 ^ 53) (least' : -1074 ≤ f)
    (full' : 2 ^ 52 ≤ m' ∨ f = -1074) :
    (compare e f).then (compare m m') = compare ((m : ℚ) * 2 ^ e) (m' * 2 ^ f) := by
  rcases lt_trichotomy e f with lt | rfl | gt
  · rw [compare_lt_iff_lt.mpr lt, compare_lt_iff_lt.mpr (magnitude_lt bits least full' lt)]
    rfl
  · rw [compare_eq_iff_eq.mpr rfl]
    show compare m m' = _
    have unit : (0 : ℚ) < 2 ^ e := by positivity
    rcases lt_trichotomy m m' with lt | rfl | gt
    · have scaled : (m : ℚ) * 2 ^ e < m' * 2 ^ e := by gcongr
      rw [compare_lt_iff_lt.mpr lt, compare_lt_iff_lt.mpr scaled]
    · rw [compare_eq_iff_eq.mpr rfl, compare_eq_iff_eq.mpr rfl]
    · have scaled : (m' : ℚ) * 2 ^ e < m * 2 ^ e := by gcongr
      rw [compare_gt_iff_gt.mpr gt, compare_gt_iff_gt.mpr scaled]
  · rw [compare_gt_iff_gt.mpr gt, compare_gt_iff_gt.mpr (magnitude_lt bits' least' full gt)]
    rfl

theorem swap_compare (a b : ℚ) : (compare a b).swap = compare (-a) (-b) := by
  rcases lt_trichotomy a b with lt | rfl | gt
  · rw [compare_lt_iff_lt.mpr lt, compare_gt_iff_gt.mpr (neg_lt_neg lt)]
    rfl
  · rw [compare_eq_iff_eq.mpr rfl, compare_eq_iff_eq.mpr rfl]
    rfl
  · rw [compare_gt_iff_gt.mpr gt, compare_lt_iff_lt.mpr (neg_lt_neg gt)]
    rfl

/-- **The comparison of doubles** is that of their values. -/
theorem compare_eq {x y : UnpackedFloat} (canonical : Canonical x) (canonical' : Canonical y) :
    x.compare y = some (compare (unpackedValue x) (unpackedValue y)) := by
  have pos_value : ∀ (m : ℕ) (e : ℤ) (pos : 0 < m),
      0 < unpackedValue (.finite .positive m e pos) := by
    intro m e pos
    rw [unpackedValue, signFactor, one_mul]
    have : (0 : ℚ) < m := by exact_mod_cast pos
    positivity
  have neg_value : ∀ (m : ℕ) (e : ℤ) (pos : 0 < m),
      unpackedValue (.finite .negative m e pos) < 0 := by
    intro m e pos
    have flipped := unpackedValue_neg (.finite .positive m e pos)
    have positive := pos_value m e pos
    rw [show UnpackedFloat.neg (.finite .positive m e pos) = .finite .negative m e pos from rfl]
      at flipped
    linarith
  cases x with
  | notANumber | infinity s => exact canonical.elim
  | zero s =>
    cases y with
    | notANumber | infinity s => exact canonical'.elim
    | zero s' => exact congrArg some (compare_eq_iff_eq.mpr rfl).symm
    | finite s' m' e' pos' =>
      cases s' with
      | negative => exact congrArg some (compare_gt_iff_gt.mpr (neg_value m' e' pos')).symm
      | positive => exact congrArg some (compare_lt_iff_lt.mpr (pos_value m' e' pos')).symm
  | finite s m e pos =>
    cases y with
    | notANumber | infinity s => exact canonical'.elim
    | zero s' =>
      cases s with
      | negative => exact congrArg some (compare_lt_iff_lt.mpr (neg_value m e pos)).symm
      | positive => exact congrArg some (compare_gt_iff_gt.mpr (pos_value m e pos)).symm
    | finite s' m' e' pos' =>
      have magnitudes := compare_magnitude canonical.1 canonical.2.1 canonical.2.2 canonical'.1
        canonical'.2.1 canonical'.2.2
      cases s with
      | negative =>
        cases s' with
        | negative =>
          simp only [UnpackedFloat.compare, unpackedValue, signFactor, neg_one_mul]
          rw [magnitudes, swap_compare]
        | positive =>
          exact congrArg some
            (compare_lt_iff_lt.mpr ((neg_value m e pos).trans (pos_value m' e' pos'))).symm
      | positive =>
        cases s' with
        | negative =>
          exact congrArg some
            (compare_gt_iff_gt.mpr ((neg_value m' e' pos').trans (pos_value m e pos))).symm
        | positive =>
          simp only [UnpackedFloat.compare, unpackedValue, signFactor, one_mul]
          exact congrArg some magnitudes

section

variable {x y : Float.Model} (finite : x.isFinite) (finite' : y.isFinite)
include finite finite'

theorem lt_iff : x < y ↔ value x < value y := by
  show UnpackedFloat.lt x.unpack y.unpack = true ↔ _
  rw [UnpackedFloat.lt, compare_eq (unpack_canonical finite).1 (unpack_canonical finite').1,
    beq_iff_eq, Option.some.injEq, compare_lt_iff_lt]
  rfl

theorem le_iff : x ≤ y ↔ value x ≤ value y := by
  show UnpackedFloat.le x.unpack y.unpack = true ↔ _
  rw [UnpackedFloat.le, compare_eq (unpack_canonical finite).1 (unpack_canonical finite').1,
    Option.any_some, Ordering.isLE_iff_ne_gt]
  exact compare_le_iff_le

end

end Double
