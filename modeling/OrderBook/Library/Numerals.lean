/-
**Numbers in texts.**

`stod` reads the longest numeral at the start of a text, after blanks: decimal or hexadecimal, with an
exponent or without, an infinity or not a number. It fails where there is none, and where the number
is too large; where a number is too small for a normal double, it is left to the implementation, which
may look at the number and at the double it is rounded to.

* `stod_decimal` — digits with a point among them, or without one, are read as the nearest double.
* `units_decimal` — a printed number of units is such a text.
-/

import OrderBook.Library.Decimals

namespace Double

open Float.Model Float.Model.UnpackedFloat Rounding

/-! ### The parts of a numeral -/

/-- `isspace`. -/
def isSpace (c : Char) : Bool := [' ', '\t', '\n', '\x0b', '\x0c', '\r'].contains c

/-- Whether there is a minus sign, and what follows a sign. -/
def signOf : List Char → Bool × List Char
  | '-' :: s => (true, s)
  | '+' :: s => (false, s)
  | s => (false, s)

/-- The exponent behind one of these letters. Without digits there is no exponent. -/
def exponentOf (letters : List Char) : List Char → ℤ
  | [] => 0
  | c :: s =>
    let (negative, s) := signOf s
    let e : ℤ := Nat.ofDigitChars 10 (s.takeWhile Char.isDigit) 0
    if c ∈ letters then if negative then -e else e else 0

/-- The digits before a point and after it, and what follows them. -/
def digitsOf (digit : Char → Bool) (s : List Char) : List Char × List Char × List Char :=
  match s.dropWhile digit with
  | '.' :: t => (s.takeWhile digit, t.takeWhile digit, t.dropWhile digit)
  | t => (s.takeWhile digit, [], t)

def hexDigit (c : Char) : ℕ :=
  if c.isDigit then c.toNat - '0'.toNat
  else if 'a' ≤ c then c.toNat - 'a'.toNat + 10
  else c.toNat - 'A'.toNat + 10

/-- So many units of a power of two. Beyond all exponents there is nothing to round. -/
def ofBinary (m : ℕ) (e : ℤ) : Float.Model :=
  if m = 0 ∨ e + m.log2 < -1200 then .pack (.zero .positive)
  else if e + m.log2 > 1200 then .pack (.infinity .positive)
  else .pack (UnpackedFloat.round .binary64 .positive m e)

/-- The least normal number. -/
def leastNormal : Float.Model := .pack (.finite .positive (2 ^ 52) (-1074) (by decide))

/-- A numeral's number, so many times `unit`, if it is in range; `x` is the double it is rounded to. -/
def ranged (underflow : ℚ → Float.Model → Bool) (m : ℕ) (unit : ℚ) (x : Float.Model) :
    Option Float.Model :=
  if x.isInf then none
  else if m ≠ 0 ∧ x < leastNormal ∧ underflow (m * unit) x then none
  else some x

def decimalOf (underflow : ℚ → Float.Model → Bool) (s : List Char) : Option Float.Model :=
  let (whole, fraction, rest) := digitsOf Char.isDigit s
  let m := Nat.ofDigitChars 10 (whole ++ fraction) 0
  let e := exponentOf ['e', 'E'] rest - fraction.length
  if whole ++ fraction = [] then none else ranged underflow m (10 ^ e) (.ofScientific m e)

def hexadecimalOf (underflow : ℚ → Float.Model → Bool) (s : List Char) : Option Float.Model :=
  let (whole, fraction, rest) := digitsOf Char.isHexDigit s
  let m := (whole ++ fraction).foldl (fun m c => 16 * m + hexDigit c) 0
  let e := exponentOf ['p', 'P'] rest - 4 * fraction.length
  ranged underflow m (2 ^ e) (ofBinary m e)

/-- What follows the letter of a hexadecimal numeral, if it is one. -/
def afterHexLetter : List Char → Option (List Char)
  | '0' :: x :: s =>
    let (whole, fraction, _) := digitsOf Char.isHexDigit s
    if (x = 'x' ∨ x = 'X') ∧ whole ++ fraction ≠ [] then some s else none
  | _ => none

/-- A number without its sign. -/
def magnitudeOf (underflow : ℚ → Float.Model → Bool) (s : List Char) : Option Float.Model :=
  if (s.take 3).map Char.toLower = ['i', 'n', 'f'] then some (.pack (.infinity .positive))
  else if (s.take 3).map Char.toLower = ['n', 'a', 'n'] then some (.pack .notANumber)
  else
    match afterHexLetter s with
    | some t => hexadecimalOf underflow t
    | none => decimalOf underflow s

/-- `std::stod`; `underflow` says whether a number too small for a normal double is reported. It returns
nothing where it throws an exception. -/
def stod (underflow : ℚ → Float.Model → Bool) (s : List Char) : Option Float.Model :=
  let (negative, s) := signOf (s.dropWhile isSpace)
  (magnitudeOf underflow s).map fun x => if negative then -x else x

example : stod (fun _ _ => true) " -0x1.8p1z".toList = some (.ofInt (-3)) ∧
    stod (fun _ _ => true) "65000.42".toList = some (.ofInt 6500042 / .ofInt 100) ∧
    stod (fun _ _ => true) "1e999".toList = none ∧ stod (fun _ _ => true) "-.".toList = none ∧
    (stod (fun q x => value x ≠ q) "0x1p-1074".toList).isSome ∧
    stod (fun q x => value x ≠ q) "0x1.8p-1074".toList = none := by
  decide +kernel

/-! ### Plain decimals -/

/-- Digits, with a point among them or without one, and a minus sign or none: so many units of the last
of the decimal places. -/
structure Decimal (text : List Char) (negative : Bool) (n places : ℕ) : Prop where
  parts : ∃ whole fraction : List Char, whole ≠ [] ∧ (∀ d ∈ whole ++ fraction, d.isDigit) ∧
    text = Json.sign negative ++ whole ++ (if fraction = [] then [] else '.' :: fraction) ∧
    Nat.ofDigitChars 10 (whole ++ fraction) 0 = n ∧ fraction.length = places

theorem digit_mem {d : Char} (digit : d.isDigit) :
    d ∈ ['0', '1', '2', '3', '4', '5', '6', '7', '8', '9'] := by
  obtain ⟨low, high⟩ := Char.isDigit_iff_toNat.mp digit
  rw [← Char.ofNat_toNat d]
  generalize d.toNat = n at low high
  replace low : 48 ≤ n := low
  replace high : n ≤ 57 := high
  interval_cases n <;> decide

/-- A digit is none of the characters that something else begins with. -/
theorem digit_facts {d : Char} (digit : d.isDigit) :
    isSpace d = false ∧ d ≠ '-' ∧ d ≠ '+' ∧ d ≠ 'x' ∧ d ≠ 'X' ∧ d.toLower ≠ 'i' ∧ d.toLower ≠ 'n' := by
  have mem := digit_mem digit
  simp only [List.mem_cons, List.not_mem_nil, or_false] at mem
  rcases mem with rfl | rfl | rfl | rfl | rfl | rfl | rfl | rfl | rfl | rfl <;> decide

theorem takeWhile_digits {digits : List Char} (rest : List Char)
    (each : ∀ d ∈ digits, d.isDigit) (ends : ∀ c ∈ rest.head?, c.isDigit = false) :
    (digits ++ rest).takeWhile Char.isDigit = digits ∧ (digits ++ rest).dropWhile Char.isDigit = rest := by
  rw [List.takeWhile_append_of_pos each, List.dropWhile_append_of_pos each]
  cases rest with
  | nil => exact ⟨List.append_nil _, rfl⟩
  | cons c rest =>
    have stops := ends c rfl
    rw [List.takeWhile_cons_of_neg (by simp [stops]), List.dropWhile_cons_of_neg (by simp [stops])]
    exact ⟨List.append_nil _, rfl⟩

theorem digitsOf_decimal {whole fraction : List Char} (each : ∀ d ∈ whole ++ fraction, d.isDigit) :
    digitsOf Char.isDigit (whole ++ (if fraction = [] then [] else '.' :: fraction)) =
      (whole, fraction, []) := by
  have first : ∀ d ∈ whole, d.isDigit := fun d mem => each d (List.mem_append_left _ mem)
  have second : ∀ d ∈ fraction, d.isDigit := fun d mem => each d (List.mem_append_right _ mem)
  unfold digitsOf
  by_cases none : fraction = []
  · obtain ⟨taken, dropped⟩ := takeWhile_digits [] first nofun
    rw [if_pos none, taken, dropped, none]
  · obtain ⟨taken, dropped⟩ := takeWhile_digits ('.' :: fraction) first
      (by rintro c ⟨⟩; rfl)
    obtain ⟨taken', dropped'⟩ := takeWhile_digits [] second nofun
    rw [List.append_nil] at taken' dropped'
    rw [if_neg none, taken, dropped]
    simp only [taken', dropped']

theorem magnitude_decimal {whole fraction : List Char} (nonempty : whole ≠ [])
    (each : ∀ d ∈ whole ++ fraction, d.isDigit) (underflow : ℚ → Float.Model → Bool) :
    magnitudeOf underflow (whole ++ (if fraction = [] then [] else '.' :: fraction)) =
      ranged underflow (Nat.ofDigitChars 10 (whole ++ fraction) 0) (10 ^ (-fraction.length : ℤ))
        (.ofScientific (Nat.ofDigitChars 10 (whole ++ fraction) 0) (-fraction.length)) := by
  have parts := digitsOf_decimal each
  generalize text : whole ++ (if fraction = [] then [] else '.' :: fraction) = s at parts ⊢
  obtain ⟨d, rest, rfl⟩ : ∃ d rest, s = d :: rest := by
    obtain ⟨d, tail, rfl⟩ := List.exists_cons_of_ne_nil nonempty
    exact ⟨d, _, text.symm⟩
  have digit : d.isDigit := by
    obtain ⟨c, tail, rfl⟩ := List.exists_cons_of_ne_nil nonempty
    rw [List.cons_append] at text
    cases text
    exact each d List.mem_cons_self
  obtain ⟨_, _, _, _, _, no_i, no_n⟩ := digit_facts digit
  have second : ∀ x tail, rest = x :: tail → x ≠ 'x' ∧ x ≠ 'X' := by
    rintro x tail rfl
    obtain ⟨c, digits, rfl⟩ := List.exists_cons_of_ne_nil nonempty
    rw [List.cons_append, List.cons.injEq] at text
    obtain ⟨-, text⟩ := text
    cases digits with
    | cons y digits =>
      rw [List.cons_append, List.cons.injEq] at text
      have facts := digit_facts (each y (by simp))
      rw [← text.1]
      exact ⟨facts.2.2.2.1, facts.2.2.2.2.1⟩
    | nil =>
      rw [List.nil_append] at text
      split at text
      · cases text
      · rw [List.cons.injEq] at text
        rw [← text.1]
        decide
  have no_hex : afterHexLetter (d :: rest) = none := by
    unfold afterHexLetter
    split
    · rename_i x tail shape
      cases shape
      obtain ⟨no_x, no_X⟩ := second x tail rfl
      simp [no_x, no_X]
    · rfl
  have some_digits : whole ++ fraction ≠ [] := List.append_ne_nil_of_left_ne_nil nonempty _
  unfold magnitudeOf
  rw [if_neg (by simp [no_i]), if_neg (by simp [no_n]), no_hex]
  simp only [decimalOf, parts, exponentOf]
  rw [if_neg some_digits, zero_sub]

theorem leastNormal_value : leastNormal.isFinite ∧ value leastNormal = 2 ^ (-1022 : ℤ) := by
  have same : leastNormal.unpack = .finite .positive (2 ^ 52) (-1074) (by decide) :=
    unpack_pack ⟨by decide, by decide, .inl (le_refl _)⟩ (by decide : (-1074 : ℤ) ≤ 971)
  refine ⟨?_, ?_⟩
  · rw [Float.Model.isFinite, same]
    rfl
  · rw [value, same, unpackedValue, signFactor, one_mul, show (-1022 : ℤ) = 52 + -1074 from rfl,
      zpow_add₀ (by norm_num)]
    norm_num

theorem ranged_rounds {n : ℕ} {unit q : ℚ} {x : Float.Model} (rounds : Rounds q x)
    (normal : n = 0 ∨ 2 ^ (-200 : ℤ) ≤ q) (underflow : ℚ → Float.Model → Bool) :
    ranged underflow n unit x = some x := by
  have no_infinity : x.isInf = false := by
    have finite := rounds.finite
    unfold Float.Model.isFinite at finite
    unfold Float.Model.isInf
    cases shape : x.unpack with
    | infinity s =>
      rw [shape] at finite
      cases finite
    | notANumber | zero s | finite s m e pos => rfl
  have no_underflow : ¬(n ≠ 0 ∧ x < leastNormal ∧ underflow (n * unit) x = true) := by
    rintro ⟨some, less, _⟩
    obtain ⟨finite, exact_⟩ := leastNormal_value
    rw [lt_iff rounds.finite finite, exact_] at less
    have above := rounds.nearest.ge (two_zpow_grid (e := -200) (by decide)) (normal.resolve_left some)
    have order : (2 : ℚ) ^ (-1022 : ℤ) ≤ 2 ^ (-200 : ℤ) :=
      zpow_le_zpow_right₀ (by norm_num) (by decide)
    linarith
  rw [ranged, if_neg (by simp [no_infinity]), if_neg no_underflow]

theorem Rounds.signed {q : ℚ} {x : Float.Model} (rounds : Rounds q x) (negative : Bool) :
    Rounds ((if negative then -1 else 1) * q) (if negative then -x else x) := by
  cases negative with
  | false =>
    simp only [Bool.false_eq_true, if_false, one_mul]
    exact rounds
  | true =>
    obtain ⟨finite, exact_⟩ := neg_finite rounds.finite
    simp only [if_true]
    refine ⟨finite, ?_⟩
    have nearest := nearest_signed rounds.nearest .negative
    rw [signFactor, neg_one_mul (value x)] at nearest
    rw [exact_]
    exact nearest

/-- A sign is taken off, and blanks are not there. -/
theorem stod_signed {negative : Bool} {s : List Char} (digit : ∃ d rest, s = d :: rest ∧ d.isDigit)
    (underflow : ℚ → Float.Model → Bool) :
    stod underflow (Json.sign negative ++ s) =
      (magnitudeOf underflow s).map fun x => if negative then -x else x := by
  obtain ⟨d, rest, rfl, digit⟩ := digit
  obtain ⟨no_space, no_minus, no_plus, _⟩ := digit_facts digit
  unfold stod
  cases negative with
  | true => rfl
  | false =>
    have start : (Json.sign false ++ d :: rest).dropWhile isSpace = d :: rest :=
      List.dropWhile_cons_of_neg (by simp [no_space])
    have unsigned : signOf (d :: rest) = (false, d :: rest) := by
      unfold signOf
      split
      · rename_i shape
        cases shape
        exact absurd rfl no_minus
      · rename_i shape
        cases shape
        exact absurd rfl no_plus
      · rfl
    rw [start, unsigned]

/-- **A plain decimal is read as the nearest double**, unless it is too large or too small. -/
theorem stod_decimal {text : List Char} {negative : Bool} {n places : ℕ}
    (decimal : Decimal text negative n places) (normal : n = 0 ∨ 10 ^ places ≤ n * 2 ^ 200)
    (small : n ≤ 2 ^ 200 * 10 ^ places) (underflow : ℚ → Float.Model → Bool) :
    ∃ x, stod underflow text = some x ∧
      Rounds ((if negative then -1 else 1) * ((n : ℚ) / 10 ^ places)) x := by
  obtain ⟨whole, fraction, nonempty, each, rfl, rfl, rfl⟩ := decimal.parts
  have magnitude := magnitude_decimal nonempty each underflow
  generalize Nat.ofDigitChars 10 (whole ++ fraction) 0 = n at magnitude normal small ⊢
  generalize places : fraction.length = k at magnitude normal small ⊢
  have unit : (0 : ℚ) < 10 ^ k := by positivity
  have number : (n : ℚ) * 10 ^ (-k : ℤ) = n / 10 ^ k := by
    rw [zpow_neg, zpow_natCast]
    rfl
  have low : n = 0 ∨ -(2048 + n.log2 : ℤ) ≤ -k := by
    refine normal.imp_right fun above => ?_
    have bits : 2 ^ k < 2 ^ (n.log2 + 1 + 200) := by
      calc 2 ^ k ≤ 10 ^ k := Nat.pow_le_pow_left (by decide) k
        _ ≤ n * 2 ^ 200 := above
        _ < 2 ^ (n.log2 + 1) * 2 ^ 200 :=
          Nat.mul_lt_mul_of_pos_right Nat.lt_log2_self (Nat.two_pow_pos 200)
        _ = 2 ^ (n.log2 + 1 + 200) := (Nat.pow_add 2 _ _).symm
    have := (Nat.pow_lt_pow_iff_right (by decide : 1 < 2)).mp bits
    omega
  have bound : (n : ℚ) * 10 ^ (-k : ℤ) ≤ 2 ^ 1023 := by
    have cast : (n : ℚ) ≤ 2 ^ 200 * 10 ^ k := by exact_mod_cast small
    rw [number, div_le_iff₀ unit]
    refine cast.trans (mul_le_mul_of_nonneg_right ?_ unit.le)
    exact pow_le_magnitude (by decide)
  have rounds := ofScientific_rounds low (by omega) bound
  have normal' : n = 0 ∨ (2 : ℚ) ^ (-200 : ℤ) ≤ n * 10 ^ (-k : ℤ) := by
    refine normal.imp_right fun above => ?_
    have cast : (10 : ℚ) ^ k ≤ n * 2 ^ 200 := by exact_mod_cast above
    rw [number, zpow_neg, le_div_iff₀ unit, inv_mul_le_iff₀ (by positivity), mul_comm]
    exact_mod_cast cast
  rw [ranged_rounds rounds normal'] at magnitude
  refine ⟨if negative then -Float.Model.ofScientific n (-k) else Float.Model.ofScientific n (-k), ?_, ?_⟩
  · rw [List.append_assoc, stod_signed ?_ underflow, magnitude]
    · rfl
    · obtain ⟨d, digits, rfl⟩ := List.exists_cons_of_ne_nil nonempty
      exact ⟨d, _, rfl, each d List.mem_cons_self⟩
  · rw [← number]
    exact rounds.signed negative

theorem leftpad_length {places m : ℕ} (some_places : 0 < places) :
    (List.leftpad places '0' (Nat.toDigits 10 (m % 10 ^ places))).length = places := by
  have part : (Nat.toDigits 10 (m % 10 ^ places)).length ≤ places :=
    (Nat.length_toDigits_le_iff (by decide) some_places).mpr
      (Nat.mod_lt _ (Nat.pow_pos (by decide)))
  rw [List.length_leftpad, Nat.max_eq_left part]

/-- **A printed number of units** is a plain decimal. -/
theorem units_decimal {places : ℕ} (some_places : 0 < places) (n : ℤ) :
    Decimal (units places n) (decide (n < 0)) n.natAbs places := by
  generalize whole_eq : Nat.toDigits 10 (n.natAbs / 10 ^ places) = whole
  generalize fraction_eq :
    List.leftpad places '0' (Nat.toDigits 10 (n.natAbs % 10 ^ places)) = fraction
  have length : fraction.length = places := by
    rw [← fraction_eq]
    exact leftpad_length some_places
  have some_fraction : fraction ≠ [] := by
    rintro rfl
    exact absurd length some_places.ne
  refine ⟨⟨whole, fraction, ?_, ?_, ?_, ?_, length⟩⟩
  · rw [← whole_eq]
    exact Nat.toDigits_ne_nil
  · intro d member
    rcases List.mem_append.mp member with first | second
    · rw [← whole_eq] at first
      exact Nat.isDigit_of_mem_toDigits (by decide) (by decide) first
    · rw [← fraction_eq] at second
      rcases List.mem_append.mp second with padded | printed
      · rw [List.eq_of_mem_replicate padded]
        rfl
      · exact Nat.isDigit_of_mem_toDigits (by decide) (by decide) printed
  · rw [units, decimal, whole_eq, fraction_eq, if_neg some_fraction, Json.sign, List.append_assoc]
    simp only [decide_eq_true_eq]
  · have digits : Nat.ofDigitChars 10 fraction 0 = n.natAbs % 10 ^ places := by
      rw [← fraction_eq, List.leftpad, Nat.ofDigitChars_append, Nat.ofDigitChars_replicate_zero,
        Nat.mul_zero, Nat.ofDigitChars_ten_toDigits]
    rw [Nat.ofDigitChars_append, Nat.ofDigitChars_eq_ofDigitChars_zero, length, digits, ← whole_eq,
      Nat.ofDigitChars_ten_toDigits]
    exact Nat.div_add_mod _ _

end Double
