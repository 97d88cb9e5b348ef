/-
**What the feeds hand on.**

* `ticker_exact` — of a message, or of an answer, whose four numbers are whole cents and whole
  millionths, exactly these integers become the tick. The parsers succeed where the four numbers can be
  read, and leave the event as it was where they fail.
* `run_twoSided` — every tick of the random walk has a bid and an ask that is above it.
-/

import OrderBook.Properties.Numbers

namespace Ob

open Double Rounding

/-! ### Ticks of an exchange -/

/-- A plain decimal without a sign is a whole number of units, of which `scale` make one. -/
def Amount (text : List Char) (n scale : ℕ) : Prop :=
  ∃ m places, Decimal text false m places ∧ m * scale = n * 10 ^ places

theorem stod_amount {text : List Char} {n scale : ℕ} (amount : Amount text n scale)
    (some_scale : 0 < scale) (fits : scale ≤ 2 ^ 53) (small : n < 2 ^ 53)
    (underflow : ℚ → Float.Model → Bool) :
    ∃ x, stod underflow text = some x ∧ Rounds (((n : ℤ) : ℚ) / ((scale : ℤ) : ℚ)) x := by
  obtain ⟨m, places, decimal, same⟩ := amount
  have some_ten : 0 < 10 ^ places := Nat.pow_pos (by decide)
  have normal : m = 0 ∨ 10 ^ places ≤ m * 2 ^ 200 := by
    refine (Nat.eq_zero_or_pos n).imp (fun none => ?_) fun positive => ?_
    · rw [none, Nat.zero_mul] at same
      exact (Nat.mul_eq_zero.mp same).resolve_right some_scale.ne'
    · calc 10 ^ places ≤ n * 10 ^ places := Nat.le_mul_of_pos_left _ positive
        _ = m * scale := same.symm
        _ ≤ m * 2 ^ 200 := Nat.mul_le_mul_left _ (fits.trans (by decide))
  have bound : m ≤ 2 ^ 200 * 10 ^ places := by
    calc m ≤ m * scale := Nat.le_mul_of_pos_right _ some_scale
      _ = n * 10 ^ places := same
      _ ≤ 2 ^ 200 * 10 ^ places := Nat.mul_le_mul_right _ (small.le.trans (by decide))
  obtain ⟨x, read, rounds⟩ := stod_decimal decimal normal bound underflow
  refine ⟨x, read, ?_⟩
  have value : (if false = true then (-1 : ℚ) else 1) * ((m : ℚ) / 10 ^ places) =
      ((n : ℤ) : ℚ) / ((scale : ℤ) : ℚ) := by
    have cast : (m : ℚ) * scale = n * 10 ^ places := by exact_mod_cast same
    have some_scale' : (scale : ℚ) ≠ 0 := Nat.cast_ne_zero.mpr some_scale.ne'
    rw [if_neg Bool.false_ne_true, one_mul, Int.cast_natCast, Int.cast_natCast,
      div_eq_div_iff (by positivity) some_scale', cast]
  rwa [value] at rounds

/-- A tick in cents and millionths. -/
structure Tick where
  bid : ℕ
  ask : ℕ
  bidQty : ℕ
  askQty : ℕ

/-- All of it is below `2 ^ 51`. -/
structure Tick.Small (t : Tick) : Prop where
  bid : t.bid < 2 ^ 51
  ask : t.ask < 2 ^ 51
  bidQty : t.bidQty < 2 ^ 51
  askQty : t.askQty < 2 ^ 51

/-- The event of a tick. -/
def Tick.event (t : Tick) (out : MarketEvent) : MarketEvent :=
  { out with
    kind := .bookTicker
    bestBid := Int64.ofNat t.bid
    bestAsk := Int64.ofNat t.ask
    bidQty := UInt64.ofNat t.bidQty
    askQty := UInt64.ofNat t.askQty
    lastTrade := Int64.ofNat ((t.bid + t.ask) / 2) }

/-- What the JSON library gets for the keys are the tick's numbers. -/
structure Carries (get : List Char → List Char → Option (List Char)) (keys : TickerKeys)
    (payload : List Char) (t : Tick) : Prop where
  bid : ∃ text, get payload keys.bid = some text ∧ Amount text t.bid 100
  ask : ∃ text, get payload keys.ask = some text ∧ Amount text t.ask 100
  bidQty : ∃ text, get payload keys.bidQty = some text ∧ Amount text t.bidQty 1000000
  askQty : ∃ text, get payload keys.askQty = some text ∧ Amount text t.askQty 1000000

/-- Each of the four numbers can be read. -/
def Readable (on : Platform) (get : List Char → List Char → Option (List Char)) (keys : TickerKeys)
    (payload : List Char) : Prop :=
  ∀ key ∈ [keys.bid, keys.ask, keys.bidQty, keys.askQty],
    ((get payload key).bind (stod on.underflow)).isSome

variable {on : Platform} {get : List Char → List Char → Option (List Char)} {keys : TickerKeys}
  {payload text : List Char} {t : Tick} {out : MarketEvent}

variable (on) in
theorem price_read {n : ℕ} {key : List Char} (small : n < 2 ^ 51)
    (there : ∃ text, get payload key = some text ∧ Amount text n 100) :
    ∃ x, (get payload key).bind (stod on.underflow) = some x ∧ toPrice on x = Int64.ofNat n := by
  obtain ⟨text, got, amount⟩ := there
  obtain ⟨x, read, rounds⟩ := stod_amount amount (by decide) (by decide) (by omega) on.underflow
  refine ⟨x, by rw [got, Option.bind_some, read], Int64.toInt_inj.mp ?_⟩
  have bits : |(n : ℤ)| < 2 ^ 51 := by
    rw [abs_of_nonneg (Int.natCast_nonneg n)]
    exact_mod_cast small
  rw [toPrice_scaled on rounds bits, Int64.toInt_ofNat_of_lt (by omega)]

variable (on) in
theorem qty_read {n : ℕ} {key : List Char} (small : n < 2 ^ 51)
    (there : ∃ text, get payload key = some text ∧ Amount text n 1000000) :
    ∃ x, (get payload key).bind (stod on.underflow) = some x ∧ toQty on x = UInt64.ofNat n := by
  obtain ⟨text, got, amount⟩ := there
  obtain ⟨x, read, rounds⟩ := stod_amount amount (by decide) (by decide) (by omega) on.underflow
  refine ⟨x, by rw [got, Option.bind_some, read], UInt64.toNat_inj.mp ?_⟩
  rw [toQty_scaled on rounds small, UInt64.toNat_ofNat_of_lt' (small.trans (by decide))]

/-- The mid price of two prices that are not too large. -/
theorem middle_ofNat {m n : ℕ} (small : m < 2 ^ 51) (small' : n < 2 ^ 51) :
    (Int64.ofNat m + Int64.ofNat n) / 2 = Int64.ofNat ((m + n) / 2) := by
  rw [Int64.ofNat_div (by omega) (by decide), Int64.ofNat_add]
  rfl

theorem readTicker_exact (carries : Carries get keys payload t) (small : t.Small) :
    readTicker on get keys payload out = some (t.event out) := by
  obtain ⟨bid, read_bid, bid_eq⟩ := price_read on small.bid carries.bid
  obtain ⟨ask, read_ask, ask_eq⟩ := price_read on small.ask carries.ask
  obtain ⟨bidQty, read_bidQty, bidQty_eq⟩ := qty_read on small.bidQty carries.bidQty
  obtain ⟨askQty, read_askQty, askQty_eq⟩ := qty_read on small.askQty carries.askQty
  rw [readTicker, read_bid, read_ask, read_bidQty, read_askQty]
  show some _ = _
  rw [bid_eq, ask_eq, bidQty_eq, askQty_eq, middle_ofNat small.bid small.ask, Tick.event]

variable (out) in
theorem readTicker_isSome :
    (readTicker on get keys payload out).isSome ↔ Readable on get keys payload := by
  simp only [readTicker, Readable, List.mem_cons, List.not_mem_nil, or_false, forall_eq_or_imp,
    forall_eq]
  cases (get payload keys.bid).bind (stod on.underflow) <;>
    cases (get payload keys.ask).bind (stod on.underflow) <;>
    cases (get payload keys.bidQty).bind (stod on.underflow) <;>
    cases (get payload keys.askQty).bind (stod on.underflow) <;> simp

/-- **A tick is decoded exactly.** Of a message, or of the answer of a server, whose four numbers are
whole cents and whole millionths, exactly these integers become the event. A parser succeeds if and
only if the four numbers can be read, and where it fails the event is the one that it was given. -/
theorem ticker_exact (on : Platform) (get : List Char → List Char → Option (List Char))
    (payload : List Char) (t : Tick) (small : t.Small) (out : MarketEvent) (now : Timestamp) :
    (Carries get messageKeys payload t →
      parseWsBookTicker on get payload out = (true, t.event out)) ∧
    (Carries get answerKeys payload t →
      fetchOnce on get (some { ok := true, httpCode := 200, body := payload }) now out =
        (true, { t.event out with ts := now })) ∧
    ((parseWsBookTicker on get payload out).1 = true ↔ Readable on get messageKeys payload) ∧
    (∀ reply, (fetchOnce on get reply now out).1 = true ↔
      ∃ body, reply = some { ok := true, httpCode := 200, body } ∧
        Readable on get answerKeys body) ∧
    ((parseWsBookTicker on get payload out).1 = false →
      (parseWsBookTicker on get payload out).2 = out) ∧
    ∀ reply, (fetchOnce on get reply now out).1 = false → (fetchOnce on get reply now out).2 = out := by
  refine ⟨fun carries => ?_, fun carries => ?_, ?_, fun reply => ?_, ?_, fun reply => ?_⟩
  · rw [parseWsBookTicker, readTicker_exact carries small]
  · rw [fetchOnce, if_neg (by simp), readTicker_exact carries small]
  · rw [← readTicker_isSome out, parseWsBookTicker]
    split <;> rename_i read <;> rw [read] <;> simp
  · unfold fetchOnce
    cases reply with
    | none => simp
    | some reply =>
      obtain ⟨ok, httpCode, body⟩ := reply
      simp only []
      by_cases refused : ok = false ∨ httpCode ≠ 200
      · rw [if_pos refused]
        refine ⟨nofun, ?_⟩
        rintro ⟨_, ⟨⟩, _⟩
        exact absurd refused (by decide)
      · have taken : ok = true ∧ httpCode = 200 := by
          rwa [not_or, Bool.not_eq_false, not_not] at refused
        obtain ⟨rfl, rfl⟩ := taken
        rw [if_neg refused]
        have some_iff : (∃ body', some (⟨true, 200, body⟩ : Reply) =
            some { ok := true, httpCode := 200, body := body' } ∧ Readable on get answerKeys body') ↔
            Readable on get answerKeys body := by
          refine ⟨?_, fun readable => ⟨body, rfl, readable⟩⟩
          rintro ⟨_, ⟨⟩, readable⟩
          exact readable
        rw [some_iff, ← readTicker_isSome out]
        split <;> rename_i read <;> rw [read] <;> simp
  · unfold parseWsBookTicker
    split
    · exact nofun
    · exact fun _ => rfl
  · unfold fetchOnce
    cases reply with
    | none => exact fun _ => rfl
    | some reply =>
      simp only
      split
      · exact fun _ => rfl
      · split
        · exact nofun
        · exact fun _ => rfl

/-- The text of a member of an object. -/
def getString (payload key : List Char) : Option (List Char) :=
  match (Json.parse payload).bind (Json.field key) with
  | some (.str text) => some text
  | _ => none

def sampleMessage : List Char :=
  "\x7b\"b\":\"65000.42\", \"B\":\"0.012345\", \"a\":\"65000.50\", \"A\":\"3\"\x7d".toList

def sampleTick : Tick where
  bid := 6500042
  ask := 6500050
  bidQty := 12345
  askQty := 3000000

theorem sampleMessage_carries : Carries getString messageKeys sampleMessage sampleTick where
  bid := ⟨_, rfl, 6500042, 2, ⟨"65000".toList, "42".toList, by decide, by simp, rfl, rfl, rfl⟩, rfl⟩
  ask := ⟨_, rfl, 6500050, 2, ⟨"65000".toList, "50".toList, by decide, by simp, rfl, rfl, rfl⟩, rfl⟩
  bidQty := ⟨_, rfl, 12345, 6, ⟨"0".toList, "012345".toList, by decide, by simp, rfl, rfl, rfl⟩, rfl⟩
  askQty := ⟨_, rfl, 3, 0, ⟨"3".toList, [], by decide, by simp, rfl, rfl, rfl⟩, rfl⟩

theorem ticker_exact_message :
    let on : Platform := { llround := fun _ => 0, underflow := fun q x => value x ≠ q }
    parseWsBookTicker on getString sampleMessage {} = (true, sampleTick.event {}) :=
  (ticker_exact _ getString sampleMessage sampleTick
    ⟨by decide, by decide, by decide, by decide⟩ {} 0).1 sampleMessage_carries

/-! ### The random walk -/

/-- Half of a number that is not too small is exact. -/
theorem half_exact {x : Float.Model} (finite : x.isFinite) (normal : 2 ^ (-1000 : ℤ) ≤ value x)
    (small : value x ≤ 2 ^ 60) :
    (x / .ofInt 2).isFinite ∧ value (x / .ofInt 2) = value x / 2 := by
  obtain ⟨finite', two⟩ := ofInt_exact (n := 2) (by decide)
  have pos : 0 < value x := lt_of_lt_of_le (by positivity) normal
  have rounds := div_rounds finite finite' (by rw [two]; norm_num) (by
    rw [two, abs_of_pos (by push_cast; linarith)]
    exact le_trans (by push_cast; linarith) (pow_le_magnitude (n := 60) (by decide)))
  rw [two] at rounds
  obtain ⟨m, e, bits, least, is_⟩ := (canonical_nearest (unpack_canonical finite).1).mem
  have above : -1074 < e := by
    refine lt_of_le_of_ne least fun same => ?_
    have le : value x ≤ 2 ^ 53 * 2 ^ (-1074 : ℤ) := by
      rw [value, is_, ← same]
      refine mul_le_mul_of_nonneg_right ?_ (by positivity)
      exact (le_abs_self _).trans (by exact_mod_cast bits)
    have power : (2 : ℚ) ^ 53 * 2 ^ (-1074 : ℤ) = 2 ^ (-1021 : ℤ) := by
      rw [← zpow_natCast, ← zpow_add₀ two_ne_zero]
      rfl
    have lt : (2 : ℚ) ^ (-1021 : ℤ) < 2 ^ (-1000 : ℤ) := zpow_lt_zpow_right₀ (by norm_num) (by decide)
    linarith
  refine ⟨rounds.finite, (rounds.exact ⟨m, e - 1, bits, by omega, ?_⟩).trans (by norm_num)⟩
  rw [value, is_, zpow_sub_one₀ two_ne_zero]
  push_cast
  ring

/-- A price is rounded twice: to a double, and to whole cents. -/
theorem toPrice_away (on : Platform) {x : Float.Model} (finite : x.isFinite)
    (small : |value x| ≤ 2 ^ 42) :
    ∃ y, Rounds (value x * 100) y ∧ |value y - value x * 100| ≤ 1 / 16 ∧
      (toPrice on x).toInt = away (value y) := by
  obtain ⟨finite', hundred⟩ := ofInt_exact (n := 100) (by decide)
  have product : |value x * 100| ≤ 2 ^ 50 := by
    rw [abs_mul, abs_of_pos (by norm_num : (0 : ℚ) < 100)]
    linarith
  have rounds := mul_rounds finite finite' (by
    rw [hundred]
    exact le_trans (by exact_mod_cast product) (pow_le_magnitude (n := 50) (by decide)))
  rw [hundred] at rounds
  have error := rounds.error (e := -3) (by decide) (by
    rw [Int.cast_ofNat]
    exact product.trans (by norm_num))
  rw [Int.cast_ofNat] at rounds error
  have error' : |value (x * .ofInt 100) - value x * 100| ≤ 1 / 16 := error.trans (by norm_num)
  refine ⟨_, rounds, error', llround_eq rounds.finite ?_ on.llround⟩
  have way := abs_sub_abs_le_abs_sub (value (x * .ofInt 100)) (value x * 100)
  linarith

/-- The tick of the random walk has two sides. -/
structure TwoSided (ev : MarketEvent) : Prop where
  kind : ev.kind = .bookTicker
  bid_pos : 0 < ev.bestBid.toInt
  crossed : ev.bestBid.toInt < ev.bestAsk.toInt
  bid_le : ev.bestBid.toInt ≤ ev.lastTrade.toInt
  le_ask : ev.lastTrade.toInt ≤ ev.bestAsk.toInt
  one : ev.bidQty = 1000000 ∧ ev.askQty = 1000000

/-- A spread that is wide enough to be seen in cents, and less than twice the floor. -/
structure Wide (spread : Float.Model) : Prop where
  finite : spread.isFinite
  low : 1 / 64 ≤ value spread
  high : value spread ≤ 1

theorem one_unit (on : Platform) : toQty on (.ofInt 1) = 1000000 := by
  obtain ⟨finite, one⟩ := ofInt_exact (n := 1) (by decide)
  refine UInt64.toNat_inj.mp (toQty_scaled on (n := 1000000) ⟨finite, ?_⟩ (by decide))
  have nearest := (canonical_nearest (unpack_canonical finite).1)
  rw [value]
  rw [value] at one
  rw [one] at nearest ⊢
  have same : ((1000000 : ℕ) : ℤ) = (1000000 : ℤ) := rfl
  rw [same, div_self (by norm_num)]
  exact_mod_cast nearest

/-- The two sides as doubles. -/
theorem sides_close {spread mid : Float.Model} (wide : Wide spread) (finite : mid.isFinite)
    (low : 1 ≤ value mid) (small : value mid ≤ 2 ^ 41) :
    (Rounds (value mid - value spread / 2) (mid - spread / .ofInt 2) ∧
      |value (mid - spread / .ofInt 2) - (value mid - value spread / 2)| ≤ 1 / 4096) ∧
    Rounds (value mid + value spread / 2) (mid + spread / .ofInt 2) ∧
      |value (mid + spread / .ofInt 2) - (value mid + value spread / 2)| ≤ 1 / 4096 := by
  obtain ⟨spread_finite, narrow, broad⟩ := wide
  obtain ⟨half_finite, half⟩ := half_exact spread_finite
    (le_trans (by
      have lt : (2 : ℚ) ^ (-1000 : ℤ) ≤ 2 ^ (-6 : ℤ) :=
        zpow_le_zpow_right₀ (by norm_num) (by decide)
      exact lt.trans (by norm_num)) narrow) (by linarith)
  have below := sub_rounds finite half_finite (by
    rw [half, abs_of_pos (by linarith)]
    exact le_trans (by linarith) (pow_le_magnitude (n := 42) (by decide)))
  have above := add_rounds finite half_finite (by
    rw [half, abs_of_pos (by linarith)]
    exact le_trans (by linarith) (pow_le_magnitude (n := 42) (by decide)))
  rw [half] at below above
  have below_error := below.error (e := -11) (by decide) (by
    rw [abs_of_pos (by linarith)]
    norm_num
    linarith)
  have above_error := above.error (e := -11) (by decide) (by
    rw [abs_of_pos (by linarith)]
    norm_num
    linarith)
  have unit : (2 : ℚ) ^ (-11 : ℤ) / 2 = 1 / 4096 := by norm_num
  rw [unit] at below_error above_error
  exact ⟨⟨below, below_error⟩, above, above_error⟩

theorem tick_twoSided (on : Platform) {cfg : SyntheticFeed.Config} (wide : Wide cfg.spread)
    {mid : Float.Model} (finite : mid.isFinite) (low : 1 ≤ value mid) {n : ℤ} (high : value mid ≤ n)
    (small : n ≤ 2 ^ 41) (now : Timestamp) :
    TwoSided (SyntheticFeed.tick on cfg mid now) ∧
      100 ≤ (SyntheticFeed.tick on cfg mid now).lastTrade.toInt ∧
      (SyntheticFeed.tick on cfg mid now).lastTrade.toInt ≤ n * 100 := by
  have small' : (n : ℚ) ≤ 2 ^ 41 := by exact_mod_cast small
  obtain ⟨⟨below, below_error⟩, above, above_error⟩ := sides_close wide finite low (high.trans small')
  obtain ⟨-, narrow, broad⟩ := wide
  rw [abs_le] at below_error above_error
  have below_half : 1 / 2 ≤ value (mid - cfg.spread / .ofInt 2) := by
    refine below.nearest.ge ⟨1, -1, by decide, by decide, by norm_num⟩ (by linarith)
  -- the three numbers as prices
  obtain ⟨b, bid_rounds, bid_error, bid⟩ := toPrice_away on below.finite (by
    rw [abs_of_pos (by linarith)]
    linarith)
  obtain ⟨a, ask_rounds, ask_error, ask⟩ := toPrice_away on above.finite (by
    rw [abs_of_pos (by linarith)]
    linarith)
  obtain ⟨m, last_rounds, last_error, last⟩ := toPrice_away on finite (by
    rw [abs_of_pos (by linarith)]
    linarith)
  rw [abs_le] at bid_error ask_error last_error
  have bid_near := abs_le.mp (away_near (value b))
  have ask_near := abs_le.mp (away_near (value a))
  have fifty : ((50 : ℤ) : ℚ) ≤ value b :=
    bid_rounds.nearest.ge (int_grid (by decide)) (by push_cast; linarith)
  have hundred : ((100 : ℤ) : ℚ) ≤ value m :=
    last_rounds.nearest.ge (int_grid (by decide)) (by push_cast; linarith)
  have most : value m ≤ ((n * 100 : ℤ) : ℚ) := by
    refine last_rounds.nearest.le (int_grid ?_) (by push_cast; linarith)
    have nonneg : 0 ≤ n := by
      have : ((0 : ℤ) : ℚ) ≤ n := by push_cast; linarith
      exact_mod_cast this
    rw [abs_of_nonneg (by omega)]
    omega
  have whole : ∀ k : ℤ, away (k : ℚ) = k := fun k => away_eq (by
    rw [sub_self, abs_zero]
    norm_num)
  refine ⟨⟨rfl, ?_, ?_, ?_, ?_, one_unit on, one_unit on⟩, ?_, ?_⟩
  · show 0 < (toPrice on _).toInt
    rw [bid]
    exact lt_of_lt_of_le (by decide) ((whole 50).symm.le.trans (away_mono fifty))
  · show (toPrice on _).toInt < (toPrice on _).toInt
    rw [bid, ask]
    have lt : ((away (value b) : ℤ) : ℚ) < ((away (value a) : ℤ) : ℚ) := by linarith
    exact_mod_cast lt
  · show (toPrice on _).toInt ≤ (toPrice on _).toInt
    rw [bid, last]
    exact away_mono (bid_rounds.nearest.mono last_rounds.nearest (by linarith))
  · show (toPrice on _).toInt ≤ (toPrice on _).toInt
    rw [ask, last]
    exact away_mono (last_rounds.nearest.mono ask_rounds.nearest (by linarith))
  · show 100 ≤ (toPrice on _).toInt
    rw [last]
    exact (whole 100).symm.le.trans (away_mono hundred)
  · show (toPrice on _).toInt ≤ _
    rw [last]
    exact (away_mono most).trans (whole _).le

/-- A spread of one cent can vanish. -/
example :
    let on : Platform := { llround := fun _ => 0, underflow := fun _ _ => true }
    let ev := SyntheticFeed.tick on { spread := .ofInt 1 / .ofInt 100 } (.ofInt 1) 0
    ev.bestBid = ev.bestAsk := by
  decide +kernel

/-- One step does not go further than what is drawn, except up to the floor. -/
theorem walk_le {mid step : Float.Model} {n most : ℕ} (finite : mid.isFinite)
    (near : |value mid| ≤ n) (some_ : 0 < n) (draw : step.isFinite ∧ |value step| ≤ most)
    (small : n + most ≤ 2 ^ 41) :
    (SyntheticFeed.walk mid step).isFinite ∧ 1 ≤ value (SyntheticFeed.walk mid step) ∧
      value (SyntheticFeed.walk mid step) ≤ ((n + most : ℕ) : ℚ) := by
  obtain ⟨finite', one⟩ := ofInt_exact (n := 1) (by decide)
  rw [Int.cast_one] at one
  have bound : |value mid + value step| ≤ ((n + most : ℕ) : ℚ) := by
    refine (abs_add_le _ _).trans ?_
    push_cast
    linarith [draw.2]
  have small' : ((n + most : ℕ) : ℚ) ≤ 2 ^ 41 := by exact_mod_cast small
  have rounds := add_rounds finite draw.1
    (bound.trans (small'.trans (pow_le_magnitude (n := 41) (by decide))))
  have most_le : value (mid + step) ≤ ((n + most : ℕ) : ℚ) := by
    have mem : (((n + most : ℕ) : ℤ) : ℚ) ∈ grid := int_grid (by
      rw [abs_of_nonneg (Int.natCast_nonneg _)]
      exact_mod_cast small.trans (by decide))
    rw [Int.cast_natCast] at mem
    exact rounds.nearest.le mem ((le_abs_self _).trans bound)
  unfold SyntheticFeed.walk
  by_cases floor : mid + step < Float.Model.ofInt 1
  · rw [if_pos floor]
    refine ⟨finite', one.ge, ?_⟩
    rw [one]
    exact_mod_cast Nat.le_add_right_of_le some_
  · rw [if_neg floor]
    rw [lt_iff rounds.finite finite', one, not_lt] at floor
    exact ⟨rounds.finite, floor, most_le⟩

/-- What is drawn is at most `most` away from zero. -/
def Draws (most : ℕ) (turns : List (Float.Model × Timestamp)) : Prop :=
  ∀ turn ∈ turns, turn.1.isFinite ∧ |value turn.1| ≤ most

theorem ticks_twoSided (on : Platform) {cfg : SyntheticFeed.Config} (wide : Wide cfg.spread) (most : ℕ) :
    ∀ (turns : List (Float.Model × Timestamp)) (mid : Float.Model) (n : ℕ), mid.isFinite →
      |value mid| ≤ n → 0 < n → Draws most turns → n + turns.length * most ≤ 2 ^ 41 →
      (SyntheticFeed.ticks on cfg mid turns).map MarketEvent.ts = turns.map Prod.snd ∧
        ∀ (i : ℕ) (ev : MarketEvent), (SyntheticFeed.ticks on cfg mid turns)[i]? = some ev →
          TwoSided ev ∧ 100 ≤ ev.lastTrade.toInt ∧
            ev.lastTrade.toInt ≤ ((n + (i + 1) * most : ℕ) : ℤ) * 100
  | [], _, _, _, _, _, _, _ => ⟨rfl, fun _ _ at_ => by cases at_⟩
  | (step, now) :: turns, mid, n, finite, near, some_, draws, small => by
    have length : n + most + turns.length * most ≤ 2 ^ 41 := by
      rw [List.length_cons, Nat.succ_mul] at small
      omega
    obtain ⟨finite', low, high⟩ := walk_le finite near some_ (draws _ List.mem_cons_self) (by omega)
    obtain ⟨stamps, later⟩ := ticks_twoSided on wide most turns (SyntheticFeed.walk mid step)
      (n + most) finite' (by rwa [abs_of_pos (by linarith)]) (by omega)
      (fun turn mem => draws turn (List.mem_cons_of_mem _ mem)) length
    refine ⟨congrArg (now :: ·) stamps, fun i ev at_ => ?_⟩
    cases i with
    | zero =>
      have same : SyntheticFeed.tick on cfg (SyntheticFeed.walk mid step) now = ev := by
        simpa [SyntheticFeed.ticks] using at_
      have here := tick_twoSided on wide finite' low (n := ((n + most : ℕ) : ℤ))
        (by rwa [Int.cast_natCast]) (by exact_mod_cast (by omega : n + most ≤ 2 ^ 41)) now
      rw [same] at here
      rwa [Nat.zero_add, Nat.one_mul]
    | succ i =>
      obtain ⟨sides, least, greatest⟩ := later i ev (by simpa [SyntheticFeed.ticks] using at_)
      refine ⟨sides, least, greatest.trans (le_of_eq ?_)⟩
      push_cast
      ring

/-- **The random walk has two sides.** Whatever is drawn, as long as it can be bounded, one tick comes
of each turn, with its time; its bid is positive and below its ask, its last trade is between them, not
below the floor and not further away than the walk can have gone. -/
theorem run_twoSided (on : Platform) (cfg : SyntheticFeed.Config) (wide : Wide cfg.spread)
    (finite : cfg.initialPrice.isFinite) (start most : ℕ) (near : |value cfg.initialPrice| ≤ start)
    (some_ : 0 < start) (turns : List (Float.Model × Timestamp)) (draws : Draws most turns)
    (small : start + turns.length * most ≤ 2 ^ 41) :
    (SyntheticFeed.run on cfg turns).map MarketEvent.ts = turns.map Prod.snd ∧
      ∀ (i : ℕ) (ev : MarketEvent), (SyntheticFeed.run on cfg turns)[i]? = some ev →
        TwoSided ev ∧ 100 ≤ ev.lastTrade.toInt ∧
          ev.lastTrade.toInt ≤ ((start + (i + 1) * most : ℕ) : ℤ) * 100 :=
  ticks_twoSided on wide most turns cfg.initialPrice start finite near some_ draws small

theorem run_twoSided_default :
    let on : Platform := { llround := fun _ => 0, underflow := fun _ _ => true }
    ((SyntheticFeed.run on {} [(.ofInt (-80000), 7), (.ofInt 5, 9)]).map MarketEvent.ts = [7, 9]) ∧
      ∀ (i : ℕ) (ev : MarketEvent),
        (SyntheticFeed.run on {} [(.ofInt (-80000), 7), (.ofInt 5, 9)])[i]? = some ev →
          TwoSided ev ∧ 100 ≤ ev.lastTrade.toInt ∧
            ev.lastTrade.toInt ≤ ((80000 + (i + 1) * 80000 : ℕ) : ℤ) * 100 := by
  obtain ⟨one_finite, one⟩ := ofInt_exact (n := 1) (by decide)
  obtain ⟨half_finite, half⟩ := half_exact one_finite (by
    rw [one]
    exact (zpow_le_zpow_right₀ (by norm_num) (by decide : (-1000 : ℤ) ≤ 0)).trans (by norm_num))
    (by rw [one]; norm_num)
  have wide : Wide (Float.Model.ofInt 1 / Float.Model.ofInt 2) :=
    ⟨half_finite, by rw [half, one]; norm_num, by rw [half, one]; norm_num⟩
  obtain ⟨start_finite, start⟩ := ofInt_exact (n := 80000) (by decide)
  have draws : Draws 80000 [(.ofInt (-80000), 7), (.ofInt 5, 9)] := by
    have draw : ∀ n : ℤ, |n| ≤ 80000 → (Float.Model.ofInt n).isFinite ∧
        |value (Float.Model.ofInt n)| ≤ ((80000 : ℕ) : ℚ) := fun n le => by
      obtain ⟨finite, same⟩ := ofInt_exact (n := n) (le.trans (by decide))
      exact ⟨finite, by rw [same]; exact_mod_cast le⟩
    intro turn mem
    rcases List.mem_cons.mp mem with rfl | mem
    · exact draw (-80000) (by decide)
    · rw [List.mem_singleton.mp mem]
      exact draw 5 (by decide)
  exact run_twoSided _ {} wide start_finite 80000 80000 (by
    show |value (Float.Model.ofInt 80000)| ≤ _
    rw [start]
    norm_num) (by decide) _ draws (by decide)

end Ob
