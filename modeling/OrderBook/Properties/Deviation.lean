/-
**The strategy acts on the right side.**

The strategy compares a deviation in basis points that it computes with doubles. Four operations
round.

* `roundings_close`, `deviationBps_close` — what it computes is off the exact deviation by a
  relative error of `2 ^ -50` and an absolute one of `2 ^ -39`.
* `reverts_of_push` — one decision: the side and the threshold are those of the exact deviation, up
  to these errors.
* `answers_revert` — the same of the strategy in 64 bits, after every history of prices that are not
  too large; what is bought is below the mean of the latest prices, and what is sold above it.
-/

import OrderBook.Library.Decimals
import OrderBook.Properties.EngineWords

namespace Ob

open Double

/-! ### Four roundings -/

/-- An error in parts of something that is at least 1. -/
theorem scaled_error {e f b t a : ℚ} (error : |e - f| ≤ |b| / 2 ^ 53 + t) (some_ : 1 ≤ a)
    (nonneg : 0 ≤ t) : |e / a - f / a| ≤ |b / a| / 2 ^ 53 + t := by
  have positive : 0 < a := one_pos.trans_le some_
  rw [← sub_div, abs_div, abs_div, abs_of_pos positive, div_le_iff₀ positive]
  have left : (|b| / a / 2 ^ 53 + t) * a = |b| / 2 ^ 53 + t * a := by
    field_simp
  rw [left]
  exact error.trans (add_le_add_right (le_mul_of_one_le_right nonneg some_) _)

/-- **The roundings of a deviation**: of the mean, of the difference to it, of its scaling and of the
quotient. -/
theorem roundings_close {x m a d p q : ℚ} (some_m : 1 ≤ m) (some_a : 1 ≤ a)
    (mean : |a - m| ≤ m / 2 ^ 53) (difference : |d - (x - a)| ≤ |x - a| / 2 ^ 53 + 1 / 2 ^ 200)
    (scaled : |p - d * 10000| ≤ |d * 10000| / 2 ^ 53 + 1 / 2 ^ 200)
    (quotient : |q - p / a| ≤ |p / a| / 2 ^ 53 + 1 / 2 ^ 200) :
    |q - (x - m) * 10000 / m| ≤ |(x - m) * 10000 / m| / 2 ^ 50 + 1 / 2 ^ 39 := by
  have pos_a : 0 < a := one_pos.trans_le some_a
  have pos_m : 0 < m := one_pos.trans_le some_m
  -- everything in parts of the rounded mean
  have difference' := scaled_error difference some_a (by norm_num)
  have scaled' := scaled_error scaled some_a (by norm_num)
  have mean' : |(x - a) / a - (x - m) / m| ≤ (|(x - a) / a| + 1) / 2 ^ 53 := by
    have off : (x - a) / a - (x - m) / m = x / a * ((m - a) / m) := by
      field_simp
      ring
    have part : |(m - a) / m| ≤ 1 / 2 ^ 53 := by
      rw [abs_div, abs_sub_comm, abs_of_pos pos_m, div_le_iff₀ pos_m, one_div_mul_eq_div]
      exact mean
    have ratio : |x / a| ≤ |(x - a) / a| + 1 := by
      have split : x / a = (x - a) / a + 1 := by
        field_simp
        ring
      rw [split]
      exact (abs_add_le _ _).trans_eq (by rw [abs_one])
    rw [off, abs_mul, div_eq_mul_one_div (_ + _)]
    exact mul_le_mul ratio part (abs_nonneg _) (by positivity)
  have exact_eq : (x - m) * 10000 / m = (x - m) / m * 10000 := by ring
  have scaled_eq : d * 10000 / a = d / a * 10000 := by ring
  rw [scaled_eq] at scaled'
  rw [exact_eq]
  generalize (x - a) / a = off at difference' mean'
  generalize (x - m) / m = deviation at mean' ⊢
  generalize d / a = d' at difference' scaled'
  generalize p / a = p' at scaled' quotient
  rw [abs_mul, abs_of_pos (by norm_num : (0 : ℚ) < 10000)] at scaled' ⊢
  -- how large each of them is, from the one before it
  have size_off := abs_sub_abs_le_abs_sub off deviation
  have size_d := abs_sub_abs_le_abs_sub d' off
  have size_p := abs_sub_abs_le_abs_sub p' (d' * 10000)
  rw [abs_mul, abs_of_pos (by norm_num : (0 : ℚ) < 10000)] at size_p
  -- and how far the last one is from the first
  have by_off : |off * 10000 - deviation * 10000| = |off - deviation| * 10000 := by
    rw [← sub_mul, abs_mul, abs_of_pos (by norm_num : (0 : ℚ) < 10000)]
  have by_d : |d' * 10000 - off * 10000| = |d' - off| * 10000 := by
    rw [← sub_mul, abs_mul, abs_of_pos (by norm_num : (0 : ℚ) < 10000)]
  have way := abs_sub_le q p' (deviation * 10000)
  have way' := abs_sub_le p' (d' * 10000) (deviation * 10000)
  have way'' := abs_sub_le (d' * 10000) (off * 10000) (deviation * 10000)
  rw [by_off, by_d] at way''
  have nonneg := abs_nonneg deviation
  linarith

/-! ### The deviation of a price -/

/-- The mean of the prices, exactly. -/
def meanOf (prices : List Int) : ℚ := prices.sum / prices.length

/-- How far a price is from their mean, in basis points of it, exactly. -/
def deviationOf (prices : List Int) (mid : Int) : ℚ :=
  (mid - meanOf prices) * 10000 / meanOf prices

/-- What the doubles may be off by. -/
def slack (deviation : ℚ) : ℚ := |deviation| / 2 ^ 50 + 1 / 2 ^ 39

/-- What `entry` computes before it compares. -/
def deviationBps (mid sum : Int) (count : Nat) : Float.Model :=
  let mean := Float.Model.ofInt sum / Float.Model.ofNat count
  (Float.Model.ofInt mid - mean) * .ofScientific 1 4 / mean

/-- The mean, of integers that are exact as doubles. -/
theorem mean_close {sum : Int} {count : Nat} (small : sum ≤ 2 ^ 53) (some_count : 0 < count)
    (least : count ≤ sum) :
    (1 ≤ (sum / count : ℚ) ∧ (sum / count : ℚ) ≤ 2 ^ 53) ∧
      Rounds (sum / count) (.ofInt sum / .ofNat count) ∧
      |value (.ofInt sum / .ofNat count) - sum / count| ≤ (sum / count : ℚ) / 2 ^ 53 := by
  have one : (1 : ℚ) ≤ count := by exact_mod_cast some_count
  have whole : (sum : ℚ) ≤ 2 ^ 53 := by exact_mod_cast small
  have least' : (count : ℚ) ≤ sum := by exact_mod_cast least
  have low : 1 ≤ (sum / count : ℚ) := (one_le_div (one_pos.trans_le one)).mpr least'
  have bits : |(count : ℤ)| ≤ 2 ^ 53 := abs_le.mpr ⟨by omega, by omega⟩
  have rounds := quotient_rounds (n := sum) (abs_le.mpr ⟨by omega, small⟩) bits (by omega)
  have error := rounds.relative (quotient_normal bits (by omega))
  rw [Int.cast_natCast] at rounds error
  rw [abs_of_pos (one_pos.trans_le low)] at error
  exact ⟨⟨low, (div_le_self (by linarith) one).trans whole⟩, rounds, error⟩

/-- **The deviation is close**, if the mean is at least 1 and the integers are exact as doubles. -/
theorem deviationBps_close {mid sum : Int} {count : Nat} (narrow : |mid| ≤ 2 ^ 53)
    (small : sum ≤ 2 ^ 53) (some_count : 0 < count) (least : count ≤ sum) :
    (deviationBps mid sum count).isFinite ∧
      |value (deviationBps mid sum count) - (mid - sum / count : ℚ) * 10000 / (sum / count)| ≤
        slack ((mid - sum / count : ℚ) * 10000 / (sum / count)) := by
  obtain ⟨⟨some_sum, le_sum⟩, rounds, error⟩ := mean_close small some_count least
  unfold deviationBps
  simp only
  generalize Float.Model.ofInt sum / Float.Model.ofNat count = mean at rounds error ⊢
  generalize (sum / count : ℚ) = m at *
  have some_mean : 1 ≤ value mean :=
    rounds.nearest.ge (by exact_mod_cast int_grid (m := 1) (by decide)) some_sum
  have far_mean := (abs_le.mp error).2
  -- the difference
  obtain ⟨finite_mid, mid_eq⟩ := ofInt_exact narrow
  have mid_le : |(mid : ℚ)| ≤ 2 ^ 53 := by exact_mod_cast narrow
  have difference_le : |(mid : ℚ) - value mean| ≤ 2 ^ 55 := by
    have way := abs_sub (mid : ℚ) (value mean)
    rw [abs_of_pos (by linarith : 0 < value mean)] at way
    linarith
  have difference := sub_rounds finite_mid rounds.finite
    (by rw [mid_eq]; exact difference_le.trans (pow_le_magnitude (by decide)))
  rw [mid_eq] at difference
  have difference_close := difference.close
  generalize Float.Model.ofInt mid - mean = d at difference difference_close ⊢
  -- in basis points
  have scale_eq : Float.Model.ofScientific 1 4 = Float.Model.ofInt 10000 := by decide +kernel
  obtain ⟨finite_scale, scale⟩ := ofInt_exact (n := 10000) (by decide)
  have size : |value d| ≤ 2 ^ 56 := by
    have way := abs_sub_abs_le_abs_sub (value d) (mid - value mean)
    linarith
  have product_le : |value d * 10000| ≤ 2 ^ 70 := by
    rw [abs_mul, abs_of_pos (by norm_num : (0 : ℚ) < 10000)]
    linarith
  have product := mul_rounds difference.finite finite_scale
    (by rw [scale]; exact product_le.trans (pow_le_magnitude (by decide)))
  rw [scale] at product
  have product_close := product.close
  rw [scale_eq]
  generalize d * Float.Model.ofInt 10000 = p at product product_close ⊢
  -- in parts of the mean
  have quotient_le : |value p / value mean| ≤ 2 ^ 71 := by
    have way := abs_sub_abs_le_abs_sub (value p) (value d * 10000)
    rw [abs_div, abs_of_pos (by linarith : 0 < value mean)]
    exact (div_le_self (abs_nonneg _) some_mean).trans (by linarith)
  have quotient := div_rounds product.finite rounds.finite (by linarith)
    (quotient_le.trans (pow_le_magnitude (by decide)))
  exact ⟨quotient.finite, roundings_close some_sum some_mean error difference_close product_close
    quotient.close⟩

/-! ### What the strategy does about it -/

namespace MeanReversion

theorem entry_eq (cfg : Config) (mid sum : Int) (count : Nat) :
    entry cfg mid (.ofInt sum / .ofNat count) =
      if deviationBps mid sum count ≤ -cfg.entryBps then some .buy
      else if deviationBps mid sum count ≥ cfg.entryBps then some .sell else none :=
  rfl

/-- All that a tick with a mid price does. -/
theorem tickWith_acts (side : Int → Float.Model → Option Side) (cfg : Config) (r : MeanReversion)
    {tick : MarketSnapshot} (some_mid : tick.mid ≠ 0) :
    (tickWith side cfg r tick).1 =
      if cfg.window ≤ (r.push cfg tick.mid).window.length ∧ cfg.coolDown ≤ r.sinceAction then
        (side tick.mid (.ofInt (r.push cfg tick.mid).sum /
          .ofNat (r.push cfg tick.mid).window.length)).map fun side => { side, qty := cfg.tradeQty }
      else none := by
  rw [tickWith, if_neg some_mid]
  by_cases filling : (r.push cfg tick.mid).window.length < cfg.window
  · rw [if_pos filling, if_neg (by omega)]
  · simp only [if_neg filling, push_sinceAction]
    by_cases cooling : r.sinceAction < cfg.coolDown
    · rw [if_pos cooling, if_neg (by omega)]
    · rw [if_neg cooling, if_pos (by omega)]
      cases side tick.mid (.ofInt (r.push cfg tick.mid).sum /
        .ofNat (r.push cfg tick.mid).window.length) with
      | none => rfl
      | some side => rfl

/-- What is done at a price, told by how far it really is from the mean of the prices: the amount, the
side, and how far that is at least when something is done and at most when nothing is. -/
structure Reverts (cfg : Config) (ready : Prop) (prices : List Int) (mid : Int)
    (act : Option StrategyAction) : Prop where
  waits : ¬ready → act = none
  amount : ∀ a ∈ act, a.qty = cfg.tradeQty
  buys : ∀ a ∈ act, a.side = .buy →
    deviationOf prices mid ≤ -value cfg.entryBps + slack (deviationOf prices mid)
  sells : ∀ a ∈ act, a.side = .sell →
    value cfg.entryBps - slack (deviationOf prices mid) ≤ deviationOf prices mid
  rests : ready → act = none →
    |deviationOf prices mid| < value cfg.entryBps + slack (deviationOf prices mid)

section

variable {cfg : Config} {ready : Prop} {prices : List Int} {mid : Int} {act : Option StrategyAction}

theorem Reverts.rest (near : ready →
    |deviationOf prices mid| < value cfg.entryBps + slack (deviationOf prices mid)) :
    Reverts cfg ready prices mid none where
  waits _ := rfl
  amount a did := by cases did
  buys a did := by cases did
  sells a did := by cases did
  rests is_ready _ := near is_ready

theorem Reverts.buy (is_ready : ready)
    (below : deviationOf prices mid ≤ -value cfg.entryBps + slack (deviationOf prices mid)) :
    Reverts cfg ready prices mid (some ⟨.buy, cfg.tradeQty⟩) where
  waits not_ready := absurd is_ready not_ready
  amount a did := by
    cases did
    rfl
  buys a _ _ := below
  sells a did sell := by
    cases did
    cases sell
  rests _ nothing := by cases nothing

theorem Reverts.sell (is_ready : ready)
    (above : value cfg.entryBps - slack (deviationOf prices mid) ≤ deviationOf prices mid) :
    Reverts cfg ready prices mid (some ⟨.sell, cfg.tradeQty⟩) where
  waits not_ready := absurd is_ready not_ready
  amount a did := by
    cases did
    rfl
  buys a did buy := by
    cases did
    cases buy
  sells a _ _ := above
  rests _ nothing := by cases nothing

/-- The side is the side of the mean, if the threshold is not next to nothing. -/
theorem Reverts.side (reverts : Reverts cfg ready prices mid act)
    (some_mean : 0 < meanOf prices) (threshold : 1 / 2 ^ 38 ≤ value cfg.entryBps) :
    ∀ a ∈ act, (a.side = .buy → mid < meanOf prices) ∧ (a.side = .sell → meanOf prices < mid) := by
  intro a did
  have product : deviationOf prices mid * meanOf prices = (mid - meanOf prices) * 10000 :=
    div_mul_cancel₀ _ some_mean.ne'
  constructor
  · intro buy
    have below := reverts.buys a did buy
    by_contra above
    have nonneg : 0 ≤ deviationOf prices mid :=
      div_nonneg (mul_nonneg (sub_nonneg.mpr (not_lt.mp above)) (by norm_num)) some_mean.le
    rw [slack, abs_of_nonneg nonneg] at below
    linarith
  · intro sell
    have above := reverts.sells a did sell
    by_contra below
    have nonpos : deviationOf prices mid ≤ 0 :=
      div_nonpos_of_nonpos_of_nonneg
        (mul_nonpos_of_nonpos_of_nonneg (sub_nonpos.mpr (not_lt.mp below)) (by norm_num))
        some_mean.le
    rw [slack, abs_of_nonpos nonpos] at above
    linarith

end

/-- **One decision**, at a price and a window of prices that are exact as doubles. -/
theorem reverts_of_push {cfg : Config} {r : MeanReversion} {tick : MarketSnapshot}
    (finite : cfg.entryBps.isFinite) (some_mid : tick.mid ≠ 0) (narrow : |tick.mid| ≤ 2 ^ 53)
    (held : (r.push cfg tick.mid).sum = (r.push cfg tick.mid).window.sum)
    (some_prices : 0 < (r.push cfg tick.mid).window.length)
    (least : (r.push cfg tick.mid).window.length ≤ (r.push cfg tick.mid).window.sum)
    (small : (r.push cfg tick.mid).window.sum ≤ 2 ^ 53) :
    Reverts cfg (cfg.window ≤ (r.push cfg tick.mid).window.length ∧ cfg.coolDown ≤ r.sinceAction)
      (r.push cfg tick.mid).window tick.mid (onTick cfg r tick).1 := by
  obtain ⟨finite_dev, near⟩ := deviationBps_close narrow small some_prices least
  rw [onTick, tickWith_acts _ _ _ some_mid, held, entry_eq]
  generalize (r.push cfg tick.mid).window = prices at *
  generalize deviationBps tick.mid prices.sum prices.length = deviation at *
  obtain ⟨finite_neg, neg_eq⟩ := neg_finite finite
  have exact_eq : (tick.mid - prices.sum / prices.length : ℚ) * 10000 /
      (prices.sum / prices.length) = deviationOf prices tick.mid := rfl
  rw [exact_eq] at near
  obtain ⟨low, high⟩ := abs_le.mp near
  by_cases ready : cfg.window ≤ prices.length ∧ cfg.coolDown ≤ r.sinceAction
  · rw [if_pos ready]
    have buys := le_iff finite_dev finite_neg
    have sells := le_iff finite finite_dev
    rw [neg_eq] at buys
    by_cases below : deviation ≤ -cfg.entryBps
    · rw [if_pos below]
      have below' := buys.mp below
      exact .buy ready (by linarith)
    · rw [if_neg below]
      by_cases above : deviation ≥ cfg.entryBps
      · rw [if_pos above]
        have above' := sells.mp above
        exact .sell ready (by linarith)
      · rw [if_neg above]
        have below' := not_le.mp (buys.not.mp below)
        have above' := not_le.mp (sells.not.mp above)
        exact .rest fun _ => abs_lt.mpr ⟨by linarith, by linarith⟩
  · rw [if_neg ready]
    exact .rest fun is_ready => absurd is_ready ready

/-- The prices of a window are no fewer than their sum, and their sum is not too large. -/
theorem sum_bounds {prices : List Int} {price : ℕ} (bounds : ∀ mid ∈ prices, 0 < mid ∧ mid ≤ price) :
    (prices.length : ℤ) ≤ prices.sum ∧ prices.sum ≤ prices.length * price := by
  have least := List.card_nsmul_le_sum prices 1 fun mid mem => (bounds mid mem).1
  have most := List.sum_le_card_nsmul prices (price : ℤ) fun mid mem => (bounds mid mem).2
  rw [nsmul_eq_mul, mul_one] at least
  rw [nsmul_eq_mul] at most
  exact ⟨least, most⟩

/-- A decision after a history, on integers. -/
theorem reverts_after (cfg : Config) (finite : cfg.entryBps.isFinite) (some_window : 0 < cfg.window)
    (price : ℕ) (small : cfg.window * price ≤ 2 ^ 53) (ticks : List MarketSnapshot)
    (tick : MarketSnapshot) (some_mid : tick.mid ≠ 0)
    (bounds : ∀ mid ∈ mids (ticks ++ [tick]), 0 < mid ∧ mid ≤ price) :
    let r := (Machine.answers (step (entry cfg) cfg) {} ticks).1
    let latest := (mids (ticks ++ [tick])).rtake cfg.window
    let act := (onTick cfg r tick).1
    Reverts cfg (cfg.window ≤ (mids (ticks ++ [tick])).length ∧ cfg.coolDown ≤ r.sinceAction) latest
        tick.mid act ∧
      (1 / 2 ^ 38 ≤ value cfg.entryBps → ∀ a ∈ act, (a.side = .buy → tick.mid < meanOf latest) ∧
        (a.side = .sell → meanOf latest < tick.mid)) := by
  intro r latest act
  have follows := answers_follow (entry cfg) cfg ticks
  have more : mids (ticks ++ [tick]) = mids ticks ++ [tick.mid] := by
    rw [mids_append, mids_singleton, if_neg some_mid]
  have window : (r.push cfg tick.mid).window = latest := by
    rw [push_window follows.window, ← more]
  have held : (r.push cfg tick.mid).sum = (r.push cfg tick.mid).window.sum :=
    push_sum follows.sum tick.mid
  have count : latest.length = min cfg.window (mids (ticks ++ [tick])).length := by
    show ((mids (ticks ++ [tick])).rtake cfg.window).length = _
    rw [List.rtake, List.length_drop]
    omega
  have some_mids : 0 < (mids (ticks ++ [tick])).length := by
    rw [more, List.length_append]
    exact Nat.succ_pos _
  have some_prices : 0 < latest.length := by omega
  have latest_bounds : ∀ mid ∈ latest, 0 < mid ∧ mid ≤ price := fun mid mem =>
    bounds mid (List.mem_of_mem_drop mem)
  obtain ⟨least, most⟩ := sum_bounds latest_bounds
  have places : ((latest.length * price : ℕ) : ℤ) ≤ (cfg.window * price : ℕ) :=
    Int.ofNat_le.mpr (Nat.mul_le_mul_right _ (by omega))
  obtain ⟨positive, narrow⟩ := bounds tick.mid (by
    rw [more]
    exact List.mem_append_right _ (List.mem_singleton.mpr rfl))
  have one : (price : ℤ) ≤ (cfg.window * price : ℕ) :=
    Int.ofNat_le.mpr (Nat.le_mul_of_pos_left _ some_window)
  have fits : ((cfg.window * price : ℕ) : ℤ) ≤ 2 ^ 53 := by exact_mod_cast small
  rw [Nat.cast_mul] at places
  rw [← window] at some_prices least most places
  have reverts := reverts_of_push finite some_mid (abs_le.mpr ⟨by omega, by omega⟩) held some_prices
    least (by omega)
  have ready : cfg.window ≤ (r.push cfg tick.mid).window.length ↔
      cfg.window ≤ (mids (ticks ++ [tick])).length := by
    rw [window]
    omega
  rw [ready, window] at reverts
  refine ⟨reverts, fun threshold => reverts.side ?_ threshold⟩
  rw [← window]
  have sum_pos : (0 : ℚ) < (r.push cfg tick.mid).window.sum := by exact_mod_cast (by omega)
  have count_pos : (0 : ℚ) < (r.push cfg tick.mid).window.length := by exact_mod_cast some_prices
  exact div_pos sum_pos count_pos

end MeanReversion

namespace Word.MeanReversion

open Ob.MeanReversion (Reverts mids entry)

/-- The mid prices between two sides that are neither negative nor too large. -/
theorem mids_bounds {ticks : List MarketSnapshot} {price : ℕ}
    (bounds : ∀ t ∈ ticks, (0 ≤ t.bestBid.toInt ∧ t.bestBid.toInt ≤ price) ∧
      0 ≤ t.bestAsk.toInt ∧ t.bestAsk.toInt ≤ price) :
    ∀ mid ∈ mids ticks, 0 < mid ∧ mid ≤ price := by
  intro mid mem
  obtain ⟨mem, some_mid⟩ := List.mem_filter.mp mem
  obtain ⟨t, inside, rfl⟩ := List.mem_map.mp mem
  obtain ⟨⟨bid, bid'⟩, ask, ask'⟩ := bounds t inside
  have is : t.mid = (t.bestBid.toInt + t.bestAsk.toInt) / 2 :=
    Int.tdiv_eq_ediv_of_nonneg (by omega)
  have nonzero : t.mid ≠ 0 := of_decide_eq_true some_mid
  omega

/-- **Against the deviation.** After every history of prices that are neither negative nor too large,
the strategy in 64 bits does at the next one what the exact deviation from the mean of the latest
prices tells, up to the errors of the doubles; what it buys is below the mean, and what it sells
above. -/
theorem answers_revert (cfg : Ob.MeanReversion.Config) (finite : cfg.entryBps.isFinite)
    (some_window : 0 < cfg.window) (price : ℕ) (small : cfg.window * price ≤ 2 ^ 53)
    (ticks : List MarketSnapshot) (few : ticks.length + 1 < 2 ^ 64) (tick : MarketSnapshot)
    (some_mid : mid tick ≠ 0)
    (bounds : ∀ t ∈ ticks ++ [tick], (0 ≤ t.bestBid.toInt ∧ t.bestBid.toInt ≤ price) ∧
      0 ≤ t.bestAsk.toInt ∧ t.bestAsk.toInt ≤ price) :
    let r := (Machine.answers (step (entry cfg) cfg) {} ticks).1
    let latest := (mids (ticks ++ [tick])).rtake cfg.window
    let act := (onTick cfg r tick).1
    Reverts cfg (cfg.window ≤ (mids (ticks ++ [tick])).length ∧
        cfg.coolDown ≤ r.sinceAction.toNat) latest (mid tick).toInt act ∧
      (1 / 2 ^ 38 ≤ value cfg.entryBps → ∀ a ∈ act,
        (a.side = .buy → (mid tick).toInt < meanOf latest) ∧
          (a.side = .sell → meanOf latest < (mid tick).toInt)) := by
  intro r latest act
  have one : price ≤ cfg.window * price := Nat.le_mul_of_pos_left _ some_window
  have room : (max cfg.window 1 + 1) * price < 2 ^ 63 := by
    rw [Nat.max_eq_left some_window, Nat.succ_mul]
    omega
  have sides : ∀ t ∈ ticks ++ [tick], |t.bestBid.toInt| ≤ price ∧ |t.bestAsk.toInt| ≤ price := by
    intro t mem
    obtain ⟨⟨bid, bid'⟩, ask, ask'⟩ := bounds t mem
    exact ⟨abs_le.mpr ⟨by omega, bid'⟩, abs_le.mpr ⟨by omega, ask'⟩⟩
  obtain ⟨bid, ask⟩ := sides tick (List.mem_append_right _ (List.mem_singleton.mpr rfl))
  have mid_eq : (mid tick).toInt = tick.mid :=
    mid_words (bid.trans_lt (by omega)) (ask.trans_lt (by omega))
  have nonzero : tick.mid ≠ 0 := by
    rw [← mid_eq]
    exact fun zero => some_mid (Int64.toInt_inj.mp zero)
  -- the words answer as the integers do
  obtain ⟨holds, waited, same⟩ := answers_stand (entry cfg) room ticks (by omega)
    fun t mem => sides t (List.mem_append_left _ mem)
  have mids_le := mids_bounds bounds
  have last : tick.mid ∈ mids (ticks ++ [tick]) :=
    List.mem_filter.mpr ⟨List.mem_map.mpr ⟨tick, by simp, rfl⟩, decide_eq_true nonzero⟩
  obtain ⟨positive, near⟩ := mids_le _ last
  obtain ⟨_, _, ticked⟩ := holds.tick (entry cfg) mid_eq (abs_le.mpr ⟨by omega, near⟩)
    (rooms room).1 waited few
  have reverts := Ob.MeanReversion.reverts_after cfg finite some_window price small ticks tick nonzero
    mids_le
  rw [same] at reverts
  have act_eq : (Ob.MeanReversion.onTick cfg r.ints tick).1 = act := congrArg Prod.fst ticked
  rw [mid_eq, ← act_eq]
  exact reverts

theorem answers_revert_below :
    let cfg : Ob.MeanReversion.Config := { window := 3, coolDown := 0 }
    let tick (price : Int64) : MarketSnapshot := ⟨price, price, 0, 0, 0, 0⟩
    let ticks := [tick 10000, tick 10000]
    let r := (Machine.answers (step (entry cfg) cfg) {} ticks).1
    let latest := (mids (ticks ++ [tick 9990])).rtake cfg.window
    let act := (onTick cfg r (tick 9990)).1
    Reverts cfg (cfg.window ≤ (mids (ticks ++ [tick 9990])).length ∧ cfg.coolDown ≤ r.sinceAction.toNat)
        latest (mid (tick 9990)).toInt act ∧
      (1 / 2 ^ 38 ≤ value cfg.entryBps → ∀ a ∈ act,
        (a.side = .buy → (mid (tick 9990)).toInt < meanOf latest) ∧
          (a.side = .sell → meanOf latest < (mid (tick 9990)).toInt)) := by
  have finite : (Float.Model.ofNat 5).isFinite := (ofInt_exact (n := 5) (by decide)).1
  exact answers_revert { window := 3, coolDown := 0 } finite (by decide) 10000 (by decide) _
    (by decide) _ (by decide) (by decide)

end Word.MeanReversion

end Ob
