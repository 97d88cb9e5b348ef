/-
**The accounts of a run.**

* `run_accounts` — after every run the position is the sum of the fills, the volume is the sum of
  their quantities, and they are counted. The cash is off the exact sum of the notionals by at most
  one price unit for each fill, and the equity at any mid price by less than one more: each fill
  truncates its notional once, and the mark truncates once more.
-/

import Mathlib.Algebra.Order.Field.Basic
import Mathlib.Algebra.Order.Ring.Abs
import Mathlib.Data.Rat.Cast.Order
import Mathlib.Tactic.FieldSimp
import Mathlib.Tactic.Linarith
import Mathlib.Tactic.Ring
import OrderBook.Engine.Runs

namespace Ob

/-! ### Truncation -/

/-- Division that truncates is off the quotient by less than one. -/
theorem abs_tdiv_sub_lt (a : Int) {b : Int} (positive : 0 < b) :
    |((a.tdiv b : Int) : ℚ) - a / b| < 1 := by
  have nonzero : (0 : ℚ) < b := Int.cast_pos.mpr positive
  have split : (b : ℚ) * (a.tdiv b : Int) + (a.tmod b : Int) = a := by
    exact_mod_cast Int.mul_tdiv_add_tmod a b
  have off : ((a.tdiv b : Int) : ℚ) - a / b = -((a.tmod b : Int) / b) := by
    rw [← split]
    field_simp
    linarith
  have small : |((a.tmod b : Int) : ℚ)| < b := by
    exact_mod_cast abs_lt.mpr ⟨Int.lt_tmod_of_pos a positive, Int.tmod_lt_of_pos a positive⟩
  rw [off, abs_neg, abs_div, abs_of_pos nonzero]
  exact (div_lt_one nonzero).mpr small

/-! ### Fills -/

/-- The exact cash that the fills have moved: what was sold less what was bought. -/
def exactCash (fills : List Fill) : ℚ :=
  (fills.map fun fill : Fill =>
    -(fill.side.dir * (fill.qty * fill.price.toInt) / quantityScale : ℚ)).sum

/-- A position accounts for its fills. -/
structure Position.Accounts (pos : Position) (fills : List Fill) : Prop where
  btcQty : pos.btcQty = (fills.map fun fill : Fill => fill.side.dir * fill.qty).sum
  grossVolume : pos.grossVolume = (fills.map Fill.qty).sum
  counted : pos.fills = fills.length
  cash : |pos.cash - exactCash fills| ≤ pos.fills

namespace Position

variable {pos : Position} {fills : List Fill}

theorem after_cash (pos : Position) (fill : Fill) :
    (pos.after fill).cash =
      pos.cash - fill.side.dir * ((fill.qty : Int) * fill.price.toInt).tdiv quantityScale := by
  unfold after
  cases fill.side
  · rw [Side.dir, Int.one_mul]
  · rw [Side.dir, Int.neg_one_mul, Int.sub_neg]

theorem after_counts (pos : Position) (fill : Fill) :
    (pos.after fill).grossVolume = pos.grossVolume + fill.qty ∧
      (pos.after fill).fills = pos.fills + 1 := by
  unfold after
  cases fill.side <;> exact ⟨rfl, rfl⟩

theorem abs_dir_cast (side : Side) : |(side.dir : ℚ)| = 1 := by
  cases side <;> simp [Side.dir]

/-- **One more fill.** -/
theorem Accounts.after (accounts : pos.Accounts fills) (fill : Fill) :
    (pos.after fill).Accounts (fills ++ [fill]) := by
  obtain ⟨volume, count⟩ := pos.after_counts fill
  refine ⟨?_, ?_, ?_, ?_⟩
  · rw [Paper.after_btcQty, accounts.btcQty, List.map_append, List.sum_append, List.map_singleton,
      List.sum_singleton]
  · rw [volume, accounts.grossVolume, List.map_append, List.sum_append, List.map_singleton,
      List.sum_singleton]
  · rw [count, accounts.counted, List.length_append, List.length_singleton]
  · have scaled : (0 : Int) < quantityScale := by decide
    have truncated := abs_tdiv_sub_lt (fill.qty * fill.price.toInt) scaled
    have more : exactCash (fills ++ [fill]) = exactCash fills -
        fill.side.dir * (((fill.qty : Int) * fill.price.toInt : Int) / quantityScale : ℚ) := by
      rw [exactCash, List.map_append, List.sum_append, List.map_singleton, List.sum_singleton]
      push_cast
      rw [mul_div_assoc, ← sub_eq_add_neg]
      rfl
    calc |((pos.after fill).cash : ℚ) - exactCash (fills ++ [fill])|
      _ = |((pos.cash : ℚ) - exactCash fills) - fill.side.dir *
            (((fill.qty * fill.price.toInt).tdiv quantityScale : Int) -
              ((fill.qty : Int) * fill.price.toInt : Int) / quantityScale : ℚ)| := by
          rw [after_cash, more]
          push_cast
          congr 1
          ring
      _ ≤ |(pos.cash : ℚ) - exactCash fills| + 1 := by
          refine (abs_sub _ _).trans ?_
          rw [abs_mul, abs_dir_cast, one_mul]
          linarith
      _ ≤ (pos.after fill).fills := by
          rw [count]
          push_cast
          linarith [accounts.cash]

/-- The equity is off by less than one more, at any mid price. -/
theorem Accounts.equity (accounts : pos.Accounts fills) (mid : Int) :
    |pos.equityAt mid - (exactCash fills + pos.btcQty * mid / quantityScale)| < pos.fills + 1 := by
  have scaled : (0 : Int) < quantityScale := by decide
  have truncated := abs_tdiv_sub_lt (pos.btcQty * mid) scaled
  calc |(pos.equityAt mid : ℚ) - (exactCash fills + pos.btcQty * mid / quantityScale)|
    _ = |((pos.cash : ℚ) - exactCash fills) + (((pos.btcQty * mid).tdiv quantityScale : Int) -
          (pos.btcQty * mid : Int) / quantityScale : ℚ)| := by
        rw [equityAt]
        push_cast
        congr 1
        ring
    _ ≤ |(pos.cash : ℚ) - exactCash fills| + _ := abs_add_le _ _
    _ < pos.fills + 1 := by linarith [accounts.cash]

end Position

/-! ### Over a run -/

/-- The calls of `on_fill` of a history. -/
def fillsOf {σ : Type} (seen : List (Sight σ)) : List Fill :=
  seen.flatMap fun sight => sight.report.fills

/-- **The accounts of every run.** -/
theorem run_accounts {σ : Type} (onTick : Strategy σ) (strategy : σ) (cfg : Option RiskConfig)
    (arrivals : List Arrival) :
    ∃ e seen, Machine.run (TradingEngine.watch onTick) (TradingEngine.new strategy cfg) arrivals =
        .ok (e, seen) ∧ seen.map Sight.arrival = arrivals ∧
      e.pos.Accounts (fillsOf seen) ∧
      ∀ mid : Int, |e.pos.equityAt mid -
        (exactCash (fillsOf seen) + e.pos.btcQty * mid / quantityScale)| < e.pos.fills + 1 := by
  have start : (Paper.new strategy cfg).pos.Accounts [] :=
    ⟨rfl, rfl, rfl, by simp [Paper.new, exactCash]⟩
  have kept : ∀ (seen : List (Sight σ)) (sight : Sight σ),
      sight.before.pos.Accounts (fillsOf seen) → sight.Direct onTick →
      sight.after.pos.Accounts (fillsOf (seen ++ [sight])) := by
    intro seen sight accounts direct
    rw [direct.after, Paper.onEvent_pos, fillsOf, List.flatMap_append, List.flatMap_singleton,
      direct.tells.1]
    cases (sight.before.onEvent onTick sight.arrival).2 with
    | none =>
      rw [Option.toList_none, List.append_nil]
      exact accounts
    | some fill => exact accounts.after fill
  obtain ⟨e, seen, _, _, ran, same, _, accounts⟩ := TradingEngine.run_watched
    (P := fun seen p => p.pos.Accounts (fillsOf seen)) start kept arrivals
  exact ⟨e, seen, ran, same, accounts, fun mid => accounts.equity mid⟩

end Ob
