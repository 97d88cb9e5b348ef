/-
**The two risk gates.**

The gate on machine words, seen on the integers that the words stand for: each of its limits does
what the limit on integers does, with `Words.size` for the absolute value and `Words.wrap` around
sums and products.

* `limitPosition_words`, `limitNotional_words` — the two limits.
* `gate_words` — the quantity of a passed action is what they leave, as an integer.
* `gate_agrees` — where no sum and no product wraps, the two gates agree.
-/

import OrderBook.Engine.Gate
import OrderBook.Library.Words
import OrderBook.Source.RiskWords

namespace Ob.Word

open Words

/-- The configuration that the words stand for. -/
def RiskConfig.ints (cfg : RiskConfig) : Ob.RiskConfig where
  maxPositionQty := cfg.maxPositionQty.toInt
  maxNotional := cfg.maxNotional.toInt
  maxDrawdown := cfg.maxDrawdown.toInt

theorem RiskConfig.maxPositionQty_lt (cfg : RiskConfig) : cfg.ints.maxPositionQty < 2 ^ 63 :=
  cfg.maxPositionQty.toInt_lt

def RiskManager.ints (risk : RiskManager) : Ob.RiskManager where
  cfg := risk.cfg.ints
  peakEquity := risk.peakEquity.toInt
  halted := risk.halted

/-! ### Positions -/

section Positions

variable (side : Side) (cur allowed : Int64)

theorem toInt_dir : (dir side).toInt = side.dir := by
  cases side <;> rfl

theorem toInt_toward : (cur * dir side).toInt = wrap (side.dir * cur.toInt) := by
  rw [toInt_mul, toInt_dir, Int.mul_comm]

theorem toInt_post :
    (cur + dir side * allowed).toInt = wrap (cur.toInt + side.dir * allowed.toInt) := by
  rw [toInt_add, toInt_mul, toInt_dir, wrap_add_wrap]

/-- The absolute value of the position after the action. -/
theorem toInt_absPost :
    (if cur + dir side * allowed < 0 then -(cur + dir side * allowed)
      else cur + dir side * allowed).toInt = size (side.dir * cur.toInt + allowed.toInt) := by
  rw [toInt_size, toInt_post, size_wrap, ← size_abs, side.abs_dir, size_abs]

end Positions

/-- A condition on words, seen on integers. -/
theorem map_limited {beyond : Prop} [Decidable beyond] {past : Prop} [Decidable past]
    (same : beyond ↔ past) (room allowed : Int64) :
    (if beyond then RiskManager.withinRoom room allowed else some allowed).map Int64.toInt =
      if past then Ob.RiskManager.withinRoom room.toInt allowed.toInt else some allowed.toInt := by
  by_cases exceeds : beyond
  · rw [if_pos exceeds, if_pos (same.mp exceeds), RiskManager.withinRoom,
      Ob.RiskManager.withinRoom]
    simp only [Int64.le_iff_toInt_le, Int64.lt_iff_toInt_lt, Int64.toInt_zero]
    split
    · rfl
    · rw [Option.map_some]
      split <;> rfl
  · rw [if_neg exceeds, if_neg (same.not.mp exceeds), Option.map_some]

namespace RiskManager

variable {cfg : RiskConfig} {side : Side} {cur allowed : Int64} {execPx : Price}

/-! ### The limits -/

theorem limitPosition_words (on : 0 < cfg.ints.maxPositionQty) :
    (limitPosition cfg (dir side) cur allowed).map Int64.toInt =
      if cfg.ints.maxPositionQty < size (side.dir * cur.toInt + allowed.toInt) then
        Ob.RiskManager.withinRoom
          (wrap (cfg.ints.maxPositionQty - side.dir * cur.toInt)) allowed.toInt
      else some allowed.toInt := by
  have room : (cfg.maxPositionQty - cur * dir side).toInt =
      wrap (cfg.ints.maxPositionQty - side.dir * cur.toInt) := by
    rw [toInt_sub, toInt_toward, wrap_sub_wrap, RiskConfig.ints]
  rw [limitPosition, if_pos (pos_iff.mpr on), ← room, ← toInt_absPost]
  exact map_limited Int64.lt_iff_toInt_lt _ _

theorem limitPosition_words_off (off : ¬0 < cfg.ints.maxPositionQty) :
    (limitPosition cfg (dir side) cur allowed).map Int64.toInt = some allowed.toInt := by
  rw [limitPosition, if_neg (fun on => off (pos_iff.mp on)), Option.map_some]

theorem limitNotional_words (on : 0 < cfg.ints.maxNotional) (positive : 0 < execPx.toInt) :
    (limitNotional cfg (dir side) cur execPx allowed).map Int64.toInt =
      if cfg.ints.maxNotional < (wrap (size (side.dir * cur.toInt + allowed.toInt) *
          execPx.toInt)).tdiv Ob.quantityScale then
        Ob.RiskManager.withinRoom (wrap ((wrap (cfg.ints.maxNotional * Ob.quantityScale)).tdiv
          execPx.toInt - side.dir * cur.toInt)) allowed.toInt
      else some allowed.toInt := by
  have scale : quantityScale.toInt = Ob.quantityScale := rfl
  have room : (cfg.maxNotional * quantityScale / execPx - cur * dir side).toInt =
      wrap ((wrap (cfg.ints.maxNotional * Ob.quantityScale)).tdiv execPx.toInt -
        side.dir * cur.toInt) := by
    rw [toInt_sub, toInt_toward, wrap_sub_wrap, toInt_div _ positive, toInt_mul, scale,
      RiskConfig.ints]
  rw [limitNotional, if_pos ⟨pos_iff.mpr on, pos_iff.mpr positive⟩, ← room, ← toInt_absPost,
    ← toInt_mul, ← scale, ← toInt_div _ (by decide)]
  exact map_limited Int64.lt_iff_toInt_lt _ _

theorem limitNotional_words_off (off : ¬(0 < cfg.ints.maxNotional ∧ 0 < execPx.toInt)) :
    (limitNotional cfg (dir side) cur execPx allowed).map Int64.toInt = some allowed.toInt := by
  rw [limitNotional, if_neg (fun on => off ⟨pos_iff.mp on.1, pos_iff.mp on.2⟩), Option.map_some]

/-! ### The gate -/

/-- **A passed action** has the proposed side, and the quantity that both limits leave of the cast
of the proposed one. -/
theorem gate_words {risk : RiskManager} {proposed a : StrategyAction} :
    risk.gate proposed cur execPx = some a ↔
      risk.halted = false ∧ ∃ first last,
        limitPosition risk.cfg (dir proposed.side) cur proposed.qty.toInt64 = some first ∧
        limitNotional risk.cfg (dir proposed.side) cur execPx first = some last ∧
        0 < last.toInt ∧ a = ⟨proposed.side, last.toUInt64⟩ := by
  unfold gate
  by_cases halted : risk.halted = true
  · simp [halted]
  have running : risk.halted = false := Bool.not_eq_true _ ▸ halted
  rw [if_neg halted, Option.bind_eq_bind, Option.bind_eq_some_iff]
  constructor
  · rintro ⟨first, position, passed⟩
    obtain ⟨last, notional, passed⟩ := Option.bind_eq_some_iff.mp passed
    by_cases none : last ≤ 0
    · rw [if_pos none] at passed
      cases passed
    · rw [if_neg none] at passed
      rw [nonpos_iff, Int.not_le] at none
      exact ⟨running, first, last, position, notional, none, (Option.some.inj passed).symm⟩
  · rintro ⟨_, first, last, position, notional, positive, rfl⟩
    refine ⟨first, position, Option.bind_eq_some_iff.mpr ⟨last, notional, ?_⟩⟩
    exact if_neg (fun le => absurd (nonpos_iff.mp le) (Int.not_le.mpr positive))

/-! ### Where nothing wraps -/

theorem limitPosition_agrees (nonneg : 0 ≤ allowed.toInt)
    (post : |cur.toInt| + allowed.toInt < 2 ^ 63)
    (room : |cur.toInt| + cfg.ints.maxPositionQty < 2 ^ 63) :
    (limitPosition cfg (dir side) cur allowed).map Int64.toInt =
      Ob.RiskManager.limitPosition cfg.ints side.dir cur.toInt allowed.toInt := by
  rw [← side.abs_dir_mul] at post room
  by_cases on : 0 < cfg.ints.maxPositionQty
  · have size_eq : size (side.dir * cur.toInt + allowed.toInt) =
        |side.dir * cur.toInt + allowed.toInt| := size_fits (by grind)
    rw [limitPosition_words on, size_eq, wrap_fits (by grind) (by grind)]
    exact (Ob.RiskManager.limitPosition_eq on).symm
  · rw [limitPosition_words_off on]
    exact (Ob.RiskManager.limitPosition_off on).symm

theorem limitNotional_agrees (nonneg : 0 ≤ allowed.toInt)
    (post : |cur.toInt| + allowed.toInt < 2 ^ 63)
    (product : 0 < execPx.toInt → (|cur.toInt| + allowed.toInt) * execPx.toInt < 2 ^ 63)
    (scaled : 0 < cfg.ints.maxNotional →
      |cur.toInt| + cfg.ints.maxNotional * Ob.quantityScale < 2 ^ 63) :
    (limitNotional cfg (dir side) cur execPx allowed).map Int64.toInt =
      Ob.RiskManager.limitNotional cfg.ints side.dir cur.toInt execPx.toInt allowed.toInt := by
  rw [← side.abs_dir_mul] at post product scaled
  by_cases on : 0 < cfg.ints.maxNotional ∧ 0 < execPx.toInt
  · obtain ⟨on, positive⟩ := on
    have le : |side.dir * cur.toInt + allowed.toInt| ≤ |side.dir * cur.toInt| + allowed.toInt := by
      grind
    have product_le : |side.dir * cur.toInt + allowed.toInt| * execPx.toInt < 2 ^ 63 :=
      Int.lt_of_le_of_lt (Int.mul_le_mul_of_nonneg_right le (Int.le_of_lt positive))
        (product positive)
    have product_nonneg : 0 ≤ |side.dir * cur.toInt + allowed.toInt| * execPx.toInt :=
      Int.mul_nonneg (abs_nonneg _) (Int.le_of_lt positive)
    have fits := scaled on
    have some_limit : 0 ≤ cfg.ints.maxNotional * Ob.quantityScale :=
      Int.mul_nonneg (Int.le_of_lt on) (by decide)
    have inverse_nonneg := Int.tdiv_nonneg some_limit (Int.le_of_lt positive)
    have inverse_le := Int.tdiv_le_self execPx.toInt some_limit
    have moved := abs_nonneg (side.dir * cur.toInt)
    rw [limitNotional_words on positive, size_fits (by grind),
      wrap_fits (by omega) product_le,
      wrap_fits (x := cfg.ints.maxNotional * Ob.quantityScale) (by omega) (by omega),
      wrap_fits (by grind) (by grind)]
    exact (Ob.RiskManager.limitNotional_eq on positive).symm
  · rw [limitNotional_words_off on]
    exact (Ob.RiskManager.limitNotional_off on).symm

/-- **Where nothing wraps, the two gates agree.** The position with the whole quantity, the room
that a limit leaves, the notional and the scaled limit all fit. -/
theorem gate_agrees (risk : RiskManager) (proposed : StrategyAction)
    (post : |cur.toInt| + proposed.qty.toNat < 2 ^ 63)
    (room : |cur.toInt| + risk.cfg.ints.maxPositionQty < 2 ^ 63)
    (product : 0 < execPx.toInt → (|cur.toInt| + proposed.qty.toNat) * execPx.toInt < 2 ^ 63)
    (scaled : 0 < risk.cfg.ints.maxNotional →
      |cur.toInt| + risk.cfg.ints.maxNotional * Ob.quantityScale < 2 ^ 63) :
    risk.gate proposed cur execPx = risk.ints.gate proposed cur.toInt execPx := by
  have cast : proposed.qty.toInt64.toInt = proposed.qty.toNat := by
    have := abs_nonneg cur.toInt
    rw [toInt_cast, if_pos (by omega)]
  rw [← cast] at post product
  have nonneg : 0 ≤ proposed.qty.toInt64.toInt := cast ▸ Int.natCast_nonneg _
  have position : (limitPosition risk.cfg (dir proposed.side) cur proposed.qty.toInt64).map
      Int64.toInt = Ob.RiskManager.limitPosition risk.ints.cfg proposed.side.dir cur.toInt
        proposed.qty.toInt64.toInt := limitPosition_agrees nonneg post room
  rw [gate, Ob.RiskManager.gate]
  by_cases halted : risk.halted = true
  · rw [if_pos halted, if_pos (show risk.ints.halted = true from halted)]
  rw [if_neg halted, if_neg (show ¬risk.ints.halted = true from halted), Option.bind_eq_bind,
    Option.bind_eq_bind, ← cast]
  cases first_eq : limitPosition risk.cfg (dir proposed.side) cur proposed.qty.toInt64 with
  | none =>
    rw [first_eq, Option.map_none] at position
    rw [← position]
    rfl
  | some first =>
    rw [first_eq, Option.map_some] at position
    have le := Ob.RiskManager.limitPosition_le position.symm
    have first_nonneg := Ob.RiskManager.limitPosition_nonneg position.symm nonneg
    have notional : (limitNotional risk.cfg (dir proposed.side) cur execPx first).map
        Int64.toInt = Ob.RiskManager.limitNotional risk.ints.cfg proposed.side.dir cur.toInt
          execPx.toInt first.toInt := by
      refine limitNotional_agrees first_nonneg (by omega) (fun positive => ?_) scaled
      refine Int.lt_of_le_of_lt ?_ (product positive)
      exact Int.mul_le_mul_of_nonneg_right (by omega) (Int.le_of_lt positive)
    rw [← position, Option.bind_some, Option.bind_some]
    cases last_eq : limitNotional risk.cfg (dir proposed.side) cur execPx first with
    | none =>
      rw [last_eq, Option.map_none] at notional
      rw [← notional]
      rfl
    | some last =>
      rw [last_eq, Option.map_some] at notional
      rw [← notional, Option.bind_some, Option.bind_some]
      by_cases none : last.toInt ≤ 0
      · rw [if_pos (nonpos_iff.mpr none), if_pos none]
      · have cast_back := toNat_cast (Int.not_le.mp none)
        rw [if_neg (fun le => none (nonpos_iff.mp le)), if_neg none, ← cast_back, Int.toNat_natCast,
          UInt64.ofNat_toNat]

end RiskManager

end Ob.Word
