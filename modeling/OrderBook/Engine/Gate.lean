/-
**What the risk gate lets through.**

With `c` the position seen in the direction of the action (`dir * cur`), an action of quantity `q`
takes the position to `c + q`. Each of the two limits either lets a quantity through or cuts it to
the room that is left.

* `gate_passed` — a passed action went through both limits, and its quantity is what they left.
* `gate_position` — whatever part of it is filled, a position within its limit stays there.
* `gate_notional` — whatever part of it is filled, the notional is within its limit afterwards, or
  the position has become smaller.
-/

import Mathlib.Algebra.Order.Group.Abs
import Mathlib.Algebra.Order.Ring.Int
import OrderBook.Source.Risk

namespace Ob

/-- The notional of a position, in price units. -/
def notional (execPx : Price) (x : Int) : Int := (|x| * execPx.toInt).tdiv quantityScale

/-! ### Positions and notionals -/

theorem ite_neg_eq_abs (x : Int) : (if x < 0 then -x else x) = |x| := by
  split
  · exact (abs_of_neg ‹_›).symm
  · exact (abs_of_nonneg (Int.not_lt.mp ‹_›)).symm

/-- A position seen in the direction of an action. -/
theorem Side.abs_dir (side : Side) (cur q : Int) : |cur + side.dir * q| = |side.dir * cur + q| := by
  cases side
  · rw [dir, Int.one_mul, Int.one_mul]
  · rw [dir, Int.neg_one_mul, Int.neg_one_mul, ← abs_neg, Int.neg_add, Int.neg_neg]

theorem Side.abs_dir_mul (side : Side) (cur : Int) : |side.dir * cur| = |cur| := by
  have same := side.abs_dir cur 0
  rw [Int.mul_zero, Int.add_zero, Int.add_zero] at same
  exact same.symm

theorem notional_dir (execPx : Price) (side : Side) (cur q : Int) :
    notional execPx (cur + side.dir * q) = notional execPx (side.dir * cur + q) := by
  rw [notional, side.abs_dir]
  rfl

theorem notional_le_iff {execPx : Price} (positive : 0 < execPx.toInt) {x n : Int} :
    notional execPx x ≤ n ↔ |x| * execPx.toInt < (n + 1) * quantityScale := by
  have product : 0 ≤ |x| * execPx.toInt := Int.mul_nonneg (abs_nonneg x) (Int.le_of_lt positive)
  rw [notional, Int.tdiv_eq_ediv_of_nonneg product, ← Int.lt_add_one_iff,
    Int.ediv_lt_iff_lt_mul (by decide)]

/-- The notional grows with the size of the position. -/
theorem notional_mono {execPx : Price} (positive : 0 < execPx.toInt) {x y n : Int}
    (le : |x| ≤ |y|) (within : notional execPx y ≤ n) : notional execPx x ≤ n := by
  rw [notional_le_iff positive] at within ⊢
  exact Int.lt_of_le_of_lt (Int.mul_le_mul_of_nonneg_right le (Int.le_of_lt positive)) within

/-- A position that breaks a limit is larger than one that keeps it. -/
theorem abs_lt_of_notional {execPx : Price} (positive : 0 < execPx.toInt) {x y n : Int}
    (within : notional execPx x ≤ n) (beyond : n < notional execPx y) : |x| < |y| := by
  rw [← Int.not_le]
  exact fun le => absurd (notional_mono positive le within) (Int.not_le.mpr beyond)

/-- The source's inverse of the notional. -/
theorem le_inverse_iff {execPx : Price} (positive : 0 < execPx.toInt) {x n : Int} (limit : 0 ≤ n) :
    x ≤ (n * quantityScale).tdiv execPx.toInt ↔ x * execPx.toInt ≤ n * quantityScale := by
  have product : 0 ≤ n * quantityScale := Int.mul_nonneg limit (by decide)
  rw [Int.tdiv_eq_ediv_of_nonneg product, Int.le_ediv_iff_mul_le positive]

theorem inverse_nonneg {execPx : Price} (positive : 0 < execPx.toInt) {n : Int} (limit : 0 ≤ n) :
    0 ≤ (n * quantityScale).tdiv execPx.toInt :=
  Int.tdiv_nonneg (Int.mul_nonneg limit (by decide)) (Int.le_of_lt positive)

/-- It stays on the safe side. -/
theorem notional_inverse {execPx : Price} (positive : 0 < execPx.toInt) {x n : Int}
    (limit : 0 ≤ n) (nonneg : 0 ≤ x) (le : x ≤ (n * quantityScale).tdiv execPx.toInt) :
    notional execPx x ≤ n := by
  rw [le_inverse_iff positive limit] at le
  rw [notional_le_iff positive, abs_of_nonneg nonneg, Int.add_mul, Int.one_mul]
  exact Int.lt_of_le_of_lt le (Int.lt_add_of_pos_right _ (by decide))

/-- Between two positions no position is larger than both. -/
theorem abs_add_le_max {c fill q : Int} (nonneg : 0 ≤ fill) (le : fill ≤ q) :
    |c + fill| ≤ max |c| |c + q| :=
  abs_le_max_abs_abs (by omega) (by omega)

namespace RiskManager

/-! ### One limit -/

theorem limited_le {beyond : Prop} [Decidable beyond] {room allowed qty : Int}
    (limited : (if beyond then withinRoom room allowed else some allowed) = some qty) :
      qty ≤ allowed := by
  by_cases exceeds : beyond
  · rw [if_pos exceeds, withinRoom] at limited
    grind
  · rw [if_neg exceeds] at limited
    exact Int.le_of_eq (Option.some.inj limited).symm

theorem limited_nonneg {beyond : Prop} [Decidable beyond] {room allowed qty : Int}
    (limited : (if beyond then withinRoom room allowed else some allowed) = some qty)
    (nonneg : 0 ≤ allowed) : 0 ≤ qty := by
  by_cases exceeds : beyond
  · rw [if_pos exceeds, withinRoom] at limited
    grind
  · rw [if_neg exceeds] at limited
    exact Option.some.inj limited ▸ nonneg

/-- A quantity that a limit lets through is not beyond it, or is within the room. -/
theorem limited_room {beyond : Prop} [Decidable beyond] {room allowed qty : Int}
    (limited : (if beyond then withinRoom room allowed else some allowed) = some qty) :
    ¬beyond ∧ qty = allowed ∨ 0 < room ∧ qty ≤ room := by
  by_cases exceeds : beyond
  · rw [if_pos exceeds, withinRoom] at limited
    grind
  · rw [if_neg exceeds] at limited
    exact .inl ⟨exceeds, (Option.some.inj limited).symm⟩

variable {cfg : RiskConfig} {side : Side} {cur allowed qty : Int} {execPx : Price}

theorem limitPosition_eq (on : 0 < cfg.maxPositionQty) :
    limitPosition cfg side.dir cur allowed =
      if cfg.maxPositionQty < |side.dir * cur + allowed| then
        withinRoom (cfg.maxPositionQty - side.dir * cur) allowed
      else some allowed := by
  simp only [limitPosition, gt_iff_lt, on, if_true, ite_neg_eq_abs, side.abs_dir,
    Int.mul_comm cur side.dir]

theorem limitPosition_off (off : ¬0 < cfg.maxPositionQty) :
    limitPosition cfg side.dir cur allowed = some allowed := if_neg off

theorem limitNotional_eq (on : 0 < cfg.maxNotional) (positive : 0 < execPx.toInt) :
    limitNotional cfg side.dir cur execPx.toInt allowed =
      if cfg.maxNotional < notional execPx (side.dir * cur + allowed) then
        withinRoom ((cfg.maxNotional * quantityScale).tdiv execPx.toInt - side.dir * cur) allowed
      else some allowed := by
  simp only [limitNotional, gt_iff_lt, on, positive, and_self, if_true, ite_neg_eq_abs,
    side.abs_dir, Int.mul_comm cur side.dir]
  rfl

theorem limitNotional_off (off : ¬(0 < cfg.maxNotional ∧ 0 < execPx.toInt)) :
    limitNotional cfg side.dir cur execPx.toInt allowed = some allowed := if_neg off

theorem limitPosition_le (limited : limitPosition cfg side.dir cur allowed = some qty) :
    qty ≤ allowed := by
  by_cases on : 0 < cfg.maxPositionQty
  · rw [limitPosition_eq on] at limited
    exact limited_le limited
  · rw [limitPosition_off on] at limited
    exact Int.le_of_eq (Option.some.inj limited).symm

theorem limitPosition_nonneg (limited : limitPosition cfg side.dir cur allowed = some qty)
    (nonneg : 0 ≤ allowed) : 0 ≤ qty := by
  by_cases on : 0 < cfg.maxPositionQty
  · rw [limitPosition_eq on] at limited
    exact limited_nonneg limited nonneg
  · rw [limitPosition_off on] at limited
    exact Option.some.inj limited ▸ nonneg

theorem limitNotional_le
    (limited : limitNotional cfg side.dir cur execPx.toInt allowed = some qty) :
    qty ≤ allowed := by
  by_cases on : 0 < cfg.maxNotional ∧ 0 < execPx.toInt
  · rw [limitNotional_eq on.1 on.2] at limited
    exact limited_le limited
  · rw [limitNotional_off on] at limited
    exact Int.le_of_eq (Option.some.inj limited).symm

/-- Of a quantity that the position limit lets through, every part keeps the position within it. -/
theorem limitPosition_spec (limited : limitPosition cfg side.dir cur allowed = some qty)
    (on : 0 < cfg.maxPositionQty) (stands : |cur| ≤ cfg.maxPositionQty) {fill : Int}
    (nonneg : 0 ≤ fill) (le : fill ≤ qty) : |cur + side.dir * fill| ≤ cfg.maxPositionQty := by
  have within : |side.dir * cur| ≤ cfg.maxPositionQty := (side.abs_dir_mul cur).symm ▸ stands
  rw [side.abs_dir]
  rw [limitPosition_eq on] at limited
  rcases limited_room limited with ⟨inside, rfl⟩ | ⟨_, room⟩
  · exact Int.le_trans (abs_add_le_max nonneg le) (max_le within (Int.not_lt.mp inside))
  · rw [abs_le] at within ⊢
    omega

/-- Of a quantity that the notional limit lets through, every part keeps the notional within it or
makes the position smaller. -/
theorem limitNotional_spec
    (limited : limitNotional cfg side.dir cur execPx.toInt allowed = some qty)
    (on : 0 < cfg.maxNotional) (positive : 0 < execPx.toInt) {fill : Int} (some_fill : 0 < fill)
    (le : fill ≤ qty) :
    notional execPx (cur + side.dir * fill) ≤ cfg.maxNotional ∨
      |cur + side.dir * fill| < |cur| := by
  rw [limitNotional_eq on positive] at limited
  rw [notional_dir, side.abs_dir, ← side.abs_dir_mul cur]
  generalize side.dir * cur = c at *
  -- short of zero the position shrinks; from there on the larger of two positions decides
  by_cases short : c + fill < 0
  · refine .inr ?_
    rw [abs_of_neg short, abs_of_neg (by omega : c < 0)]
    omega
  refine .inl ?_
  have nonneg : 0 ≤ c + fill := Int.not_lt.mp short
  rcases limited_room limited with ⟨inside, rfl⟩ | ⟨_, room⟩
  · refine notional_mono positive ?_ (Int.not_lt.mp inside)
    rw [abs_of_nonneg nonneg, abs_of_nonneg (by omega)]
    omega
  · exact notional_inverse positive (Int.le_of_lt on) nonneg (by omega)

/-! ### The gate -/

/-- **A passed action** has the proposed side, and the quantity that both limits leave of the
proposed one. -/
theorem gate_passed {risk : RiskManager} {proposed a : StrategyAction}
    (passed : risk.gate proposed cur execPx = some a) :
    risk.halted = false ∧ a.side = proposed.side ∧ 0 < a.qty.toNat ∧
      ∃ first, limitPosition risk.cfg proposed.side.dir cur proposed.qty.toNat = some first ∧
        limitNotional risk.cfg proposed.side.dir cur execPx.toInt first = some ↑a.qty.toNat := by
  unfold gate at passed
  by_cases halted : risk.halted = true
  · rw [if_pos halted] at passed
    cases passed
  rw [if_neg halted] at passed
  obtain ⟨first, position, passed⟩ := Option.bind_eq_some_iff.mp passed
  obtain ⟨qty, notional, passed⟩ := Option.bind_eq_some_iff.mp passed
  by_cases none : qty ≤ 0
  · rw [if_pos none] at passed
    cases passed
  rw [if_neg none] at passed
  cases passed
  have le := Int.le_trans (limitNotional_le notional) (limitPosition_le position)
  have bound := proposed.qty.toNat_lt
  have fits : (UInt64.ofNat qty.toNat).toNat = qty.toNat :=
    UInt64.toNat_ofNat_of_lt' (by rw [UInt64.size]; omega)
  have positive : 0 < qty := Int.not_le.mp none
  refine ⟨Bool.not_eq_true _ ▸ halted, rfl, ?_, first, position, ?_⟩
  · rw [fits]
    exact Int.lt_toNat.mpr positive
  · rw [fits, Int.toNat_of_nonneg (Int.le_of_lt positive)]
    exact notional

/-- The gate lets through an action of the proposed side, for some quantity up to the proposed
one. -/
theorem gate_within {risk : RiskManager} {proposed a : StrategyAction}
    (passed : risk.gate proposed cur execPx = some a) :
    a.side = proposed.side ∧ a.qty ≠ 0 ∧ a.qty ≤ proposed.qty := by
  obtain ⟨_, side, positive, first, position, notional⟩ := gate_passed passed
  have le := Int.le_trans (limitNotional_le notional) (limitPosition_le position)
  refine ⟨side, fun none => ?_, ?_⟩
  · rw [none] at positive
    exact absurd positive (by decide)
  · rw [UInt64.le_iff_toNat_le]
    exact Int.ofNat_le.mp le

/-- **The position limit** holds after every part of a passed action, if it holds before. -/
theorem gate_position {risk : RiskManager} {proposed a : StrategyAction}
    (passed : risk.gate proposed cur execPx = some a) (on : 0 < risk.cfg.maxPositionQty)
    (stands : |cur| ≤ risk.cfg.maxPositionQty) {fill : Nat} (le : fill ≤ a.qty.toNat) :
    |cur + a.side.dir * fill| ≤ risk.cfg.maxPositionQty := by
  obtain ⟨_, same, _, first, position, notional⟩ := gate_passed passed
  rw [same]
  refine limitPosition_spec position on stands (Int.natCast_nonneg _) ?_
  exact Int.le_trans (Int.ofNat_le.mpr le) (limitNotional_le notional)

/-- **The notional limit** holds after every part of a passed action, or the part has made the
position smaller. -/
theorem gate_notional {risk : RiskManager} {proposed a : StrategyAction}
    (passed : risk.gate proposed cur execPx = some a) (on : 0 < risk.cfg.maxNotional)
    (positive : 0 < execPx.toInt) {fill : Nat} (some_fill : 0 < fill) (le : fill ≤ a.qty.toNat) :
    notional execPx (cur + a.side.dir * fill) ≤ risk.cfg.maxNotional ∨
      |cur + a.side.dir * fill| < |cur| := by
  obtain ⟨_, same, _, first, _, notional⟩ := gate_passed passed
  rw [same]
  exact limitNotional_spec notional on positive (Int.ofNat_lt.mpr some_fill) (Int.ofNat_le.mpr le)

end RiskManager

end Ob
