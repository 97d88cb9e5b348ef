/-
**The limits of the risk gate on machine words.**

The word for a position that an action leads to shows too little in two ways. The sum of position
and quantity comes round to within the position limit, or lands on the one word whose absolute value
is negative (`Slips`). Or the product with the price comes round below the notional limit (`Seems`).

* `gate_safe_iff` — from a position within the limits the gate's answer stays within them exactly
  if neither happens, or the notional limit catches the first.
-/

import OrderBook.Engine.GateWords
import OrderBook.Properties.Gate

namespace Ob.Word

open Words

/-! ### What looks small -/

/-- A sum of position and quantity that the position limit overlooks. -/
def Slips (cfg : Ob.RiskConfig) (x : Int) : Prop :=
  0 < cfg.maxPositionQty ∧ (x = 2 ^ 63 ∨ 2 ^ 64 - cfg.maxPositionQty ≤ x)

/-- The word for the notional of a position looks to be within the limit. -/
def Seems (cfg : Ob.RiskConfig) (execPx : Price) (x : Int) : Prop :=
  wrap (size x * execPx.toInt) < (cfg.maxNotional + 1) * Ob.quantityScale

/-- A sum that slips through the position limit is caught by the notional limit, at a position
within both. Without such a sum, a notional that seems to be within its limit is. -/
structure Guarded (cfg : Ob.RiskConfig) (proposed : StrategyAction) (cur : Int) (execPx : Price) :
    Prop where
  position : Slips cfg (proposed.side.dir * cur + proposed.qty.toNat) →
    0 < cfg.maxNotional ∧ ¬Seems cfg execPx (proposed.side.dir * cur + proposed.qty.toNat) ∧
      (cfg.maxNotional * Ob.quantityScale).tdiv execPx.toInt ≤ cfg.maxPositionQty
  notional : ¬Slips cfg (proposed.side.dir * cur + proposed.qty.toNat) → 0 < cfg.maxNotional →
    Seems cfg execPx (proposed.side.dir * cur + Ob.RiskManager.room cfg proposed cur) →
      Ob.notional execPx (proposed.side.dir * cur + Ob.RiskManager.room cfg proposed cur) ≤
        cfg.maxNotional

/-- A quotient of any sign is at most a limit if what is divided is short of the next multiple. -/
theorem tdiv_le_iff {x n k : Int} (positive : 0 < k) (limit : 0 ≤ n) :
    x.tdiv k ≤ n ↔ x < (n + 1) * k := by
  by_cases nonneg : 0 ≤ x
  · rw [Int.tdiv_eq_ediv_of_nonneg nonneg, ← Int.lt_add_one_iff, Int.ediv_lt_iff_lt_mul positive]
  · have quotient : 0 ≤ (-x).tdiv k := Int.tdiv_nonneg (by omega) (Int.le_of_lt positive)
    have product : 0 ≤ (n + 1) * k := Int.mul_nonneg (by omega) (Int.le_of_lt positive)
    rw [Int.neg_tdiv] at quotient
    omega

namespace RiskManager

variable {risk : RiskManager} {proposed : StrategyAction} {cur : Int64} {execPx : Price}
  {allowed first last : Int64}

/-- What both limits allow, seen in the direction of the action. -/
theorem allows_iff {cfg : Ob.RiskConfig} {side : Side} {cur v : Int} :
    cfg.Allows execPx (cur + side.dir * v) ↔
      (0 < cfg.maxPositionQty → |side.dir * cur + v| ≤ cfg.maxPositionQty) ∧
      (0 < cfg.maxNotional → Ob.notional execPx (side.dir * cur + v) ≤ cfg.maxNotional) := by
  rw [← notional_dir, ← side.abs_dir]
  exact ⟨fun allows => ⟨allows.position, allows.notional⟩, fun allows => ⟨allows.1, allows.2⟩⟩

/-! ### The position limit -/

section Position

variable (cast : proposed.qty.toInt64.toInt = proposed.qty.toNat)
  (stands : 0 < risk.cfg.ints.maxPositionQty →
    |proposed.side.dir * cur.toInt| ≤ risk.cfg.ints.maxPositionQty)
  (some_qty : 0 < proposed.qty.toNat) (short : proposed.qty.toNat < 2 ^ 63)
include cast stands some_qty short

theorem limitPosition_slips
    (slips : Slips risk.cfg.ints (proposed.side.dir * cur.toInt + proposed.qty.toNat)) :
    (limitPosition risk.cfg (dir proposed.side) cur proposed.qty.toInt64).map Int64.toInt =
      some ↑proposed.qty.toNat := by
  obtain ⟨on, past⟩ := slips
  have within := abs_le.mp (stands on)
  have bound := risk.cfg.maxPositionQty_lt
  rw [limitPosition_words on, cast, if_neg]
  rcases past with half | past
  · rw [size_half ((abs_of_nonneg (by omega)).trans half)]
    omega
  · have size_eq : |proposed.side.dir * cur.toInt + proposed.qty.toNat| =
        proposed.side.dir * cur.toInt + proposed.qty.toNat := abs_of_nonneg (by omega)
    rw [size_past (by omega) (by omega)]
    omega

theorem limitPosition_room
    (sound : ¬Slips risk.cfg.ints (proposed.side.dir * cur.toInt + proposed.qty.toNat)) :
    (limitPosition risk.cfg (dir proposed.side) cur proposed.qty.toInt64).map Int64.toInt =
      if Ob.RiskManager.room risk.cfg.ints proposed cur.toInt ≤ 0 then none
      else some (Ob.RiskManager.room risk.cfg.ints proposed cur.toInt) := by
  unfold Ob.RiskManager.room
  by_cases on : 0 < risk.cfg.ints.maxPositionQty
  · have within := abs_le.mp (stands on)
    have past := not_and.mp sound on
    rw [if_pos on]
    have bound := risk.cfg.maxPositionQty_lt
    rw [limitPosition_words on, cast]
    -- the sum as its word shows it is beyond the limit exactly if the sum is
    have beyond : risk.cfg.ints.maxPositionQty <
        size (proposed.side.dir * cur.toInt + proposed.qty.toNat) ↔
          risk.cfg.ints.maxPositionQty < proposed.side.dir * cur.toInt + proposed.qty.toNat := by
      by_cases fits : |proposed.side.dir * cur.toInt + proposed.qty.toNat| < 2 ^ 63
      · rw [size_fits fits]
        grind
      · have size_eq : |proposed.side.dir * cur.toInt + proposed.qty.toNat| =
            proposed.side.dir * cur.toInt + proposed.qty.toNat := by grind
        rw [size_past (by omega) (by omega)]
        omega
    by_cases above : risk.cfg.ints.maxPositionQty <
        proposed.side.dir * cur.toInt + proposed.qty.toNat
    · rw [if_pos (beyond.mpr above), wrap_fits (by omega) (by omega), Ob.RiskManager.withinRoom]
      grind
    · rw [if_neg (fun there => above (beyond.mp there))]
      grind
  · rw [limitPosition_words_off on, cast, if_neg on, if_neg (by omega)]

end Position

/-! ### The notional limit -/

theorem limitNotional_seems (on : 0 < risk.cfg.ints.maxNotional) (positive : 0 < execPx.toInt)
    (seems : Seems risk.cfg.ints execPx (proposed.side.dir * cur.toInt + allowed.toInt)) :
    (limitNotional risk.cfg (dir proposed.side) cur execPx allowed).map Int64.toInt =
      some allowed.toInt := by
  rw [limitNotional_words on positive, if_neg]
  exact Int.not_lt.mpr ((tdiv_le_iff (by decide) (Int.le_of_lt on)).mpr seems)

/-- A notional beyond the limit leaves the limit room for its scale. -/
theorem limitNotional_beyond (on : 0 < risk.cfg.ints.maxNotional) (positive : 0 < execPx.toInt)
    (beyond : ¬Seems risk.cfg.ints execPx (proposed.side.dir * cur.toInt + allowed.toInt)) :
    (risk.cfg.ints.maxNotional + 1) * Ob.quantityScale < 2 ^ 63 ∧
    (limitNotional risk.cfg (dir proposed.side) cur execPx allowed).map Int64.toInt =
      Ob.RiskManager.withinRoom (wrap ((risk.cfg.ints.maxNotional * Ob.quantityScale).tdiv
        execPx.toInt - proposed.side.dir * cur.toInt)) allowed.toInt := by
  have exceeds := mt (tdiv_le_iff (by decide) (Int.le_of_lt on)).mp beyond
  have bounds := wrap_bounds (size (proposed.side.dir * cur.toInt + allowed.toInt) * execPx.toInt)
  have fits : (risk.cfg.ints.maxNotional + 1) * Ob.quantityScale < 2 ^ 63 :=
    Int.lt_of_le_of_lt (Int.not_lt.mp beyond) bounds.2
  refine ⟨fits, ?_⟩
  have scaled : wrap (risk.cfg.ints.maxNotional * Ob.quantityScale) =
      risk.cfg.ints.maxNotional * Ob.quantityScale := by
    rw [Int.add_mul] at fits
    have nonneg := Int.mul_nonneg (Int.le_of_lt on) (by decide : 0 ≤ Ob.quantityScale)
    refine wrap_fits (Int.le_trans (by decide) nonneg) (Int.lt_trans ?_ fits)
    exact Int.lt_add_of_pos_right _ (by decide)
  rw [limitNotional_words on positive, if_pos (Int.not_le.mp exceeds), scaled]

/-- A scaled limit that fits leaves an inverse that does. -/
theorem inverse_lt {cfg : Ob.RiskConfig} (execPx : Price) (on : 0 < cfg.maxNotional)
    (fits : (cfg.maxNotional + 1) * Ob.quantityScale < 2 ^ 63) :
    (cfg.maxNotional * Ob.quantityScale).tdiv execPx.toInt < 2 ^ 63 := by
  have inverse_le := Int.tdiv_le_self execPx.toInt
    (Int.mul_nonneg (Int.le_of_lt on) (by decide : 0 ≤ Ob.quantityScale))
  rw [Int.add_mul] at fits
  refine Int.lt_of_le_of_lt inverse_le (Int.lt_trans ?_ fits)
  exact Int.lt_add_of_pos_right _ (by decide)

/-- Whatever stays within the inverse of the limit is within the limit. -/
theorem inverse_allows {cfg : Ob.RiskConfig} {c v : Int} (on : 0 < cfg.maxNotional)
    (positive : 0 < execPx.toInt) (stands : Ob.notional execPx c ≤ cfg.maxNotional)
    (some_v : 0 < v) (le : v ≤ (cfg.maxNotional * Ob.quantityScale).tdiv execPx.toInt - c) :
    Ob.notional execPx (c + v) ≤ cfg.maxNotional := by
  by_cases short : c + v < 0
  · refine notional_mono positive ?_ stands
    rw [abs_of_neg short, abs_of_neg (by omega : c < 0)]
    omega
  · exact notional_inverse positive (Int.le_of_lt on) (Int.not_lt.mp short) (by omega)

/-- What the notional limit cuts stays within its inverse, wherever the room comes round to. -/
theorem limitNotional_cut (on : 0 < risk.cfg.ints.maxNotional) (positive : 0 < execPx.toInt)
    (worth : Ob.notional execPx (proposed.side.dir * cur.toInt) ≤ risk.cfg.ints.maxNotional)
    (beyond : ¬Seems risk.cfg.ints execPx (proposed.side.dir * cur.toInt + first.toInt))
    (notional : limitNotional risk.cfg (dir proposed.side) cur execPx first = some last) :
    last.toInt ≤ (risk.cfg.ints.maxNotional * Ob.quantityScale).tdiv execPx.toInt -
      proposed.side.dir * cur.toInt := by
  obtain ⟨fits, cut⟩ := limitNotional_beyond on positive beyond
  rw [notional, Option.map_some, Ob.RiskManager.withinRoom] at cut
  have inverse := inverse_nonneg positive (Int.le_of_lt on)
  have small : |proposed.side.dir * cur.toInt| < 2 ^ 63 := by
    rw [notional_le_iff positive] at worth
    refine Int.lt_of_le_of_lt ?_ (Int.lt_trans worth fits)
    exact le_mul_of_one_le_right (abs_nonneg _) positive
  have room := wrap_le (x := (risk.cfg.ints.maxNotional * Ob.quantityScale).tdiv execPx.toInt -
    proposed.side.dir * cur.toInt) (by have := (abs_lt.mp small).2; omega)
  refine Int.le_trans ?_ room
  grind

/-! ### The gate -/

/-- Neither limit adds to a quantity. -/
theorem limited_words {first last : Int64}
    (position : limitPosition risk.cfg (dir proposed.side) cur allowed = some first)
    (notional : limitNotional risk.cfg (dir proposed.side) cur execPx first = some last) :
    first.toInt ≤ allowed.toInt ∧ last.toInt ≤ first.toInt := by
  have mapped := congrArg (Option.map Int64.toInt) position
  have mapped' := congrArg (Option.map Int64.toInt) notional
  rw [Option.map_some] at mapped mapped'
  constructor
  · by_cases on : 0 < risk.cfg.ints.maxPositionQty
    · rw [limitPosition_words on] at mapped
      exact Ob.RiskManager.limited_le mapped
    · rw [limitPosition_words_off on] at mapped
      exact Int.le_of_eq (Option.some.inj mapped).symm
  · by_cases on : 0 < risk.cfg.ints.maxNotional ∧ 0 < execPx.toInt
    · rw [limitNotional_words on.1 on.2] at mapped'
      exact Ob.RiskManager.limited_le mapped'
    · rw [limitNotional_words_off on] at mapped'
      exact Int.le_of_eq (Option.some.inj mapped').symm

/-- A passed quantity was cast to itself. -/
theorem gate_cast {a : StrategyAction} (passed : risk.gate proposed cur execPx = some a) :
    0 < proposed.qty.toNat ∧ proposed.qty.toNat < 2 ^ 63 := by
  obtain ⟨_, first, last, position, notional, positive, _⟩ := gate_words.mp passed
  have le := limited_words position notional
  rw [toInt_cast] at le
  have bound := proposed.qty.toNat_lt
  split at le <;> omega

/-- What the limits leave, if it is something, is passed. -/
theorem gate_of (running : risk.halted = false) {p v : Int}
    (position : (limitPosition risk.cfg (dir proposed.side) cur proposed.qty.toInt64).map
      Int64.toInt = some p)
    (notional : ∀ first : Int64, first.toInt = p →
      (limitNotional risk.cfg (dir proposed.side) cur execPx first).map Int64.toInt = some v)
    (positive : 0 < v) :
    ∃ a, risk.gate proposed cur execPx = some a ∧ (a.qty.toNat : Int) = v := by
  obtain ⟨first, position, first_eq⟩ := Option.map_eq_some_iff.mp position
  obtain ⟨last, left, rfl⟩ := Option.map_eq_some_iff.mp (notional first first_eq)
  exact ⟨_, gate_words.mpr ⟨running, first, last, position, left, positive, rfl⟩,
    toNat_cast positive⟩

section Safe

variable (positive : 0 < execPx.toInt) (stands : risk.cfg.ints.Allows execPx cur.toInt)
  (some_qty : 0 < proposed.qty.toNat) (short : proposed.qty.toNat < 2 ^ 63)

include stands in
/-- Seen in the direction of an action. -/
theorem stands_toward (side : Side) :
    (0 < risk.cfg.ints.maxPositionQty →
      |side.dir * cur.toInt| ≤ risk.cfg.ints.maxPositionQty) ∧
    (0 < risk.cfg.ints.maxNotional →
      Ob.notional execPx (side.dir * cur.toInt) ≤ risk.cfg.ints.maxNotional) := by
  rw [Ob.notional, side.abs_dir_mul]
  exact ⟨stands.position, stands.notional⟩

section Kept

variable (running : risk.halted = false)
  (safe : ∀ a, risk.gate proposed cur execPx = some a →
    risk.cfg.ints.Allows execPx (cur.toInt + proposed.side.dir * a.qty.toNat))

include running safe in
/-- What passes a gate that keeps the limits, stays within them. -/
theorem passes_within {p v : Int}
    (position : (limitPosition risk.cfg (dir proposed.side) cur proposed.qty.toInt64).map
      Int64.toInt = some p)
    (notional : ∀ first : Int64, first.toInt = p →
      (limitNotional risk.cfg (dir proposed.side) cur execPx first).map Int64.toInt = some v)
    (some_v : 0 < v) :
    (0 < risk.cfg.ints.maxPositionQty →
      |proposed.side.dir * cur.toInt + v| ≤ risk.cfg.ints.maxPositionQty) ∧
    (0 < risk.cfg.ints.maxNotional →
      Ob.notional execPx (proposed.side.dir * cur.toInt + v) ≤ risk.cfg.ints.maxNotional) := by
  obtain ⟨a, passed, qty⟩ := gate_of running position notional some_v
  exact qty ▸ allows_iff.mp (safe a passed)

include positive stands some_qty short running safe

/-- What slips through the position limit is caught. -/
theorem slips_caught
    (slips : Slips risk.cfg.ints (proposed.side.dir * cur.toInt + proposed.qty.toNat)) :
    0 < risk.cfg.ints.maxNotional ∧
      ¬Seems risk.cfg.ints execPx (proposed.side.dir * cur.toInt + proposed.qty.toNat) ∧
      (risk.cfg.ints.maxNotional * Ob.quantityScale).tdiv execPx.toInt ≤
        risk.cfg.ints.maxPositionQty := by
  have cast := (toInt_cast proposed.qty).trans (if_pos short)
  have within := (stands_toward stands proposed.side).1
  have position := limitPosition_slips cast within some_qty short slips
  have at_limit := abs_le.mp (within slips.1)
  have bound := risk.cfg.maxPositionQty_lt
  have past : risk.cfg.ints.maxPositionQty <
      proposed.side.dir * cur.toInt + proposed.qty.toNat := by
    rcases slips.2 with half | past <;> omega
  -- the whole quantity does not pass, since it breaks the limit
  have caught : ¬∀ first : Int64, first.toInt = proposed.qty.toNat →
      (limitNotional risk.cfg (dir proposed.side) cur execPx first).map Int64.toInt =
        some ↑proposed.qty.toNat := by
    intro through
    have := (abs_le.mp ((passes_within running safe position through (by omega)).1 slips.1)).2
    omega
  have on : 0 < risk.cfg.ints.maxNotional := by
    by_contra off
    refine caught fun first first_eq => ?_
    rw [limitNotional_words_off (fun both => off both.1), first_eq]
  have beyond : ¬Seems risk.cfg.ints execPx
      (proposed.side.dir * cur.toInt + proposed.qty.toNat) := by
    intro seems
    refine caught fun first first_eq => ?_
    rw [limitNotional_seems on positive (first_eq.symm ▸ seems), first_eq]
  refine ⟨on, beyond, ?_⟩
  by_contra further
  -- the room up to the inverse passes as well, and leads beyond the limit
  have beyond_cast : ¬Seems risk.cfg.ints execPx
      (proposed.side.dir * cur.toInt + proposed.qty.toInt64.toInt) := cast.symm ▸ beyond
  have upper := inverse_lt execPx on (limitNotional_beyond on positive beyond_cast).1
  have gap : 2 ^ 63 ≤ proposed.side.dir * cur.toInt + proposed.qty.toNat := by
    rcases slips.2 with half | past <;> omega
  have there := (passes_within running safe position
    (v := (risk.cfg.ints.maxNotional * Ob.quantityScale).tdiv execPx.toInt -
      proposed.side.dir * cur.toInt) (fun first first_eq => ?_) (by omega)).1 slips.1
  · rw [abs_le] at there
    omega
  · rw [(limitNotional_beyond on positive (first_eq.symm ▸ beyond)).2, first_eq,
      wrap_fits (by omega) (by omega), Ob.RiskManager.withinRoom, if_neg (by omega),
      if_pos (by omega)]

/-- Where nothing slips through, a notional that seems to be within its limit is. -/
theorem seems_within
    (sound : ¬Slips risk.cfg.ints (proposed.side.dir * cur.toInt + proposed.qty.toNat))
    (on : 0 < risk.cfg.ints.maxNotional)
    (seems : Seems risk.cfg.ints execPx
      (proposed.side.dir * cur.toInt + Ob.RiskManager.room risk.cfg.ints proposed cur.toInt)) :
    Ob.notional execPx
      (proposed.side.dir * cur.toInt + Ob.RiskManager.room risk.cfg.ints proposed cur.toInt) ≤
        risk.cfg.ints.maxNotional := by
  have cast := (toInt_cast proposed.qty).trans (if_pos short)
  obtain ⟨within, worth⟩ := stands_toward stands proposed.side
  have position := limitPosition_room cast within some_qty short sound
  by_cases none : Ob.RiskManager.room risk.cfg.ints proposed cur.toInt ≤ 0
  · -- nothing is left only at the limit itself
    have there : Ob.RiskManager.room risk.cfg.ints proposed cur.toInt = 0 := by
      unfold Ob.RiskManager.room at none ⊢
      grind
    rw [there, Int.add_zero]
    exact worth on
  · rw [if_neg none] at position
    refine (passes_within running safe position (fun first first_eq => ?_)
      (Int.not_le.mp none)).2 on
    rw [limitNotional_seems on positive (first_eq.symm ▸ seems), first_eq]

/-- A gate that keeps the limits is guarded. -/
theorem guarded_of_safe : Guarded risk.cfg.ints proposed cur.toInt execPx :=
  ⟨slips_caught positive stands some_qty short running safe,
    seems_within positive stands some_qty short running safe⟩

end Kept

include positive stands some_qty short

/-- A guarded gate keeps the limits. -/
theorem safe_of_guarded (guarded : Guarded risk.cfg.ints proposed cur.toInt execPx)
    {a : StrategyAction} (passed : risk.gate proposed cur execPx = some a) :
    risk.cfg.ints.Allows execPx (cur.toInt + proposed.side.dir * a.qty.toNat) := by
  have cast := (toInt_cast proposed.qty).trans (if_pos short)
  obtain ⟨within, worth⟩ := stands_toward stands proposed.side
  obtain ⟨_, first, last, position, notional, some_last, rfl⟩ := gate_words.mp passed
  have le := (limited_words position notional).2
  have mapped := congrArg (Option.map Int64.toInt) position
  rw [Option.map_some] at mapped
  rw [toNat_cast some_last, allows_iff]
  by_cases slips : Slips risk.cfg.ints (proposed.side.dir * cur.toInt + proposed.qty.toNat)
  · rw [limitPosition_slips cast within some_qty short slips] at mapped
    obtain ⟨on, beyond, inverse_le⟩ := guarded.position slips
    rw [Option.some.inj mapped] at beyond
    have cut := limitNotional_cut on positive (worth on) beyond notional
    refine ⟨fun on => ?_, fun on => inverse_allows on positive (worth on) some_last cut⟩
    have := abs_le.mp (within on)
    rw [abs_le]
    omega
  · rw [limitPosition_room cast within some_qty short slips] at mapped
    by_cases none : Ob.RiskManager.room risk.cfg.ints proposed cur.toInt ≤ 0
    · rw [if_pos none] at mapped
      cases mapped
    rw [if_neg none] at mapped
    have room := Option.some.inj mapped
    refine ⟨fun on => ?_, fun on => ?_⟩
    · have := abs_le.mp (within on)
      have : Ob.RiskManager.room risk.cfg.ints proposed cur.toInt ≤
          risk.cfg.ints.maxPositionQty - proposed.side.dir * cur.toInt := by
        unfold Ob.RiskManager.room
        rw [if_pos on]
        exact Int.min_le_right _ _
      rw [abs_le]
      omega
    · by_cases seems : Seems risk.cfg.ints execPx (proposed.side.dir * cur.toInt + first.toInt)
      · have all := congrArg (Option.map Int64.toInt) notional
        rw [limitNotional_seems on positive seems, Option.map_some] at all
        rw [← Option.some.inj all, ← room]
        exact guarded.notional slips on (room ▸ seems)
      · exact inverse_allows on positive (worth on) some_last
          (limitNotional_cut on positive (worth on) seems notional)

end Safe

/-- **The gate on machine words keeps the limits exactly if it is guarded**, or has nothing to
pass. -/
theorem gate_safe_iff (positive : 0 < execPx) (stands : risk.cfg.ints.Allows execPx cur.toInt) :
    (∀ a, risk.gate proposed cur execPx = some a →
      risk.cfg.ints.Allows execPx (cur.toInt + proposed.side.dir * a.qty.toNat)) ↔
    (risk.halted = false → 0 < proposed.qty.toNat → proposed.qty.toNat < 2 ^ 63 →
      Guarded risk.cfg.ints proposed cur.toInt execPx) := by
  replace positive := pos_iff.mp positive
  constructor
  · intro safe running some_qty short
    exact guarded_of_safe positive stands some_qty short running safe
  · intro guarded a passed
    obtain ⟨some_qty, short⟩ := gate_cast passed
    have running := (gate_words.mp passed).1
    exact safe_of_guarded positive stands some_qty short (guarded running some_qty short) passed

/-- Buying 300 under a position limit of 100. -/
theorem gate_safe_clamped :
    gate { cfg := { maxPositionQty := 100 } } ⟨.buy, 300⟩ 0 1 = some ⟨.buy, 100⟩ ∧
      (RiskConfig.ints { maxPositionQty := 100 }).Allows 1 (0 + Side.buy.dir * 100) := by
  have passed : gate { cfg := { maxPositionQty := 100 } } ⟨.buy, 300⟩ 0 1 = some ⟨.buy, 100⟩ := by
    decide
  refine ⟨passed, (gate_safe_iff (by decide) ⟨fun _ => by decide, fun on => ?_⟩).mpr
    (fun _ _ _ => ⟨fun slips => ?_, fun _ on => ?_⟩) ⟨.buy, 100⟩ passed⟩
  · exact absurd on (by decide)
  · exact absurd slips.2 (by decide)
  · exact absurd on (by decide)

/-- With a notional limit of 1000, buying `2 ^ 62` at a price of 4 makes a product of `2 ^ 64`, and
passes. With a position limit of 1, buying `2 ^ 63 - 1` from a position of 1 makes a sum of
`2 ^ 63`, and passes as well. -/
theorem gate_unsafe :
    (∃ (risk : RiskManager) (proposed : StrategyAction) (execPx : Price),
      0 ≤ risk.cfg.ints.maxPositionQty ∧ 0 ≤ risk.cfg.ints.maxNotional ∧ 0 < execPx ∧
      risk.cfg.ints.Allows execPx (0 : Int64).toInt ∧
      ∃ a, risk.gate proposed 0 execPx = some a ∧ 0 < risk.cfg.ints.maxNotional ∧
        risk.cfg.ints.maxNotional < (|(0 : Int64).toInt + proposed.side.dir * a.qty.toNat| *
          execPx.toInt).tdiv Ob.quantityScale) ∧
    (∃ (risk : RiskManager) (proposed : StrategyAction) (execPx : Price),
      0 ≤ risk.cfg.ints.maxPositionQty ∧ 0 ≤ risk.cfg.ints.maxNotional ∧ 0 < execPx ∧
      risk.cfg.ints.Allows execPx (1 : Int64).toInt ∧
      ∃ a, risk.gate proposed 1 execPx = some a ∧ 0 < risk.cfg.ints.maxPositionQty ∧
        risk.cfg.ints.maxPositionQty < |(1 : Int64).toInt + proposed.side.dir * a.qty.toNat|) := by
  constructor
  · refine ⟨{ cfg := { maxNotional := 1000 } }, ⟨.buy, 4611686018427387904⟩, 4, by decide,
      by decide, by decide, ⟨fun _ => by decide, fun _ => by decide⟩, ⟨.buy, 4611686018427387904⟩,
      by decide, by decide, by decide⟩
  · refine ⟨{ cfg := { maxPositionQty := 1 } }, ⟨.buy, 9223372036854775807⟩, 4, by decide,
      by decide, by decide, ⟨fun _ => by decide, fun on => absurd on (by decide)⟩,
      ⟨.buy, 9223372036854775807⟩, by decide, by decide, by decide⟩

end RiskManager

end Ob.Word
