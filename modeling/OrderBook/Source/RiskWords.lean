/-
**The risk gate on machine words.**

`risk.hpp` as the machine computes it: limits, position and price are 64-bit words in two's
complement, and every sum, difference, product and negation wraps. `Source/Risk.lean` has the same
gate on unbounded integers.
-/

import OrderBook.Source.Risk

namespace Ob.Word

/-- A limit that is 0 does not limit. -/
structure RiskConfig where
  maxPositionQty : Int64 := 0
  maxNotional : Int64 := 0
  maxDrawdown : Int64 := 0
  deriving DecidableEq, Repr

structure RiskManager where
  cfg : RiskConfig
  peakEquity : Int64 := 0
  halted : Bool := false
  deriving DecidableEq, Repr

/-- The direction factor. -/
def dir : Side → Int64
  | .buy => 1
  | .sell => -1

/-- `kRiskQuantityScale`. -/
def quantityScale : Int64 := 1000000

namespace RiskManager

def withinRoom (room allowed : Int64) : Option Int64 :=
  if room ≤ 0 then none else some (if room < allowed then room else allowed)

def limitPosition (cfg : RiskConfig) (dir cur allowed : Int64) : Option Int64 :=
  if cfg.maxPositionQty > 0 then
    let post := cur + dir * allowed
    let absPost := if post < 0 then -post else post
    if absPost > cfg.maxPositionQty then withinRoom (cfg.maxPositionQty - cur * dir) allowed
    else some allowed
  else some allowed

def limitNotional (cfg : RiskConfig) (dir cur execPx allowed : Int64) : Option Int64 :=
  if cfg.maxNotional > 0 ∧ execPx > 0 then
    let post := cur + dir * allowed
    let postNotional := (if post < 0 then -post else post) * execPx / quantityScale
    if postNotional > cfg.maxNotional then
      let maxAbs := cfg.maxNotional * quantityScale / execPx
      withinRoom (maxAbs - cur * dir) allowed
    else some allowed
  else some allowed

/-- The proposed quantity is cast to a signed word, and back. -/
def gate (risk : RiskManager) (proposed : StrategyAction) (cur : Int64) (execPx : Price) :
    Option StrategyAction :=
  if risk.halted then none
  else do
    let allowed ← limitPosition risk.cfg (dir proposed.side) cur proposed.qty.toInt64
    let allowed ← limitNotional risk.cfg (dir proposed.side) cur execPx allowed
    if allowed ≤ 0 then none
    else some { side := proposed.side, qty := allowed.toUInt64 }

end RiskManager

end Ob.Word
