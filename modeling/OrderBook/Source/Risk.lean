/-
**The strategy's view of the market and the risk gate.**

`strategy.hpp` and `risk.hpp`. Prices and sizes are the machine words of the feed. What is computed
from them (mid price, equity, position and the gate's limits) is computed on unbounded integers
here; division truncates towards zero as the source's does.
-/

import OrderBook.Source.Types

namespace Ob

structure MarketSnapshot where
  bestBid : Price
  bestAsk : Price
  bidQty : Quantity
  askQty : Quantity
  lastTrade : Price
  eventTs : Timestamp
  deriving DecidableEq, Repr

def MarketSnapshot.mid (s : MarketSnapshot) : Int := (s.bestBid.toInt + s.bestAsk.toInt).tdiv 2

structure StrategyAction where
  side : Side
  qty : Quantity
  deriving DecidableEq, Repr

/-- `Strategy::on_tick`, an object's own state made explicit. Where that state is the list of the
ticks so far, this is any function of them. -/
abbrev Strategy (σ : Type) := σ → MarketSnapshot → Option StrategyAction × σ

/-- `kQuantityScale` and `kRiskQuantityScale`. -/
def quantityScale : Int := 1000000

/-- A limit that is 0 does not limit. -/
structure RiskConfig where
  maxPositionQty : Int := 0
  maxNotional : Int := 0
  maxDrawdown : Int := 0
  deriving DecidableEq, Repr

structure RiskManager where
  cfg : RiskConfig
  peakEquity : Int := 0
  halted : Bool := false
  deriving DecidableEq, Repr

/-- The direction factor: what buying and selling do to a position. -/
def Side.dir : Side → Int
  | .buy => 1
  | .sell => -1

namespace RiskManager

def observeEquity (risk : RiskManager) (equity : Int) : RiskManager :=
  let peakEquity := if equity > risk.peakEquity then equity else risk.peakEquity
  let drawdown := peakEquity - equity
  { risk with
    peakEquity
    halted := if risk.halted = false ∧ risk.cfg.maxDrawdown > 0 ∧
      drawdown > risk.cfg.maxDrawdown then
      true else risk.halted }

/-- What is allowed within the room that a limit leaves: nothing if there is no room. -/
def withinRoom (room allowed : Int) : Option Int :=
  if room ≤ 0 then none else some (if room < allowed then room else allowed)

def limitPosition (cfg : RiskConfig) (dir cur allowed : Int) : Option Int :=
  if cfg.maxPositionQty > 0 then
    let post := cur + dir * allowed
    let absPost := if post < 0 then -post else post
    if absPost > cfg.maxPositionQty then withinRoom (cfg.maxPositionQty - cur * dir) allowed
    else some allowed
  else some allowed

def limitNotional (cfg : RiskConfig) (dir cur execPx allowed : Int) : Option Int :=
  if cfg.maxNotional > 0 ∧ execPx > 0 then
    let post := cur + dir * allowed
    let postNotional := ((if post < 0 then -post else post) * execPx).tdiv quantityScale
    if postNotional > cfg.maxNotional then
      let maxAbs := (cfg.maxNotional * quantityScale).tdiv execPx
      withinRoom (maxAbs - cur * dir) allowed
    else some allowed
  else some allowed

def gate (risk : RiskManager) (proposed : StrategyAction) (cur : Int) (execPx : Price) :
    Option StrategyAction :=
  if risk.halted then none
  else do
    let allowed ← limitPosition risk.cfg proposed.side.dir cur proposed.qty.toNat
    let allowed ← limitNotional risk.cfg proposed.side.dir cur execPx.toInt allowed
    if allowed ≤ 0 then none
    else some { side := proposed.side, qty := UInt64.ofNat allowed.toNat }

end RiskManager

end Ob
