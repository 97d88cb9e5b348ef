/-
**The mean-reversion strategy.**

`strategy.hpp` and `trading_engine.cpp`. The strategy keeps the latest mid prices, their sum and the
number of ticks it has waited since it acted last. Sum and counts are unbounded here; the mean and
the deviation from it are doubles, rounded as the source's are. What is done with the mean is a
parameter of `tickWith`, of which `onTick` is the source's case.
-/

import OrderBook.Source.Risk

namespace Ob

/-- The strategy's own state; `window` is the deque, its front first. -/
structure MeanReversion where
  window : List Int := []
  sum : Int := 0
  sinceAction : Nat := 0
  deriving DecidableEq, Repr

namespace MeanReversion

structure Config where
  window : Nat := 100
  entryBps : Float.Model := .ofNat 5
  tradeQty : Quantity := 1000
  coolDown : Nat := 20

/-- The new mid price enters, and the oldest leaves a window that has become too long. -/
def push (cfg : Config) (r : MeanReversion) (mid : Int) : MeanReversion :=
  let window := r.window ++ [mid]
  let sum := r.sum + mid
  if window.length > cfg.window then
    { r with
      window := window.tail
      sum := sum - window.headD 0 }
  else { r with window, sum }

/-- `on_tick` with any rule that finds a side in the mid price and the mean. -/
def tickWith (side : Int → Float.Model → Option Side) (cfg : Config) (r : MeanReversion)
    (s : MarketSnapshot) : Option StrategyAction × MeanReversion :=
  if s.mid = 0 then (none, r)
  else
    let r := r.push cfg s.mid
    if r.window.length < cfg.window then (none, r)
    else
      let waited := r.sinceAction
      let r := { r with sinceAction := r.sinceAction + 1 }
      if waited < cfg.coolDown then (none, r)
      else
        let mean := Float.Model.ofInt r.sum / Float.Model.ofNat r.window.length
        match side s.mid mean with
        | some side => (some { side, qty := cfg.tradeQty }, { r with sinceAction := 0 })
        | none => (none, r)

/-- Against a deviation of at least `entryBps` basis points. -/
def entry (cfg : Config) (mid : Int) (mean : Float.Model) : Option Side :=
  let deviationBps := (Float.Model.ofInt mid - mean) * .ofScientific 1 4 / mean
  if deviationBps ≤ -cfg.entryBps then some .buy
  else if deviationBps ≥ cfg.entryBps then some .sell
  else none

def onTick (cfg : Config) : Strategy MeanReversion := tickWith (entry cfg) cfg

end MeanReversion

end Ob
