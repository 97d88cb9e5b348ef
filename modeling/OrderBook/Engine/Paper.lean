/-
**Paper trading without an order book.**

What the engine is for, said directly: a tick shows a price and a size on each side, an action
trades at the price across, for at most the size there. `Paper` is an engine that keeps a strategy,
a risk manager and a position, and no book, no quotes and no flags.
-/

import OrderBook.Source.Engine

namespace Ob

namespace MarketSnapshot

/-- The price that an action on this side trades at. -/
def priceAcross (s : MarketSnapshot) : Side → Price
  | .buy => s.bestAsk
  | .sell => s.bestBid

/-- The size that is there for an action on this side. -/
def sizeAcross (s : MarketSnapshot) : Side → Quantity
  | .buy => s.askQty
  | .sell => s.bidQty

/-- A tick with two prices that are not crossed. -/
def Usable (s : MarketSnapshot) : Prop := s.bestBid ≠ 0 ∧ s.bestAsk ≠ 0 ∧ s.bestBid ≤ s.bestAsk

instance (s : MarketSnapshot) : Decidable s.Usable := inferInstanceAs (Decidable (_ ∧ _))

/-- The fill of an action that has passed the risk gate. -/
def fillOf (s : MarketSnapshot) (now : Timestamp) (a : StrategyAction) : Option Fill :=
  if s.Usable ∧ a.qty ≠ 0 ∧ s.sizeAcross a.side ≠ 0 then
    some
      { side := a.side
        price := s.priceAcross a.side
        qty := min a.qty.toNat (s.sizeAcross a.side).toNat
        eventTs := s.eventTs
        ts := now }
  else none

end MarketSnapshot

/-- A position after a fill. -/
def Position.after (pos : Position) (fill : Fill) : Position :=
  let notional := ((fill.qty : Int) * fill.price.toInt).tdiv quantityScale
  match fill.side with
  | .buy =>
    { btcQty := pos.btcQty + fill.qty, cash := pos.cash - notional,
      grossVolume := pos.grossVolume + fill.qty, fills := pos.fills + 1 }
  | .sell =>
    { btcQty := pos.btcQty - fill.qty, cash := pos.cash + notional,
      grossVolume := pos.grossVolume + fill.qty, fills := pos.fills + 1 }

/-- What a tick makes the engine tell is a fill and the one trade of it, or nothing. -/
def Report.Tells (report : Report) (fill : Option Fill) : Prop :=
  report.fills = fill.toList ∧
    report.trades.map (fun t => (t.price, t.qty.toNat)) = fill.toList.map fun f => (f.price, f.qty)

structure Paper (σ : Type) where
  strategy : σ
  risk : Option RiskManager
  pos : Position

namespace Paper

variable {σ : Type}

def new (strategy : σ) (cfg : Option RiskConfig) : Paper σ where
  strategy
  risk := cfg.map fun cfg => { cfg }
  pos := {}

/-- The action that is left of a proposed one by the risk gate, at the price it would trade at. -/
def gated (risk : Option RiskManager) (pos : Position) (s : MarketSnapshot)
    (proposed : StrategyAction) :
    Option StrategyAction :=
  match risk with
  | none => some proposed
  | some risk => risk.gate proposed pos.btcQty (s.priceAcross proposed.side)

/-- The fill of a proposed action. -/
def fill (risk : Option RiskManager) (pos : Position) (s : MarketSnapshot) (now : Timestamp)
    (proposed : StrategyAction) : Option Fill :=
  (gated risk pos s proposed).bind (s.fillOf now)

/-- One event: equity is marked, the strategy proposes, the gate decides, and there is a fill or
not. -/
def onEvent (onTick : Strategy σ) (p : Paper σ) (arrival : Arrival) : Paper σ × Option Fill :=
  match arrival.event.kind with
  | .error => (p, none)
  | .bookTicker =>
    let s := arrival.event.snapshot
    let risk := p.risk.map fun risk : RiskManager => risk.observeEquity (p.pos.equityAt s.mid)
    let (act, strategy) := onTick p.strategy s
    let fill := act.bind (fill risk p.pos s arrival.now)
    ({ strategy, risk, pos := fill.elim p.pos p.pos.after }, fill)

end Paper

end Ob
