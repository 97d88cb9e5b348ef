/-
**The paper-trading engine on machine words.**

`trading_engine.hpp` and `trading_engine.cpp` as the machine computes them: position, cash, equity,
notionals and mid prices are 64-bit words in two's complement, volumes and counts unsigned ones, and
every operation wraps. `Source/Engine.lean` and `Source/MeanReversion.lean` have the same code on
unbounded integers. What has no arithmetic in it, the keeping of the quotes, is taken from there.
-/

import OrderBook.Engine.GateWords
import OrderBook.Source.Engine
import OrderBook.Source.MeanReversion

namespace Ob.Word

/-- `MarketSnapshot::mid` -/
def mid (s : MarketSnapshot) : Price := (s.bestBid + s.bestAsk) / 2

structure Position where
  btcQty : Int64 := 0
  cash : Int64 := 0
  grossVolume : Quantity := 0
  fills : UInt64 := 0
  deriving DecidableEq, Repr

def Position.equityAt (pos : Position) (mid : Price) : Int64 :=
  let notional := pos.btcQty * mid / quantityScale
  pos.cash + notional

def RiskManager.observeEquity (risk : RiskManager) (equity : Int64) : RiskManager :=
  let peakEquity := if equity > risk.peakEquity then equity else risk.peakEquity
  let drawdown := peakEquity - equity
  { risk with
    peakEquity
    halted := if risk.halted = false ∧ risk.cfg.maxDrawdown > 0 ∧
      drawdown > risk.cfg.maxDrawdown then
      true else risk.halted }

structure Fill where
  side : Side
  price : Price
  qty : Quantity
  eventTs : Timestamp
  ts : Timestamp
  deriving DecidableEq, Repr

structure Report where
  trades : List Trade := []
  fills : List Fill := []
  deriving DecidableEq, Repr

/-- What the callback of a taker collects. -/
structure Collected where
  filled : Quantity := 0
  cashDelta : Int64 := 0
  aggVolume : Quantity := 0
  lastPx : Price := 0
  trades : List Trade
  deriving DecidableEq, Repr

/-- One trade of a taker. -/
def Collected.add (side : Side) (c : Collected) (t : Trade) : Collected :=
  let notional := t.qty.toInt64 * t.price / quantityScale
  { filled := c.filled + t.qty
    cashDelta := c.cashDelta + match side with
      | .buy => -notional
      | .sell => notional
    aggVolume := c.aggVolume + t.qty
    lastPx := t.price
    trades := c.trades ++ [t] }

/-- The callback of a taker. -/
def collect (side : Side) : TradeCallback Collected := fun c t => some (c.add side t)

/-- The fill of a taker is booked. -/
def Position.book (pos : Position) (side : Side) (c : Collected) : Position where
  btcQty := match side with
    | .buy => pos.btcQty + c.filled.toInt64
    | .sell => pos.btcQty - c.filled.toInt64
  cash := pos.cash + c.cashDelta
  grossVolume := pos.grossVolume + c.aggVolume
  fills := pos.fills + 1

/-! ### What the words stand for -/

def Position.ints (pos : Position) : Ob.Position where
  btcQty := pos.btcQty.toInt
  cash := pos.cash.toInt
  grossVolume := pos.grossVolume.toNat
  fills := pos.fills.toNat

def Fill.ints (fill : Fill) : Ob.Fill where
  side := fill.side
  price := fill.price
  qty := fill.qty.toNat
  eventTs := fill.eventTs
  ts := fill.ts

def Report.ints (report : Report) : Ob.Report where
  trades := report.trades
  fills := report.fills.map Fill.ints

/-! ### The engine -/

structure TradingEngine (σ : Type) where
  strategy : σ
  risk : Option RiskManager
  pos : Position := {}
  nextId : OrderId := 3
  lastMid : Price := 0
  book : OrderBook
  bid : Quote := {}
  ask : Quote := {}

namespace TradingEngine

variable {σ : Type}

def new (strategy : σ) (cfg : Option RiskConfig) : TradingEngine σ where
  strategy
  risk := cfg.map fun cfg => { cfg }
  book := OrderBook.new Ob.TradingEngine.poolCapacity

/-- The engine on integers that the words stand for. -/
def ints (w : TradingEngine σ) : Ob.TradingEngine σ where
  strategy := w.strategy
  risk := w.risk.map RiskManager.ints
  pos := w.pos.ints
  nextId := w.nextId
  lastMid := w.lastMid.toInt
  book := w.book
  bid := w.bid
  ask := w.ask

def quote (w : TradingEngine σ) : Side → Quote := w.ints.quote

/-- The book and the quotes of another engine. -/
def withQuotes (w : TradingEngine σ) (e : Ob.TradingEngine σ) : TradingEngine σ :=
  { w with book := e.book, bid := e.bid, ask := e.ask }

def placeQuote (w : TradingEngine σ) (side : Side) (trades : List Trade) :
    Mem (TradingEngine σ × List Trade) := do
  let (e, trades) ← w.ints.placeQuote side trades
  return (w.withQuotes e, trades)

def refreshQuotes (w : TradingEngine σ) (s : MarketSnapshot) :
    Mem (TradingEngine σ × List Trade) := do
  let (e, trades) ← w.ints.refreshQuotes s
  return (w.withQuotes e, trades)

/-- The action after the risk gate, if there is one. -/
def gated (w : TradingEngine σ) (proposed : StrategyAction) : Option StrategyAction :=
  match w.risk with
  | none => some proposed
  | some risk => risk.gate proposed w.pos.btcQty (w.quote proposed.side.opposite).cur

/-- The last part of `apply_action`: the taker crosses the quote. -/
def take (w : TradingEngine σ) (a : StrategyAction) (s : MarketSnapshot) (now : Timestamp)
    (trades : List Trade) : Mem (TradingEngine σ × Report) := do
  let q := w.quote a.side.opposite
  let done ← w.book.submit (w.ints.takerTicket a) (collect a.side) { trades }
  let w := { w with nextId := w.nextId + 1, book := done.book }
  let w :=
    if Ob.TradingEngine.bestAcross w.book a.side = 0 then
      w.withQuotes (w.ints.withQuote a.side.opposite { q with live := false })
    else w
  let c := done.seen
  if c.filled = 0 then return (w, { trades := c.trades })
  else
    let fill : Fill :=
      { side := a.side, price := c.lastPx, qty := c.filled, eventTs := s.eventTs, ts := now }
    return ({ w with pos := w.pos.book a.side c }, { trades := c.trades, fills := [fill] })

def applyAction (w : TradingEngine σ) (proposed : StrategyAction) (s : MarketSnapshot)
    (now : Timestamp) (trades : List Trade) : Mem (TradingEngine σ × Report) := do
  if proposed.qty = 0 then return (w, { trades })
  else
    match w.gated proposed with
    | none => return (w, { trades })
    | some a =>
      let q := w.quote a.side.opposite
      if a.qty = 0 ∨ q.cur = 0 ∨ q.curQty = 0 then return (w, { trades })
      else
        let (w, trades) ← (if q.live then pure (w, trades) else w.placeQuote a.side.opposite trades)
        if (w.quote a.side.opposite).live then w.take a s now trades else return (w, { trades })

/-- The body of the loop of `run`. -/
def onEvent (onTick : Strategy σ) (w : TradingEngine σ) (arrival : Arrival) :
    Mem (TradingEngine σ × Report) := do
  match arrival.event.kind with
  | .error => return (w, {})
  | .bookTicker =>
    let snap := arrival.event.snapshot
    let w := { w with
      lastMid := mid snap
      risk := w.risk.map fun risk : RiskManager => risk.observeEquity (w.pos.equityAt (mid snap)) }
    let (w, trades) ← w.refreshQuotes snap
    let (act, strategy) := onTick w.strategy snap
    let w := { w with strategy }
    match act with
    | none => return (w, { trades })
    | some act => w.applyAction act snap arrival.now trades

end TradingEngine

/-! ### The strategy -/

structure MeanReversion where
  window : List Price := []
  sum : Int64 := 0
  sinceAction : UInt64 := 0
  deriving DecidableEq, Repr

namespace MeanReversion

def push (cfg : Ob.MeanReversion.Config) (r : MeanReversion) (mid : Price) : MeanReversion :=
  let window := r.window ++ [mid]
  let sum := r.sum + mid
  if window.length > cfg.window then
    { r with
      window := window.tail
      sum := sum - window.headD 0 }
  else { r with window, sum }

def tickWith (side : Int → Float.Model → Option Side) (cfg : Ob.MeanReversion.Config)
    (r : MeanReversion) (s : MarketSnapshot) : Option StrategyAction × MeanReversion :=
  if mid s = 0 then (none, r)
  else
    let r := r.push cfg (mid s)
    if r.window.length < cfg.window then (none, r)
    else
      let waited := r.sinceAction
      let r := { r with sinceAction := r.sinceAction + 1 }
      if waited.toNat < cfg.coolDown then (none, r)
      else
        let mean := Float.Model.ofInt r.sum.toInt / Float.Model.ofNat r.window.length
        match side (mid s).toInt mean with
        | some side => (some { side, qty := cfg.tradeQty }, { r with sinceAction := 0 })
        | none => (none, r)

def onTick (cfg : Ob.MeanReversion.Config) : Strategy MeanReversion :=
  tickWith (Ob.MeanReversion.entry cfg) cfg

/-- The strategy on integers that the words stand for. -/
def ints (r : MeanReversion) : Ob.MeanReversion where
  window := r.window.map Int64.toInt
  sum := r.sum.toInt
  sinceAction := r.sinceAction.toNat

end MeanReversion

end Ob.Word
