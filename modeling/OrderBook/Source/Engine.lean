/-
**The paper-trading engine.**

The class `TradingEngine` of `trading_engine.hpp` and `trading_engine.cpp`. Every tick of the feed
is put into an order book of the engine's own as two synthetic quotes, and an action of the strategy
becomes an immediate-or-cancel order against them. `onEvent` is the body of the loop of `run`; it
reports what the book and the engine tell the outside: the trades of the tick and the calls of
`on_fill`.

What the source keeps twice, once for the bid and once for the ask, is a `Quote` here, and the code
that it repeats for the two sides has the side as a parameter.
-/

import OrderBook.Source.Book
import OrderBook.Source.Risk

namespace Ob

inductive MarketEventKind
  | bookTicker
  | error
  deriving DecidableEq, Repr

structure MarketEvent where
  kind : MarketEventKind := .bookTicker
  bestBid : Price := 0
  bestAsk : Price := 0
  bidQty : Quantity := 0
  askQty : Quantity := 0
  lastTrade : Price := 0
  ts : Timestamp := 0
  deriving DecidableEq, Repr

def MarketEvent.snapshot (ev : MarketEvent) : MarketSnapshot where
  bestBid := ev.bestBid
  bestAsk := ev.bestAsk
  bidQty := ev.bidQty
  askQty := ev.askQty
  lastTrade := ev.lastTrade
  eventTs := ev.ts

/-- An event taken from the queue, and the steady clock's reading while the engine works on it. -/
structure Arrival where
  event : MarketEvent
  now : Timestamp := 0
  deriving DecidableEq, Repr

structure Position where
  btcQty : Int := 0
  cash : Int := 0
  grossVolume : Nat := 0
  fills : Nat := 0
  deriving DecidableEq, Repr

structure Fill where
  side : Side
  price : Price
  qty : Nat
  eventTs : Timestamp
  ts : Timestamp
  deriving DecidableEq, Repr

/-- What the engine keeps of one of its quotes: `bid_quote_live_`, `cur_bid_` and `cur_bid_qty_`, or
`ask_quote_live_`, `cur_ask_` and `cur_ask_qty_`. -/
structure Quote where
  live : Bool := false
  cur : Price := 0
  curQty : Quantity := 0
  deriving DecidableEq, Repr

/-- `equity_at`, of a position. -/
def Position.equityAt (pos : Position) (mid : Int) : Int :=
  pos.cash + (pos.btcQty * mid).tdiv quantityScale

structure TradingEngine (σ : Type) where
  strategy : σ
  risk : Option RiskManager
  pos : Position := {}
  nextId : OrderId := 3
  lastMid : Int := 0
  book : OrderBook
  bid : Quote := {}
  ask : Quote := {}

/-- What a tick makes the engine tell: the trades that its book reports and the calls of
`on_fill`. -/
structure Report where
  trades : List Trade := []
  fills : List Fill := []
  deriving DecidableEq, Repr

/-- What the callback of a taker collects. -/
structure Collected where
  filled : Nat := 0
  cashDelta : Int := 0
  aggVolume : Nat := 0
  lastPx : Price := 0
  trades : List Trade
  deriving DecidableEq, Repr

/-- The callback of a taker. -/
def collect (side : Side) : TradeCallback Collected := fun c t =>
  let notional := ((t.qty.toNat : Int) * t.price.toInt).tdiv quantityScale
  some
    { filled := c.filled + t.qty.toNat
      cashDelta := c.cashDelta + match side with
        | .buy => -notional
        | .sell => notional
      aggVolume := c.aggVolume + t.qty.toNat
      lastPx := t.price
      trades := c.trades ++ [t] }

/-- The fill of a taker is booked. -/
def Position.book (pos : Position) (side : Side) (c : Collected) : Position where
  btcQty := match side with
    | .buy => pos.btcQty + c.filled
    | .sell => pos.btcQty - c.filled
  cash := pos.cash + c.cashDelta
  grossVolume := pos.grossVolume + c.aggVolume
  fills := pos.fills + 1

/-- The callback of a quote, which ignores the trade. The report of the tick does not. -/
def noop : TradeCallback (List Trade) := fun trades t => some (trades ++ [t])

namespace TradingEngine

variable {σ : Type}

/-- `kBidQuoteId` and `kAskQuoteId`. -/
def quoteId : Side → OrderId
  | .buy => 1
  | .sell => 2

/-- The order that puts a quote into the book. -/
def quoteTicket (side : Side) (price : Price) (qty : Quantity) (ts : Timestamp) : Ticket :=
  { id := quoteId side, price, qty, ts, side, type := .limit }

/-- The default of the order book's constructor. -/
def poolCapacity : Nat := 2 ^ 20

/-- A new engine; `set_risk` may be called before it starts. -/
def new (strategy : σ) (cfg : Option RiskConfig) : TradingEngine σ where
  strategy
  risk := cfg.map fun cfg => { cfg }
  book := OrderBook.new poolCapacity

def quote (e : TradingEngine σ) : Side → Quote
  | .buy => e.bid
  | .sell => e.ask

def withQuote (e : TradingEngine σ) (side : Side) (q : Quote) : TradingEngine σ :=
  { e with
    bid := match side with
      | .buy => q
      | .sell => e.bid
    ask := match side with
      | .buy => e.ask
      | .sell => q }

/-- `if (bid_quote_live_) { book_.cancel(kBidQuoteId); bid_quote_live_ = false; }` -/
def cancelQuote (e : TradingEngine σ) (side : Side) : Mem (TradingEngine σ) := do
  if (e.quote side).live then
    let (book, _) ← e.book.cancel (quoteId side)
    return { e.withQuote side { e.quote side with live := false } with book }
  else return e

/-- `if (book_.submit(kBidQuoteId, …, noop)) bid_quote_live_ = true;` -/
def placeQuote (e : TradingEngine σ) (side : Side) (trades : List Trade) :
    Mem (TradingEngine σ × List Trade) := do
  let q := e.quote side
  let done ← e.book.submit (quoteTicket side q.cur q.curQty 0) noop trades
  let live := if done.ret = some true then true else q.live
  return ({ e.withQuote side { q with live } with book := done.book }, done.seen)

/-- `if (cur_bid_qty_ > 0 && book_.submit(kBidQuoteId, …, noop)) bid_quote_live_ = true;` -/
def drawQuote (e : TradingEngine σ) (side : Side) (trades : List Trade) :
    Mem (TradingEngine σ × List Trade) :=
  if (e.quote side).curQty > 0 then e.placeQuote side trades else return (e, trades)

def refreshQuotes (e : TradingEngine σ) (s : MarketSnapshot) :
    Mem (TradingEngine σ × List Trade) := do
  let e ← e.cancelQuote .buy
  let e ← e.cancelQuote .sell
  if s.bestBid = 0 ∨ s.bestAsk = 0 ∨ s.bestBid > s.bestAsk then
    return ({ e with
      bid := { e.bid with cur := 0, curQty := 0 }
      ask := { e.ask with cur := 0, curQty := 0 } }, [])
  else
    let e := { e with
      bid := { e.bid with cur := s.bestBid, curQty := s.bidQty }
      ask := { e.ask with cur := s.bestAsk, curQty := s.askQty } }
    if s.bestBid < s.bestAsk then
      let (e, trades) ← e.drawQuote .buy []
      e.drawQuote .sell trades
    else return (e, [])

/-- The action after the risk gate, if there is one. -/
def gated (e : TradingEngine σ) (proposed : StrategyAction) : Option StrategyAction :=
  match e.risk with
  | none => some proposed
  | some risk => risk.gate proposed e.pos.btcQty (e.quote proposed.side.opposite).cur

/-- The order of a taker, at the price of the quote across. -/
def takerTicket (e : TradingEngine σ) (a : StrategyAction) : Ticket :=
  { id := e.nextId, price := (e.quote a.side.opposite).cur, qty := a.qty, ts := 0, side := a.side,
    type := .ioc }

/-- The best price that a taker of this side can still trade at. -/
def bestAcross (book : OrderBook) : Side → Price
  | .buy => book.bestAsk
  | .sell => book.bestBid

/-- The last part of `apply_action`: the taker crosses the quote. -/
def take (e : TradingEngine σ) (a : StrategyAction) (s : MarketSnapshot) (now : Timestamp)
    (trades : List Trade) : Mem (TradingEngine σ × Report) := do
  let q := e.quote a.side.opposite
  let done ← e.book.submit (e.takerTicket a) (collect a.side) { trades }
  let e := { e with nextId := e.nextId + 1, book := done.book }
  let e :=
    if bestAcross e.book a.side = 0 then e.withQuote a.side.opposite { q with live := false } else e
  let c := done.seen
  if c.filled = 0 then return (e, { trades := c.trades })
  else
    let fill : Fill :=
      { side := a.side, price := c.lastPx, qty := c.filled, eventTs := s.eventTs, ts := now }
    return ({ e with pos := e.pos.book a.side c }, { trades := c.trades, fills := [fill] })

def applyAction (e : TradingEngine σ) (proposed : StrategyAction) (s : MarketSnapshot)
    (now : Timestamp) (trades : List Trade) : Mem (TradingEngine σ × Report) := do
  if proposed.qty = 0 then return (e, { trades })
  else
    match e.gated proposed with
    | none => return (e, { trades })
    | some a =>
      let q := e.quote a.side.opposite
      if a.qty = 0 ∨ q.cur = 0 ∨ q.curQty = 0 then return (e, { trades })
      else
        let (e, trades) ← (if q.live then pure (e, trades) else e.placeQuote a.side.opposite trades)
        if (e.quote a.side.opposite).live then e.take a s now trades else return (e, { trades })

/-- The body of the loop of `run`. -/
def onEvent (onTick : Strategy σ) (e : TradingEngine σ) (arrival : Arrival) :
    Mem (TradingEngine σ × Report) := do
  match arrival.event.kind with
  | .error => return (e, {})
  | .bookTicker =>
    let snap := arrival.event.snapshot
    let e := { e with
      lastMid := snap.mid
      risk := e.risk.map fun risk : RiskManager => risk.observeEquity (e.pos.equityAt snap.mid) }
    let (e, trades) ← e.refreshQuotes snap
    let (act, strategy) := onTick e.strategy snap
    let e := { e with strategy }
    match act with
    | none => return (e, { trades })
    | some act => e.applyAction act snap arrival.now trades

end TradingEngine

end Ob
