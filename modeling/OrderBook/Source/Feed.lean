/-
**What the feeds make of numbers.**

`feed.cpp`: the conversions between doubles and scaled integers, the parsers of a server's answer and
of a message, and the tick of the random walk. `from_price` and `from_qty` stand with the telemetry
that uses them.

The library that reads JSON is the argument `get`: `get payload key` is what
`json::parse(payload).at(key).get<std::string>()` gives, or nothing where that throws. What the
standards leave open is a `Platform`, and a normal distribution is the list of what it is drawn.
-/

import OrderBook.Library.Numerals
import OrderBook.Source.Telemetry

namespace Ob

/-- What the standards of C and C++ leave to an implementation: the result of `llround` where it does
not fit, and whether a number too small for a normal double is an error of `std::stod`, which may depend
on the number and on the double it is rounded to. -/
structure Platform where
  llround : Float.Model → Int64
  underflow : ℚ → Float.Model → Bool

def toPrice (on : Platform) (usd : Float.Model) : Price :=
  Double.llround on.llround (usd * .ofInt priceScale)

def toQty (on : Platform) (btc : Float.Model) : Quantity :=
  (Double.llround on.llround (btc * .ofInt quantityScale)).toUInt64

/-! ### Ticks of an exchange -/

/-- The keys of the four numbers, which differ between the messages and the answers. -/
structure TickerKeys where
  bid : List Char
  ask : List Char
  bidQty : List Char
  askQty : List Char

def messageKeys : TickerKeys where
  bid := ['b']
  ask := ['a']
  bidQty := ['B']
  askQty := ['A']

def answerKeys : TickerKeys where
  bid := "bidPrice".toList
  ask := "askPrice".toList
  bidQty := "bidQty".toList
  askQty := "askQty".toList

/-- The part that both parsers have. It returns nothing where an exception is thrown, which is before
`out` is written to. -/
def readTicker (on : Platform) (get : List Char → List Char → Option (List Char))
    (keys : TickerKeys) (payload : List Char) (out : MarketEvent) : Option MarketEvent := do
  let bid ← (get payload keys.bid).bind (Double.stod on.underflow)
  let ask ← (get payload keys.ask).bind (Double.stod on.underflow)
  let bqty ← (get payload keys.bidQty).bind (Double.stod on.underflow)
  let aqty ← (get payload keys.askQty).bind (Double.stod on.underflow)
  return { out with
    kind := .bookTicker
    bestBid := toPrice on bid
    bestAsk := toPrice on ask
    bidQty := toQty on bqty
    askQty := toQty on aqty
    lastTrade := (toPrice on bid + toPrice on ask) / 2 }

def parseWsBookTicker (on : Platform) (get : List Char → List Char → Option (List Char))
    (payload : List Char) (out : MarketEvent) : Bool × MarketEvent :=
  match readTicker on get messageKeys payload out with
  | some ev => (true, ev)
  | none => (false, out)

/-- What a transfer ended with, if there was a handle for one. -/
structure Reply where
  ok : Bool
  httpCode : Int
  body : List Char

def fetchOnce (on : Platform) (get : List Char → List Char → Option (List Char))
    (reply : Option Reply) (now : Timestamp) (out : MarketEvent) : Bool × MarketEvent :=
  match reply with
  | none => (false, out)
  | some reply =>
    if reply.ok = false ∨ reply.httpCode ≠ 200 then (false, out)
    else
      match readTicker on get answerKeys reply.body out with
      | some ev => (true, { ev with ts := now })
      | none => (false, out)

/-! ### The random walk -/

/-- The part of the configuration that `run` reads itself. -/
structure SyntheticFeed.Config where
  initialPrice : Float.Model := .ofInt 80000
  spread : Float.Model := .ofInt 1 / .ofInt 2

namespace SyntheticFeed

/-- One step, down to a floor. -/
def walk (mid step : Float.Model) : Float.Model :=
  let mid := mid + step
  if mid < .ofInt 1 then .ofInt 1 else mid

/-- The event of a mid price. -/
def tick (on : Platform) (cfg : Config) (mid : Float.Model) (now : Timestamp) : MarketEvent where
  kind := .bookTicker
  bestBid := toPrice on (mid - cfg.spread / .ofInt 2)
  bestAsk := toPrice on (mid + cfg.spread / .ofInt 2)
  bidQty := toQty on (.ofInt 1)
  askQty := toQty on (.ofInt 1)
  lastTrade := toPrice on mid
  ts := now

/-- The events of `run`, from a mid price on: for every turn what is drawn, and the clock. -/
def ticks (on : Platform) (cfg : Config) : Float.Model → List (Float.Model × Timestamp) →
    List MarketEvent
  | _, [] => []
  | mid, (step, now) :: turns =>
    let mid := walk mid step
    tick on cfg mid now :: ticks on cfg mid turns

def run (on : Platform) (cfg : Config) (turns : List (Float.Model × Timestamp)) : List MarketEvent :=
  ticks on cfg cfg.initialPrice turns

end SyntheticFeed

end Ob
