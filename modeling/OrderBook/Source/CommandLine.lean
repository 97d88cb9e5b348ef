/-
**The command line.**

`live_trade.cpp`, `main` up to its pipelines: the loop over the arguments, the checks of what they
say, the sinks of the telemetry, and the configurations of risk, strategy and random walk. An end of
the program before there is a pipeline is an `Ended`, with what it prints to `stderr` and the exit
code; the usage it prints is left out.
-/

import OrderBook.Source.Feed
import OrderBook.Source.LiveTrade
import OrderBook.Source.MeanReversion
import OrderBook.Source.RiskWords
import OrderBook.Source.Trader

namespace Ob.LiveTrade

/-! ### Numbers -/

/-- `std::atoi`; `beyond` is what it returns where the number has no 32 bits. -/
def atoi (beyond : List Char → Int32) (s : List Char) : Int32 :=
  let (negative, t) := Double.signOf (s.dropWhile Double.isSpace)
  let digits : Int := Nat.ofDigitChars 10 (t.takeWhile Char.isDigit) 0
  let n := if negative then -digits else digits
  if -2 ^ 31 ≤ n ∧ n < 2 ^ 31 then Int32.ofInt n else beyond s

/-- `std::atof`: 0 where there is no numeral, an infinity where it is too large. -/
def atof (s : List Char) : Float.Model :=
  let (negative, t) := Double.signOf (s.dropWhile Double.isSpace)
  let (whole, fraction, _) := Double.digitsOf Char.isDigit t
  match Double.magnitudeOf (fun _ _ => false) t with
  | some x => if negative then -x else x
  | none =>
    if Double.afterHexLetter t = none ∧ whole ++ fraction = [] then .ofInt 0
    else .pack (.infinity (if negative then .negative else .positive))

example : atoi (fun _ => 0) " -42x".toList = -42 ∧
    atof "-1e999".toList = .pack (.infinity .negative) ∧ atof "x".toList = .ofInt 0 ∧
    atof "0.5".toList = .ofInt 1 / .ofInt 2 := by
  decide +kernel

/-! ### The arguments -/

/-- The options with a value, in the order of their tests. -/
inductive Setting
  | source
  | feed
  | market
  | symbol
  | pollMs
  | seconds
  | seed
  | startPrice
  | sigma
  | drift
  | maxPos
  | maxNotional
  | maxDrawdown
  | log
  | serve
  deriving DecidableEq, Repr

def Setting.name : Setting → List Char
  | .source => "--source".toList
  | .feed => "--feed".toList
  | .market => "--market".toList
  | .symbol => "--symbol".toList
  | .pollMs => "--poll-ms".toList
  | .seconds => "--seconds".toList
  | .seed => "--seed".toList
  | .startPrice => "--start-price".toList
  | .sigma => "--sigma".toList
  | .drift => "--drift".toList
  | .maxPos => "--max-pos".toList
  | .maxNotional => "--max-notional".toList
  | .maxDrawdown => "--max-drawdown".toList
  | .log => "--log".toList
  | .serve => "--serve".toList

def settings : List Setting :=
  [.source, .feed, .market, .symbol, .pollMs, .seconds, .seed, .startPrice, .sigma, .drift, .maxPos,
    .maxNotional, .maxDrawdown, .log, .serve]

def settingOf (a : List Char) : Option Setting := settings.find? (·.name = a)

/-- The local variables that the arguments set. -/
structure CommandLine where
  source : List Char := "synthetic".toList
  feedKind : List Char := "ws".toList
  market : List Char := "futures".toList
  symbol : List Char := "BTCUSDT".toList
  pollMs : Int32 := 250
  runSeconds : Int32 := 0
  seed : UInt32 := 42
  startPrice : Float.Model := .ofInt 80000
  sigma : Float.Model := .ofInt 5
  drift : Float.Model := .ofInt 0
  maxPosBtc : Float.Model := .ofInt 0
  maxNotional : Float.Model := .ofInt 0
  maxDrawdown : Float.Model := .ofInt 0
  logPath : List Char := []
  servePort : Int32 := 0

def CommandLine.set (beyond : List Char → Int32) (c : CommandLine) (setting : Setting)
    (v : List Char) : CommandLine :=
  match setting with
  | .source => { c with source := v }
  | .feed => { c with feedKind := v }
  | .market => { c with market := v }
  | .symbol => { c with symbol := v }
  | .pollMs => { c with pollMs := atoi beyond v }
  | .seconds => { c with runSeconds := atoi beyond v }
  | .seed => { c with seed := (atoi beyond v).toUInt32 }
  | .startPrice => { c with startPrice := atof v }
  | .sigma => { c with sigma := atof v }
  | .drift => { c with drift := atof v }
  | .maxPos => { c with maxPosBtc := atof v }
  | .maxNotional => { c with maxNotional := atof v }
  | .maxDrawdown => { c with maxDrawdown := atof v }
  | .log => { c with logPath := v }
  | .serve => { c with servePort := atoi beyond v }

/-- The ends before there is a pipeline. -/
inductive Ended
  | help
  | missing (what : List Char)
  | unknownArg (a : List Char)
  | unknownMarket (market : List Char)
  | unknownFeed (feedKind : List Char)
  | unknownSource (source : List Char)
  | noSymbols (symbol : List Char)
  | badLog (logPath : List Char)
  /-- `parse_symbols` has thrown `std::out_of_range`. -/
  | outOfRange
  deriving DecidableEq, Repr

def Ended.message : Ended → List Char
  | .help | .outOfRange => []
  | .missing what => "missing arg for ".toList ++ what ++ ['\n']
  | .unknownArg a => "unknown arg: ".toList ++ a ++ ['\n']
  | .unknownMarket market => "unknown market: ".toList ++ market ++ " (use futures|spot)\n".toList
  | .unknownFeed feedKind => "unknown feed: ".toList ++ feedKind ++ " (use ws|rest)\n".toList
  | .unknownSource source =>
    "unknown source: ".toList ++ source ++ " (use binance|synthetic)\n".toList
  | .noSymbols symbol => "no valid symbols in --symbol ".toList ++ symbol ++ ['\n']
  | .badLog logPath => "could not open --log path: ".toList ++ logPath ++ ['\n']

/-- The exit code; a program that an exception leaves has none. -/
def Ended.code : Ended → Option Nat
  | .help => some 0
  | .outOfRange => none
  | _ => some 1

/-- The loop over the arguments. -/
def readArgs (beyond : List Char → Int32) : List (List Char) → CommandLine →
    Except Ended CommandLine
  | [], c => .ok c
  | a :: args, c =>
    match settingOf a, args with
    | some setting, v :: args => readArgs beyond args (c.set beyond setting v)
    | some setting, [] => .error (.missing setting.name)
    | none, _ =>
      if a = "-h".toList ∨ a = "--help".toList then .error .help else .error (.unknownArg a)

example : readArgs (fun _ => 0) ["--feed".toList, "rest".toList, "--seed".toList] {} =
    .error (.missing "--seed".toList) := rfl

/-! ### What follows -/

inductive BinanceMarket
  | spot
  | futures
  deriving DecidableEq, Repr

/-- `bm`, for a live source. -/
def CommandLine.bm (c : CommandLine) : Except Ended BinanceMarket :=
  if c.market = "futures".toList then .ok .futures
  else if c.market = "spot".toList then .ok .spot
  else .error (.unknownMarket c.market)

/-- The check of source, market and feed. The market of a synthetic source is not looked at. -/
def CommandLine.binanceMarket (c : CommandLine) : Except Ended BinanceMarket :=
  if c.source = "binance".toList then do
    let bm ← c.bm
    if c.feedKind ≠ "ws".toList ∧ c.feedKind ≠ "rest".toList then .error (.unknownFeed c.feedKind)
    else .ok bm
  else if c.source ≠ "synthetic".toList then .error (.unknownSource c.source)
  else .ok .futures

/-- The sinks of the telemetry, none if there is none; `good` says which files can be opened. -/
def CommandLine.sinks (good : List Char → Bool) (c : CommandLine) : Except Ended Nat :=
  if c.logPath ≠ [] ∧ good c.logPath = false then .error (.badLog c.logPath)
  else return (if c.logPath ≠ [] then 1 else 0) + (if c.servePort > 0 then 1 else 0)

def CommandLine.riskConfig (on : Platform) (c : CommandLine) : Word.RiskConfig where
  maxPositionQty := (toQty on c.maxPosBtc).toInt64
  maxNotional := toPrice on c.maxNotional
  maxDrawdown := toPrice on c.maxDrawdown

def riskOn (rcfg : Word.RiskConfig) : Bool :=
  (rcfg.maxPositionQty ||| rcfg.maxNotional ||| rcfg.maxDrawdown) ≠ 0

def strategyConfig (on : Platform) : MeanReversion.Config where
  window := 20
  entryBps := .ofScientific 5 (-1)
  tradeQty := toQty on (.ofScientific 1 (-3))
  coolDown := 5

/-- What kind of feed a pipeline gets. -/
def CommandLine.feedKindOf (c : CommandLine) : FeedKind :=
  if c.source = "binance".toList ∧ c.feedKind = "ws".toList then .webSocket else .polling

/-- What `main` goes on with. -/
structure Begun where
  options : Options
  sinkCount : Nat
  market : BinanceMarket
  strategy : MeanReversion.Config
  walk : SyntheticFeed.Config

def CommandLine.begun (on : Platform) (c : CommandLine) (symbols : List (List Char))
    (sinkCount : Nat) (market : BinanceMarket) : Begun :=
  let rcfg := c.riskConfig on
  { options := {
      source := c.source
      feedKind := c.feedKind
      symbols
      kind := c.feedKindOf
      risk := if riskOn rcfg then
          some {
            maxPositionQty := rcfg.maxPositionQty.toInt
            maxNotional := rcfg.maxNotional.toInt
            maxDrawdown := rcfg.maxDrawdown.toInt }
        else none }
    sinkCount
    market
    strategy := strategyConfig on
    walk := { initialPrice := c.startPrice } }

/-- `main`, up to its pipelines. -/
def begins (beyond : List Char → Int32) (on : Platform) (good : List Char → Bool)
    (args : List (List Char)) : Except Ended Begun := do
  let c ← readArgs beyond args {}
  let market ← c.binanceMarket
  let some symbols := parseSymbols c.symbol | .error .outOfRange
  if symbols = [] then .error (.noSymbols c.symbol)
  else
    let sinkCount ← c.sinks good
    return c.begun on symbols sinkCount market

end Ob.LiveTrade
