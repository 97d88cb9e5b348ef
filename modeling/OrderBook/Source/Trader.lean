/-
**The program.**

`main` of `live_trade.cpp`, from the start of the telemetry to its end, with the pipelines it builds
and the telemetry publisher: the main thread starts and stops all of them, the engine's thread of
each pipeline books its fills and publishes them, and every two seconds the main thread publishes
the status of every pipeline. A thread that is in a call of the publisher goes on with that call
before it does anything else.

The main thread looks at a position while an engine may be writing it, so what it reads of one, as
of every clock and of the flag that a signal sets, is any value.
-/

import OrderBook.Source.LatencyHist
import OrderBook.Source.Pipeline
import OrderBook.Source.Publisher
import OrderBook.Source.Telemetry

namespace Ob.LiveTrade

/-- What the program was told on its command line. -/
structure Options where
  source : List Char
  feedKind : List Char
  symbols : List (List Char)
  kind : FeedKind
  risk : Option RiskConfig

/-- One pipeline for each symbol. -/
abbrev Options.Pipe (o : Options) : Type := Fin o.symbols.length

def Options.symbol (o : Options) (i : o.Pipe) : List Char := o.symbols.get i

/-- Where the main thread is. -/
inductive Stage (Pipe : Type)
  /-- Before `telemetry->start()`. -/
  | opens
  /-- Before the record of the symbols is published. -/
  | greets
  /-- Before these parts are started. -/
  | starts (todo : List (Pipe × Part))
  /-- In the loop, before these pipelines' status is published. -/
  | loops (todo : List Pipe)
  /-- Before these parts are stopped. -/
  | closes (todo : List (Pipe × Part))
  /-- After the call of `tel->stop()`. -/
  | ended
  deriving DecidableEq, Repr

/-- The program: `lat_hist` is kept beside each pipeline. -/
structure Trader (σ : Type) (o : Options) where
  stage : Stage o.Pipe := .opens
  pipes : o.Pipe → Pipeline σ
  latHist : o.Pipe → LatencyHistogram := fun _ => .reset
  telemetry : TelemetryPublisher.State TelemetryRecord (Option (List Char)) (Option o.Pipe)

namespace Trader

variable {σ : Type} {o : Options}

/-- The queues have 1024 slots. A producer of the publisher is an engine's thread or the main
one. -/
def new (o : Options) (strategy : σ) (sinkCount : Nat) : Trader σ o where
  pipes := fun _ => .new o.kind 10 strategy o.risk
  telemetry := TelemetryPublisher.new sinkCount

/-- What can be told of a step: something of a pipeline, or of the publisher by the thread of an
engine or by the main one. -/
inductive Event (o : Options)
  | pipe (i : o.Pipe) (event : Pipeline.Event)
  | telemetry (by_ : Option o.Pipe) (event : TelemetryPublisher.Event TelemetryRecord)

/-- A step of a thread in a pipeline. -/
def inPipe (onTick : Strategy σ) (t : Trader σ o) (i : o.Pipe) (action : Pipeline.Action) :
    Except Pipeline.Failure (Trader σ o × Option Pipeline.Event) :=
  match (t.pipes i).step onTick action with
  | .error failure => .error failure
  | .ok (p, event) => .ok ({ t with pipes := Function.update t.pipes i p }, event)

/-- A step of a thread in the publisher. -/
def inTelemetry (t : Trader σ o) (by_ : Option o.Pipe)
    (action : TelemetryPublisher.Action TelemetryRecord (Option o.Pipe)) :
    Trader σ o × List (Event o) :=
  let (telemetry, event) :=
    TelemetryPublisher.step TelemetryRecord.toJsonLine t.telemetry action
  ({ t with telemetry }, event.toList.map (.telemetry by_))

/-- `on_fill`, up to the call of `publish`. -/
def onFill (t : Trader σ o) (i : o.Pipe) (tsNs : UInt64) (f : Fill) : Trader σ o × List (Event o) :=
  let latNs := if f.ts > f.eventTs then f.ts - f.eventTs else 0
  { t with latHist := Function.update t.latHist i ((t.latHist i).add latNs) }.inTelemetry (some i)
    (.publish (some i) (fillRecord tsNs (o.symbol i) f))

/-- One step of an engine's thread: in a call of the publisher, or in its own loop. -/
def engineStep (onTick : Strategy σ) (t : Trader σ o) (i : o.Pipe) (now : Timestamp)
    (tsNs : UInt64) : Except Pipeline.Failure (Trader σ o × List (Event o)) :=
  match t.telemetry.producers (some i) with
  | .idle => do
    let (t, event) ← t.inPipe onTick i (.engine now)
    match event with
    | some (.told f) =>
      let (t, events) := t.onFill i tsNs f
      return (t, .pipe i (.told f) :: events)
    | event => return (t, event.toList.map (.pipe i))
  | _ => .ok (t.inTelemetry (some i) (.producer (some i)))

/-- What the main thread reads: of the clock, of the flag that ends the loop, of an engine. -/
structure Glance where
  tsNs : UInt64 := 0
  stop : Bool := false
  position : Position := {}
  mid : Price := 0
  later : Position := {}

/-- The part of a pipeline that the main thread is in a call of. -/
def busy (t : Trader σ o) : Option o.Pipe :=
  (List.finRange o.symbols.length).find? fun i => (t.pipes i).control ≠ .idle

/-- The parts of all pipelines, in this order. -/
def parts (o : Options) (first second : Part) : List (o.Pipe × Part) :=
  (List.finRange o.symbols.length).flatMap fun i => [(i, first), (i, second)]

/-- One step of the main thread: in a call, or on to the next one. -/
def mainStep (onTick : Strategy σ) (t : Trader σ o) (glance : Glance) :
    Except Pipeline.Failure (Trader σ o × List (Event o)) :=
  match t.telemetry.producers none, t.telemetry.control, t.busy with
  | .idle, .idle, none =>
    match t.stage with
    | .opens => .ok ({ t with stage := .greets }.inTelemetry none .start)
    | .greets =>
      .ok ({ t with stage := .starts (parts o .feed .engine) }.inTelemetry none
        (.publish none (metaRecord glance.tsNs o.source o.feedKind o.symbols)))
    | .starts ((i, part) :: todo) => do
      let (t, event) ← { t with stage := .starts todo }.inPipe onTick i (.start part)
      return (t, event.toList.map (.pipe i))
    | .starts [] => .ok ({ t with stage := .loops [] }, [])
    | .loops (i :: todo) =>
      .ok ({ t with stage := .loops todo }.inTelemetry none (.publish none
        (statusRecord glance.tsNs (o.symbol i) glance.position glance.mid glance.later)))
    | .loops [] =>
      if glance.stop then .ok ({ t with stage := .closes (parts o .engine .feed) }, [])
      else .ok ({ t with stage := .loops (List.finRange o.symbols.length) }, [])
    | .closes ((i, part) :: todo) => do
      let (t, event) ← { t with stage := .closes todo }.inPipe onTick i (.stop part)
      return (t, event.toList.map (.pipe i))
    | .closes [] => .ok ({ t with stage := .ended }.inTelemetry none .stop)
    | .ended => .ok (t, [])
  | .idle, .idle, some i => do
    let (t, event) ← t.inPipe onTick i .control
    return (t, event.toList.map (.pipe i))
  | .idle, _, _ => .ok (t.inTelemetry none .control)
  | _, _, _ => .ok (t.inTelemetry none (.producer none))

/-- Which thread goes on, and what it gets from outside. -/
inductive Action (o : Options)
  | main (glance : Glance)
  | feed (i : o.Pipe) (got : Option MarketEvent)
  | socket (i : o.Pipe) (got : Option MarketEvent)
  | engine (i : o.Pipe) (now : Timestamp) (tsNs : UInt64)
  | worker
  | spurious

def step (onTick : Strategy σ) (t : Trader σ o) :
    Action o → Except Pipeline.Failure (Trader σ o × List (Event o))
  | .main glance => t.mainStep onTick glance
  | .feed i got => do
    let (t, event) ← t.inPipe onTick i (.feed got)
    return (t, event.toList.map (.pipe i))
  | .socket i got => do
    let (t, event) ← t.inPipe onTick i (.socket got)
    return (t, event.toList.map (.pipe i))
  | .engine i now tsNs => t.engineStep onTick i now tsNs
  | .worker => .ok (t.inTelemetry none .worker)
  | .spurious => .ok (t.inTelemetry none .spurious)

end Trader

end Ob.LiveTrade
