/-
**The threads of a pipeline.**

A feed, the queue between it and its engine, and the engine: `start`, `stop` and `run` of the classes
of `feed.cpp` and of `TradingEngine`, run by the feed's thread, by the thread of the socket that the
WebSocket feed has the library start, by the engine's thread, and by one thread that calls `start`
and `stop`. A step of a thread is one of its accesses to what they share (a load or an exchange of
`running_`, an access of `try_push` or `try_pop` to the queue), the creation or the join of a thread,
the work on one event, or a call of `on_fill`.

What a feed gets from outside (the answer of a server, a message, the next tick of the random walk)
is not modelled here: it is an event or, where there is no answer or it is refused, nothing.
-/

import OrderBook.Source.Engine
import OrderBook.Source.SpscQueue

namespace Ob

/-- Where a thread is in `while (running_ && !sink_.try_push(ev))`. -/
inductive Offer
  /-- Before the load of `running_`. -/
  | testing (ev : MarketEvent)
  /-- In `try_push(ev)`. -/
  | pushing (ev : MarketEvent)
  deriving DecidableEq, Repr

def Offer.event : Offer → MarketEvent
  | .testing ev | .pushing ev => ev

/-- `BinanceFeed` and `SyntheticFeed` get events in their own loop, `WebSocketBinanceFeed` in a
callback. -/
inductive FeedKind
  | polling
  | webSocket
  deriving DecidableEq, Repr

/-- Where the feed's thread is in `run`. -/
inductive FeedThread
  /-- There is no such thread. -/
  | absent
  /-- Before the load of `running_` in the outer loop. -/
  | checking
  /-- Before `fetch_once` returns, or the next tick is made. -/
  | fetching
  /-- In the inner loop. -/
  | offering
  /-- Before `ws.start()`. -/
  | connecting
  /-- In the loop that waits for `running_` to be cleared. -/
  | watching
  /-- In `ws.stop()`. -/
  | closing
  | finished
  deriving DecidableEq, Repr

/-- Where `run` begins. -/
def FeedKind.begins : FeedKind → FeedThread
  | .polling => .checking
  | .webSocket => .connecting

/-- A feed: `sending` is the event on its way into the queue. -/
structure Feed where
  kind : FeedKind
  running : Bool := false
  thread : FeedThread := .absent
  connected : Bool := false
  sending : Option Offer := none
  deriving DecidableEq, Repr

/-- Where the engine's thread is in `run`. -/
inductive EngineThread
  | absent
  /-- Before the load of `running_`. -/
  | checking
  /-- In `try_pop`. -/
  | popping
  /-- With an event. -/
  | handling (ev : MarketEvent)
  /-- Before the next call of `on_fill`. -/
  | telling (fills : List Fill)
  | finished
  deriving DecidableEq, Repr

/-- What has a thread of its own. -/
inductive Part
  | feed
  | engine
  deriving DecidableEq, Repr

/-- Where the controlling thread is in `start` or `stop`. -/
inductive Control
  | idle
  /-- In `start`, before it creates the thread. -/
  | creating (part : Part)
  /-- In `stop`, before the thread is joined. -/
  | joining (part : Part)
  deriving DecidableEq, Repr

structure Pipeline (σ : Type) where
  queue : SPSCQueue.State MarketEvent
  feed : Feed
  engine : TradingEngine σ
  running : Bool := false
  thread : EngineThread := .absent
  control : Control := .idle

namespace Pipeline

variable {σ : Type}

/-- A new pipeline, with a queue of `2 ^ k` slots. -/
def new (kind : FeedKind) (k : Nat) (strategy : σ) (cfg : Option RiskConfig) : Pipeline σ where
  queue := SPSCQueue.atRest
    { mask := Ring.mask k, head := 0, cachedTail := 0, tail := 0, cachedHead := 0,
      slots := List.replicate (2 ^ k) .vacant }
  feed := { kind }
  engine := TradingEngine.new strategy cfg

/-- What can be told of a step. -/
inductive Event
  /-- The feed has got an event. -/
  | produced (ev : MarketEvent)
  /-- It gives the event up, as it is told to stop. -/
  | dropped (ev : MarketEvent)
  | queued (ev : MarketEvent)
  /-- The engine has worked on an event. -/
  | handled (arrival : Arrival) (report : Report)
  /-- The engine calls `on_fill`. -/
  | told (fill : Fill)
  /-- A `stop` that found its part running returns. -/
  | stopped (part : Part)
  deriving DecidableEq, Repr

/-- What the program does not survive: a read of a slot that should not be read, an access to memory
that is not there, a new thread in the place of one that was not joined. -/
inductive Failure
  | slot (bad : BadRead)
  | memory (fault : Fault)
  | terminated
  deriving DecidableEq, Repr

/-- A step of a thread in the queue. -/
def inQueue (p : Pipeline σ) (action : SPSCQueue.Action MarketEvent) :
    Except Failure (Pipeline σ × Option (Fifo.Event MarketEvent)) :=
  match SPSCQueue.step p.queue action with
  | .error bad => .error (.slot bad)
  | .ok (queue, event) => .ok ({ p with queue }, event)

/-- One step of the inner loop: `sending` is `none` after the last one. -/
def offer (p : Pipeline σ) (sending : Offer) : Except Failure (Pipeline σ × Option Event) :=
  let goesOn (p : Pipeline σ) (sending : Option Offer) : Pipeline σ :=
    { p with feed := { p.feed with sending } }
  match sending with
  | .testing ev =>
    if p.feed.running then do
      let (p, _) ← p.inQueue (.push ev)
      return (goesOn p (some (.pushing ev)), none)
    else .ok (goesOn p none, some (.dropped ev))
  | .pushing ev => do
    let (p, event) ← p.inQueue .producer
    match event with
    | some (.pushed value) => return (goesOn p none, some (.queued value))
    | some _ => return (goesOn p (some (.testing ev)), none)
    | none => return (p, none)

/-- One step of the feed's thread, which gets `got` if it asks for an event. -/
def feedStep (p : Pipeline σ) (got : Option MarketEvent) :
    Except Failure (Pipeline σ × Option Event) :=
  let place (thread : FeedThread) : Pipeline σ := { p with feed := { p.feed with thread } }
  match p.feed.thread with
  | .absent | .finished => .ok (p, none)
  | .checking => .ok (place (if p.feed.running then .fetching else .finished), none)
  | .fetching =>
    match got with
    | none => .ok (place .checking, none)
    | some ev =>
      .ok ({ p with feed := { p.feed with thread := .offering, sending := some (.testing ev) } },
        some (.produced ev))
  | .offering =>
    match p.feed.sending with
    | none => .ok (place .checking, none)
    | some sending => p.offer sending
  | .connecting =>
    .ok ({ p with feed := { p.feed with thread := .watching, connected := true } }, none)
  | .watching => .ok (place (if p.feed.running then .watching else .closing), none)
  | .closing =>
    -- the library joins its thread, which may be in the callback
    if p.feed.sending.isSome then .ok (p, none)
    else .ok ({ p with feed := { p.feed with thread := .finished, connected := false } }, none)

/-- One step of the socket's thread: a message comes in, or the callback goes on. -/
def socketStep (p : Pipeline σ) (got : Option MarketEvent) :
    Except Failure (Pipeline σ × Option Event) :=
  if p.feed.connected then
    match p.feed.sending, got with
    | some sending, _ => p.offer sending
    | none, none => .ok (p, none)
    | none, some ev =>
      .ok ({ p with feed := { p.feed with sending := some (.testing ev) } }, some (.produced ev))
  else .ok (p, none)

/-- One step of the engine's thread, at a reading of the steady clock. -/
def engineStep (onTick : Strategy σ) (p : Pipeline σ) (now : Timestamp) :
    Except Failure (Pipeline σ × Option Event) :=
  match p.thread with
  | .absent | .finished => .ok (p, none)
  | .checking =>
    if p.running then do
      let (p, _) ← p.inQueue .pop
      return ({ p with thread := .popping }, none)
    else .ok ({ p with thread := .finished }, none)
  | .popping => do
    let (p, event) ← p.inQueue .consumer
    match event with
    | some (.popped ev) => return ({ p with thread := .handling ev }, none)
    | some _ => return ({ p with thread := .checking }, none)
    | none => return (p, none)
  | .handling ev =>
    match p.engine.onEvent onTick { event := ev, now } with
    | .error fault => .error (.memory fault)
    | .ok (engine, report) =>
      .ok ({ p with engine, thread := .telling report.fills },
        some (.handled { event := ev, now } report))
  | .telling [] => .ok ({ p with thread := .checking }, none)
  | .telling (fill :: fills) => .ok ({ p with thread := .telling fills }, some (.told fill))

/-- A call of `start` begins with its exchange of `running_`. -/
def start (p : Pipeline σ) (part : Part) : Pipeline σ :=
  match part with
  | .feed =>
    if p.feed.running then p
    else { p with feed := { p.feed with running := true }, control := .creating .feed }
  | .engine => if p.running then p else { p with running := true, control := .creating .engine }

/-- So does a call of `stop`. -/
def stop (p : Pipeline σ) (part : Part) : Pipeline σ :=
  match part with
  | .feed =>
    if p.feed.running then
      { p with feed := { p.feed with running := false }, control := .joining .feed }
    else p
  | .engine => if p.running then { p with running := false, control := .joining .engine } else p

/-- One step of the controlling thread in `start` or `stop`. -/
def controlStep (p : Pipeline σ) : Except Failure (Pipeline σ × Option Event) :=
  match p.control with
  | .idle => .ok (p, none)
  | .creating .feed =>
    match p.feed.thread with
    | .absent =>
      .ok ({ p with feed := { p.feed with thread := p.feed.kind.begins }, control := .idle }, none)
    | _ => .error .terminated
  | .creating .engine =>
    match p.thread with
    | .absent => .ok ({ p with thread := .checking, control := .idle }, none)
    | _ => .error .terminated
  | .joining .feed =>
    match p.feed.thread with
    | .absent | .finished =>
      .ok ({ p with feed := { p.feed with thread := .absent }, control := .idle },
        some (.stopped .feed))
    | _ => .ok (p, none)
  | .joining .engine =>
    match p.thread with
    | .absent | .finished =>
      .ok ({ p with thread := .absent, control := .idle }, some (.stopped .engine))
    | _ => .ok (p, none)

/-- What happens next: the controlling thread begins a call, if it is not in one, or a thread goes
on. -/
inductive Action
  | start (part : Part)
  | stop (part : Part)
  | control
  | feed (got : Option MarketEvent)
  | socket (got : Option MarketEvent)
  | engine (now : Timestamp)
  deriving DecidableEq, Repr

def step (onTick : Strategy σ) (p : Pipeline σ) :
    Action → Except Failure (Pipeline σ × Option Event)
  | .start part => .ok (if p.control = .idle then p.start part else p, none)
  | .stop part => .ok (if p.control = .idle then p.stop part else p, none)
  | .control => p.controlStep
  | .feed got => p.feedStep got
  | .socket got => p.socketStep got
  | .engine now => p.engineStep onTick now

end Pipeline

end Ob
