/-
**What a step of a pipeline can do.**

The step functions of the threads by their cases, each with what holds before it and the state after
it. A thread that is not in a call of the queue begins one, a thread that is in one goes on with it
(`tryPush_call`, `tryPop_call`):

* `offer_cases`, `feedStep_cases`, `socketStep_cases` — the threads of the feed, which never fail.
* `engineStep_cases`, `controlStep_cases` — the engine's thread and the controlling one, which do
  not fail where the queue, the engine's memory and the threads are as they should be.
-/

import OrderBook.Engine.Ticks
import OrderBook.Properties.SpscQueue
import OrderBook.Source.Pipeline

namespace Ob

/-! ### Calls of the queue -/

namespace SPSCQueue

variable {α : Type}

/-- The value of the `try_push` that the producer is in. -/
def Producer.value : Producer α → Option α
  | .idle => none
  | .called value | .reload value _ | .write value _ | .writing value _ | .publish value _ =>
    some value

theorem step_push {s : State α} (rest : s.producer.value = none) (value : α) :
    step s (.push value) = .ok ({ s with producer := .called value }, none) := by
  obtain ⟨q, producer, consumer⟩ := s
  cases producer with
  | idle => rfl
  | called | reload | write | writing | publish => cases rest

theorem step_pop {s : State α} (rest : s.consumer = .idle) :
    step s .pop = .ok ({ s with consumer := .called }, none) := by
  rw [step, rest]

theorem Inv.called {start : UInt64} {k : Nat} {s : State α} {g : Ghost α} (small : k ≤ 63)
    (inv : Inv start k s g) (rest : s.producer.value = none) (value : α) :
    ∃ g', Inv start k { s with producer := .called value } g' ∧ g'.contents = g.contents := by
  obtain ⟨_, _, g', did, accepts, inv'⟩ := step_spec small inv (.push value)
  rw [step_push rest] at did
  cases did
  exact ⟨g', inv', accepts.none_eq⟩

theorem Inv.asked {start : UInt64} {k : Nat} {s : State α} {g : Ghost α} (small : k ≤ 63)
    (inv : Inv start k s g) (rest : s.consumer = .idle) :
    ∃ g', Inv start k { s with consumer := .called } g' ∧ g'.contents = g.contents := by
  obtain ⟨_, _, g', did, accepts, inv'⟩ := step_spec small inv .pop
  rw [step_pop rest] at did
  cases did
  exact ⟨g', inv', accepts.none_eq⟩

/-- **A step of a `try_push`** goes on with it, or ends it with its value pushed or with no room. -/
theorem tryPush_call {s : State α} {value : α} (inside : s.producer.value = some value) :
    (tryPush s).1.consumer = s.consumer ∧
      ((tryPush s).2 = none ∧ (tryPush s).1.producer.value = some value ∨
        (tryPush s).2 = some (.pushed value) ∧ (tryPush s).1.producer.value = none ∨
        (tryPush s).2 = some .pushFailed ∧ (tryPush s).1.producer.value = none) := by
  obtain ⟨q, producer, consumer⟩ := s
  cases producer with
  | idle => cases inside
  | called | reload =>
    cases inside
    simp only [tryPush]
    split <;> simp [Producer.value]
  | write | writing | publish =>
    cases inside
    simp [tryPush, Producer.value]

/-- **A step of a `try_pop`** goes on with it, or ends it with a value or with none. -/
theorem tryPop_call {s s' : State α} {event : Option (Fifo.Event α)}
    (inside : s.consumer ≠ .idle) (did : tryPop s = .ok (s', event)) :
    s'.producer = s.producer ∧
      (event = none ∧ s'.consumer ≠ .idle ∨
        (∃ value, event = some (.popped value)) ∧ s'.consumer = .idle ∨
        event = some .popFailed ∧ s'.consumer = .idle) := by
  obtain ⟨q, producer, consumer⟩ := s
  cases consumer with
  | idle => exact absurd rfl inside
  | called | reload =>
    simp only [tryPop] at did
    split at did <;> cases did <;> simp
  | read tail =>
    simp only [tryPop] at did
    split at did <;> cases did
    simp
  | publish =>
    cases did
    simp

end SPSCQueue

namespace Pipeline

variable {σ : Type} {p : Pipeline σ}

theorem inQueue_ok {action : SPSCQueue.Action MarketEvent} {queue : SPSCQueue.State MarketEvent}
    {event : Option (Fifo.Event MarketEvent)}
    (did : SPSCQueue.step p.queue action = .ok (queue, event)) :
    p.inQueue action = .ok ({ p with queue }, event) := by
  rw [inQueue, did]

/-! ### The feed -/

/-- What is on its way is in a call of `try_push` exactly when the queue's producer is. -/
def Sends (p : Pipeline σ) : Prop :=
  p.queue.producer.value = p.feed.sending.bind fun
    | .testing _ => none
    | .pushing ev => some ev

/-- The steps of the inner loop. -/
inductive OfferStep (p : Pipeline σ) : Offer → Pipeline σ → Option Event → Prop
  | begins (ev : MarketEvent) (runs : p.feed.running = true) :
      OfferStep p (.testing ev)
        { p with
          queue := { p.queue with producer := .called ev }
          feed := { p.feed with sending := some (.pushing ev) } } none
  | drops (ev : MarketEvent) (stands : p.feed.running = false) :
      OfferStep p (.testing ev) { p with feed := { p.feed with sending := none } }
        (some (.dropped ev))
  | goesOn (ev : MarketEvent) (quiet : (SPSCQueue.tryPush p.queue).2 = none)
      (inside : (SPSCQueue.tryPush p.queue).1.producer.value = some ev)
      (apart : (SPSCQueue.tryPush p.queue).1.consumer = p.queue.consumer) :
      OfferStep p (.pushing ev) { p with queue := (SPSCQueue.tryPush p.queue).1 } none
  | queues (ev : MarketEvent) (pushed : (SPSCQueue.tryPush p.queue).2 = some (.pushed ev))
      (ended : (SPSCQueue.tryPush p.queue).1.producer.value = none)
      (apart : (SPSCQueue.tryPush p.queue).1.consumer = p.queue.consumer) :
      OfferStep p (.pushing ev)
        { p with
          queue := (SPSCQueue.tryPush p.queue).1
          feed := { p.feed with sending := none } } (some (.queued ev))
  | fails (ev : MarketEvent) (full : (SPSCQueue.tryPush p.queue).2 = some .pushFailed)
      (ended : (SPSCQueue.tryPush p.queue).1.producer.value = none)
      (apart : (SPSCQueue.tryPush p.queue).1.consumer = p.queue.consumer) :
      OfferStep p (.pushing ev)
        { p with
          queue := (SPSCQueue.tryPush p.queue).1
          feed := { p.feed with sending := some (.testing ev) } } none

theorem offer_cases {sending : Offer} (sends : p.Sends) (there : p.feed.sending = some sending) :
    ∃ p' event, p.offer sending = .ok (p', event) ∧ OfferStep p sending p' event := by
  unfold Sends at sends
  rw [there] at sends
  cases sending with
  | testing ev =>
    by_cases runs : p.feed.running = true
    · refine ⟨_, _, ?_, .begins ev runs⟩
      simp only [offer, if_pos runs, inQueue_ok (SPSCQueue.step_push sends ev)]
      rfl
    · exact ⟨_, _, if_neg runs, .drops ev (Bool.not_eq_true _ ▸ runs)⟩
  | pushing ev =>
    have did : p.inQueue .producer = .ok ({ p with queue := (SPSCQueue.tryPush p.queue).1 },
        (SPSCQueue.tryPush p.queue).2) := inQueue_ok rfl
    obtain ⟨apart, ⟨event, inside⟩ | ⟨event, ended⟩ | ⟨event, ended⟩⟩ := SPSCQueue.tryPush_call sends
    · refine ⟨_, _, ?_, .goesOn ev event inside apart⟩
      simp only [offer, did, event]
      rfl
    · refine ⟨_, _, ?_, .queues ev event ended apart⟩
      simp only [offer, did, event]
      rfl
    · refine ⟨_, _, ?_, .fails ev event ended apart⟩
      simp only [offer, did, event]
      rfl

/-- The steps of the feed's thread. -/
inductive FeedStep (p : Pipeline σ) : Option MarketEvent → Pipeline σ → Option Event → Prop
  | rests (got : Option MarketEvent)
      (gone : p.feed.thread = .absent ∨ p.feed.thread = .finished) : FeedStep p got p none
  | checks (got : Option MarketEvent) (place : p.feed.thread = .checking)
      (runs : p.feed.running = true) :
      FeedStep p got { p with feed := { p.feed with thread := .fetching } } none
  | ends (got : Option MarketEvent) (place : p.feed.thread = .checking)
      (stands : p.feed.running = false) :
      FeedStep p got { p with feed := { p.feed with thread := .finished } } none
  | misses (place : p.feed.thread = .fetching) :
      FeedStep p none { p with feed := { p.feed with thread := .checking } } none
  | gets (ev : MarketEvent) (place : p.feed.thread = .fetching) :
      FeedStep p (some ev)
        { p with feed := { p.feed with thread := .offering, sending := some (.testing ev) } }
        (some (.produced ev))
  | offers (got : Option MarketEvent) {sending : Offer} {p' : Pipeline σ} {event : Option Event}
      (place : p.feed.thread = .offering) (there : p.feed.sending = some sending)
      (does : OfferStep p sending p' event) : FeedStep p got p' event
  | loops (got : Option MarketEvent) (place : p.feed.thread = .offering)
      (sent : p.feed.sending = none) :
      FeedStep p got { p with feed := { p.feed with thread := .checking } } none
  | connects (got : Option MarketEvent) (place : p.feed.thread = .connecting) :
      FeedStep p got { p with feed := { p.feed with thread := .watching, connected := true } } none
  | watches (got : Option MarketEvent) (place : p.feed.thread = .watching)
      (runs : p.feed.running = true) : FeedStep p got p none
  | closes (got : Option MarketEvent) (place : p.feed.thread = .watching)
      (stands : p.feed.running = false) :
      FeedStep p got { p with feed := { p.feed with thread := .closing } } none
  | joins (got : Option MarketEvent) (place : p.feed.thread = .closing)
      (busy : p.feed.sending ≠ none) : FeedStep p got p none
  | closed (got : Option MarketEvent) (place : p.feed.thread = .closing)
      (sent : p.feed.sending = none) :
      FeedStep p got { p with feed := { p.feed with thread := .finished, connected := false } } none

theorem feedStep_cases (sends : p.Sends) (got : Option MarketEvent) :
    ∃ p' event, p.feedStep got = .ok (p', event) ∧ FeedStep p got p' event := by
  cases place : p.feed.thread with
  | absent =>
    refine ⟨p, none, ?_, .rests got (.inl place)⟩
    simp only [feedStep, place]
  | finished =>
    refine ⟨p, none, ?_, .rests got (.inr place)⟩
    simp only [feedStep, place]
  | checking =>
    by_cases runs : p.feed.running = true
    · refine ⟨_, _, ?_, .checks got place runs⟩
      simp only [feedStep, place, if_pos runs]
    · refine ⟨_, _, ?_, .ends got place (Bool.not_eq_true _ ▸ runs)⟩
      simp only [feedStep, place, if_neg runs]
  | fetching =>
    cases got with
    | none =>
      refine ⟨_, _, ?_, .misses place⟩
      simp only [feedStep, place]
    | some ev =>
      refine ⟨_, _, ?_, .gets ev place⟩
      simp only [feedStep, place]
  | offering =>
    cases there : p.feed.sending with
    | none =>
      refine ⟨_, _, ?_, .loops got place there⟩
      simp only [feedStep, place, there]
    | some sending =>
      obtain ⟨p', event, did, does⟩ := offer_cases sends there
      refine ⟨p', event, ?_, .offers got place there does⟩
      simp only [feedStep, place, there, did]
  | connecting =>
    refine ⟨_, _, ?_, .connects got place⟩
    simp only [feedStep, place]
  | watching =>
    by_cases runs : p.feed.running = true
    · refine ⟨p, none, ?_, .watches got place runs⟩
      simp only [feedStep, place, if_pos runs]
      rw [← place]
    · refine ⟨_, _, ?_, .closes got place (Bool.not_eq_true _ ▸ runs)⟩
      simp only [feedStep, place, if_neg runs]
  | closing =>
    cases sent : p.feed.sending with
    | some sending =>
      refine ⟨p, none, ?_, .joins got place (sent ▸ nofun)⟩
      simp [feedStep, place, sent]
    | none =>
      refine ⟨_, _, ?_, .closed got place sent⟩
      simp [feedStep, place, sent]

/-- The steps of the socket's thread. -/
inductive SocketStep (p : Pipeline σ) : Option MarketEvent → Pipeline σ → Option Event → Prop
  | waits (got : Option MarketEvent)
      (quiet : p.feed.connected = false ∨ p.feed.sending = none) : SocketStep p got p none
  | gets (ev : MarketEvent) (connected : p.feed.connected = true)
      (free : p.feed.sending = none) :
      SocketStep p (some ev) { p with feed := { p.feed with sending := some (.testing ev) } }
        (some (.produced ev))
  | offers (got : Option MarketEvent) {sending : Offer} {p' : Pipeline σ} {event : Option Event}
      (connected : p.feed.connected = true) (there : p.feed.sending = some sending)
      (does : OfferStep p sending p' event) : SocketStep p got p' event

theorem socketStep_cases (sends : p.Sends) (got : Option MarketEvent) :
    ∃ p' event, p.socketStep got = .ok (p', event) ∧ SocketStep p got p' event := by
  by_cases connected : p.feed.connected = true
  · cases there : p.feed.sending with
    | some sending =>
      obtain ⟨p', event, did, does⟩ := offer_cases sends there
      refine ⟨p', event, ?_, .offers got connected there does⟩
      simp only [socketStep, if_pos connected, there, did]
    | none =>
      cases got with
      | none =>
        refine ⟨p, none, ?_, .waits none (.inr there)⟩
        simp only [socketStep, if_pos connected, there]
      | some ev =>
        refine ⟨_, _, ?_, .gets ev connected there⟩
        simp only [socketStep, if_pos connected, there]
  · exact ⟨p, none, if_neg connected, .waits got (.inl (Bool.not_eq_true _ ▸ connected))⟩

/-! ### The engine -/

/-- The steps of the engine's thread. -/
inductive EngineStep (onTick : Strategy σ) (p : Pipeline σ) :
    Timestamp → Pipeline σ → Option Event → Prop
  | rests (now : Timestamp) (gone : p.thread = .absent ∨ p.thread = .finished) :
      EngineStep onTick p now p none
  | begins (now : Timestamp) (place : p.thread = .checking) (runs : p.running = true) :
      EngineStep onTick p now
        { p with queue := { p.queue with consumer := .called }, thread := .popping } none
  | ends (now : Timestamp) (place : p.thread = .checking) (stands : p.running = false) :
      EngineStep onTick p now { p with thread := .finished } none
  | goesOn (now : Timestamp) (place : p.thread = .popping) {queue : SPSCQueue.State MarketEvent}
      (did : SPSCQueue.tryPop p.queue = .ok (queue, none)) (inside : queue.consumer ≠ .idle)
      (apart : queue.producer = p.queue.producer) :
      EngineStep onTick p now { p with queue } none
  | pops (now : Timestamp) (ev : MarketEvent) (place : p.thread = .popping)
      {queue : SPSCQueue.State MarketEvent}
      (did : SPSCQueue.tryPop p.queue = .ok (queue, some (.popped ev)))
      (ended : queue.consumer = .idle) (apart : queue.producer = p.queue.producer) :
      EngineStep onTick p now { p with queue, thread := .handling ev } none
  | fails (now : Timestamp) (place : p.thread = .popping) {queue : SPSCQueue.State MarketEvent}
      (did : SPSCQueue.tryPop p.queue = .ok (queue, some .popFailed))
      (ended : queue.consumer = .idle) (apart : queue.producer = p.queue.producer) :
      EngineStep onTick p now { p with queue, thread := .checking } none
  | handles (now : Timestamp) (ev : MarketEvent) (place : p.thread = .handling ev)
      {engine : TradingEngine σ} {report : Report}
      (did : p.engine.onEvent onTick { event := ev, now } = .ok (engine, report))
      (few : report.fills.length ≤ 1) :
      EngineStep onTick p now { p with engine, thread := .telling report.fills }
        (some (.handled { event := ev, now } report))
  | loops (now : Timestamp) (place : p.thread = .telling []) :
      EngineStep onTick p now { p with thread := .checking } none
  | tells (now : Timestamp) (fill : Fill) (fills : List Fill)
      (place : p.thread = .telling (fill :: fills)) :
      EngineStep onTick p now { p with thread := .telling fills } (some (.told fill))

/-- The queue's consumer is in a call of `try_pop` exactly when the engine's thread is. -/
def Receives (p : Pipeline σ) : Prop := p.queue.consumer = .idle ↔ p.thread ≠ .popping

theorem engineStep_cases {onTick : Strategy σ} {start : UInt64} {k : Nat} {m : Market}
    {g : SPSCQueue.Ghost MarketEvent} {left : Side → Quantity} (small : k ≤ 63)
    (inv : SPSCQueue.Inv start k p.queue g) (receives : p.Receives) (sound : p.engine.Sound m left)
    (now : Timestamp) :
    ∃ p' event, p.engineStep onTick now = .ok (p', event) ∧ EngineStep onTick p now p' event := by
  cases place : p.thread with
  | absent =>
    refine ⟨p, none, ?_, .rests now (.inl place)⟩
    simp only [engineStep, place]
  | finished =>
    refine ⟨p, none, ?_, .rests now (.inr place)⟩
    simp only [engineStep, place]
  | checking =>
    by_cases runs : p.running = true
    · refine ⟨_, _, ?_, .begins now place runs⟩
      have rest := SPSCQueue.step_pop (receives.mpr (place ▸ nofun))
      simp only [engineStep, place, if_pos runs, inQueue_ok rest]
      rfl
    · refine ⟨_, _, ?_, .ends now place (Bool.not_eq_true _ ▸ runs)⟩
      simp only [engineStep, place, if_neg runs]
  | popping =>
    obtain ⟨queue, event, _, did, _⟩ := SPSCQueue.tryPop_spec small inv
    have went : p.inQueue .consumer = .ok ({ p with queue }, event) := inQueue_ok did
    have inside : p.queue.consumer ≠ .idle := fun idle => receives.mp idle place
    obtain ⟨apart, ⟨rfl, inside⟩ | ⟨⟨ev, rfl⟩, ended⟩ | ⟨rfl, ended⟩⟩ :=
      SPSCQueue.tryPop_call inside did
    · refine ⟨_, _, ?_, .goesOn now place did inside apart⟩
      simp only [engineStep, place, went]
      rfl
    · refine ⟨_, _, ?_, .pops now ev place did ended apart⟩
      simp only [engineStep, place, went]
      rfl
    · refine ⟨_, _, ?_, .fails now place did ended apart⟩
      simp only [engineStep, place, went]
      rfl
  | handling ev =>
    obtain ⟨engine, report, _, _, did, _, _, tells⟩ :=
      TradingEngine.onEvent_spec onTick sound { event := ev, now }
    refine ⟨_, _, ?_, .handles now ev place did (tells.1 ▸ Option.length_toList_le)⟩
    simp only [engineStep, place, did]
  | telling fills =>
    cases fills with
    | nil =>
      refine ⟨_, _, ?_, .loops now place⟩
      simp only [engineStep, place]
    | cons fill fills =>
      refine ⟨_, _, ?_, .tells now fill fills place⟩
      simp only [engineStep, place]

/-! ### The controlling thread -/

/-- The steps of `start` and `stop` after their exchange of `running_`. -/
inductive ControlStep (p : Pipeline σ) : Pipeline σ → Option Event → Prop
  | waits : ControlStep p p none
  | createsFeed (place : p.control = .creating .feed) :
      ControlStep p
        { p with
          feed := { p.feed with thread := p.feed.kind.begins }
          control := .idle } none
  | createsEngine (place : p.control = .creating .engine) :
      ControlStep p { p with thread := .checking, control := .idle } none
  | joinsFeed (place : p.control = .joining .feed)
      (gone : p.feed.thread = .absent ∨ p.feed.thread = .finished) :
      ControlStep p { p with feed := { p.feed with thread := .absent }, control := .idle }
        (some (.stopped .feed))
  | joinsEngine (place : p.control = .joining .engine)
      (gone : p.thread = .absent ∨ p.thread = .finished) :
      ControlStep p { p with thread := .absent, control := .idle } (some (.stopped .engine))

theorem controlStep_cases (newFeed : p.control = .creating .feed → p.feed.thread = .absent)
    (newEngine : p.control = .creating .engine → p.thread = .absent) :
    ∃ p' event, p.controlStep = .ok (p', event) ∧ ControlStep p p' event := by
  cases place : p.control with
  | idle =>
    refine ⟨p, none, ?_, .waits⟩
    simp only [controlStep, place]
  | creating part =>
    cases part with
    | feed =>
      refine ⟨_, _, ?_, .createsFeed place⟩
      simp only [controlStep, place, newFeed place]
    | engine =>
      refine ⟨_, _, ?_, .createsEngine place⟩
      simp only [controlStep, place, newEngine place]
  | joining part =>
    cases part with
    | feed =>
      by_cases gone : p.feed.thread = .absent ∨ p.feed.thread = .finished
      · refine ⟨_, _, ?_, .joinsFeed place gone⟩
        rcases gone with gone | gone <;> simp only [controlStep, place, gone]
      · refine ⟨p, none, ?_, .waits⟩
        obtain ⟨here, works⟩ := not_or.mp gone
        simp only [controlStep, place]
    | engine =>
      by_cases gone : p.thread = .absent ∨ p.thread = .finished
      · refine ⟨_, _, ?_, .joinsEngine place gone⟩
        rcases gone with gone | gone <;> simp only [controlStep, place, gone]
      · refine ⟨p, none, ?_, .waits⟩
        obtain ⟨here, works⟩ := not_or.mp gone
        simp only [controlStep, place]

/-- The `running_` of a part. -/
def runs (p : Pipeline σ) : Part → Bool
  | .feed => p.feed.running
  | .engine => p.running

/-- The steps that begin a call of `start` or `stop`. -/
inductive CallStep (p : Pipeline σ) : Action → Pipeline σ → Prop
  | ignoresStart (part : Part) : CallStep p (.start part) p
  | ignoresStop (part : Part) (why : p.control ≠ .idle ∨ p.runs part = false) :
      CallStep p (.stop part) p
  | startsFeed (place : p.control = .idle) (stands : p.feed.running = false) :
      CallStep p (.start .feed)
        { p with feed := { p.feed with running := true }, control := .creating .feed }
  | startsEngine (place : p.control = .idle) (stands : p.running = false) :
      CallStep p (.start .engine) { p with running := true, control := .creating .engine }
  | stopsFeed (place : p.control = .idle) (runs : p.feed.running = true) :
      CallStep p (.stop .feed)
        { p with feed := { p.feed with running := false }, control := .joining .feed }
  | stopsEngine (place : p.control = .idle) (runs : p.running = true) :
      CallStep p (.stop .engine) { p with running := false, control := .joining .engine }

theorem start_cases (p : Pipeline σ) (part : Part) :
    CallStep p (.start part) (if p.control = .idle then p.start part else p) := by
  by_cases place : p.control = .idle
  · rw [if_pos place]
    cases part with
    | feed =>
      by_cases runs : p.feed.running = true
      · simp only [start, if_pos runs]
        exact .ignoresStart _
      · simp only [start, if_neg runs]
        exact .startsFeed place (Bool.not_eq_true _ ▸ runs)
    | engine =>
      by_cases runs : p.running = true
      · simp only [start, if_pos runs]
        exact .ignoresStart _
      · simp only [start, if_neg runs]
        exact .startsEngine place (Bool.not_eq_true _ ▸ runs)
  · rw [if_neg place]
    exact .ignoresStart _

theorem stop_cases (p : Pipeline σ) (part : Part) :
    CallStep p (.stop part) (if p.control = .idle then p.stop part else p) := by
  by_cases place : p.control = .idle
  · rw [if_pos place]
    cases part with
    | feed =>
      by_cases runs : p.feed.running = true
      · simp only [stop, if_pos runs]
        exact .stopsFeed place runs
      · simp only [stop, if_neg runs]
        exact .ignoresStop _ (.inr (Bool.not_eq_true _ ▸ runs))
    | engine =>
      by_cases runs : p.running = true
      · simp only [stop, if_pos runs]
        exact .stopsEngine place runs
      · simp only [stop, if_neg runs]
        exact .ignoresStop _ (.inr (Bool.not_eq_true _ ▸ runs))
  · rw [if_neg place]
    exact .ignoresStop _ (.inl place)

/-- The steps of all threads. -/
inductive Step (onTick : Strategy σ) (p : Pipeline σ) :
    Action → Pipeline σ → Option Event → Prop
  | call {action : Action} {p' : Pipeline σ} (does : CallStep p action p') :
      Step onTick p action p' none
  | control {p' : Pipeline σ} {event : Option Event} (does : ControlStep p p' event) :
      Step onTick p .control p' event
  | feed {got : Option MarketEvent} {p' : Pipeline σ} {event : Option Event}
      (does : FeedStep p got p' event) : Step onTick p (.feed got) p' event
  | socket {got : Option MarketEvent} {p' : Pipeline σ} {event : Option Event}
      (does : SocketStep p got p' event) : Step onTick p (.socket got) p' event
  | engine {now : Timestamp} {p' : Pipeline σ} {event : Option Event}
      (does : EngineStep onTick p now p' event) : Step onTick p (.engine now) p' event

end Pipeline

end Ob
