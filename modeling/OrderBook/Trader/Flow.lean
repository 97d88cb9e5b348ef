/-
**Where the events are.**

An event that the feed has got is on its way into the queue, was given up, or was queued; one that
was queued is in the queue, in the hands of the engine, or worked on. `Ready` says how the threads of
a pipeline stand to each other and to the queue, and `Flow` where the events of a history are:

* `Step.ready` — a step keeps the threads in order, and moves at most one event.
* `Flow.step` — so it keeps account of every event, and the engine is where the events worked on have
  brought it, one after another.
-/

import Mathlib.Data.List.ReduceOption
import OrderBook.Engine.Quotes
import OrderBook.Library.Machine
import OrderBook.Trader.Steps

namespace Ob

/-! ### How the threads stand to each other -/

/-- What there is of a thread. -/
inductive Life
  | absent
  | works
  | finished
  deriving DecidableEq, Repr

def FeedThread.life : FeedThread → Life
  | .absent => .absent
  | .finished => .finished
  | _ => .works

def EngineThread.life : EngineThread → Life
  | .absent => .absent
  | .finished => .finished
  | _ => .works

theorem FeedThread.life_absent {thread : FeedThread} : thread.life = .absent ↔ thread = .absent := by
  cases thread <;> simp [FeedThread.life]

theorem EngineThread.life_absent {thread : EngineThread} :
    thread.life = .absent ↔ thread = .absent := by
  cases thread <;> simp [EngineThread.life]

theorem FeedKind.begins_life (kind : FeedKind) : kind.begins.life = .works := by
  cases kind <;> rfl

theorem FeedKind.begins_ne_closing (kind : FeedKind) : kind.begins ≠ .closing := by
  cases kind <;> nofun

theorem FeedKind.begins_ne_fetching (kind : FeedKind) : kind.begins ≠ .fetching := by
  cases kind <;> nofun

/-- The controlling thread is not in a call for this part. -/
def Control.Elsewhere (control : Control) (part : Part) : Prop :=
  control ≠ .creating part ∧ control ≠ .joining part

theorem Control.idle_elsewhere (part : Part) : Control.idle.Elsewhere part := ⟨nofun, nofun⟩

/-- A part whose thread is created and joined by the controlling thread: whether `running_` is set,
and what there is of the thread. -/
inductive Managed (part : Part) : Control → Bool → Life → Prop
  | rests {control : Control} (elsewhere : control.Elsewhere part) :
      Managed part control false .absent
  | works {control : Control} (elsewhere : control.Elsewhere part) :
      Managed part control true .works
  | creating : Managed part (.creating part) true .absent
  | joining {life : Life} (there : life ≠ .absent) : Managed part (.joining part) false life

namespace Managed

variable {part : Part} {control control' : Control} {running : Bool} {life : Life}

theorem elsewhere (managed : Managed part control running life) (before : control.Elsewhere part)
    (after : control'.Elsewhere part) : Managed part control' running life := by
  cases managed with
  | rests => exact .rests after
  | works => exact .works after
  | creating => exact absurd rfl before.1
  | joining => exact absurd rfl before.2

theorem start (managed : Managed part .idle false life) :
    Managed part (.creating part) true life := by
  cases managed with
  | rests => exact .creating

theorem stop (managed : Managed part .idle true life) :
    Managed part (.joining part) false life := by
  cases managed with
  | works => exact .joining nofun

theorem new (managed : Managed part (.creating part) running life) : life = .absent := by
  cases managed with
  | rests | creating => rfl
  | works elsewhere => exact absurd rfl elsewhere.1

theorem created (managed : Managed part (.creating part) running life) :
    Managed part .idle running .works := by
  cases managed with
  | creating => exact .works (Control.idle_elsewhere part)
  | rests elsewhere | works elsewhere => exact absurd rfl elsewhere.1

theorem joined (managed : Managed part (.joining part) running life) :
    Managed part .idle running .absent := by
  cases managed with
  | joining => exact .rests (Control.idle_elsewhere part)
  | rests elsewhere | works elsewhere => exact absurd rfl elsewhere.2

theorem ends (managed : Managed part control false .works) : Managed part control false .finished := by
  cases managed with
  | joining => exact .joining nofun

/-- A thread that works though `running_` is cleared is about to be joined. -/
theorem stopping (managed : Managed part control false .works) : control = .joining part := by
  cases managed with
  | joining => rfl

theorem stands (managed : Managed part control running life) (waits : control = .joining part) :
    running = false := by
  subst waits
  cases managed with
  | rests | joining => rfl
  | works elsewhere => exact absurd rfl elsewhere.2

end Managed

/-- What a feed of a kind can be at. -/
inductive FeedKind.Fits : FeedKind → FeedThread → (connected : Bool) → Option Offer → Prop
  | absent (kind : FeedKind) : Fits kind .absent false none
  | finished (kind : FeedKind) : Fits kind .finished false none
  | checking : Fits .polling .checking false none
  | fetching : Fits .polling .fetching false none
  | offering (sending : Option Offer) : Fits .polling .offering false sending
  | connecting : Fits .webSocket .connecting false none
  | watching (sending : Option Offer) : Fits .webSocket .watching true sending
  | closing (sending : Option Offer) : Fits .webSocket .closing true sending

namespace FeedKind.Fits

variable {kind : FeedKind} {thread : FeedThread} {connected : Bool} {sending : Option Offer}

theorem begins (fits : kind.Fits .absent connected sending) :
    kind.Fits kind.begins connected sending := by
  cases fits with
  | absent =>
    cases kind
    · exact .checking
    · exact .connecting

theorem checks (fits : kind.Fits .checking connected sending) :
    kind.Fits .fetching connected sending := by
  cases fits with
  | checking => exact .fetching

theorem ends (fits : kind.Fits .checking connected sending) :
    kind.Fits .finished connected sending := by
  cases fits with
  | checking => exact .finished _

theorem misses (fits : kind.Fits .fetching connected sending) :
    kind.Fits .checking connected sending := by
  cases fits with
  | fetching => exact .checking

theorem gets (fits : kind.Fits .fetching connected sending) (other : Option Offer) :
    sending = none ∧ kind.Fits .offering connected other := by
  cases fits with
  | fetching => exact ⟨rfl, .offering other⟩

theorem loops (fits : kind.Fits .offering connected none) : kind.Fits .checking connected none := by
  cases fits with
  | offering => exact .checking

theorem connects (fits : kind.Fits .connecting connected sending) :
    kind.Fits .watching true sending := by
  cases fits with
  | connecting => exact .watching _

theorem closes (fits : kind.Fits .watching connected sending) :
    kind.Fits .closing connected sending := by
  cases fits with
  | watching => exact .closing _

theorem joined (fits : kind.Fits .finished connected sending) :
    kind.Fits .absent connected sending := by
  cases fits with
  | finished => exact .absent _

/-- While there is a socket, or while an event is on its way, any event may be. -/
theorem sends (fits : kind.Fits thread connected sending)
    (may : connected = true ∨ sending.isSome = true) (other : Option Offer) :
    kind.Fits thread connected other := by
  cases fits with
  | offering => exact .offering other
  | watching => exact .watching other
  | closing => exact .closing other
  | absent | finished | checking | fetching | connecting => simp at may

/-- An event on its way is in the hands of a thread that works, and does not get another. -/
theorem works {sending : Offer} (fits : kind.Fits thread connected (some sending)) :
    thread.life = .works ∧ thread ≠ .fetching := by
  cases fits with
  | offering | watching | closing => exact ⟨rfl, nofun⟩

theorem connecting_free (fits : kind.Fits .connecting connected sending) : sending = none := by
  cases fits with
  | connecting => rfl

theorem closing_connected (fits : kind.Fits .closing connected sending) : connected = true := by
  cases fits with
  | closing => rfl

/-- Only a feed with its own loop is in the inner loop itself. -/
theorem offering_alone (fits : kind.Fits .offering connected sending) : connected = false := by
  cases fits with
  | offering => rfl

/-- A feed with its own loop has no socket. -/
theorem no_socket (fits : FeedKind.polling.Fits thread connected sending) : connected = false := by
  cases fits <;> rfl

end FeedKind.Fits

/-- The event on its way into the queue. -/
def Feed.sent (f : Feed) : List MarketEvent := f.sending.toList.map Offer.event

/-- The event that the engine's thread has popped and not yet worked on. -/
def EngineThread.inHand : EngineThread → List MarketEvent
  | .handling ev => [ev]
  | _ => []

/-- The fills for which `on_fill` was not yet called. -/
def EngineThread.untold : EngineThread → List Fill
  | .telling fills => fills
  | _ => []

namespace Pipeline

variable {σ : Type} {onTick : Strategy σ} {p p' : Pipeline σ} {k : Nat}
  {g : SPSCQueue.Ghost MarketEvent} {event : Option Event}

structure Ready (k : Nat) (p : Pipeline σ) (g : SPSCQueue.Ghost MarketEvent) : Prop where
  queue : SPSCQueue.Inv 0 k p.queue g
  sends : p.Sends
  receives : p.Receives
  sound : ∃ m left, p.engine.Sound m left
  feed : Managed .feed p.control p.feed.running p.feed.thread.life
  engine : Managed .engine p.control p.running p.thread.life
  fits : p.feed.kind.Fits p.feed.thread p.feed.connected p.feed.sending
  closing : p.feed.thread = .closing → p.feed.running = false
  few : p.thread.untold.length ≤ 1

theorem Ready.new (kind : FeedKind) (k : Nat) (strategy : σ) (cfg : Option RiskConfig) :
    Ready k (new kind k strategy cfg) ⟨0, [], 0, 0⟩ where
  queue := SPSCQueue.Inv.starting k 0
  sends := rfl
  receives := ⟨nofun, fun _ => rfl⟩
  sound := ⟨_, _, TradingEngine.Sound.new strategy cfg fun _ => 0⟩
  feed := .rests (Control.idle_elsewhere _)
  engine := .rests (Control.idle_elsewhere _)
  fits := .absent kind
  closing := nofun
  few := Nat.zero_le 1

/-- The queue holds no more than it has room for. -/
theorem Ready.bounded (ready : Ready k p g) : g.contents.length ≤ 2 ^ k := by
  have behind := ready.queue.behind
  have fits := ready.queue.bounded
  rw [SPSCQueue.Ghost.pushed] at fits
  omega

/-! ### What is told of a run -/

/-- The events that the feed has got. -/
def produced (events : List Event) : List MarketEvent :=
  events.filterMap fun
    | .produced ev => some ev
    | _ => none

/-- The events that it has given up. -/
def dropped (events : List Event) : List MarketEvent :=
  events.filterMap fun
    | .dropped ev => some ev
    | _ => none

def queued (events : List Event) : List MarketEvent :=
  events.filterMap fun
    | .queued ev => some ev
    | _ => none

/-- The events that it has queued or given up. -/
def settled (events : List Event) : List MarketEvent :=
  events.filterMap fun
    | .queued ev | .dropped ev => some ev
    | _ => none

/-- The events that the engine has worked on, and when. -/
def arrivals (events : List Event) : List Arrival :=
  events.filterMap fun
    | .handled arrival _ => some arrival
    | _ => none

def reports (events : List Event) : List Report :=
  events.filterMap fun
    | .handled _ report => some report
    | _ => none

/-- The calls of `on_fill`. -/
def told (events : List Event) : List Fill :=
  events.filterMap fun
    | .told fill => some fill
    | _ => none

section

variable (events more : List Event)

theorem produced_append : produced (events ++ more) = produced events ++ produced more :=
  List.filterMap_append

theorem dropped_append : dropped (events ++ more) = dropped events ++ dropped more :=
  List.filterMap_append

theorem settled_append : settled (events ++ more) = settled events ++ settled more :=
  List.filterMap_append

theorem queued_append : queued (events ++ more) = queued events ++ queued more :=
  List.filterMap_append

theorem arrivals_append : arrivals (events ++ more) = arrivals events ++ arrivals more :=
  List.filterMap_append

theorem reports_append : reports (events ++ more) = reports events ++ reports more :=
  List.filterMap_append

theorem told_append : told (events ++ more) = told events ++ told more := List.filterMap_append

end

/-! ### One step -/

/-- A step accounts for what it moves: into the queue's producer and out of it, through the queue
and the hands of the engine, to the calls of `on_fill`; and the engine works on what it has popped. -/
structure Moves (onTick : Strategy σ) (p p' : Pipeline σ) (event : Option Event)
    (contents contents' : List MarketEvent) : Prop where
  sent : settled event.toList ++ p'.feed.sent = p.feed.sent ++ produced event.toList
  through : (arrivals event.toList).map Arrival.event ++ p'.thread.inHand ++ contents' =
    p.thread.inHand ++ contents ++ queued event.toList
  tells : told event.toList ++ p'.thread.untold =
    p.thread.untold ++ (reports event.toList).flatMap Report.fills
  works : Machine.run (TradingEngine.onEvent onTick) p.engine (arrivals event.toList) =
    .ok (p'.engine, reports event.toList)

theorem Moves.quiet {contents : List MarketEvent} (sent : p'.feed.sent = p.feed.sent)
    (inHand : p'.thread.inHand = p.thread.inHand) (untold : p'.thread.untold = p.thread.untold)
    (engine : p'.engine = p.engine) : Moves onTick p p' none contents contents where
  sent := by simp [settled, produced, sent]
  through := by simp [arrivals, queued, inHand]
  tells := by simp [told, reports, untold]
  works := by rw [engine]; rfl

theorem OfferStep.ready {sending : Offer} (small : k ≤ 63) (does : OfferStep p sending p' event)
    (there : p.feed.sending = some sending) (ready : Ready k p g) :
    ∃ g', Ready k p' g' ∧ Moves onTick p p' event g.contents g'.contents := by
  have sends := ready.sends
  have fits := ready.fits
  unfold Sends at sends
  rw [there] at sends fits
  cases does with
  | begins ev runs =>
    obtain ⟨g', inv, same⟩ := ready.queue.called small sends ev
    refine ⟨g', { ready with queue := inv, sends := rfl, fits := fits.sends (.inr rfl) _ }, ?_⟩
    rw [same]
    exact .quiet (by simp [Feed.sent, there, Offer.event]) rfl rfl rfl
  | drops ev stands =>
    refine ⟨g, { ready with sends := sends, fits := fits.sends (.inr rfl) _ }, ?_, ?_, ?_, rfl⟩
    · simp [Feed.sent, there, Offer.event, settled, produced]
    · simp [arrivals, queued]
    · simp [told, reports]
  | goesOn ev quiet inside apart =>
    obtain ⟨g', accepts, inv⟩ := SPSCQueue.tryPush_spec small ready.queue
    rw [quiet] at accepts
    refine ⟨g', { ready with queue := inv, sends := ?_, receives := ?_ }, ?_⟩
    · rw [Sends, there]
      exact inside
    · rw [Receives, apart]
      exact ready.receives
    · rw [accepts.none_eq]
      exact .quiet rfl rfl rfl rfl
  | queues ev pushed ended apart =>
    obtain ⟨g', accepts, inv⟩ := SPSCQueue.tryPush_spec small ready.queue
    rw [pushed] at accepts
    refine ⟨g', { ready with
      queue := inv, sends := ended, receives := ?_, fits := fits.sends (.inr rfl) _ }, ?_, ?_, ?_, rfl⟩
    · rw [Receives, apart]
      exact ready.receives
    · simp [Feed.sent, there, Offer.event, settled, produced]
    · simp [arrivals, queued, accepts.pushed_eq]
    · simp [told, reports]
  | fails ev full ended apart =>
    obtain ⟨g', accepts, inv⟩ := SPSCQueue.tryPush_spec small ready.queue
    rw [full] at accepts
    refine ⟨g', { ready with
      queue := inv, sends := ended, receives := ?_, fits := fits.sends (.inr rfl) _ }, ?_⟩
    · rw [Receives, apart]
      exact ready.receives
    · rw [accepts.pushFailed_eq]
      exact .quiet (by simp [Feed.sent, there, Offer.event]) rfl rfl rfl

/-- A step of the feed's thread that moves no event. -/
theorem Ready.feedThread (ready : Ready k p g) {thread : FeedThread} {connected : Bool}
    (feed : Managed .feed p.control p.feed.running thread.life)
    (fits : p.feed.kind.Fits thread connected p.feed.sending)
    (closing : thread = .closing → p.feed.running = false) :
    ∃ g', Ready k { p with feed := { p.feed with thread, connected } } g' ∧
      Moves onTick p { p with feed := { p.feed with thread, connected } } none g.contents g'.contents :=
  ⟨g, { ready with feed, fits, closing }, .quiet rfl rfl rfl rfl⟩

/-- An event comes in. -/
theorem Ready.gets (ready : Ready k p g) {thread : FeedThread} (free : p.feed.sending = none)
    (ev : MarketEvent) (fits : p.feed.kind.Fits thread p.feed.connected (some (.testing ev)))
    (feed : Managed .feed p.control p.feed.running thread.life)
    (closing : thread = .closing → p.feed.running = false) :
    ∃ g', Ready k { p with feed := { p.feed with thread, sending := some (.testing ev) } } g' ∧
      Moves onTick p { p with feed := { p.feed with thread, sending := some (.testing ev) } }
        (some (.produced ev)) g.contents g'.contents := by
  have sends := ready.sends
  rw [Sends, free] at sends
  refine ⟨g, { ready with sends, feed, fits, closing }, ?_, ?_, ?_, rfl⟩
  · simp [Feed.sent, free, Offer.event, settled, produced]
  · simp [arrivals, queued]
  · simp [told, reports]

theorem FeedStep.ready {got : Option MarketEvent} (small : k ≤ 63)
    (does : FeedStep p got p' event) (ready : Ready k p g) :
    ∃ g', Ready k p' g' ∧ Moves onTick p p' event g.contents g'.contents := by
  have feed := ready.feed
  have fits := ready.fits
  cases does with
  | rests | watches | joins => exact ⟨g, ready, .quiet rfl rfl rfl rfl⟩
  | checks _ place =>
    rw [place] at feed fits
    exact ready.feedThread feed fits.checks nofun
  | ends _ place stands =>
    rw [place] at feed fits
    rw [stands] at feed
    exact ready.feedThread (stands ▸ feed.ends) fits.ends nofun
  | misses place =>
    rw [place] at feed fits
    exact ready.feedThread feed fits.misses nofun
  | gets ev place =>
    rw [place] at feed fits
    obtain ⟨free, fits⟩ := fits.gets (some (.testing ev))
    exact ready.gets free ev fits feed nofun
  | offers _ place there does => exact does.ready small there ready
  | loops _ place sent =>
    rw [place] at feed fits
    rw [sent] at fits
    exact ready.feedThread feed (sent ▸ fits.loops) nofun
  | connects _ place =>
    rw [place] at feed fits
    exact ready.feedThread feed fits.connects nofun
  | closes _ place stands =>
    rw [place] at feed fits
    exact ready.feedThread feed fits.closes fun _ => stands
  | closed _ place sent =>
    have stands := ready.closing place
    rw [place] at feed
    rw [stands] at feed
    exact ready.feedThread (stands ▸ feed.ends) (sent ▸ .finished _) nofun

theorem SocketStep.ready {got : Option MarketEvent} (small : k ≤ 63)
    (does : SocketStep p got p' event) (ready : Ready k p g) :
    ∃ g', Ready k p' g' ∧ Moves onTick p p' event g.contents g'.contents := by
  cases does with
  | waits => exact ⟨g, ready, .quiet rfl rfl rfl rfl⟩
  | gets ev connected free =>
    exact ready.gets free ev (ready.fits.sends (.inl connected) _) ready.feed ready.closing
  | offers _ _ there does => exact does.ready small there ready

theorem EngineStep.ready {now : Timestamp} (small : k ≤ 63)
    (does : EngineStep onTick p now p' event) (ready : Ready k p g) :
    ∃ g', Ready k p' g' ∧ Moves onTick p p' event g.contents g'.contents := by
  have engine := ready.engine
  have receives := ready.receives
  unfold Receives at receives
  cases does with
  | rests => exact ⟨g, ready, .quiet rfl rfl rfl rfl⟩
  | begins place runs =>
    obtain ⟨g', inv, same⟩ := ready.queue.asked small (receives.mpr (place ▸ nofun))
    rw [place] at engine
    refine ⟨g', { ready with queue := inv, engine, receives := ?_, few := Nat.zero_le 1 }, ?_⟩
    · simp [Receives]
    · rw [same]
      exact .quiet rfl (by rw [place]; rfl) (by rw [place]; rfl) rfl
  | ends place stands =>
    rw [place, stands] at engine
    refine ⟨g, { ready with
      engine := stands ▸ engine.ends, receives := ?_, few := Nat.zero_le 1 }, ?_⟩
    · simpa [Receives, place] using receives
    · exact .quiet rfl (by rw [place]; rfl) (by rw [place]; rfl) rfl
  | goesOn place did inside apart =>
    obtain ⟨_, _, g', did', accepts, inv⟩ := SPSCQueue.tryPop_spec small ready.queue
    rw [did] at did'
    cases did'
    refine ⟨g', { ready with queue := inv, sends := ?_, receives := ?_ }, ?_⟩
    · rw [Sends, apart]
      exact ready.sends
    · simpa [Receives, place] using inside
    · rw [accepts.none_eq]
      exact .quiet rfl rfl rfl rfl
  | pops ev place did ended apart =>
    obtain ⟨_, _, g', did', accepts, inv⟩ := SPSCQueue.tryPop_spec small ready.queue
    rw [did] at did'
    cases did'
    rw [place] at engine
    refine ⟨g', { ready with
      queue := inv, engine, sends := ?_, receives := ?_, few := Nat.zero_le 1 }, ?_, ?_, ?_, rfl⟩
    · rw [Sends, apart]
      exact ready.sends
    · simpa [Receives] using ended
    · simp [Feed.sent, settled, produced]
    · simp [arrivals, queued, place, EngineThread.inHand, accepts.popped_eq]
    · simp [told, reports, place, EngineThread.untold]
  | fails place did ended apart =>
    obtain ⟨_, _, g', did', accepts, inv⟩ := SPSCQueue.tryPop_spec small ready.queue
    rw [did] at did'
    cases did'
    rw [place] at engine
    refine ⟨g', { ready with
      queue := inv, engine, sends := ?_, receives := ?_, few := Nat.zero_le 1 }, ?_⟩
    · rw [Sends, apart]
      exact ready.sends
    · simpa [Receives] using ended
    · rw [accepts.popFailed_eq]
      exact .quiet rfl (by rw [place]; rfl) (by rw [place]; rfl) rfl
  | handles ev place did few =>
    obtain ⟨m, left, sound⟩ := ready.sound
    obtain ⟨_, _, m', left', did', sound', _⟩ :=
      TradingEngine.onEvent_spec onTick sound { event := ev, now }
    rw [did] at did'
    cases did'
    rw [place] at engine
    refine ⟨g, { ready with engine, sound := ⟨m', left', sound'⟩, receives := ?_, few },
      ?_, ?_, ?_, ?_⟩
    · simpa [Receives, place] using receives
    · simp [Feed.sent, settled, produced]
    · simp [arrivals, queued, place, EngineThread.inHand]
    · simp [told, reports, place, EngineThread.untold]
    · exact Machine.run_one did
  | loops place =>
    rw [place] at engine
    refine ⟨g, { ready with engine, receives := ?_, few := Nat.zero_le 1 }, ?_⟩
    · simpa [Receives, place] using receives
    · exact .quiet rfl (by rw [place]; rfl) (by rw [place]; rfl) rfl
  | tells fill fills place =>
    rw [place] at engine
    refine ⟨g, { ready with engine, receives := ?_, few := ?_ }, ?_, ?_, ?_, rfl⟩
    · simpa [Receives, place] using receives
    · have few := ready.few
      rw [place] at few
      exact (Nat.le_succ _).trans few
    · simp [Feed.sent, settled, produced]
    · simp [arrivals, queued, place, EngineThread.inHand]
    · simp [told, reports, place, EngineThread.untold]

theorem ControlStep.ready (does : ControlStep p p' event) (ready : Ready k p g) :
    Ready k p' g ∧ Moves onTick p p' event g.contents g.contents := by
  have feed := ready.feed
  have engine := ready.engine
  have receives := ready.receives
  have fits := ready.fits
  unfold Receives at receives
  cases does with
  | waits => exact ⟨ready, .quiet rfl rfl rfl rfl⟩
  | createsFeed place =>
    rw [place] at feed engine
    have new := feed.new
    refine ⟨{ ready with
      feed := ?_, engine := engine.elsewhere ⟨nofun, nofun⟩ (Control.idle_elsewhere _), fits := ?_,
      closing := ?_ }, .quiet rfl rfl rfl rfl⟩
    · rw [FeedKind.begins_life]
      exact feed.created
    · rw [FeedThread.life_absent.mp new] at fits
      exact fits.begins
    · exact fun closing => absurd closing (FeedKind.begins_ne_closing _)
  | createsEngine place =>
    rw [place] at feed engine
    have new := EngineThread.life_absent.mp engine.new
    refine ⟨{ ready with
      feed := feed.elsewhere ⟨nofun, nofun⟩ (Control.idle_elsewhere _), engine := engine.created,
      receives := ?_, few := Nat.zero_le 1 }, .quiet rfl ?_ ?_ rfl⟩
    · simpa [Receives, new] using receives
    · rw [new]
      rfl
    · rw [new]
      rfl
  | joinsFeed place gone =>
    rw [place] at feed engine
    refine ⟨{ ready with
      feed := feed.joined, engine := engine.elsewhere ⟨nofun, nofun⟩ (Control.idle_elsewhere _),
      fits := ?_, closing := nofun }, ?_, ?_, ?_, rfl⟩
    · rcases gone with gone | gone
      · rw [gone] at fits
        exact fits
      · rw [gone] at fits
        exact fits.joined
    · simp [Feed.sent, settled, produced]
    · simp [arrivals, queued]
    · simp [told, reports]
  | joinsEngine place gone =>
    rw [place] at feed engine
    refine ⟨{ ready with
      feed := feed.elsewhere ⟨nofun, nofun⟩ (Control.idle_elsewhere _), engine := engine.joined,
      receives := ?_, few := Nat.zero_le 1 }, ?_, ?_, ?_, rfl⟩
    · rcases gone with gone | gone <;> simpa [Receives, gone] using receives
    · simp [Feed.sent, settled, produced]
    · rcases gone with gone | gone <;> simp [arrivals, queued, gone, EngineThread.inHand]
    · rcases gone with gone | gone <;> simp [told, reports, gone, EngineThread.untold]

theorem CallStep.ready {action : Action} (does : CallStep p action p') (ready : Ready k p g) :
    Ready k p' g ∧ Moves onTick p p' none g.contents g.contents := by
  have feed := ready.feed
  have engine := ready.engine
  cases does with
  | ignoresStart | ignoresStop => exact ⟨ready, .quiet rfl rfl rfl rfl⟩
  | startsFeed place stands =>
    rw [place] at feed engine
    rw [stands] at feed
    refine ⟨{ ready with
      feed := feed.start, engine := engine.elsewhere (Control.idle_elsewhere _) ⟨nofun, nofun⟩,
      closing := ?_ }, .quiet rfl rfl rfl rfl⟩
    intro closing
    have absent := feed.start.new
    rw [show p.feed.thread = .closing from closing] at absent
    cases absent
  | startsEngine place stands =>
    rw [place] at feed engine
    rw [stands] at engine
    exact ⟨{ ready with
      feed := feed.elsewhere (Control.idle_elsewhere _) ⟨nofun, nofun⟩, engine := engine.start },
      .quiet rfl rfl rfl rfl⟩
  | stopsFeed place runs =>
    rw [place] at feed engine
    rw [runs] at feed
    exact ⟨{ ready with
      feed := feed.stop, engine := engine.elsewhere (Control.idle_elsewhere _) ⟨nofun, nofun⟩,
      closing := fun _ => rfl }, .quiet rfl rfl rfl rfl⟩
  | stopsEngine place runs =>
    rw [place] at feed engine
    rw [runs] at engine
    exact ⟨{ ready with
      feed := feed.elsewhere (Control.idle_elsewhere _) ⟨nofun, nofun⟩, engine := engine.stop },
      .quiet rfl rfl rfl rfl⟩

/-- **One step of any thread.** -/
theorem Step.ready {action : Action} (small : k ≤ 63) (does : Step onTick p action p' event)
    (ready : Ready k p g) :
    ∃ g', Ready k p' g' ∧ Moves onTick p p' event g.contents g'.contents := by
  cases does with
  | call does => exact ⟨g, does.ready ready⟩
  | control does => exact ⟨g, does.ready ready⟩
  | feed does => exact does.ready small ready
  | socket does => exact does.ready small ready
  | engine does => exact does.ready small ready

theorem Step.kind {action : Action} (does : Step onTick p action p' event) : p'.feed.kind = p.feed.kind := by
  have offer : ∀ {sending : Offer}, OfferStep p sending p' event → p'.feed.kind = p.feed.kind := by
    intro sending does
    cases does <;> rfl
  cases does with
  | call does => cases does <;> rfl
  | control does => cases does <;> rfl
  | feed does =>
    cases does with
    | offers _ _ _ does => exact offer does
    | _ => rfl
  | socket does =>
    cases does with
    | offers _ _ _ does => exact offer does
    | _ => rfl
  | engine does => cases does <;> rfl

/-- A thread that calls `on_fill` is not moved by the others. -/
theorem Step.telling {action : Action} {fills : List Fill} (does : Step onTick p action p' event)
    (ready : Ready k p g) (others : ∀ now, action ≠ .engine now)
    (place : p.thread = .telling fills) : p'.thread = .telling fills := by
  have offer : ∀ {sending : Offer}, OfferStep p sending p' event → p'.thread = p.thread := by
    intro sending does
    cases does <;> rfl
  cases does with
  | call does => cases does <;> exact place
  | control does =>
    cases does with
    | waits | createsFeed | joinsFeed => exact place
    | createsEngine creating =>
      have new := EngineThread.life_absent.mp (Managed.new (creating ▸ ready.engine))
      exact nomatch place.symm.trans new
    | joinsEngine _ gone => rcases gone with gone | gone <;> exact nomatch place.symm.trans gone
  | feed does =>
    cases does with
    | offers _ _ _ does => exact (offer does).trans place
    | _ => exact place
  | socket does =>
    cases does with
    | offers _ _ _ does => exact (offer does).trans place
    | _ => exact place
  | engine => exact absurd rfl (others _)

/-- The threads of a pipeline, apart from the one that begins calls of `start` and `stop`. -/
def Action.GoesOn (action : Action) : Prop := ∀ part, action ≠ .start part ∧ action ≠ .stop part

/-- An engine that was not started yet, or that was stopped. -/
structure Still (p : Pipeline σ) : Prop where
  control : p.control = .idle
  stands : p.running = false
  absent : p.thread = .absent

theorem OfferStep.engine_same {sending : Offer} (does : OfferStep p sending p' event) :
    p'.control = p.control ∧ p'.running = p.running ∧ p'.thread = p.thread := by
  cases does <;> exact ⟨rfl, rfl, rfl⟩

/-- A thread that goes on does not set or clear an engine's `running_`. -/
theorem Step.running {action : Action} (does : Step onTick p action p' event)
    (goes_on : action.GoesOn) : p'.running = p.running := by
  cases does with
  | call does =>
    cases does with
    | ignoresStart part | startsFeed | startsEngine => exact absurd rfl (goes_on _).1
    | ignoresStop part | stopsFeed | stopsEngine => exact absurd rfl (goes_on _).2
  | control does => cases does <;> rfl
  | feed does =>
    cases does with
    | offers _ _ _ does => exact does.engine_same.2.1
    | _ => rfl
  | socket does =>
    cases does with
    | offers _ _ _ does => exact does.engine_same.2.1
    | _ => rfl
  | engine does => cases does <;> rfl

/-- A call of `stop` sets no engine's `running_`, and clears that of the engine it is for. -/
theorem Step.stops {part : Part} (does : Step onTick p (.stop part) p' event) :
    (p.running = false → p'.running = false) ∧
      (p.control = .idle → part = .engine → p'.running = false) := by
  cases does with
  | call does =>
    cases does with
    | ignoresStop _ why =>
      refine ⟨id, fun idle own => ?_⟩
      subst own
      exact why.resolve_left fun busy => busy idle
    | stopsFeed => exact ⟨id, fun _ => nofun⟩
    | stopsEngine => exact ⟨fun _ => rfl, fun _ _ => rfl⟩

/-- Nor does it move an engine that is still, and such an engine tells nothing. -/
theorem Still.step {action : Action} (still : p.Still) (does : Step onTick p action p' event)
    (goes_on : action.GoesOn) : p'.Still ∧ told event.toList = [] := by
  obtain ⟨control, stands, absent⟩ := still
  have offer : ∀ {sending : Offer}, OfferStep p sending p' event →
      p'.Still ∧ told event.toList = [] := by
    intro sending does
    obtain ⟨control', stands', absent'⟩ := does.engine_same
    refine ⟨⟨control'.trans control, stands'.trans stands, absent'.trans absent⟩, ?_⟩
    cases does <;> rfl
  cases does with
  | call does =>
    cases does with
    | ignoresStart part | startsFeed | startsEngine => exact absurd rfl (goes_on _).1
    | ignoresStop part | stopsFeed | stopsEngine => exact absurd rfl (goes_on _).2
  | control does =>
    cases does with
    | waits => exact ⟨⟨control, stands, absent⟩, rfl⟩
    | createsFeed place | createsEngine place | joinsFeed place | joinsEngine place =>
      exact nomatch control.symm.trans place
  | feed does =>
    cases does with
    | offers _ _ _ does => exact offer does
    | _ => exact ⟨⟨control, stands, absent⟩, rfl⟩
  | socket does =>
    cases does with
    | offers _ _ _ does => exact offer does
    | _ => exact ⟨⟨control, stands, absent⟩, rfl⟩
  | engine does =>
    cases does with
    | rests => exact ⟨⟨control, stands, absent⟩, rfl⟩
    | begins place | ends place | goesOn place | pops _ place | fails place | handles _ place
    | loops place | tells _ _ place => exact nomatch absent.symm.trans place

/-- An engine whose `running_` is cleared is still when the controlling thread is at rest. -/
theorem Ready.still (ready : Ready k p g) (control : p.control = .idle)
    (stands : p.running = false) : p.Still := by
  have engine := ready.engine
  rw [control, stands] at engine
  exact ⟨control, stands, EngineThread.life_absent.mp engine.start.new⟩

theorem EngineStep.told_place {now : Timestamp} {f : Fill}
    (does : EngineStep onTick p now p' (some (.told f))) : ∃ fills, p'.thread = .telling fills := by
  cases does with
  | tells _ fills => exact ⟨fills, rfl⟩

/-- Only the engine's thread calls `on_fill`. -/
theorem Step.told_nil {action : Action} (does : Step onTick p action p' event)
    (others : ∀ now, action ≠ .engine now) : told event.toList = [] := by
  have offer : ∀ {sending : Offer}, OfferStep p sending p' event → told event.toList = [] := by
    intro sending does
    cases does <;> rfl
  cases does with
  | call => rfl
  | control does => cases does <;> rfl
  | feed does =>
    cases does with
    | offers _ _ _ does => exact offer does
    | _ => rfl
  | socket does =>
    cases does with
    | offers _ _ _ does => exact offer does
    | _ => rfl
  | engine => exact absurd rfl (others _)

/-- **No step fails.** -/
theorem Ready.step (small : k ≤ 63) (ready : Ready k p g) (onTick : Strategy σ)
    (action : Action) :
    ∃ p' event, step onTick p action = .ok (p', event) ∧ Step onTick p action p' event := by
  cases action with
  | start part => exact ⟨_, _, rfl, .call (start_cases p part)⟩
  | stop part => exact ⟨_, _, rfl, .call (stop_cases p part)⟩
  | control =>
    obtain ⟨p', event, did, does⟩ := controlStep_cases
      (fun place => FeedThread.life_absent.mp (Managed.new (place ▸ ready.feed)))
      (fun place => EngineThread.life_absent.mp (Managed.new (place ▸ ready.engine)))
    exact ⟨p', event, did, .control does⟩
  | feed got =>
    obtain ⟨p', event, did, does⟩ := feedStep_cases ready.sends got
    exact ⟨p', event, did, .feed does⟩
  | socket got =>
    obtain ⟨p', event, did, does⟩ := socketStep_cases ready.sends got
    exact ⟨p', event, did, .socket does⟩
  | engine now =>
    obtain ⟨m, left, sound⟩ := ready.sound
    obtain ⟨p', event, did, does⟩ := engineStep_cases small ready.queue ready.receives sound now
    exact ⟨p', event, did, .engine does⟩

/-! ### The account over a history -/

structure Flow (onTick : Strategy σ) (strategy : σ) (cfg : Option RiskConfig) (events : List Event)
    (p : Pipeline σ) (contents : List MarketEvent) : Prop where
  sent : produced events = settled events ++ p.feed.sent
  through : queued events = (arrivals events).map Arrival.event ++ p.thread.inHand ++ contents
  tells : (reports events).flatMap Report.fills = told events ++ p.thread.untold
  works : Machine.run (TradingEngine.onEvent onTick) (TradingEngine.new strategy cfg)
    (arrivals events) = .ok (p.engine, reports events)

theorem Flow.step {strategy : σ} {cfg : Option RiskConfig} {events : List Event}
    {contents contents' : List MarketEvent} (flow : Flow onTick strategy cfg events p contents)
    (moves : Moves onTick p p' event contents contents') :
    Flow onTick strategy cfg (events ++ event.toList) p' contents' where
  sent := by
    rw [produced_append, settled_append, flow.sent, List.append_assoc, ← moves.sent,
      List.append_assoc]
  through := by
    rw [queued_append, arrivals_append, flow.through, List.map_append]
    simp only [List.append_assoc]
    rw [← List.append_assoc p.thread.inHand, ← moves.through, List.append_assoc]
  tells := by
    rw [reports_append, told_append, List.flatMap_append, flow.tells, List.append_assoc,
      ← moves.tells, List.append_assoc]
  works := by
    rw [arrivals_append, reports_append]
    exact Machine.run_append moves.works flow.works

end Pipeline

end Ob
