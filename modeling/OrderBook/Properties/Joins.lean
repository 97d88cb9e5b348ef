/-
**`stop` returns.**

A thread that was told to stop finishes after a few turns of its own, whatever the other threads do:
the feed's even if the queue is full and nothing takes an event out of it any more, as a `try_push`
that fails is tried again only while `running_` is set.

* `OfferStep.left`, `FeedStep.left`, `EngineStep.left` — every turn of a thread brings it nearer to
  its end.
* `run_joins` — so `stop` returns, from every state of every run.
-/

import OrderBook.Trader.Flow

namespace Ob

/-! ### What is left of a call of the queue -/

namespace SPSCQueue

variable {α : Type}

/-- How many steps are left of a `try_push` at most. -/
def Producer.left : Producer α → Nat
  | .idle => 0
  | .publish _ _ => 1
  | .writing _ _ => 2
  | .write _ _ => 3
  | .reload _ _ => 4
  | .called _ => 5

/-- How many steps are left of a `try_pop` at most. -/
def Consumer.left : Consumer α → Nat
  | .idle => 0
  | .publish _ _ => 1
  | .read _ => 2
  | .reload _ => 3
  | .called => 4

theorem Producer.left_le (producer : Producer α) : producer.left ≤ 5 := by
  cases producer <;> simp [left]

theorem Consumer.left_le (consumer : Consumer α) : consumer.left ≤ 4 := by
  cases consumer <;> simp [left]

theorem tryPush_left {s : State α} {value : α} (inside : s.producer.value = some value) :
    (tryPush s).1.producer.left < s.producer.left := by
  obtain ⟨q, producer, consumer⟩ := s
  cases producer with
  | idle => cases inside
  | called | reload =>
    simp only [tryPush]
    split <;> simp [Producer.left]
  | write | writing | publish => simp [tryPush, Producer.left]

theorem tryPop_left {s s' : State α} {event : Option (Fifo.Event α)}
    (inside : s.consumer ≠ .idle) (did : tryPop s = .ok (s', event)) :
    s'.consumer.left < s.consumer.left := by
  obtain ⟨q, producer, consumer⟩ := s
  cases consumer with
  | idle => exact absurd rfl inside
  | called | reload | read =>
    simp only [tryPop] at did
    split at did <;> cases did <;> simp [Consumer.left]
  | publish =>
    cases did
    simp [Consumer.left]

end SPSCQueue

namespace Pipeline

variable {σ : Type} {onTick : Strategy σ} {p p' : Pipeline σ} {k : Nat}
  {g : SPSCQueue.Ghost MarketEvent} {event : Option Event} {action : Action}

/-! ### What is left of a thread that is told to stop -/

/-- Of the inner loop of a feed. -/
def sendingLeft (p : Pipeline σ) : Nat :=
  match p.feed.sending with
  | none => 0
  | some (.testing _) => 1
  | some (.pushing _) => p.queue.producer.left + 1

/-- Of the feed's thread. -/
def feedLeft (p : Pipeline σ) : Nat :=
  match p.feed.thread with
  | .absent | .finished => 0
  | .checking | .closing => 1
  | .watching => 2
  | .connecting => 3
  | .fetching => 4
  | .offering => p.sendingLeft + 2

/-- Of the callback, if there is a socket. -/
def socketLeft (p : Pipeline σ) : Nat := if p.feed.connected then p.sendingLeft else 0

/-- Of the engine's thread. -/
def engineLeft (p : Pipeline σ) : Nat :=
  match p.thread with
  | .absent | .finished => 0
  | .checking => 1
  | .telling fills => fills.length + 2
  | .handling _ => 4
  | .popping => p.queue.consumer.left + 4

theorem sendingLeft_le (p : Pipeline σ) : p.sendingLeft ≤ 6 := by
  have le := p.queue.producer.left_le
  unfold sendingLeft
  split <;> omega

theorem feedLeft_le (p : Pipeline σ) : p.feedLeft ≤ 8 := by
  have le := p.sendingLeft_le
  unfold feedLeft
  split <;> omega

theorem engineLeft_le (few : p.thread.untold.length ≤ 1) : p.engineLeft ≤ 8 := by
  have le := p.queue.consumer.left_le
  cases place : p.thread with
  | absent | finished | checking | handling => simp [engineLeft, place]
  | popping =>
    simp only [engineLeft, place]
    omega
  | telling fills =>
    rw [place] at few
    have few : fills.length ≤ 1 := few
    simp only [engineLeft, place]
    omega

theorem OfferStep.left {sending : Offer} (does : OfferStep p sending p' event)
    (there : p.feed.sending = some sending) (sends : p.Sends) (stands : p.feed.running = false) :
    p'.sendingLeft < p.sendingLeft := by
  unfold Sends at sends
  rw [there] at sends
  cases does with
  | begins ev runs => exact Bool.noConfusion (stands.symm.trans runs)
  | drops ev => simp [sendingLeft, there]
  | goesOn ev =>
    have less := SPSCQueue.tryPush_left sends
    simp only [sendingLeft, there]
    omega
  | queues ev | fails ev =>
    have less := SPSCQueue.tryPush_left sends
    simp only [sendingLeft, there]
    omega

/-- The inner loop moves nothing else. -/
theorem OfferStep.apart {sending : Offer} (does : OfferStep p sending p' event) :
    p'.control = p.control ∧ p'.feed.thread = p.feed.thread ∧
      p'.feed.connected = p.feed.connected ∧ p'.engineLeft = p.engineLeft := by
  cases does with
  | begins | drops => exact ⟨rfl, rfl, rfl, rfl⟩
  | goesOn _ _ _ apart | queues _ _ _ apart | fails _ _ _ apart =>
    refine ⟨rfl, rfl, rfl, ?_⟩
    simp only [engineLeft, apart]

/-- Nor does the engine. -/
theorem EngineStep.apart {now : Timestamp} (does : EngineStep onTick p now p' event) :
    p'.control = p.control ∧ p'.feed = p.feed ∧ p'.sendingLeft = p.sendingLeft := by
  cases does with
  | rests | begins | ends | handles | loops | tells => exact ⟨rfl, rfl, rfl⟩
  | goesOn _ _ _ apart | pops _ _ _ _ apart | fails _ _ _ apart =>
    refine ⟨rfl, rfl, ?_⟩
    simp only [sendingLeft, apart]

/-- The callback has nothing to do. -/
def Quiet (p : Pipeline σ) : Prop := p.feed.connected = true → p.feed.sending = none

theorem FeedStep.left {got : Option MarketEvent} (does : FeedStep p got p' event)
    (ready : Ready k p g) (stands : p.feed.running = false) (quiet : p.Quiet) :
    p'.control = p.control ∧ p'.Quiet ∧ p'.feedLeft ≤ p.feedLeft - 1 := by
  have fits := ready.fits
  cases does with
  | rests _ gone =>
    refine ⟨rfl, quiet, ?_⟩
    rcases gone with gone | gone <;> simp [feedLeft, gone]
  | checks _ _ runs | watches _ _ runs => exact Bool.noConfusion (stands.symm.trans runs)
  | ends _ place | misses place | closes _ place =>
    refine ⟨rfl, quiet, ?_⟩
    simp [feedLeft, place]
  | gets ev place =>
    rw [place] at fits
    refine ⟨rfl, fun connected => ?_, ?_⟩
    · have alone := (fits.gets (some (.testing ev))).2.offering_alone
      exact Bool.noConfusion (alone.symm.trans connected)
    · simp [feedLeft, sendingLeft, place]
  | offers _ place there does =>
    obtain ⟨control, thread, connected, _⟩ := does.apart
    have less := does.left there ready.sends stands
    rw [place] at fits thread
    refine ⟨control, fun here => ?_, ?_⟩
    · exact Bool.noConfusion (fits.offering_alone.symm.trans (connected.symm.trans here))
    · simp only [feedLeft, place, thread]
      omega
  | loops _ place sent =>
    refine ⟨rfl, fun _ => sent, ?_⟩
    simp [feedLeft, sendingLeft, place, sent]
  | connects _ place =>
    rw [place] at fits
    refine ⟨rfl, fun _ => fits.connecting_free, ?_⟩
    simp [feedLeft, place]
  | joins _ place busy =>
    rw [place] at fits
    exact absurd (quiet fits.closing_connected) busy
  | closed _ place sent =>
    refine ⟨rfl, fun _ => sent, ?_⟩
    simp [feedLeft, place]

/-- Whose turn it is. -/
def Action.ofFeed : Action → Bool
  | .feed _ => true
  | _ => false

def Action.ofSocket : Action → Bool
  | .socket _ => true
  | _ => false

def Action.ofEngine : Action → Bool
  | .engine _ => true
  | _ => false

/-- No message comes in. -/
def Silent (kind : FeedKind) (action : Action) : Prop :=
  kind = .webSocket → ∀ ev, action ≠ .socket (some ev)

theorem Silent.gets {ev : MarketEvent} (silent : Silent p.feed.kind (.socket (some ev)))
    (ready : Ready k p g) (connected : p.feed.connected = true) : False := by
  cases kind : p.feed.kind with
  | webSocket => exact silent kind ev rfl
  | polling =>
    have closed := FeedKind.Fits.no_socket (kind ▸ ready.fits)
    exact Bool.noConfusion (closed.symm.trans connected)

/-- **While `stop` waits for the feed**, every turn of the feed's thread brings it nearer. -/
theorem Step.feedLeft (does : Step onTick p action p' event) (ready : Ready k p g)
    (waits : p.control = .joining .feed) (quiet : p.Quiet) (silent : Silent p.feed.kind action) :
    event = some (.stopped .feed) ∨ (p'.control = .joining .feed ∧ p'.Quiet) ∧
      p'.feedLeft ≤ p.feedLeft - action.ofFeed.toNat := by
  have stands := ready.feed.stands waits
  have same : (p.control = .joining .feed ∧ p.Quiet) ∧ p.feedLeft ≤ p.feedLeft - 0 :=
    ⟨⟨waits, quiet⟩, Nat.le_refl _⟩
  cases does with
  | call does =>
    cases does with
    | ignoresStart | ignoresStop => exact .inr same
    | startsFeed place | startsEngine place | stopsFeed place | stopsEngine place =>
      exact nomatch place.symm.trans waits
  | control does =>
    cases does with
    | waits => exact .inr same
    | joinsFeed => exact .inl rfl
    | createsFeed place | createsEngine place | joinsEngine place =>
      exact nomatch place.symm.trans waits
  | feed does =>
    obtain ⟨control, quiet', less⟩ := does.left ready stands quiet
    exact .inr ⟨⟨control.trans waits, quiet'⟩, less⟩
  | socket does =>
    cases does with
    | waits => exact .inr same
    | gets ev connected => exact (silent.gets ready connected).elim
    | offers _ connected there => exact nomatch there.symm.trans (quiet connected)
  | engine does =>
    obtain ⟨control, feed, left⟩ := does.apart
    refine .inr ⟨⟨control.trans waits, ?_⟩, ?_⟩
    · rw [Quiet, feed]
      exact quiet
    · simp only [Pipeline.feedLeft, feed, left]
      exact Nat.le_refl _

/-- So does every turn of the socket's thread, before that. -/
theorem Step.socketLeft (does : Step onTick p action p' event) (ready : Ready k p g)
    (waits : p.control = .joining .feed) (silent : Silent p.feed.kind action) :
    event = some (.stopped .feed) ∨ p'.control = .joining .feed ∧
      p'.socketLeft ≤ p.socketLeft - action.ofSocket.toNat := by
  have stands := ready.feed.stands waits
  have fits := ready.fits
  have same : p.control = .joining .feed ∧ p.socketLeft ≤ p.socketLeft - 0 :=
    ⟨waits, Nat.le_refl _⟩
  cases does with
  | call does =>
    cases does with
    | ignoresStart | ignoresStop => exact .inr same
    | startsFeed place | startsEngine place | stopsFeed place | stopsEngine place =>
      exact nomatch place.symm.trans waits
  | control does =>
    cases does with
    | waits => exact .inr same
    | joinsFeed => exact .inl rfl
    | createsFeed place | createsEngine place | joinsEngine place =>
      exact nomatch place.symm.trans waits
  | feed does =>
    cases does with
    | rests | joins | watches => exact .inr same
    | checks | ends | misses | loops | closes => exact .inr ⟨waits, Nat.le_refl _⟩
    | gets ev place =>
      rw [place] at fits
      have alone := (fits.gets none).2.offering_alone
      refine .inr ⟨waits, ?_⟩
      simp [Pipeline.socketLeft, alone]
    | offers _ place there does =>
      obtain ⟨control, _, connected, _⟩ := does.apart
      rw [place] at fits
      refine .inr ⟨control.trans waits, ?_⟩
      simp [Pipeline.socketLeft, connected, fits.offering_alone]
    | connects _ place =>
      rw [place] at fits
      refine .inr ⟨waits, ?_⟩
      simp [Pipeline.socketLeft, sendingLeft, fits.connecting_free]
    | closed =>
      refine .inr ⟨waits, ?_⟩
      simp [Pipeline.socketLeft]
  | socket does =>
    cases does with
    | waits _ quiet =>
      refine .inr ⟨waits, ?_⟩
      rcases quiet with closed | free
      · simp [Pipeline.socketLeft, closed]
      · simp [Pipeline.socketLeft, sendingLeft, free]
    | gets ev connected => exact (silent.gets ready connected).elim
    | offers _ connected there does =>
      obtain ⟨control, _, same, _⟩ := does.apart
      have less := does.left there ready.sends stands
      refine .inr ⟨control.trans waits, ?_⟩
      simp only [Pipeline.socketLeft, same, connected, if_true, Action.ofSocket, Bool.toNat_true]
      omega
  | engine does =>
    obtain ⟨control, feed, left⟩ := does.apart
    refine .inr ⟨control.trans waits, ?_⟩
    simp only [Pipeline.socketLeft, feed, left]
    exact Nat.le_refl _

theorem EngineStep.left {now : Timestamp} (does : EngineStep onTick p now p' event)
    (receives : p.Receives) (stands : p.running = false) : p'.engineLeft ≤ p.engineLeft - 1 := by
  cases does with
  | rests gone => rcases gone with gone | gone <;> simp [engineLeft, gone]
  | begins place runs => exact Bool.noConfusion (stands.symm.trans runs)
  | ends place | loops place => simp [engineLeft, place]
  | goesOn place did | pops _ place did | fails place did =>
    have less := SPSCQueue.tryPop_left (fun idle => receives.mp idle place) did
    simp only [engineLeft, place]
    omega
  | handles ev place did few =>
    simp only [engineLeft, place]
    omega
  | tells fill fills place =>
    simp only [engineLeft, place, List.length_cons]
    omega

/-- **While `stop` waits for the engine**, every turn of the engine's thread brings it nearer. -/
theorem Step.engineLeft (does : Step onTick p action p' event) (ready : Ready k p g)
    (waits : p.control = .joining .engine) :
    event = some (.stopped .engine) ∨ p'.control = .joining .engine ∧
      p'.engineLeft ≤ p.engineLeft - action.ofEngine.toNat := by
  have same : p.control = .joining .engine ∧ p.engineLeft ≤ p.engineLeft - 0 :=
    ⟨waits, Nat.le_refl _⟩
  cases does with
  | call does =>
    cases does with
    | ignoresStart | ignoresStop => exact .inr same
    | startsFeed place | startsEngine place | stopsFeed place | stopsEngine place =>
      exact nomatch place.symm.trans waits
  | control does =>
    cases does with
    | waits => exact .inr same
    | joinsEngine => exact .inl rfl
    | createsFeed place | createsEngine place | joinsFeed place =>
      exact nomatch place.symm.trans waits
  | feed does =>
    cases does with
    | offers _ _ _ does =>
      obtain ⟨control, _, _, left⟩ := does.apart
      exact .inr ⟨control.trans waits, left.le⟩
    | _ => exact .inr same
  | socket does =>
    cases does with
    | offers _ _ _ does =>
      obtain ⟨control, _, _, left⟩ := does.apart
      exact .inr ⟨control.trans waits, left.le⟩
    | _ => exact .inr same
  | engine does =>
    refine .inr ⟨does.apart.1.trans waits, ?_⟩
    exact does.left ready.receives (ready.engine.stands waits)

theorem socketLeft_le (p : Pipeline σ) : p.socketLeft ≤ 6 := by
  unfold socketLeft
  split
  · exact p.sendingLeft_le
  · exact Nat.zero_le _

theorem Ready.quiet (ready : Ready k p g)
    (ended : p.feed.kind = .webSocket → p.socketLeft = 0) : p.Quiet := by
  intro connected
  have fits := ready.fits
  have webSocket : p.feed.kind = .webSocket := by
    cases kind : p.feed.kind with
    | webSocket => rfl
    | polling =>
      rw [kind] at fits
      exact Bool.noConfusion (fits.no_socket.symm.trans connected)
  have none := ended webSocket
  rw [socketLeft, if_pos connected, sendingLeft] at none
  split at none
  · assumption
  · cases none
  · cases none

/-! ### Runs -/

theorem joins_feed (waits : p.control = .joining .feed) (ended : p.feedLeft = 0) :
    ∃ p', step onTick p .control = .ok (p', some (.stopped .feed)) := by
  cases place : p.feed.thread with
  | absent | finished =>
    simp only [step, controlStep, waits, place]
    exact ⟨_, rfl⟩
  | checking | fetching | offering | connecting | watching | closing =>
    simp [Pipeline.feedLeft, place] at ended

theorem joins_engine (waits : p.control = .joining .engine) (ended : p.engineLeft = 0) :
    ∃ p', step onTick p .control = .ok (p', some (.stopped .engine)) := by
  cases place : p.thread with
  | absent | finished =>
    simp only [step, controlStep, waits, place]
    exact ⟨_, rfl⟩
  | checking | popping | handling | telling => simp [Pipeline.engineLeft, place] at ended

/-- After calls that brought `stop` to its end, or to where only its thread is left to go on. -/
theorem stopped_mem {part : Part} {actions : List Action} {outs : List (Option Event)}
    (small : k ≤ 63) (ran : Machine.run (step onTick) p actions = .ok (p', outs))
    (ready : Ready k p' g)
    (reached : some (.stopped part) ∈ outs ∨
      ∃ next, step onTick p' .control = .ok (next, some (.stopped part))) :
    ∃ final outs', Machine.run (step onTick) p (actions ++ [.control]) = .ok (final, outs') ∧
      some (.stopped part) ∈ outs' := by
  obtain ⟨next, event, did, _⟩ := ready.step small onTick .control
  refine ⟨next, outs ++ [event], Machine.run_append (Machine.run_one did) ran, ?_⟩
  rcases reached with there | ⟨next', did'⟩
  · exact List.mem_append_left _ there
  · rw [did] at did'
    cases did'
    exact List.mem_append_right _ (List.mem_singleton_self _)

/-- A state of a run. -/
def Reached (k : Nat) (kind : FeedKind) (p : Pipeline σ) : Prop :=
  ∃ g, Ready k p g ∧ p.feed.kind = kind

theorem Reached.step {kind : FeedKind} (small : k ≤ 63) (onTick : Strategy σ)
    (reached : Reached k kind p) (action : Action) :
    ∃ p' event g, step onTick p action = .ok (p', event) ∧ Reached k kind p' ∧ Ready k p g ∧
      p.feed.kind = kind ∧ Step onTick p action p' event := by
  obtain ⟨g, ready, same⟩ := reached
  obtain ⟨p', event, did, does⟩ := ready.step small onTick action
  obtain ⟨g', ready', _⟩ := does.ready small ready
  exact ⟨p', event, g, did, ⟨g', ready', does.kind.trans same⟩, ready, same, does⟩

/-- **`stop` returns**, from every state of every run. The thread that is joined needs eight turns at
most; that of a socket, in which no new message comes in, needs six before. -/
theorem run_joins (small : k ≤ 63) (kind : FeedKind) (onTick : Strategy σ) (strategy : σ)
    (cfg : Option RiskConfig) (before : List Action) :
    ∃ p outs, Machine.run (step onTick) (new kind k strategy cfg) before = .ok (p, outs) ∧
      (p.control = .joining .engine → ∀ actions, 8 ≤ actions.countP Action.ofEngine →
        ∃ final outs', Machine.run (step onTick) p (actions ++ [.control]) = .ok (final, outs') ∧
          some (.stopped .engine) ∈ outs') ∧
      (p.control = .joining .feed → ∀ first second,
        (kind = .webSocket → 6 ≤ first.countP Action.ofSocket ∧
          ∀ ev, Action.socket (some ev) ∉ first ++ second) →
        8 ≤ second.countP Action.ofFeed →
        ∃ final outs',
          Machine.run (step onTick) p (first ++ second ++ [.control]) = .ok (final, outs') ∧
            some (.stopped .feed) ∈ outs') := by
  have safe : ∀ (p : Pipeline σ) action, Reached k kind p → True →
      ∃ p' event, step onTick p action = .ok (p', event) ∧ Reached k kind p' := by
    rintro p action reached -
    obtain ⟨p', event, _, did, reached', _⟩ := reached.step small onTick action
    exact ⟨p', event, did, reached'⟩
  have engineTurns : ∀ (p : Pipeline σ) action, Reached k kind p →
      ∃ p' event, step onTick p action = .ok (p', event) ∧ Reached k kind p' ∧
        (p.control = .joining .engine → True → event = some (.stopped .engine) ∨
          p'.control = .joining .engine ∧ p'.engineLeft ≤ p.engineLeft - action.ofEngine.toNat) := by
    intro p action reached
    obtain ⟨p', event, g, did, reached', ready, _, does⟩ := reached.step small onTick action
    exact ⟨p', event, did, reached', fun waits _ => does.engineLeft ready waits⟩
  have socketTurns : ∀ (p : Pipeline σ) action, Reached k kind p →
      ∃ p' event, step onTick p action = .ok (p', event) ∧ Reached k kind p' ∧
        (p.control = .joining .feed → Silent kind action → event = some (.stopped .feed) ∨
          p'.control = .joining .feed ∧ p'.socketLeft ≤ p.socketLeft - action.ofSocket.toNat) := by
    intro p action reached
    obtain ⟨p', event, g, did, reached', ready, same, does⟩ := reached.step small onTick action
    exact ⟨p', event, did, reached', fun waits silent =>
      does.socketLeft ready waits (same.symm ▸ silent)⟩
  have feedTurns : ∀ (p : Pipeline σ) action, Reached k kind p →
      ∃ p' event, step onTick p action = .ok (p', event) ∧ Reached k kind p' ∧
        (p.control = .joining .feed ∧ p.Quiet → Silent kind action →
          event = some (.stopped .feed) ∨ (p'.control = .joining .feed ∧ p'.Quiet) ∧
            p'.feedLeft ≤ p.feedLeft - action.ofFeed.toNat) := by
    intro p action reached
    obtain ⟨p', event, g, did, reached', ready, same, does⟩ := reached.step small onTick action
    exact ⟨p', event, did, reached', fun ⟨waits, quiet⟩ silent =>
      does.feedLeft ready waits quiet (same.symm ▸ silent)⟩
  obtain ⟨p, outs, ran, reached⟩ := Machine.run_along safe
    ⟨_, Ready.new kind k strategy cfg, rfl⟩ (Machine.Along.always before _)
  refine ⟨p, outs, ran, fun waits actions turns => ?_, fun waits first second closed turns => ?_⟩
  · have bound : p.engineLeft ≤ 8 := by
      obtain ⟨g, ready, _⟩ := reached
      exact engineLeft_le ready.few
    obtain ⟨final, outs', ran', ⟨g, ready, _⟩, ended⟩ :=
      Machine.run_turns engineTurns reached waits fun _ _ => trivial
    refine stopped_mem small ran' ready (ended.imp (fun ⟨out, member, is⟩ => is ▸ member)
      fun ⟨waits, le⟩ => joins_engine waits ?_)
    omega
  · have silent : ∀ action ∈ first ++ second, Silent kind action := fun action member ws ev is =>
      (closed ws).2 ev (is ▸ member)
    obtain ⟨p₁, outs₁, ran₁, reached₁, ended₁⟩ := Machine.run_turns socketTurns reached waits
      fun action member => silent action (List.mem_append_left _ member)
    rcases ended₁ with ⟨out, member, rfl⟩ | ⟨waits₁, le₁⟩
    · obtain ⟨p₂, outs₂, ran₂, ⟨g, ready, _⟩⟩ :=
        Machine.run_along safe reached₁ (Machine.Along.always second _)
      exact stopped_mem small (Machine.run_append ran₂ ran₁) ready
        (.inl (List.mem_append_left _ member))
    · have quiet : p₁.Quiet := by
        obtain ⟨g, ready, same⟩ := reached₁
        refine ready.quiet fun ws => ?_
        have bound := p.socketLeft_le
        have enough := (closed (same.symm.trans ws)).1
        omega
      obtain ⟨p₂, outs₂, ran₂, ⟨g, ready, _⟩, ended₂⟩ :=
        Machine.run_turns feedTurns reached₁ ⟨waits₁, quiet⟩
          fun action member => silent action (List.mem_append_right _ member)
      refine stopped_mem small (Machine.run_append ran₂ ran₁) ready (ended₂.imp
        (fun ⟨out, member, is⟩ => List.mem_append_right _ (is ▸ member))
        fun ⟨⟨waits₂, _⟩, le₂⟩ => joins_feed waits₂ ?_)
      have bound := p₁.feedLeft_le
      omega

/-- A queue of one slot, with a second event that does not fit and no engine. -/
theorem run_joins_full :
    ∃ p outs, Machine.run (step fun (s : Unit) _ => (none, s)) (new .polling 0 () none)
        ([.start .feed, .control] ++ List.replicate 13 (.feed (some {})) ++ [.stop .feed]) =
        .ok (p, outs) ∧ p.feed.sending = some (.testing {}) ∧ p.control = .joining .feed ∧
      ∃ final outs', Machine.run (step fun (s : Unit) _ => (none, s)) p
          (List.replicate 8 (.feed (some {})) ++ [.control]) = .ok (final, outs') ∧
        some (.stopped .feed) ∈ outs' := by
  obtain ⟨p, outs, ran, _, feed⟩ := run_joins (by decide : 0 ≤ 63) .polling
    (fun (s : Unit) _ => (none, s)) () none
    ([.start .feed, .control] ++ List.replicate 13 (.feed (some {})) ++ [.stop .feed])
  have here : (Machine.run (step fun (s : Unit) _ => (none, s)) (new .polling 0 () none)
      ([.start .feed, .control] ++ List.replicate 13 (.feed (some {})) ++ [.stop .feed])).map
      (fun end_ => (end_.1.feed.sending, end_.1.control)) =
        .ok (some (.testing {}), .joining .feed) := by rfl
  rw [ran] at here
  injection here with here
  injection here with sending control
  refine ⟨p, outs, ran, sending, control, feed control [] _ nofun ?_⟩
  rfl

end Pipeline

end Ob
