/-
**A pipeline loses no event and doubles none.**

Any interleaving of the threads of a pipeline, with `start` and `stop` called in any order, does not
fail, and:

* `run_relays` — every event that the feed has got is on its way into the queue, was given up, or
  was queued; what was queued was worked on by the engine, in the order in which it was queued, or
  is in its hands or in the slots of the queue. The engine is where one event after another would have brought
  it, and calls `on_fill` for each of its fills. Events are given up only when the feed is stopped,
  and by a feed with its own loop at most one for each `stop`.
-/

import Mathlib.Data.List.Count
import OrderBook.Trader.Flow

namespace Ob.Pipeline

variable {σ : Type} {onTick : Strategy σ} {p p' : Pipeline σ} {k : Nat}
  {g : SPSCQueue.Ghost MarketEvent} {event : Option Event} {action : Action}

/-! ### What is given up -/

/-- The feed has an event on its way, or is about to get one, and is told to stop: how many events it
may give up. -/
def atStake (f : Feed) : Nat :=
  if f.running = false ∧ (f.thread = .fetching ∨ f.sending.isSome = true) then 1 else 0

theorem atStake_mono {f f' : Feed} (running : f'.running = f.running)
    (more : f'.thread = .fetching ∨ f'.sending.isSome = true →
      f.thread = .fetching ∨ f.sending.isSome = true) : atStake f' ≤ atStake f := by
  unfold atStake
  rw [running]
  split
  · rename_i stake
    rw [if_pos ⟨stake.1, more stake.2⟩]
  · exact Nat.zero_le _

theorem atStake_le (f : Feed) : atStake f ≤ 1 := by
  unfold atStake
  split <;> simp

theorem OfferStep.stake {sending : Offer} (does : OfferStep p sending p' event)
    (there : p.feed.sending = some sending) (got : p.feed.thread ≠ .fetching) :
    (dropped event.toList).length + atStake p'.feed ≤ atStake p.feed := by
  have here : p.feed.sending.isSome = true := by
    rw [there]
    rfl
  cases does with
  | begins ev runs => simp [atStake, dropped, runs]
  | drops ev stands => simp [atStake, dropped, stands, there, got]
  | goesOn => exact (Nat.zero_add _).trans_le (Nat.le_refl _)
  | queues | fails =>
    exact (Nat.zero_add _).trans_le (atStake_mono rfl fun _ => .inr here)

theorem FeedStep.stake {got : Option MarketEvent} (does : FeedStep p got p' event) :
    (dropped event.toList).length + atStake p'.feed ≤ atStake p.feed := by
  cases does with
  | rests | watches | joins => exact (Nat.zero_add _).trans_le (Nat.le_refl _)
  | checks _ place runs => simp [atStake, dropped, runs]
  | ends | misses | loops | connects | closes | closed =>
    exact (Nat.zero_add _).trans_le (atStake_mono rfl (Or.imp_left nofun))
  | gets ev place => exact (Nat.zero_add _).trans_le (atStake_mono rfl fun _ => .inl place)
  | offers _ place there does => exact does.stake there (place ▸ nofun)

/-- What can be given up, for a feed with its own loop. -/
structure Losses (actions : List Action) (events : List Event) (p : Pipeline σ) : Prop where
  few : p.feed.kind = .polling →
    (dropped events).length + atStake p.feed ≤ actions.count (.stop .feed)
  none : .stop .feed ∉ actions → dropped events = [] ∧ p.control ≠ .joining .feed

theorem Step.stake (does : Step onTick p action p' event) (ready : Ready k p g)
    (polls : p.feed.kind = .polling) :
    (dropped event.toList).length + atStake p'.feed ≤
      atStake p.feed + [action].count (.stop .feed) := by
  have zero := Nat.zero_add (atStake p'.feed)
  cases does with
  | call does =>
    refine zero.trans_le ?_
    cases does with
    | ignoresStart | ignoresStop | startsEngine | stopsEngine => exact Nat.le_add_right _ _
    | startsFeed => simp [atStake]
    | stopsFeed =>
      rw [List.count_singleton_self]
      exact (atStake_le _).trans (Nat.le_add_left _ _)
  | control does =>
    refine Nat.le_add_right_of_le ?_
    cases does with
    | waits | createsEngine | joinsEngine => exact zero.trans_le (Nat.le_refl _)
    | createsFeed =>
      refine zero.trans_le (atStake_mono rfl (Or.imp_left fun here => ?_))
      exact absurd here (FeedKind.begins_ne_fetching _)
    | joinsFeed => exact zero.trans_le (atStake_mono rfl (Or.imp_left nofun))
  | feed does => exact Nat.le_add_right_of_le does.stake
  | socket does =>
    have closed := FeedKind.Fits.no_socket (polls ▸ ready.fits)
    cases does with
    | waits => exact Nat.le_add_right_of_le (zero.trans_le (Nat.le_refl _))
    | gets _ connected | offers _ connected => exact Bool.noConfusion (closed.symm.trans connected)
  | engine does =>
    refine Nat.le_add_right_of_le ?_
    cases does <;> exact zero.trans_le (Nat.le_refl _)

/-- An event is given up only after a `stop`, which has not returned. -/
theorem OfferStep.dropped_nil {sending : Offer} (does : OfferStep p sending p' event)
    (there : p.feed.sending = some sending) (ready : Ready k p g)
    (elsewhere : p.control ≠ .joining .feed) : dropped event.toList = [] := by
  cases does with
  | drops ev stands =>
    have fits := ready.fits
    have feed := ready.feed
    rw [there] at fits
    rw [stands, fits.works.1] at feed
    exact absurd feed.stopping elsewhere
  | begins | goesOn | queues | fails => rfl

theorem Step.dropped_nil (does : Step onTick p action p' event) (ready : Ready k p g)
    (elsewhere : p.control ≠ .joining .feed) (goes_on : action ≠ .stop .feed) :
    dropped event.toList = [] ∧ p'.control ≠ .joining .feed := by
  have offer : ∀ {sending : Offer}, OfferStep p sending p' event → p'.control = p.control := by
    intro sending does
    cases does <;> rfl
  cases does with
  | call does =>
    cases does with
    | ignoresStart | ignoresStop => exact ⟨rfl, elsewhere⟩
    | startsFeed | startsEngine | stopsEngine => exact ⟨rfl, nofun⟩
    | stopsFeed => exact absurd rfl goes_on
  | control does =>
    cases does with
    | waits => exact ⟨rfl, elsewhere⟩
    | createsFeed | createsEngine | joinsFeed | joinsEngine => exact ⟨rfl, nofun⟩
  | feed does =>
    cases does with
    | offers _ _ there does =>
      exact ⟨does.dropped_nil there ready elsewhere, (offer does).symm ▸ elsewhere⟩
    | _ => exact ⟨rfl, elsewhere⟩
  | socket does =>
    cases does with
    | offers _ _ there does =>
      exact ⟨does.dropped_nil there ready elsewhere, (offer does).symm ▸ elsewhere⟩
    | _ => exact ⟨rfl, elsewhere⟩
  | engine does => cases does <;> exact ⟨rfl, elsewhere⟩

theorem Losses.step {actions : List Action} {events : List Event} (losses : Losses actions events p)
    (does : Step onTick p action p' event) (ready : Ready k p g) :
    Losses (actions ++ [action]) (events ++ event.toList) p' where
  few polls := by
    rw [does.kind] at polls
    have before := losses.few polls
    have after := does.stake ready polls
    rw [dropped_append, List.length_append, List.count_append]
    omega
  none goes_on := by
    rw [List.mem_append, List.mem_singleton, not_or] at goes_on
    obtain ⟨nothing, elsewhere⟩ := losses.none goes_on.1
    obtain ⟨nothing', elsewhere'⟩ := does.dropped_nil ready elsewhere (Ne.symm goes_on.2)
    rw [dropped_append, nothing, nothing']
    exact ⟨rfl, elsewhere'⟩

/-! ### Runs -/

/-- **Every event is accounted for**, in every interleaving. -/
theorem run_relays (small : k ≤ 63) (kind : FeedKind) (onTick : Strategy σ) (strategy : σ)
    (cfg : Option RiskConfig) (actions : List Action) :
    ∃ p outs events waiting,
      Machine.run (step onTick) (new kind k strategy cfg) actions = .ok (p, outs) ∧
      outs.reduceOption = events ∧
      produced events = settled events ++ p.feed.sent ∧
      queued events = (arrivals events).map Arrival.event ++ p.thread.inHand ++ waiting ∧
      SPSCQueue.values p.queue = waiting.map some ∧ waiting.length ≤ 2 ^ k ∧
      Machine.run (TradingEngine.onEvent onTick) (TradingEngine.new strategy cfg)
        (arrivals events) = .ok (p.engine, reports events) ∧
      (reports events).flatMap Report.fills = told events ++ p.thread.untold ∧
      (.stop .feed ∉ actions → dropped events = []) ∧
      (kind = .polling → (dropped events).length ≤ actions.count (.stop .feed)) := by
  have kept : ∀ done (outs : List (Option Event)) (p : Pipeline σ) action,
      (∃ g, Ready k p g ∧ p.feed.kind = kind ∧
        Flow onTick strategy cfg outs.reduceOption p g.contents ∧
        Losses done outs.reduceOption p) →
      ∃ p' event, step onTick p action = .ok (p', event) ∧
        ∃ g, Ready k p' g ∧ p'.feed.kind = kind ∧
          Flow onTick strategy cfg (outs ++ [event]).reduceOption p' g.contents ∧
          Losses (done ++ [action]) (outs ++ [event]).reduceOption p' := by
    rintro done outs p action ⟨g, ready, same, flow, losses⟩
    obtain ⟨p', event, did, does⟩ := ready.step small onTick action
    obtain ⟨g', ready', moves⟩ := does.ready small ready
    have more : (outs ++ [event]).reduceOption = outs.reduceOption ++ event.toList := by
      rw [List.reduceOption_append, List.reduceOption_singleton]
    exact ⟨p', event, did, g', ready', does.kind.trans same, more ▸ flow.step moves,
      more ▸ losses.step does ready⟩
  have starts : Losses [] [] (new kind k strategy cfg) :=
    ⟨fun _ => Nat.le_refl 0, fun _ => ⟨rfl, nofun⟩⟩
  obtain ⟨p, outs, ran, g, ready, same, flow, losses⟩ :=
    Machine.run_induction kept actions [] []
      ⟨_, Ready.new kind k strategy cfg, rfl, ⟨rfl, rfl, rfl, rfl⟩, starts⟩
  refine ⟨p, outs, _, g.contents, ran, rfl, flow.sent, flow.through, ready.queue.values small,
    ready.bounded, flow.works, flow.tells, fun goes_on => (losses.none goes_on).1, fun polls => ?_⟩
  exact (Nat.le_add_right _ _).trans (losses.few (same.trans polls))

/-- One event through a queue of one slot, and a second one that is given up. -/
theorem run_relays_two :
    ∃ p outs events waiting,
      Machine.run (step fun (s : Unit) _ => (none, s)) (new .polling 0 () none)
        ([.start .feed, .control, .start .engine, .control] ++
          List.replicate 11 (.feed (some {})) ++ [.stop .feed, .feed none] ++
          List.replicate 6 (.engine 5)) = .ok (p, outs) ∧
      outs.reduceOption = events ∧ (dropped events).length ≤ 1 ∧
      queued events = (arrivals events).map Arrival.event ++ p.thread.inHand ++ waiting ∧
      SPSCQueue.values p.queue = waiting.map some := by
  obtain ⟨p, outs, events, waiting, ran, same, _, through, values, _, _, _, _, few⟩ :=
    run_relays (by decide : 0 ≤ 63) .polling (fun (s : Unit) _ => (none, s)) () none
      ([.start .feed, .control, .start .engine, .control] ++
        List.replicate 11 (.feed (some {})) ++ [.stop .feed, .feed none] ++
        List.replicate 6 (.engine 5))
  exact ⟨p, outs, events, waiting, ran, same, few rfl, through, values⟩

end Ob.Pipeline
