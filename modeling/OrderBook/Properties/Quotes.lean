/-
**The engine's own quotes.**

* `run_quotes` — after every run each side of the engine's book holds nothing, or the engine's own
  quote and nothing else, at the price that the last tick displays and with at least one unit and at
  most the size it displays; the flag of the quote says which. Whatever event comes next, every
  submit that it logs finds a slot, and a quote that is placed does not trade.
-/

import OrderBook.Engine.Logged
import OrderBook.Library.Machine

namespace Ob

/-- What a tick displays on a side, if it is usable. -/
def MarketSnapshot.display (s : MarketSnapshot) (side : Side) : Price × Quantity :=
  if s.Usable then (s.priceAcross side.opposite, s.sizeAcross side.opposite) else (0, 0)

/-- What an event leaves on display. -/
def Arrival.display (arrival : Arrival) (shown : Side → Price × Quantity) :
    Side → Price × Quantity :=
  match arrival.event.kind with
  | .error => shown
  | .bookTicker => arrival.event.snapshot.display

/-- What the last tick of a history displays; before the first there is nothing. -/
def displayed (arrivals : List Arrival) : Side → Price × Quantity :=
  arrivals.foldl (fun shown arrival => arrival.display shown) fun _ => (0, 0)

namespace TradingEngine

variable {σ : Type} {e e' : TradingEngine σ}

/-- The prices and sizes that the engine keeps of its quotes. -/
def shown (e : TradingEngine σ) (side : Side) : Price × Quantity :=
  ((e.quote side).cur, (e.quote side).curQty)

/-- The side of the engine's book holds nothing, or its quote and nothing else, as the flag says. -/
def QuoteRests (e : TradingEngine σ) (side : Side) : Prop :=
  (e.quote side).live = false ∧ e.book.linked side = [] ∨
    (e.quote side).live = true ∧ ∃ order, e.book.linked side = [order] ∧
      order.val.id = quoteId side ∧ order.val.side = side ∧
      order.val.price = (e.quote side).cur ∧ 0 < order.val.qty ∧
      order.val.qty ≤ (e.quote side).curQty

theorem Sound.quoteRests {m : Market} {left : Side → Quantity} (sound : e.Sound m left)
    (side : Side) : e.QuoteRests side := by
  have lone := linked_eq sound.stands.rep sound.stands.distinct side
  have here := sound.quotes side
  have positive := (sound.stands.wf.ladders side).rungs
  generalize m.ladder side = ladder at lone here positive
  cases here with
  | dead dead => exact .inl ⟨dead, lone⟩
  | live live shown o ts =>
    refine .inr ⟨live, _, lone, rfl, rfl, rfl, ?_, shown⟩
    exact (positive _ List.mem_cons_self).positive _ List.mem_cons_self

/-! ### What the quotes show -/

theorem shown_withQuote {side : Side} {live : Bool} (book : OrderBook) :
    ({ e.withQuote side { e.quote side with live } with book } : TradingEngine σ).shown =
      e.shown := by
  funext other
  cases side <;> cases other <;> rfl

theorem placeQuote_shown {side : Side} {trades trades' : List Trade}
    (did : e.placeQuote side trades = .ok (e', trades')) : e'.shown = e.shown := by
  obtain ⟨done, _, did⟩ := Mem.bind_ok did
  cases did
  exact shown_withQuote _

theorem drawQuote_shown {side : Side} {trades trades' : List Trade}
    (did : e.drawQuote side trades = .ok (e', trades')) : e'.shown = e.shown := by
  unfold drawQuote at did
  split at did
  · exact placeQuote_shown did
  · cases did
    rfl

theorem refreshQuotes_shown {s : MarketSnapshot} {trades : List Trade}
    (did : e.refreshQuotes s = .ok (e', trades)) : e'.shown = s.display := by
  obtain ⟨e₁, _, did⟩ := Mem.bind_ok did
  obtain ⟨e₂, _, did⟩ := Mem.bind_ok did
  by_cases usable : s.Usable
  · have show_tick : ∀ e : TradingEngine σ, ({ e with
        bid := { e.bid with cur := s.bestBid, curQty := s.bidQty }
        ask := { e.ask with cur := s.bestAsk, curQty := s.askQty } } : TradingEngine σ).shown =
        s.display := by
      intro e
      funext side
      rw [MarketSnapshot.display, if_pos usable]
      cases side <;> rfl
    rw [if_neg (mt not_usable.mpr (not_not.mpr usable))] at did
    by_cases apart : s.bestBid < s.bestAsk
    · rw [if_pos apart] at did
      obtain ⟨⟨e₃, trades₃⟩, drawn, did⟩ := Mem.bind_ok did
      exact (drawQuote_shown did).trans ((drawQuote_shown drawn).trans (show_tick e₂))
    · rw [if_neg apart] at did
      cases did
      exact show_tick e₂
  · rw [if_pos (not_usable.mp usable)] at did
    cases did
    funext side
    rw [MarketSnapshot.display, if_neg usable]
    cases side <;> rfl

theorem take_shown {a : StrategyAction} {s : MarketSnapshot} {now : Timestamp}
    {trades : List Trade} {report : Report} (did : e.take a s now trades = .ok (e', report)) :
    e'.shown = e.shown := by
  obtain ⟨done, _, did⟩ := Mem.bind_ok did
  have kept : (if bestAcross done.book a.side = 0 then
      ({ e with nextId := e.nextId + 1, book := done.book } : TradingEngine σ).withQuote
        a.side.opposite { e.quote a.side.opposite with live := false }
      else { e with nextId := e.nextId + 1, book := done.book }).shown = e.shown := by
    split
    · exact shown_withQuote done.book
    · rfl
  simp only at did
  split at did
  · cases did
    exact kept
  · cases did
    exact kept

theorem applyAction_shown {proposed : StrategyAction} {s : MarketSnapshot} {now : Timestamp}
    {trades : List Trade} {report : Report}
    (did : e.applyAction proposed s now trades = .ok (e', report)) : e'.shown = e.shown := by
  unfold applyAction at did
  split at did
  · cases did
    rfl
  split at did
  · cases did
    rfl
  simp only at did
  split at did
  · cases did
    rfl
  obtain ⟨⟨e₁, trades₁⟩, placed, did⟩ := Mem.bind_ok did
  have same : e₁.shown = e.shown := by
    split at placed
    · cases placed
      rfl
    · exact placeQuote_shown placed
  rw [← same]
  split at did
  · exact take_shown did
  · cases did
    rfl

/-- **An event shows its tick.** -/
theorem onEvent_shown {onTick : Strategy σ} {arrival : Arrival} {report : Report}
    (did : e.onEvent onTick arrival = .ok (e', report)) : e'.shown = arrival.display e.shown := by
  unfold onEvent at did
  unfold Arrival.display
  cases kind : arrival.event.kind with
  | error =>
    rw [kind] at did
    cases did
    rfl
  | bookTicker =>
    simp only [kind] at did ⊢
    obtain ⟨⟨e₁, trades⟩, refreshed, did⟩ := Mem.bind_ok did
    rw [← refreshQuotes_shown refreshed]
    simp only at did
    split at did
    · cases did
      rfl
    · exact (applyAction_shown did).trans rfl

end TradingEngine

/-- **The quotes are bounded and consistent over every run.** -/
theorem run_quotes {σ : Type} (onTick : Strategy σ) (strategy : σ) (cfg : Option RiskConfig)
    (arrivals : List Arrival) :
    ∃ e reports, Machine.run (TradingEngine.onEvent onTick) (TradingEngine.new strategy cfg)
        arrivals = .ok (e, reports) ∧
      (∀ side, e.QuoteRests side) ∧ e.shown = displayed arrivals ∧
      ∀ next, ∃ e' report all, e.onEvent onTick next = .ok (e', report) ∧
        (e.onEventLogged onTick next).run [] = .ok ((e', report), all) ∧
        e.sends onTick next = .ok all ∧ ∀ sent ∈ all, sent.Accepted := by
  have kept : ∀ (done : List Arrival) (reports : List Report) (e : TradingEngine σ) arrival,
      ((∃ m left, e.Sound m left) ∧ e.shown = displayed done) → ∃ e' report,
        e.onEvent onTick arrival = .ok (e', report) ∧
          (∃ m left, e'.Sound m left) ∧ e'.shown = displayed (done ++ [arrival]) := by
    rintro done _ e arrival ⟨⟨m, left, sound⟩, shown⟩
    obtain ⟨e', report, m', left', did, sound', _⟩ :=
      TradingEngine.onEvent_spec onTick sound arrival
    refine ⟨e', report, did, ⟨m', left', sound'⟩, ?_⟩
    rw [TradingEngine.onEvent_shown did, shown, displayed, displayed, List.foldl_append]
    rfl
  have starts := TradingEngine.Sound.new strategy cfg fun _ => 0
  have shown : (TradingEngine.new strategy cfg).shown = displayed [] := by
    funext side
    cases side <;> rfl
  obtain ⟨e, reports, ran, ⟨m, left, sound⟩, same⟩ :=
    Machine.run_induction kept arrivals [] [] ⟨⟨_, _, starts⟩, shown⟩
  refine ⟨e, reports, ran, fun side => sound.quoteRests side, same, fun next => ?_⟩
  obtain ⟨e', report, _, _, did, _⟩ := TradingEngine.onEvent_spec onTick sound next
  obtain ⟨all, sent, accepted⟩ := TradingEngine.sends_spec onTick sound next
  refine ⟨e', report, all, did, ?_, sent, accepted⟩
  rw [TradingEngine.onEventLogged_logs onTick sound sent [], did]
  rfl

end Ob
