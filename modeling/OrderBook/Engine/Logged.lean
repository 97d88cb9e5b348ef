/-
**An event with a log of its submits.**

`onEventLogged` is `onEvent` with every call of `submit` put on a log at the moment it is made.

* `onEventLogged_erases` — without the log it is `onEvent`, on every engine.
* `onEventLogged_logs` — on an engine whose quotes are sound, what it logs is the list `sends`.
-/

import OrderBook.Engine.Calls
import OrderBook.Library.Logging

namespace Ob

/-- A computation that logs the submits it makes. -/
abbrev Logged (α : Type) := StateT (List Sent) Mem α

/-- `submit`, put on the log. -/
def OrderBook.submitLogged {τ : Type} (book : OrderBook) (ticket : Ticket)
    (onTrade : TradeCallback τ) (seen : τ) : Logged (OrderBook.Submitted τ) :=
  logCall ⟨book, ticket⟩ (book.submit ticket onTrade seen)

namespace TradingEngine

variable {σ : Type} {e : TradingEngine σ} {m : Market} {left : Side → Quantity}

/-! ### The event, logged -/

def placeQuoteLogged (e : TradingEngine σ) (side : Side) (trades : List Trade) :
    Logged (TradingEngine σ × List Trade) := do
  let q := e.quote side
  let done ← e.book.submitLogged (quoteTicket side q.cur q.curQty 0) noop trades
  let live := if done.ret = some true then true else q.live
  return ({ e.withQuote side { q with live } with book := done.book }, done.seen)

def drawQuoteLogged (e : TradingEngine σ) (side : Side) (trades : List Trade) :
    Logged (TradingEngine σ × List Trade) :=
  if (e.quote side).curQty > 0 then e.placeQuoteLogged side trades else return (e, trades)

def refreshQuotesLogged (e : TradingEngine σ) (s : MarketSnapshot) :
    Logged (TradingEngine σ × List Trade) := do
  let e ← e.cancelQuote .buy
  let e ← e.cancelQuote .sell
  if s.bestBid = 0 ∨ s.bestAsk = 0 ∨ s.bestBid > s.bestAsk then
    return ({ e with
      bid := { e.bid with cur := 0, curQty := 0 }
      ask := { e.ask with cur := 0, curQty := 0 } }, [])
  else
    let e := { e with
      bid := { e.bid with cur := s.bestBid, curQty := s.bidQty }
      ask := { e.ask with cur := s.bestAsk, curQty := s.askQty } }
    if s.bestBid < s.bestAsk then
      let (e, trades) ← e.drawQuoteLogged .buy []
      e.drawQuoteLogged .sell trades
    else return (e, [])

def takeLogged (e : TradingEngine σ) (a : StrategyAction) (s : MarketSnapshot) (now : Timestamp)
    (trades : List Trade) : Logged (TradingEngine σ × Report) := do
  let q := e.quote a.side.opposite
  let done ← e.book.submitLogged (e.takerTicket a) (collect a.side) { trades }
  let e := { e with nextId := e.nextId + 1, book := done.book }
  let e :=
    if bestAcross e.book a.side = 0 then e.withQuote a.side.opposite { q with live := false } else e
  let c := done.seen
  if c.filled = 0 then return (e, { trades := c.trades })
  else
    let fill : Fill :=
      { side := a.side, price := c.lastPx, qty := c.filled, eventTs := s.eventTs, ts := now }
    return ({ e with pos := e.pos.book a.side c }, { trades := c.trades, fills := [fill] })

def applyActionLogged (e : TradingEngine σ) (proposed : StrategyAction) (s : MarketSnapshot)
    (now : Timestamp) (trades : List Trade) : Logged (TradingEngine σ × Report) := do
  if proposed.qty = 0 then return (e, { trades })
  else
    match e.gated proposed with
    | none => return (e, { trades })
    | some a =>
      let q := e.quote a.side.opposite
      if a.qty = 0 ∨ q.cur = 0 ∨ q.curQty = 0 then return (e, { trades })
      else
        let (e, trades) ←
          (if q.live then pure (e, trades) else e.placeQuoteLogged a.side.opposite trades)
        if (e.quote a.side.opposite).live then e.takeLogged a s now trades
        else return (e, { trades })

def onEventLogged (onTick : Strategy σ) (e : TradingEngine σ) (arrival : Arrival) :
    Logged (TradingEngine σ × Report) := do
  match arrival.event.kind with
  | .error => return (e, {})
  | .bookTicker =>
    let snap := arrival.event.snapshot
    let e := { e with
      lastMid := snap.mid
      risk := e.risk.map fun risk : RiskManager => risk.observeEquity (e.pos.equityAt snap.mid) }
    let (e, trades) ← e.refreshQuotesLogged snap
    let (act, strategy) := onTick e.strategy snap
    let e := { e with strategy }
    match act with
    | none => return (e, { trades })
    | some act => e.applyActionLogged act snap arrival.now trades

/-! ### Each use of the book -/

theorem placeQuoteLogged_logs (e : TradingEngine σ) (side : Side) (trades : List Trade) :
    Logs (e.placeQuoteLogged side trades) (e.placeQuote side trades) [e.placeSend side] :=
  (Logs.call _ _).bind_silent fun _ => .pure _

theorem drawQuoteLogged_logs (e : TradingEngine σ) (side : Side) (trades : List Trade) :
    Logs (e.drawQuoteLogged side trades) (e.drawQuote side trades) (e.drawSends side) := by
  unfold drawQuoteLogged drawQuote drawSends
  by_cases shown : (e.quote side).curQty > 0
  · rw [if_pos shown, if_pos shown, if_pos shown]
    exact e.placeQuoteLogged_logs side trades
  · rw [if_neg shown, if_neg shown, if_neg shown]
    exact .pure _

/-- The quote that a taker needs, if it is not there. -/
theorem offerLogged_logs (e : TradingEngine σ) (side : Side) (trades : List Trade) :
    Logs (if (e.quote side).live then pure (e, trades) else e.placeQuoteLogged side trades)
      (if (e.quote side).live then pure (e, trades) else e.placeQuote side trades)
      (if (e.quote side).live then [] else [e.placeSend side]) := by
  cases (e.quote side).live with
  | true => exact .pure _
  | false => exact placeQuoteLogged_logs _ _ _

theorem takeLogged_logs (e : TradingEngine σ) (a : StrategyAction) (s : MarketSnapshot)
    (now : Timestamp) (trades : List Trade) :
    Logs (e.takeLogged a s now trades) (e.take a s now trades) [⟨e.book, e.takerTicket a⟩] := by
  refine (Logs.call _ _).bind_silent fun done => ?_
  by_cases nothing : done.seen.filled = 0
  · simp only [nothing, if_true]
    exact .pure _
  · simp only [nothing, if_false]
    exact .pure _

/-! ### The log is left out of account -/

theorem refreshQuotesLogged_erases (e : TradingEngine σ) (s : MarketSnapshot) :
    Erases (e.refreshQuotesLogged s) (e.refreshQuotes s) := by
  refine (Logs.lift _).erases.bind fun e₁ => (Logs.lift _).erases.bind fun e₂ => ?_
  by_cases unusable : s.bestBid = 0 ∨ s.bestAsk = 0 ∨ s.bestBid > s.bestAsk
  · rw [if_pos unusable, if_pos unusable]
    exact (Logs.pure _).erases
  · rw [if_neg unusable, if_neg unusable]
    by_cases apart : s.bestBid < s.bestAsk
    · rw [if_pos apart, if_pos apart]
      refine (drawQuoteLogged_logs _ _ _).erases.bind fun drawn => ?_
      exact (drawQuoteLogged_logs _ _ _).erases
    · rw [if_neg apart, if_neg apart]
      exact (Logs.pure _).erases

theorem applyActionLogged_erases (e : TradingEngine σ) (proposed : StrategyAction)
    (s : MarketSnapshot) (now : Timestamp) (trades : List Trade) :
    Erases (e.applyActionLogged proposed s now trades) (e.applyAction proposed s now trades) := by
  unfold applyActionLogged applyAction
  by_cases nothing : proposed.qty = 0
  · rw [if_pos nothing, if_pos nothing]
    exact (Logs.pure _).erases
  rw [if_neg nothing, if_neg nothing]
  cases e.gated proposed with
  | none => exact (Logs.pure _).erases
  | some a =>
    simp only
    by_cases idle : a.qty = 0 ∨ (e.quote a.side.opposite).cur = 0 ∨
        (e.quote a.side.opposite).curQty = 0
    · rw [if_pos idle, if_pos idle]
      exact (Logs.pure _).erases
    · rw [if_neg idle, if_neg idle]
      refine (offerLogged_logs _ _ _).erases.bind fun offered => ?_
      cases (offered.1.quote a.side.opposite).live with
      | true => exact (takeLogged_logs _ _ _ _ _).erases
      | false => exact (Logs.pure _).erases

/-- **Without its log the event is the source's.** -/
theorem onEventLogged_erases (onTick : Strategy σ) (e : TradingEngine σ) (arrival : Arrival) :
    Erases (e.onEventLogged onTick arrival) (e.onEvent onTick arrival) := by
  unfold onEventLogged onEvent
  cases arrival.event.kind with
  | error => exact (Logs.pure _).erases
  | bookTicker =>
    refine (refreshQuotesLogged_erases _ _).bind fun refreshed => ?_
    simp only
    cases (onTick refreshed.1.strategy arrival.event.snapshot).1 with
    | none => exact (Logs.pure _).erases
    | some proposed => exact applyActionLogged_erases _ _ _ _ _

/-! ### What is logged -/

theorem refreshQuotesLogged_logs {s : MarketSnapshot} {drawn : List Sent}
    (drew : e.refreshSends s = .ok drawn) :
    Logs (e.refreshQuotesLogged s) (e.refreshQuotes s) drawn := by
  obtain ⟨e₁, bid, drew⟩ := Mem.bind_ok drew
  obtain ⟨e₂, ask, drew⟩ := Mem.bind_ok drew
  refine (Logs.lift _).bind_known bid ((Logs.lift _).bind_known ask ?_)
  by_cases unusable : s.bestBid = 0 ∨ s.bestAsk = 0 ∨ s.bestBid > s.bestAsk
  · rw [if_pos unusable] at drew ⊢
    cases drew
    rw [if_pos unusable]
    exact .pure _
  · rw [if_neg unusable] at drew ⊢
    rw [if_neg unusable]
    by_cases apart : s.bestBid < s.bestAsk
    · rw [if_pos apart] at drew ⊢
      obtain ⟨⟨e₃, trades⟩, draw, drew⟩ := Mem.bind_ok drew
      cases drew
      rw [if_pos apart]
      exact (drawQuoteLogged_logs _ _ _).bind_known draw (drawQuoteLogged_logs _ _ _)
    · rw [if_neg apart] at drew ⊢
      cases drew
      rw [if_neg apart]
      exact .pure _

/-- An action after a refresh that has not traded. -/
theorem applyActionLogged_logs {proposed : StrategyAction} {acted : List Sent}
    (act : e.actionSends proposed = .ok acted) (s : MarketSnapshot) (now : Timestamp) :
    Logs (e.applyActionLogged proposed s now []) (e.applyAction proposed s now []) acted := by
  unfold actionSends at act
  unfold applyActionLogged applyAction
  by_cases nothing : proposed.qty = 0
  · rw [if_pos nothing] at act
    cases act
    rw [if_pos nothing, if_pos nothing]
    exact .pure _
  rw [if_neg nothing] at act
  rw [if_neg nothing, if_neg nothing]
  cases gated : e.gated proposed with
  | none =>
    rw [gated] at act
    cases act
    exact .pure _
  | some a =>
    simp only [gated] at act
    simp only
    by_cases idle : a.qty = 0 ∨ (e.quote a.side.opposite).cur = 0 ∨
        (e.quote a.side.opposite).curQty = 0
    · rw [if_pos idle] at act
      cases act
      rw [if_pos idle, if_pos idle]
      exact .pure _
    · rw [if_neg idle] at act
      rw [if_neg idle, if_neg idle]
      obtain ⟨⟨e₁, trades⟩, offered, act⟩ := Mem.bind_ok act
      have logs := offerLogged_logs e a.side.opposite []
      cases live : (e₁.quote a.side.opposite).live with
      | true =>
        rw [live] at act
        cases act
        refine logs.bind_known offered ?_
        rw [live]
        exact takeLogged_logs _ _ _ _ _
      | false =>
        rw [live] at act
        cases act
        refine logs.bind_last offered ?_
        rw [live]
        exact .pure _

/-- **On a sound engine the log is the list `sends`.** -/
theorem onEventLogged_logs (onTick : Strategy σ) (sound : e.Sound m left) {arrival : Arrival}
    {all : List Sent} (sent : e.sends onTick arrival = .ok all) :
    Logs (e.onEventLogged onTick arrival) (e.onEvent onTick arrival) all := by
  unfold sends at sent
  unfold onEventLogged onEvent
  cases kind : arrival.event.kind with
  | error =>
    rw [kind] at sent
    cases sent
    exact .pure _
  | bookTicker =>
    simp only [kind] at sent
    simp only
    generalize arrival.event.snapshot = s at sent ⊢
    generalize (e.risk.map fun risk : RiskManager => risk.observeEquity (e.pos.equityAt s.mid)) =
      risk at sent ⊢
    have marked : ({ e with lastMid := s.mid, risk } : TradingEngine σ).Sound m left :=
      ⟨sound.stands, sound.complete, sound.quotes⟩
    obtain ⟨e₁, _, _, refreshed, _⟩ := refreshQuotes_spec marked s
    obtain ⟨drawn, drew, sent⟩ := Mem.bind_ok sent
    rw [refreshed, Mem.ok_bind] at sent
    have logs := refreshQuotesLogged_logs drew
    simp only at sent
    generalize answer : onTick e₁.strategy s = acts at sent
    obtain ⟨act, strategy⟩ := acts
    cases act with
    | none =>
      cases sent
      refine logs.bind_last refreshed ?_
      simp only [answer]
      exact .pure _
    | some proposed =>
      obtain ⟨acted, did, sent⟩ := Mem.bind_ok sent
      cases sent
      refine logs.bind_known refreshed ?_
      simp only [answer]
      exact applyActionLogged_logs did s arrival.now

end TradingEngine

end Ob
