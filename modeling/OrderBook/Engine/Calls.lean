/-
**What an event submits.**

`sends` lists the calls of `submit` that an event makes, each with the book it is made on, along the
same control flow as the source: the quotes that are drawn, the one that is placed on demand, and
the taker. On an engine whose quotes are sound they are the calls that `onEvent` makes
(`onEventLogged_logs`), and every one of them is accepted, whatever its callback does with the
trades, and no quote trades (`sends_spec`).
-/

import OrderBook.Engine.Ticks

namespace Ob

/-- A call of `submit`: the book before it, and the order. -/
structure Sent where
  book : OrderBook
  ticket : Ticket

/-- The call is accepted, and if it puts an order to rest then that does not trade. -/
def Sent.Accepted (sent : Sent) : Prop :=
  ∀ (σ : Type) (onTrade : TradeCallback σ) (seen : σ),
    (∀ seen trade, onTrade seen trade ≠ none) →
    ∃ done, sent.book.submit sent.ticket onTrade seen = .ok done ∧ done.ret = some true ∧
      (sent.ticket.type = .limit → done.seen = seen)

namespace TradingEngine

variable {σ : Type} {e : TradingEngine σ} {m : Market} {left : Side → Quantity}

/-! ### The calls -/

/-- `placeQuote` submits the quote. -/
def placeSend (e : TradingEngine σ) (side : Side) : Sent where
  book := e.book
  ticket := quoteTicket side (e.quote side).cur (e.quote side).curQty 0

/-- What `drawQuote` submits. -/
def drawSends (e : TradingEngine σ) (side : Side) : List Sent :=
  if (e.quote side).curQty > 0 then [e.placeSend side] else []

/-- What `refreshQuotes` submits. -/
def refreshSends (e : TradingEngine σ) (s : MarketSnapshot) : Mem (List Sent) := do
  let e ← e.cancelQuote .buy
  let e ← e.cancelQuote .sell
  if s.bestBid = 0 ∨ s.bestAsk = 0 ∨ s.bestBid > s.bestAsk then return []
  else
    let e := { e with
      bid := { e.bid with cur := s.bestBid, curQty := s.bidQty }
      ask := { e.ask with cur := s.bestAsk, curQty := s.askQty } }
    if s.bestBid < s.bestAsk then
      let (next, _) ← e.drawQuote .buy []
      return e.drawSends .buy ++ next.drawSends .sell
    else return []

/-- What `applyAction` submits. -/
def actionSends (e : TradingEngine σ) (proposed : StrategyAction) : Mem (List Sent) := do
  if proposed.qty = 0 then return []
  else
    match e.gated proposed with
    | none => return []
    | some a =>
      let q := e.quote a.side.opposite
      if a.qty = 0 ∨ q.cur = 0 ∨ q.curQty = 0 then return []
      else
        let placed := if q.live then [] else [e.placeSend a.side.opposite]
        let (e, _) ← (if q.live then pure (e, []) else e.placeQuote a.side.opposite [])
        if (e.quote a.side.opposite).live then return placed ++ [⟨e.book, e.takerTicket a⟩]
        else return placed

/-- What `onEvent` submits. -/
def sends (onTick : Strategy σ) (e : TradingEngine σ) (arrival : Arrival) : Mem (List Sent) := do
  match arrival.event.kind with
  | .error => return []
  | .bookTicker =>
    let snap := arrival.event.snapshot
    let e := { e with
      lastMid := snap.mid
      risk := e.risk.map fun risk : RiskManager => risk.observeEquity (e.pos.equityAt snap.mid) }
    let drawn ← e.refreshSends snap
    let (e, _) ← e.refreshQuotes snap
    let (act, strategy) := onTick e.strategy snap
    match act with
    | none => return drawn
    | some act =>
      let acted ← { e with strategy }.actionSends act
      return drawn ++ acted

/-! ### They are accepted -/

/-- There is always a slot for one more order. -/
theorem Sound.accepts {τ : Type} (sound : e.Sound m left) {onTrade : TradeCallback τ}
    (returns : ∀ seen trade, onTrade seen trade ≠ none) (ticket : Ticket) (seen : τ) :
    ∃ done, e.book.submit ticket onTrade seen = .ok done ∧ done.ret = some true := by
  obtain ⟨done, submitted, _, ret, _⟩ := sound.stands.submit returns ticket seen
  obtain ⟨o, free, shape⟩ := sound.stands.wf.some_free sound.few
  refine ⟨done, submitted, ?_⟩
  rw [ret, Market.submit_ret returns, shape]
  simp only [ne_eq, reduceCtorEq, not_false_eq_true, or_true, decide_true]

theorem Sound.place_accepted (sound : e.Sound m left) {side : Side}
    (dead : (e.quote side).live = false) (some_qty : (e.quote side).curQty ≠ 0)
    (apart : (e.quote side.opposite).live = true → e.bid.cur < e.ask.cur) :
    (e.placeSend side).Accepted := by
  intro τ onTrade seen returns
  obtain ⟨done, submitted, same, ret, _⟩ :=
    sound.stands.submit returns (e.placeSend side).ticket seen
  obtain ⟨quiet, accepted, _⟩ := Market.submit_lone onTrade (e.placeSend side).ticket
    sound.stands.wf sound.few some_qty rfl (sound.empty dead) (sound.refuses apart) seen
  exact ⟨done, submitted, ret.trans accepted, fun _ => same.trans quiet⟩

theorem Sound.draw_accepted (sound : e.Sound m left) {side : Side}
    (dead : (e.quote side).live = false)
    (apart : (e.quote side.opposite).live = true → e.bid.cur < e.ask.cur) :
    ∀ sent ∈ e.drawSends side, sent.Accepted := by
  unfold drawSends
  by_cases shown : (e.quote side).curQty > 0
  · rw [if_pos shown]
    exact List.forall_mem_singleton.mpr
      (sound.place_accepted dead (UInt64.pos_iff_ne_zero.mp shown) apart)
  · rw [if_neg shown]
    exact List.forall_mem_nil _

theorem refreshSends_spec (sound : e.Sound m left) (s : MarketSnapshot) :
    ∃ drawn, e.refreshSends s = .ok drawn ∧ ∀ sent ∈ drawn, sent.Accepted := by
  obtain ⟨e₁, e₂, m₂, bid, ask, dead, _, sound₂⟩ := cancelQuotes_spec sound
  rw [refreshSends, bid, Mem.ok_bind, ask, Mem.ok_bind]
  by_cases unusable : s.bestBid = 0 ∨ s.bestAsk = 0 ∨ s.bestBid > s.bestAsk
  · rw [if_pos unusable]
    exact ⟨[], rfl, List.forall_mem_nil _⟩
  · rw [if_neg unusable]
    have sound₃ := sound₂.redraw dead { e₂.bid with cur := s.bestBid, curQty := s.bidQty }
      { e₂.ask with cur := s.bestAsk, curQty := s.askQty } (dead .buy) (dead .sell)
    obtain ⟨dead₃, _, _⟩ := redrawn dead s rfl
    by_cases apart : s.bestBid < s.bestAsk
    · obtain ⟨book, m', draw, sound'⟩ :=
        drawQuote_spec sound₃ .buy (dead₃ .buy) (fun _ => apart) []
      rw [if_pos apart, draw, Mem.ok_bind]
      refine ⟨_, rfl, List.forall_mem_append.mpr ⟨?_, ?_⟩⟩
      · exact sound₃.draw_accepted (dead₃ .buy) fun _ => apart
      · exact sound'.draw_accepted (dead₃ .sell) fun _ => apart
    · rw [if_neg apart]
      exact ⟨[], rfl, List.forall_mem_nil _⟩

/-- A quote that is placed on demand. -/
theorem Shows.place_accepted {s : MarketSnapshot} (shows : e.Shows s left) (sound : e.Sound m left)
    {side : Side} (some_size : (e.quote side).curQty ≠ 0) :
    ∀ sent ∈ (if (e.quote side).live then [] else [e.placeSend side]), sent.Accepted := by
  cases live : (e.quote side).live with
  | true => exact List.forall_mem_nil _
  | false =>
    have apart : (e.quote side.opposite).live = true → e.bid.cur < e.ask.cur := by
      intro other
      rw [show e.bid.cur = _ from shows.price .sell, show e.ask.cur = _ from shows.price .buy]
      exact shows.apart _ other
    exact List.forall_mem_singleton.mpr (sound.place_accepted live some_size apart)

theorem actionSends_spec (sound : e.Sound m left) {s : MarketSnapshot} (shows : e.Shows s left)
    (proposed : StrategyAction) :
    ∃ acted, e.actionSends proposed = .ok acted ∧ ∀ sent ∈ acted, sent.Accepted := by
  unfold actionSends
  by_cases nothing : proposed.qty = 0
  · rw [if_pos nothing]
    exact ⟨[], rfl, List.forall_mem_nil _⟩
  rw [if_neg nothing]
  cases e.gated proposed with
  | none => exact ⟨[], rfl, List.forall_mem_nil _⟩
  | some a =>
    simp only
    by_cases idle : a.qty = 0 ∨ (e.quote a.side.opposite).cur = 0 ∨
        (e.quote a.side.opposite).curQty = 0
    · rw [if_pos idle]
      exact ⟨[], rfl, List.forall_mem_nil _⟩
    · have some_size : (e.quote a.side.opposite).curQty ≠ 0 := fun none => idle (.inr (.inr none))
      obtain ⟨e₁, m₁, left₁, offered, _, sound₁, live, _, _⟩ := shows.offer sound some_size
      rw [if_neg idle, offered, Mem.ok_bind, if_pos live]
      refine ⟨_, rfl, List.forall_mem_append.mpr ⟨shows.place_accepted sound some_size,
        List.forall_mem_singleton.mpr ?_⟩⟩
      intro τ onTrade seen returns
      obtain ⟨done, submitted, ret⟩ := sound₁.accepts returns (e₁.takerTicket a) seen
      exact ⟨done, submitted, ret, fun limit => by simp [takerTicket] at limit⟩

theorem actionSends_unpriced (unpriced : ∀ side, (e.quote side).cur = 0)
    (proposed : StrategyAction) : e.actionSends proposed = .ok [] := by
  unfold actionSends
  by_cases nothing : proposed.qty = 0
  · rw [if_pos nothing]
    rfl
  · rw [if_neg nothing]
    cases e.gated proposed with
    | none => rfl
    | some a => simp only [unpriced, true_or, or_true, if_true, Mem.pure_eq]

/-- **Every submit of an event is accepted**, and no quote trades when it is placed. -/
theorem sends_spec (onTick : Strategy σ) (sound : e.Sound m left) (arrival : Arrival) :
    ∃ all, e.sends onTick arrival = .ok all ∧ ∀ sent ∈ all, sent.Accepted := by
  unfold sends
  cases arrival.event.kind with
  | error => exact ⟨[], rfl, List.forall_mem_nil _⟩
  | bookTicker =>
    simp only
    generalize arrival.event.snapshot = s
    generalize (e.risk.map fun risk : RiskManager => risk.observeEquity (e.pos.equityAt s.mid)) =
      risk
    have marked : ({ e with lastMid := s.mid, risk } : TradingEngine σ).Sound m left :=
      ⟨sound.stands, sound.complete, sound.quotes⟩
    obtain ⟨drawn, drew, accepted⟩ := refreshSends_spec marked s
    obtain ⟨e₁, m₁, left₁, refreshed, _, sound₁, shows, unpriced⟩ := refreshQuotes_spec marked s
    rw [drew, Mem.ok_bind, refreshed, Mem.ok_bind]
    simp only
    obtain ⟨act, strategy⟩ := onTick e₁.strategy s
    have acts : ({ e₁ with strategy } : TradingEngine σ).Sound m₁ left₁ :=
      ⟨sound₁.stands, sound₁.complete, sound₁.quotes⟩
    cases act with
    | none => exact ⟨drawn, rfl, accepted⟩
    | some proposed =>
      by_cases usable : s.Usable
      · obtain ⟨price, size, whole, apart⟩ := shows usable
        obtain ⟨acted, did, accepted'⟩ :=
          actionSends_spec acts (s := s) ⟨price, size, whole, apart⟩ proposed
        simp only [did, Mem.ok_bind]
        exact ⟨_, rfl, List.forall_mem_append.mpr ⟨accepted, accepted'⟩⟩
      · have unpriced : ∀ side, (({ e₁ with strategy } : TradingEngine σ).quote side).cur = 0 :=
          unpriced usable
        simp only [actionSends_unpriced unpriced, Mem.ok_bind]
        exact ⟨_, rfl, List.forall_mem_append.mpr ⟨accepted, List.forall_mem_nil _⟩⟩

end TradingEngine

end Ob
