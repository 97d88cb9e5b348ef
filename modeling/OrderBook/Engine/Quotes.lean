/-
**The synthetic quotes in the engine's book.**

`Sound` is the invariant of the engine: its book stands for a market that holds, on each side, the
engine's own quote and nothing else, and the flag of a quote says whether it is there. What each of
the three uses of the book does to it:

* `cancelQuote_spec` — a quote is withdrawn if it is there.
* `placeQuote_spec` — a quote comes to rest, without a trade, if it does not cross the other.
* `take_spec` — a taker trades once with the quote across, which stays live if something is left of
  it.
-/

import OrderBook.Engine.Paper
import OrderBook.Market.Quote
import OrderBook.Refine.Runs

namespace Ob

open Links

/-- A side of the market with a quote of which `left` is left, or with none: as the flag says. -/
inductive Quote.Rests (side : Side) (q : Quote) (left : Quantity) : Ladder → Prop
  | dead (dead : q.live = false) : Rests side q left []
  | live (live : q.live = true) (shown : left ≤ q.curQty) (o : Ptr) (ts : Timestamp) :
      Rests side q left [Rung.single ⟨o, TradingEngine.quoteTicket side q.cur left ts⟩]

/-- At most one order. -/
theorem Quote.Rests.short {side : Side} {q : Quote} {left : Quantity} {ladder : Ladder}
    (rests : q.Rests side left ladder) : ladder.orders.length ≤ 1 := by
  cases rests <;> simp [Ladder.orders, Rung.single]

namespace TradingEngine

variable {σ : Type} {e : TradingEngine σ} {m : Market} {left : Side → Quantity}

/-- What the engine keeps besides its book. -/
def paper (e : TradingEngine σ) : Paper σ := ⟨e.strategy, e.risk, e.pos⟩

@[simp] theorem paper_strategy (e : TradingEngine σ) : e.paper.strategy = e.strategy := rfl

@[simp] theorem paper_risk (e : TradingEngine σ) : e.paper.risk = e.risk := rfl

@[simp] theorem paper_pos (e : TradingEngine σ) : e.paper.pos = e.pos := rfl

theorem paper_new (strategy : σ) (cfg : Option RiskConfig) :
    (new strategy cfg).paper = Paper.new strategy cfg := rfl

/-! ### Selecting a quote -/

@[simp] theorem quote_withQuote (e : TradingEngine σ) (side : Side) (q : Quote) :
    (e.withQuote side q).quote side = q := by
  cases side <;> rfl

theorem quote_withQuote_ne (e : TradingEngine σ) {side other : Side} (q : Quote)
    (different : other ≠ side) : (e.withQuote side q).quote other = e.quote other := by
  cases side <;> cases other <;> first | rfl | exact absurd rfl different

theorem withQuote_dead {side : Side} (dead : (e.quote side).live = false) :
    e.withQuote side { e.quote side with live := false } = e := by
  cases side <;> simp only [← dead] <;> rfl

/-! ### The invariant -/

structure Sound (e : TradingEngine σ) (m : Market) (left : Side → Quantity) : Prop where
  stands : Stands poolCapacity [] e.book m
  complete : m.Complete
  quotes : ∀ side, (e.quote side).Rests side (left side) (m.ladder side)

theorem Sound.new (strategy : σ) (cfg : Option RiskConfig) (left : Side → Quantity) :
    (new strategy cfg).Sound (Market.new poolCapacity) left where
  stands := Stands.new (Nat.two_pow_pos 20)
  complete := List.forall_mem_nil _
  quotes side := by
    cases side <;> exact .dead rfl

/-- The two quotes do not fill the pool. -/
theorem Sound.few (sound : e.Sound m left) : m.linked.length < poolCapacity := by
  have bids := (sound.quotes .buy).short
  have asks := (sound.quotes .sell).short
  have few : m.linked.length ≤ 2 := by
    rw [Market.linked, List.length_append]
    omega
  exact Nat.lt_of_le_of_lt few (by decide)

theorem quoteId_inj {side other : Side} (same : quoteId side = quoteId other) : side = other := by
  cases side <;> cases other <;> first | rfl | cases same

/-- Every resting order is the quote of its side. -/
theorem Sound.quote_of_mem (sound : e.Sound m left) {order : Resting} (member : order ∈ m.linked) :
    ∃ side, (e.quote side).live = true ∧ order.val.id = quoteId side := by
  obtain ⟨side, inside⟩ := Market.mem_linked.mp member
  have here := sound.quotes side
  generalize m.ladder side = ladder at here inside
  cases here with
  | dead => cases inside
  | live live shown o ts =>
    refine ⟨side, live, ?_⟩
    simp only [Ladder.orders, Rung.single, List.flatMap_singleton, List.mem_singleton] at inside
    rw [inside]
    rfl

theorem Sound.empty (sound : e.Sound m left) {side : Side} (dead : (e.quote side).live = false) :
    m.ladder side = [] := by
  have here := sound.quotes side
  generalize m.ladder side = ladder at here ⊢
  cases here with
  | dead => rfl
  | live live => simp [dead] at live

/-- A call has changed one side of the market. -/
theorem Sound.change (sound : e.Sound m left) {book : OrderBook} {m' : Market}
    {side : Side} {q : Quote}
    {rest : Quantity} (stands : Stands poolCapacity [] book m') (complete : m'.Complete)
    (here : q.Rests side rest (m'.ladder side))
    (there : m'.ladder side.opposite = m.ladder side.opposite) :
    ({ e.withQuote side q with book } : TradingEngine σ).Sound m'
      (Function.update left side rest) := by
  refine ⟨stands, complete, fun other => ?_⟩
  rcases side.eq_or_opposite other with rfl | rfl
  · rw [Function.update_self]
    show ((e.withQuote other q).quote other).Rests _ _ _
    rw [quote_withQuote]
    exact here
  · rw [Function.update_of_ne side.opposite_ne, there]
    show ((e.withQuote side q).quote side.opposite).Rests _ _ _
    rw [quote_withQuote_ne e q side.opposite_ne]
    exact sound.quotes side.opposite

/-! ### Cancelling and placing -/

theorem noop_returns : ∀ trades trade, noop trades trade ≠ none := fun _ _ => Option.some_ne_none _

theorem cancelQuote_spec (sound : e.Sound m left) (side : Side) :
    ∃ book m', e.cancelQuote side =
        .ok { e.withQuote side { e.quote side with live := false } with book } ∧
      ({ e.withQuote side { e.quote side with live := false } with book } :
        TradingEngine σ).Sound m' left := by
  have there := sound.quotes side
  generalize lone : m.ladder side = ladder at there
  cases there with
  | dead dead =>
    refine ⟨e.book, m, ?_⟩
    rw [cancelQuote, dead, withQuote_dead dead]
    exact ⟨rfl, sound⟩
  | live live shown o ts =>
    obtain ⟨book, cancelled, stands⟩ := sound.stands.cancel (quoteId side)
    obtain ⟨(own : (m.cancel (quoteId side)).1.ladder side = []), other⟩ :=
      Market.cancel_lone sound.stands.wf sound.complete lone
    refine ⟨book, (m.cancel (quoteId side)).1, ?_, ?_⟩
    · simp only [cancelQuote, live, if_true, cancelled, Mem.ok_bind, Mem.pure_eq]
    · rw [← Function.update_eq_self side left]
      refine sound.change stands (Market.cancel_complete sound.stands.wf sound.complete _) ?_ other
      rw [own]
      exact .dead rfl

/-- Both quotes are withdrawn. -/
theorem cancelQuotes_spec (sound : e.Sound m left) :
    ∃ e₁ e₂ m', e.cancelQuote .buy = .ok e₁ ∧ e₁.cancelQuote .sell = .ok e₂ ∧
      (∀ side, (e₂.quote side).live = false) ∧ e₂.paper = e.paper ∧ e₂.Sound m' left := by
  obtain ⟨_, _, bid, sound₁⟩ := cancelQuote_spec sound .buy
  obtain ⟨_, m', ask, sound₂⟩ := cancelQuote_spec sound₁ .sell
  refine ⟨_, _, m', bid, ask, fun side => ?_, rfl, sound₂⟩
  cases side <;> rfl

/-- Quotes whose prices are apart do not trade with each other. -/
theorem quoteTicket_refuses (apart : e.bid.cur < e.ask.cur) (side : Side) (qty : Quantity) :
    (quoteTicket side (e.quote side).cur qty 0).accepts (e.quote side.opposite).cur = false := by
  refine Ticket.accepts_false.mpr ⟨by simp [quoteTicket], ?_⟩
  cases side <;> exact decide_eq_false (Int64.not_le.mpr apart)

/-- A quote does not trade with the other one. -/
theorem Sound.refuses (sound : e.Sound m left) {side : Side}
    (apart : (e.quote side.opposite).live = true → e.bid.cur < e.ask.cur) :
    ∀ rung ∈ m.ladder side.opposite,
      (quoteTicket side (e.quote side).cur (e.quote side).curQty 0).accepts rung.price = false := by
  have there := sound.quotes side.opposite
  generalize m.ladder side.opposite = ladder at there ⊢
  cases there with
  | dead => exact List.forall_mem_nil _
  | live live shown o ts =>
    exact List.forall_mem_singleton.mpr (quoteTicket_refuses (apart live) side _)

theorem placeQuote_spec (sound : e.Sound m left) {side : Side} (dead : (e.quote side).live = false)
    (some_qty : (e.quote side).curQty ≠ 0)
    (apart : (e.quote side.opposite).live = true → e.bid.cur < e.ask.cur) (trades : List Trade) :
    ∃ book m', e.placeQuote side trades =
        .ok ({ e.withQuote side { e.quote side with live := true } with book }, trades) ∧
      ({ e.withQuote side { e.quote side with live := true } with book } : TradingEngine σ).Sound m'
        (Function.update left side (e.quote side).curQty) := by
  have fresh : m.Fresh (quoteTicket side (e.quote side).cur (e.quote side).curQty 0) := by
    intro order member same
    obtain ⟨other, live, name⟩ := sound.quote_of_mem member
    rw [quoteId_inj (name.symm.trans same), dead] at live
    cases live
  obtain ⟨done, submitted, same, accepted, stands⟩ :=
    sound.stands.submit noop_returns (quoteTicket side (e.quote side).cur (e.quote side).curQty 0)
      trades
  obtain ⟨seen, ret, ⟨o, own⟩, other⟩ :=
    Market.submit_lone noop (quoteTicket side (e.quote side).cur (e.quote side).curQty 0)
      sound.stands.wf sound.few some_qty rfl (sound.empty dead) (sound.refuses apart) trades
  have complete :=
    Market.submit_complete sound.stands.wf sound.complete noop trades fun _ => fresh
  rw [seen] at same
  rw [ret] at accepted
  refine ⟨done.book, _, ?_, sound.change stands complete ?_ other⟩
  · simp only [placeQuote, submitted, Mem.ok_bind, same, accepted, if_true, Mem.pure_eq]
  · have own : Market.ladder _ side = _ := own
    rw [own]
    exact .live rfl (UInt64.le_refl _) o _

/-- A quote of size 0 is not put into the book. -/
theorem drawQuote_spec (sound : e.Sound m left) (side : Side) (dead : (e.quote side).live = false)
    (apart : (e.quote side.opposite).live = true → e.bid.cur < e.ask.cur) (trades : List Trade) :
    ∃ book m', e.drawQuote side trades =
        .ok ({ e.withQuote side
          { e.quote side with live := decide ((e.quote side).curQty > 0) } with book }, trades) ∧
      ({ e.withQuote side { e.quote side with live := decide ((e.quote side).curQty > 0) } with
        book } : TradingEngine σ).Sound m' (Function.update left side (e.quote side).curQty) := by
  unfold drawQuote
  by_cases shown : (e.quote side).curQty > 0
  · simp only [shown, if_true, decide_true]
    exact placeQuote_spec sound dead (UInt64.pos_iff_ne_zero.mp shown) apart trades
  · simp only [shown, if_false, decide_false]
    refine ⟨e.book, m, ?_, sound.change sound.stands sound.complete ?_ rfl⟩
    · rw [withQuote_dead dead]
      rfl
    · rw [sound.empty dead]
      exact .dead rfl

/-! ### Taking -/

theorem collect_returns (side : Side) : ∀ c trade, collect side c trade ≠ none :=
  fun _ _ => Option.some_ne_none _

/-- What one trade makes of the collection: the fill of that trade. -/
theorem collect_one (side : Side) (trades : List Trade) (trade : Trade) :
    ∃ c, collect side { trades } trade = some c ∧ c.filled = trade.qty.toNat ∧
      c.lastPx = trade.price ∧ c.trades = trades ++ [trade] ∧
      ∀ (pos : Position) (eventTs now : Timestamp),
        pos.book side c = pos.after ⟨side, trade.price, trade.qty.toNat, eventTs, now⟩ := by
  refine ⟨_, rfl, Nat.zero_add _, rfl, rfl, fun pos eventTs now => ?_⟩
  cases side <;> simp [Position.book, Position.after, Int.sub_eq_add_neg]

/-- A taker at the price of a quote accepts the quote. -/
theorem takerTicket_accepts (e : TradingEngine σ) (a : StrategyAction) :
    (e.takerTicket a).accepts (e.quote a.side.opposite).cur = true := by
  rw [Ticket.accepts_limited (by simp [takerTicket]), priceCrosses_iff]
  exact Int.le_refl _

/-- What a taker leaves of a quote; the best price then tells whether it is still there. -/
theorem rests_lone {side : Side} {q : Quote} {rest fill : Quantity} (shown : rest ≤ q.curQty)
    (le : fill ≤ rest) (priced : q.cur ≠ 0) (o : Ptr) (ts : Timestamp) {ladder : Ladder}
    (lone : ladder = Ladder.lone ⟨o, quoteTicket side q.cur rest ts⟩ fill) :
    { q with live := decide (ladder.bestPrice ≠ 0) }.Rests side (rest - fill) ladder := by
  subst lone
  unfold Ladder.lone
  by_cases gone : rest - fill = 0
  · rw [if_pos (show (quoteTicket side q.cur rest ts).qty - fill = 0 from gone)]
    exact .dead rfl
  · rw [if_neg (show ¬(quoteTicket side q.cur rest ts).qty - fill = 0 from gone)]
    have less : rest - fill ≤ rest := by
      rw [UInt64.le_iff_toNat_le, UInt64.toNat_sub_of_le _ _ le]
      exact Nat.sub_le _ _
    show Quote.Rests side ⟨decide (q.cur ≠ 0), q.cur, q.curQty⟩ (rest - fill)
      [Rung.single ⟨o, quoteTicket side q.cur (rest - fill) ts⟩]
    exact Quote.Rests.live (q := ⟨decide (q.cur ≠ 0), q.cur, q.curQty⟩) (decide_eq_true priced)
      (UInt64.le_trans less shown) o ts

theorem bestAcross_eq (book : OrderBook) (side : Side) :
    bestAcross book side = (book.sideBook side.opposite).bestPrice := by
  cases side <;> rfl

/-- A taker against a live quote: one trade, and the quote is what is left of it. -/
theorem taker_spec (sound : e.Sound m left) (a : StrategyAction) (trades : List Trade)
    (live : (e.quote a.side.opposite).live = true) (some_qty : a.qty ≠ 0)
    (priced : (e.quote a.side.opposite).cur ≠ 0) :
    ∃ done m' left' trade, e.book.submit (e.takerTicket a) (collect a.side) { trades } = .ok done ∧
      collect a.side { trades } trade = some done.seen ∧
      trade.price = (e.quote a.side.opposite).cur ∧ trade.qty = min a.qty (left a.side.opposite) ∧
      trade.qty ≠ 0 ∧
      ({ e.withQuote a.side.opposite { e.quote a.side.opposite with
          live := decide (bestAcross done.book a.side ≠ 0) } with
        book := done.book } : TradingEngine σ).Sound m' left' := by
  have there := sound.quotes a.side.opposite
  generalize lone : m.ladder a.side.opposite = ladder at there
  cases there with
  | dead dead => simp [dead] at live
  | live _ shown o ts =>
    have some_left : left a.side.opposite ≠ 0 := by
      have rung :=
        (sound.stands.wf.ladders _).rungs (Rung.single _) (lone ▸ List.mem_singleton.mpr rfl)
      exact UInt64.pos_iff_ne_zero.mp (rung.positive _ (List.mem_singleton.mpr rfl))
    have some_fill : min a.qty (left a.side.opposite) ≠ 0 :=
      UInt64.pos_iff_ne_zero.mp (Quantity.min_pos some_qty (UInt64.pos_iff_ne_zero.mpr some_left))
    obtain ⟨done, submitted, same, _, stands⟩ :=
      sound.stands.submit (collect_returns a.side) (e.takerTicket a) { trades }
    obtain ⟨seen, _, other, own⟩ := Market.submit_takes (collect a.side) (e.takerTicket a)
      sound.stands.wf sound.few some_qty rfl lone (e.takerTicket_accepts a) rfl
    have complete :=
      Market.submit_complete sound.stands.wf sound.complete (collect a.side) { trades }
      fun rests : m.Rests (e.takerTicket a) _ _ => absurd rests.1 (by simp [takerTicket])
    refine ⟨done, _, Function.update left a.side.opposite
      (left a.side.opposite - min a.qty (left a.side.opposite)),
      tradeOf (m.stamp (e.takerTicket a))
        ⟨o, quoteTicket a.side.opposite (e.quote a.side.opposite).cur
        (left a.side.opposite) ts⟩ (e.quote a.side.opposite).cur (min a.qty (left a.side.opposite)),
      submitted, congrArg some (same.trans seen).symm, rfl, rfl, some_fill,
      sound.change stands complete ?_ ?_⟩
    · rw [bestAcross_eq, bestPrice_eq stands.rep]
      exact rests_lone shown (Quantity.min_le_right _ _) priced o ts own
    · rw [Side.opposite_opposite]
      exact other

theorem withQuote_live {side : Side} (live : (e.quote side).live = true) :
    e.withQuote side { e.quote side with live := true } = e := by
  cases side <;> simp only [← live] <;> rfl

/-- `take` when the taker has traded. -/
theorem take_traded {a : StrategyAction} {trades : List Trade}
    {done : OrderBook.Submitted Collected}
    (submitted : e.book.submit (e.takerTicket a) (collect a.side) { trades } = .ok done)
    (some_filled : done.seen.filled ≠ 0) (live : (e.quote a.side.opposite).live = true)
    (s : MarketSnapshot) (now : Timestamp) :
    e.take a s now trades = .ok
      ({ e.withQuote a.side.opposite { e.quote a.side.opposite with
          live := decide (bestAcross done.book a.side ≠ 0) } with
        book := done.book, nextId := e.nextId + 1, pos := e.pos.book a.side done.seen },
        ⟨done.seen.trades, [⟨a.side, done.seen.lastPx, done.seen.filled, s.eventTs, now⟩]⟩) := by
  simp only [take, submitted, Mem.ok_bind, some_filled, if_false, Mem.pure_eq]
  by_cases gone : bestAcross done.book a.side = 0
  · simp only [gone, if_true, ne_eq, not_true_eq_false, decide_false]
    rfl
  · simp only [gone, if_false, ne_eq, not_false_eq_true, decide_true, withQuote_live live]

theorem take_spec (sound : e.Sound m left) (a : StrategyAction) (s : MarketSnapshot)
    (now : Timestamp)
    (trades : List Trade) (live : (e.quote a.side.opposite).live = true) (some_qty : a.qty ≠ 0)
    (priced : (e.quote a.side.opposite).cur ≠ 0) :
    ∃ e' m' left' trade fill, e.take a s now trades = .ok (e', ⟨trades ++ [trade], [fill]⟩) ∧
      fill = ⟨a.side, (e.quote a.side.opposite).cur, (min a.qty (left a.side.opposite)).toNat,
        s.eventTs, now⟩ ∧
      trade.price = fill.price ∧ trade.qty.toNat = fill.qty ∧ e'.pos = e.pos.after fill ∧
      e'.strategy = e.strategy ∧ e'.risk = e.risk ∧ e'.Sound m' left' := by
  obtain ⟨done, m', left', trade, submitted, collected, price, qty, some_fill, sound'⟩ :=
    taker_spec sound a trades live some_qty priced
  obtain ⟨c, returned, filled, px, tape, booked⟩ := collect_one a.side trades trade
  obtain rfl : done.seen = c := Option.some.inj (collected.symm.trans returned)
  have some_filled : done.seen.filled ≠ 0 := fun none =>
    some_fill (UInt64.toNat_inj.mp (filled.symm.trans none))
  have taken := take_traded submitted some_filled live s now
  rw [tape, px, filled, booked e.pos s.eventTs now, price, qty] at taken
  exact ⟨_, m', left', trade, _, taken, rfl, price, congrArg UInt64.toNat qty, rfl, rfl, rfl,
    sound'.stands, sound'.complete, sound'.quotes⟩

end TradingEngine

end Ob
