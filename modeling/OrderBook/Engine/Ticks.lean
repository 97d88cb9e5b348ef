/-
**One tick of the engine.**

A tick first redraws the quotes (`refreshQuotes_spec`): on a usable tick they show its prices and
sizes, and what rests of a quote is its whole size; on an unusable one nothing rests. An action then
has the effect of the direct rule (`applyAction_spec`), and so has the whole event (`onEvent_spec`).
-/

import OrderBook.Engine.Gate
import OrderBook.Engine.Quotes

namespace Ob

/-! ### When there is no fill -/

section NoFill

variable {risk : Option RiskManager} {pos : Position} {s : MarketSnapshot} {now : Timestamp}
  {proposed : StrategyAction}

theorem not_usable : ¬s.Usable ↔ s.bestBid = 0 ∨ s.bestAsk = 0 ∨ s.bestBid > s.bestAsk := by
  rw [MarketSnapshot.Usable, not_and_or, not_and_or, not_ne_iff, not_ne_iff, Int64.not_le]

theorem MarketSnapshot.Usable.priced (usable : s.Usable) (side : Side) :
    s.priceAcross side ≠ 0 := by
  cases side
  · exact usable.2.1
  · exact usable.1

theorem Paper.gated_le {a : StrategyAction} (passed : Paper.gated risk pos s proposed = some a) :
    a.side = proposed.side ∧ a.qty ≤ proposed.qty := by
  cases risk with
  | none =>
    cases passed
    exact ⟨rfl, UInt64.le_refl _⟩
  | some risk =>
    obtain ⟨side, _, le⟩ := RiskManager.gate_within passed
    exact ⟨side, le⟩

theorem Paper.fill_unusable (unusable : ¬s.Usable) : Paper.fill risk pos s now proposed = none := by
  rw [Paper.fill, Option.bind_eq_none_iff]
  intro a _
  rw [MarketSnapshot.fillOf, if_neg (mt And.left unusable)]

theorem Paper.fill_nothing (nothing : proposed.qty = 0) :
    Paper.fill risk pos s now proposed = none := by
  rw [Paper.fill, Option.bind_eq_none_iff]
  intro a passed
  have le := (Paper.gated_le passed).2
  rw [nothing] at le
  have none : a.qty = 0 := by
    rw [UInt64.le_iff_toNat_le, UInt64.toNat_zero, Nat.le_zero] at le
    exact UInt64.toNat_inj.mp le
  rw [MarketSnapshot.fillOf, if_neg fun ⟨_, some_qty, _⟩ => some_qty none]

end NoFill

namespace TradingEngine

variable {σ : Type} {e : TradingEngine σ} {m : Market} {left : Side → Quantity}

/-! ### Redrawing the quotes -/

/-- Quotes that are not there may show anything. -/
theorem Sound.redraw (sound : e.Sound m left) (dead : ∀ side, (e.quote side).live = false)
    (bid ask : Quote)
    (bid_dead : bid.live = false) (ask_dead : ask.live = false) :
    ({ e with bid, ask } : TradingEngine σ).Sound m left := by
  refine ⟨sound.stands, sound.complete, fun side => ?_⟩
  rw [sound.empty (dead side)]
  cases side
  · exact .dead bid_dead
  · exact .dead ask_dead

/-- The quotes show a tick, and those that rest do so with their whole size. -/
structure Shows (e : TradingEngine σ) (s : MarketSnapshot) (left : Side → Quantity) : Prop where
  price : ∀ side : Side, (e.quote side.opposite).cur = s.priceAcross side
  size : ∀ side : Side, (e.quote side.opposite).curQty = s.sizeAcross side
  whole : ∀ side, (e.quote side).live = true → left side = (e.quote side).curQty
  apart : ∀ side, (e.quote side).live = true → s.bestBid < s.bestAsk

/-- Two quotes that do not cross are put into an empty book. -/
theorem drawQuotes_spec (sound : e.Sound m left) (dead : ∀ side, (e.quote side).live = false)
    (apart : e.bid.cur < e.ask.cur) :
    ∃ e₁ e₂ m' left', e.drawQuote .buy [] = .ok (e₁, []) ∧ e₁.drawQuote .sell [] = .ok (e₂, []) ∧
      e₂.paper = e.paper ∧ e₂.Sound m' left' ∧
      ∀ side, (e₂.quote side).cur = (e.quote side).cur ∧
        (e₂.quote side).curQty = (e.quote side).curQty ∧
        left' side = (e.quote side).curQty := by
  obtain ⟨_, _, bid, sound₁⟩ := drawQuote_spec sound .buy (dead .buy) (fun _ => apart) []
  obtain ⟨_, m', ask, sound₂⟩ := drawQuote_spec sound₁ .sell (dead .sell) (fun _ => apart) []
  refine ⟨_, _, m', _, bid, ask, rfl, sound₂, fun side => ?_⟩
  cases side
  · exact ⟨rfl, rfl, rfl⟩
  · exact ⟨rfl, rfl, rfl⟩

/-- The quotes of a tick before they are put into the book. -/
theorem redrawn (dead : ∀ side, (e.quote side).live = false) (s : MarketSnapshot)
    {e' : TradingEngine σ}
    (is : e' = { e with
      bid := { e.bid with cur := s.bestBid, curQty := s.bidQty }
      ask := { e.ask with cur := s.bestAsk, curQty := s.askQty } }) :
    (∀ side, (e'.quote side).live = false) ∧
      (∀ side : Side, (e'.quote side.opposite).cur = s.priceAcross side) ∧
      ∀ side : Side, (e'.quote side.opposite).curQty = s.sizeAcross side := by
  subst is
  refine ⟨fun side => ?_, fun side => ?_, fun side => ?_⟩
  · cases side
    · exact dead .buy
    · exact dead .sell
  · cases side <;> rfl
  · cases side <;> rfl

/-- **The quotes show the tick** if it is usable, and nothing otherwise. -/
theorem refreshQuotes_spec (sound : e.Sound m left) (s : MarketSnapshot) :
    ∃ e' m' left', e.refreshQuotes s = .ok (e', []) ∧ e'.paper = e.paper ∧ e'.Sound m' left' ∧
      (s.Usable → e'.Shows s left') ∧ (¬s.Usable → ∀ side, (e'.quote side).cur = 0) := by
  obtain ⟨e₁, e₂, m₂, bid, ask, dead, same, sound₂⟩ := cancelQuotes_spec sound
  rw [refreshQuotes, bid, Mem.ok_bind, ask, Mem.ok_bind]
  by_cases usable : s.Usable
  · rw [if_neg (mt not_usable.mpr (not_not.mpr usable))]
    have sound₃ := sound₂.redraw dead { e₂.bid with cur := s.bestBid, curQty := s.bidQty }
      { e₂.ask with cur := s.bestAsk, curQty := s.askQty } (dead .buy) (dead .sell)
    obtain ⟨dead₃, price, size⟩ := redrawn dead s rfl
    by_cases apart : s.bestBid < s.bestAsk
    · obtain ⟨_, e₄, m', left', draw, draw', same', sound₄, shown⟩ :=
        drawQuotes_spec sound₃ dead₃ apart
      rw [if_pos apart, draw, Mem.ok_bind]
      refine ⟨e₄, m', left', draw', same'.trans same, sound₄, fun _ => ⟨?_, ?_, ?_, ?_⟩,
        absurd usable⟩
      · exact fun side => (shown side.opposite).1.trans (price side)
      · exact fun side => (shown side.opposite).2.1.trans (size side)
      · exact fun side _ => (shown side).2.2.trans (shown side).2.1.symm
      · exact fun _ _ => apart
    · have none := fun side => Bool.eq_false_iff.mp (dead₃ side)
      rw [if_neg apart]
      exact ⟨_, m₂, left, rfl, same, sound₃, fun _ => ⟨price, size,
        fun side live => absurd live (none side), fun side live => absurd live (none side)⟩,
        absurd usable⟩
  · rw [if_pos (not_usable.mp usable)]
    refine ⟨_, m₂, left, rfl, same, sound₂.redraw dead _ _ (dead .buy) (dead .sell),
      fun usable' => absurd usable' usable, fun _ side => ?_⟩
    cases side <;> rfl

/-! ### The action -/

theorem Shows.gated_eq {s : MarketSnapshot} (shows : e.Shows s left) (proposed : StrategyAction) :
    e.gated proposed = Paper.gated e.risk e.pos s proposed := by
  unfold gated Paper.gated
  cases e.risk with
  | none => rfl
  | some risk => exact congrArg (risk.gate proposed e.pos.btcQty) (shows.price proposed.side)

/-- The quote that a taker needs is there with its whole size, or is put there. -/
theorem Shows.offer {s : MarketSnapshot} (shows : e.Shows s left)
    (sound : e.Sound m left) {side : Side}
    (some_size : (e.quote side).curQty ≠ 0) :
    ∃ e' m' left', (if (e.quote side).live then pure (e, []) else e.placeQuote side []) =
      .ok (e', []) ∧
      e'.paper = e.paper ∧ e'.Sound m' left' ∧ (e'.quote side).live = true ∧
      (e'.quote side).cur = (e.quote side).cur ∧ left' side = (e.quote side).curQty := by
  by_cases live : (e.quote side).live = true
  · rw [if_pos live]
    exact ⟨e, m, left, rfl, rfl, sound, live, rfl, shows.whole side live⟩
  · rw [if_neg live]
    have apart : (e.quote side.opposite).live = true → e.bid.cur < e.ask.cur := by
      intro other
      rw [show e.bid.cur = _ from shows.price .sell, show e.ask.cur = _ from shows.price .buy]
      exact shows.apart _ other
    obtain ⟨book, m', placed, sound'⟩ :=
      placeQuote_spec sound (Bool.not_eq_true _ ▸ live) some_size apart []
    have shown := quote_withQuote e side { e.quote side with live := true }
    refine ⟨_, m', _, placed, rfl, sound', ?_, ?_, Function.update_self _ _ _⟩
    · exact (congrArg Quote.live shown).trans rfl
    · exact (congrArg Quote.cur shown).trans rfl

/-- **An action has the effect of the direct rule**, on a usable tick that the quotes show. -/
theorem applyAction_spec (sound : e.Sound m left) {s : MarketSnapshot} (usable : s.Usable)
    (shows : e.Shows s left) (proposed : StrategyAction) (now : Timestamp) :
    ∃ e' report m' left', e.applyAction proposed s now [] = .ok (e', report) ∧ e'.Sound m' left' ∧
      e'.paper = { e.paper with
        pos := (Paper.fill e.risk e.pos s now proposed).elim e.pos e.pos.after } ∧
      report.Tells (Paper.fill e.risk e.pos s now proposed) := by
  unfold applyAction
  by_cases nothing : proposed.qty = 0
  · rw [if_pos nothing, Paper.fill_nothing nothing]
    exact ⟨e, _, m, left, rfl, sound, rfl, rfl, rfl⟩
  rw [if_neg nothing, shows.gated_eq, Paper.fill]
  cases Paper.gated e.risk e.pos s proposed with
  | none => exact ⟨e, _, m, left, rfl, sound, rfl, rfl, rfl⟩
  | some a =>
    have priced : (e.quote a.side.opposite).cur ≠ 0 := by
      rw [shows.price]
      exact usable.priced a.side
    by_cases idle : a.qty = 0 ∨ (e.quote a.side.opposite).curQty = 0
    · have idle' : ¬(s.Usable ∧ a.qty ≠ 0 ∧ s.sizeAcross a.side ≠ 0) := by
        rw [← shows.size]
        tauto
      simp only [Option.bind_some, MarketSnapshot.fillOf, if_neg idle', priced, false_or,
        idle, if_true]
      exact ⟨e, _, m, left, rfl, sound, rfl, rfl, rfl⟩
    · obtain ⟨some_qty, some_size⟩ := not_or.mp idle
      have fills : s.Usable ∧ a.qty ≠ 0 ∧ s.sizeAcross a.side ≠ 0 := by
        rw [← shows.size]
        exact ⟨usable, some_qty, some_size⟩
      obtain ⟨e₁, m₁, left₁, offered, same, sound₁, live, price, whole⟩ :=
        shows.offer sound some_size
      obtain ⟨e₂, m₂, left₂, trade, fill, taken, is, traded, volume, booked, strategy,
        risk, sound₂⟩ :=
        take_spec sound₁ a s now [] live some_qty (price ▸ priced)
      simp only [Option.bind_some, MarketSnapshot.fillOf, if_pos fills, priced, false_or,
        idle, if_false]
      rw [offered, Mem.ok_bind, if_pos live, taken]
      rw [price, whole, shows.price, shows.size, Quantity.toNat_min] at is
      subst is
      obtain ⟨strategy₁, risk₁, pos₁⟩ := Paper.mk.inj same
      refine ⟨e₂, _, m₂, left₂, rfl, sound₂, ?_, rfl, ?_⟩
      · rw [paper, strategy, risk, booked, strategy₁, risk₁, pos₁]
        rfl
      · exact congrArg (fun t => [t]) (Prod.ext traded volume)

/-- On an unusable tick no action gets as far as the book. -/
theorem applyAction_unpriced (unpriced : ∀ side, (e.quote side).cur = 0) (proposed : StrategyAction)
    (s : MarketSnapshot) (now : Timestamp) (trades : List Trade) :
    e.applyAction proposed s now trades = .ok (e, { trades }) := by
  unfold applyAction
  by_cases nothing : proposed.qty = 0
  · rw [if_pos nothing]
    rfl
  · rw [if_neg nothing]
    cases e.gated proposed with
    | none => rfl
    | some a => simp only [unpriced, true_or, or_true, if_true, Mem.pure_eq]

/-! ### The event -/

/-- **An event has the effect of the direct rule.** -/
theorem onEvent_spec (onTick : Strategy σ) (sound : e.Sound m left) (arrival : Arrival) :
    ∃ e' report m' left', e.onEvent onTick arrival = .ok (e', report) ∧ e'.Sound m' left' ∧
      e'.paper = (e.paper.onEvent onTick arrival).1 ∧
      report.Tells (e.paper.onEvent onTick arrival).2 := by
  unfold onEvent Paper.onEvent
  cases arrival.event.kind with
  | error => exact ⟨e, {}, m, left, rfl, sound, rfl, rfl, rfl⟩
  | bookTicker =>
    simp only
    generalize arrival.event.snapshot = s
    generalize marks :
      (e.risk.map fun risk : RiskManager => risk.observeEquity (e.pos.equityAt s.mid)) = risk
    have marked : ({ e with lastMid := s.mid, risk } : TradingEngine σ).Sound m left :=
      ⟨sound.stands, sound.complete, sound.quotes⟩
    obtain ⟨e₁, m₁, left₁, refreshed, same, sound₁, shows, unpriced⟩ := refreshQuotes_spec marked s
    obtain ⟨strategy₁, risk₁, pos₁⟩ := Paper.mk.inj same
    simp only [refreshed, Mem.ok_bind, strategy₁, paper_strategy, paper_risk, paper_pos, marks]
    obtain ⟨act, strategy⟩ := onTick e.strategy s
    have acts : ({ e₁ with strategy } : TradingEngine σ).Sound m₁ left₁ :=
      ⟨sound₁.stands, sound₁.complete, sound₁.quotes⟩
    cases act with
    | none =>
      refine ⟨_, _, m₁, left₁, rfl, acts, ?_, rfl, rfl⟩
      rw [paper, risk₁, pos₁]
      rfl
    | some proposed =>
      simp only [Option.bind_some]
      by_cases usable : s.Usable
      · obtain ⟨price, size, whole, apart⟩ := shows usable
        obtain ⟨e₂, report, m₂, left₂, applied, sound₂, same₂, tells⟩ :=
          applyAction_spec acts usable ⟨price, size, whole, apart⟩ proposed arrival.now
        rw [risk₁, pos₁] at same₂ tells
        exact ⟨e₂, report, m₂, left₂, applied, sound₂, same₂, tells⟩
      · have unpriced : ∀ side, (({ e₁ with strategy } : TradingEngine σ).quote side).cur = 0 :=
          unpriced usable
        rw [Paper.fill_unusable usable, applyAction_unpriced unpriced]
        refine ⟨_, _, m₁, left₁, rfl, acts, ?_, rfl, rfl⟩
        rw [paper, risk₁, pos₁]
        rfl

end TradingEngine

end Ob
