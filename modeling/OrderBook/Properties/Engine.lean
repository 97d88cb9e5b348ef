/-
**The paper engine fills exactly.**

The engine's way through its order book (cancel and place two quotes, place one on demand on a
locked tick, send an immediate-or-cancel order, read the flags off the best prices) has the effect
of the direct rule `Paper.onEvent`, for every risk configuration, every strategy and every list of
events:

* `run_paper` — the same strategy state, risk manager and position, and at each event the same call
  of `on_fill`, with one trade of that price and quantity, or neither.
-/

import OrderBook.Engine.Ticks

namespace Ob

/-- **The engine is the direct rule.** -/
theorem run_paper {σ : Type} (onTick : Strategy σ) (strategy : σ) (cfg : Option RiskConfig)
    (arrivals : List Arrival) :
    ∃ e reports,
      Machine.run (TradingEngine.onEvent onTick) (TradingEngine.new strategy cfg) arrivals =
        .ok (e, reports) ∧
      e.paper = (Machine.answers (Paper.onEvent onTick) (Paper.new strategy cfg) arrivals).1 ∧
      List.Forall₂ Report.Tells reports
        (Machine.answers (Paper.onEvent onTick) (Paper.new strategy cfg) arrivals).2 := by
  have refines : ∀ (e : TradingEngine σ) (p : Paper σ) (arrival : Arrival),
      ((∃ m left, e.Sound m left) ∧ e.paper = p) → True → ∃ e' report,
        e.onEvent onTick arrival = .ok (e', report) ∧ report.Tells (p.onEvent onTick arrival).2 ∧
          (∃ m left, e'.Sound m left) ∧ e'.paper = (p.onEvent onTick arrival).1 := by
    rintro e p arrival ⟨⟨m, left, sound⟩, rfl⟩ -
    obtain ⟨e', report, m', left', did, sound', same, tells⟩ :=
      TradingEngine.onEvent_spec onTick sound arrival
    exact ⟨e', report, did, tells, ⟨m', left', sound'⟩, same⟩
  have starts := TradingEngine.Sound.new strategy cfg fun _ => 0
  obtain ⟨e, reports, ran, tells, _, same⟩ :=
    Machine.run_refines refines ⟨⟨_, _, starts⟩, rfl⟩ (Machine.Allowed.always arrivals _)
  exact ⟨e, reports, ran, same, tells⟩

end Ob
