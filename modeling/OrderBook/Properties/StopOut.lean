/-
**The drawdown stop-out.**

Every tick marks the equity at its mid price before anything else happens, and the risk manager
compares it with the highest mark so far.

* `run_stopsOut` — after an event the risk manager is halted exactly if some mark up to that event,
  its own included, is more than the limit below the highest of the marks up to there and zero. From
  that event on there is no fill and the position stays as it is.
* `run_unusable` — a tick without two uncrossed prices is marked as well, at a mid price that means
  nothing. It leaves the peak and the latch as they are exactly if that mark is no new peak and
  within the limit, or the latch is closed already.
-/

import OrderBook.Engine.Runs

namespace Ob

/-! ### Marks -/

/-- The equity that an event marks, if it is a tick. -/
def Sight.mark {σ : Type} (sight : Sight σ) : Option Int :=
  match sight.arrival.event.kind with
  | .error => none
  | .bookTicker => some (sight.before.pos.equityAt sight.arrival.event.snapshot.mid)

/-- The marks of a history. -/
def marks {σ : Type} (seen : List (Sight σ)) : List Int := seen.filterMap Sight.mark

/-- The highest of the marks and zero. -/
def peak (marks : List Int) : Int := marks.foldl max 0

/-- Some mark is more than the limit below the highest up to it. -/
def Breached (limit : Int) (marks : List Int) : Prop :=
  ∃ before mark, before ++ [mark] <+: marks ∧ limit < peak (before ++ [mark]) - mark

section Marks

variable {limit mark : Int} {marks : List Int}

theorem peak_snoc : peak (marks ++ [mark]) = max (peak marks) mark := by
  simp only [peak, List.foldl_append, List.foldl_cons, List.foldl_nil]

theorem Breached.mono {marks' : List Int} (breached : Breached limit marks)
    (more : marks <+: marks') : Breached limit marks' := by
  obtain ⟨before, mark, inside, falls⟩ := breached
  exact ⟨before, mark, inside.trans more, falls⟩

theorem not_breached_nil : ¬Breached limit [] := by
  rintro ⟨before, mark, inside, _⟩
  simp at inside

theorem breached_snoc : Breached limit (marks ++ [mark]) ↔
    Breached limit marks ∨ limit < peak (marks ++ [mark]) - mark := by
  constructor
  · rintro ⟨before, mark', inside, falls⟩
    rcases List.prefix_concat_iff.mp inside with same | earlier
    · obtain ⟨rfl, rfl⟩ := List.append_singleton_inj.mp same
      exact .inr falls
    · exact .inl ⟨before, mark', earlier, falls⟩
  · rintro (breached | falls)
    · exact breached.mono (List.prefix_append _ _)
    · exact ⟨marks, mark, List.prefix_rfl, falls⟩

end Marks

namespace RiskManager

variable {risk : RiskManager} {equity : Int}

theorem observeEquity_peak :
    (risk.observeEquity equity).peakEquity = max risk.peakEquity equity := by
  rw [observeEquity, max_def]
  grind

/-- The latch closes when a mark falls more than the limit below the peak, and stays closed. -/
theorem observeEquity_halted (on : 0 < risk.cfg.maxDrawdown) :
    (risk.observeEquity equity).halted = true ↔ risk.halted = true ∨
      risk.cfg.maxDrawdown < max risk.peakEquity equity - equity := by
  rw [← observeEquity_peak]
  cases halted : risk.halted <;> simp [observeEquity, halted, on]

/-- A mark leaves the risk manager as it is if it is no new peak and closes no latch. -/
theorem observeEquity_unmoved (on : 0 < risk.cfg.maxDrawdown) :
    (risk.observeEquity equity).peakEquity = risk.peakEquity ∧
        (risk.observeEquity equity).halted = risk.halted ↔
      equity ≤ risk.peakEquity ∧
        (risk.halted = true ∨ risk.peakEquity - equity ≤ risk.cfg.maxDrawdown) := by
  rw [observeEquity_peak, max_eq_left_iff]
  refine and_congr_right fun le => ?_
  have latch : (risk.observeEquity equity).halted = true ↔ _ := observeEquity_halted on
  rw [max_eq_left le] at latch
  cases before : risk.halted with
  | true =>
    rw [before] at latch
    exact iff_of_true (latch.mpr (.inl rfl)) (.inl rfl)
  | false =>
    rw [← Bool.not_eq_true, latch, before]
    simp only [Bool.false_eq_true, false_or, Int.not_lt]

/-- A halted risk manager lets nothing through. -/
theorem gate_halted (halted : risk.halted = true) (proposed : StrategyAction) (cur : Int)
    (execPx : Price) : risk.gate proposed cur execPx = none :=
  if_pos halted

end RiskManager

/-! ### Over a run -/

/-- The risk manager is halted. -/
def Paper.Halted {σ : Type} (p : Paper σ) : Prop := ∃ risk, p.risk = some risk ∧ risk.halted = true

/-- What the stop-out promises of an event of a run that ends in `last`. -/
structure Sight.StopsOut {σ : Type} (limit : Int) (last : Paper σ) (before : List (Sight σ))
    (sight : Sight σ) : Prop where
  halted : sight.after.Halted ↔ Breached limit (marks (before ++ [sight]))
  silent : Breached limit (marks (before ++ [sight])) → sight.report.fills = []
  frozen : Breached limit (marks (before ++ [sight])) →
    sight.after.pos = sight.before.pos ∧ last.pos = sight.before.pos

/-- The risk manager knows the highest mark, and whether there was a breach. -/
def Paper.Tracks {σ : Type} (limit : Int) (marks : List Int) (p : Paper σ) : Prop :=
  ∃ risk, p.risk = some risk ∧ risk.cfg.maxDrawdown = limit ∧ risk.peakEquity = peak marks ∧
    (risk.halted = true ↔ Breached limit marks)

section Histories

variable {σ : Type} {onTick : Strategy σ} {limit : Int} {p : Paper σ} {arrival : Arrival}

theorem Paper.Tracks.halted_iff {marks : List Int} (tracks : p.Tracks limit marks) :
    p.Halted ↔ Breached limit marks := by
  obtain ⟨risk, is, _, _, halted⟩ := tracks
  rw [← halted, Paper.Halted, is]
  simp

/-- No fill leaves a halted risk manager behind. -/
theorem Paper.onEvent_halted (halted : (p.onEvent onTick arrival).1.Halted) :
    (p.onEvent onTick arrival).2 = none := by
  obtain ⟨risk, is, halted⟩ := halted
  cases filled : (p.onEvent onTick arrival).2 with
  | none => rfl
  | some fill =>
    obtain ⟨proposed, a, passed, _⟩ := onEvent_fill filled
    rw [is, gated, RiskManager.gate_halted halted] at passed
    cases passed

theorem Sight.Direct.tracks {sight : Sight σ} {seen : List (Sight σ)}
    (direct : sight.Direct onTick) (on : 0 < limit)
    (tracks : sight.before.Tracks limit (marks seen)) :
    sight.after.Tracks limit (marks (seen ++ [sight])) := by
  obtain ⟨risk, is, rfl, highest, halted⟩ := tracks
  rw [direct.after, Paper.Tracks, Paper.onEvent_risk, marks, List.filterMap_append]
  cases kind : sight.arrival.event.kind with
  | error =>
    simp only [List.filterMap_cons, mark, kind, List.filterMap_nil, List.append_nil]
    exact ⟨risk, is, rfl, highest, halted⟩
  | bookTicker =>
    simp only [List.filterMap_cons, mark, kind, List.filterMap_nil, is]
    refine ⟨_, rfl, rfl, ?_, ?_⟩
    · rw [RiskManager.observeEquity_peak, highest, ← peak_snoc]
      rfl
    · rw [RiskManager.observeEquity_halted on, halted, breached_snoc, peak_snoc, highest]
      rfl

/-- A history in which the risk manager keeps track and every event stops out as promised. -/
structure Paper.StoppedOut (limit : Int) (seen : List (Sight σ)) (p : Paper σ) : Prop where
  tracks : p.Tracks limit (marks seen)
  promised : ∀ before sight, before ++ [sight] <+: seen → sight.StopsOut limit p before

/-- **One event.** -/
theorem Sight.Direct.stoppedOut {sight : Sight σ} {seen : List (Sight σ)}
    (direct : sight.Direct onTick) (on : 0 < limit)
    (stopped : sight.before.StoppedOut limit seen) :
    sight.after.StoppedOut limit (seen ++ [sight]) := by
  have tracks := direct.tracks on stopped.tracks
  have still : Breached limit (marks (seen ++ [sight])) → sight.report.fills = [] ∧
      sight.after.pos = sight.before.pos := by
    intro breached
    have halted := tracks.halted_iff.mpr breached
    rw [direct.after] at halted ⊢
    have none := Paper.onEvent_halted halted
    refine ⟨?_, ?_⟩
    · rw [direct.tells.1, none]
      rfl
    · rw [Paper.onEvent_pos, none]
      rfl
  refine ⟨tracks, fun before sight' inside => ?_⟩
  rcases List.prefix_concat_iff.mp inside with same | earlier
  · obtain ⟨rfl, rfl⟩ := List.append_singleton_inj.mp same
    exact ⟨tracks.halted_iff, fun breached => (still breached).1,
      fun breached => ⟨(still breached).2, (still breached).2⟩⟩
  · have old := stopped.promised before sight' earlier
    refine ⟨old.halted, old.silent, fun breached => ?_⟩
    obtain ⟨unmoved, frozen⟩ := old.frozen breached
    exact ⟨unmoved, (still (breached.mono (inside.filterMap _))).2.trans frozen⟩

end Histories

/-- **The stop-out over every run.** -/
theorem run_stopsOut {σ : Type} (onTick : Strategy σ) (strategy : σ) (cfg : RiskConfig)
    (on : 0 < cfg.maxDrawdown) (arrivals : List Arrival) :
    ∃ e seen, Machine.run (TradingEngine.watch onTick) (TradingEngine.new strategy (some cfg))
        arrivals = .ok (e, seen) ∧ seen.map Sight.arrival = arrivals ∧
      ∀ before sight, before ++ [sight] <+: seen →
        sight.StopsOut cfg.maxDrawdown e.paper before := by
  have start : (Paper.new strategy (some cfg)).StoppedOut cfg.maxDrawdown [] := by
    refine ⟨⟨_, rfl, rfl, rfl, ?_⟩, fun before sight inside => by simp at inside⟩
    exact iff_of_false Bool.false_ne_true not_breached_nil
  obtain ⟨e, seen, _, _, ran, same, _, stopped⟩ :=
    TradingEngine.run_watched start (fun _ _ holds direct => direct.stoppedOut on holds) arrivals
  exact ⟨e, seen, ran, same, stopped.promised⟩

/-- A position is bought at 5'000'100 and marked at 4'800'000, with a limit of 200'000. -/
theorem run_stopsOut_bought :
    ∃ e seen, Machine.run (TradingEngine.watch fun (_ : Unit) _ => (some ⟨.buy, 1000000⟩, ()))
        (TradingEngine.new () (some { maxDrawdown := 200000 }))
        [⟨{ bestBid := 5000000, bestAsk := 5000100, bidQty := 1000000, askQty := 1000000 }, 1⟩,
          ⟨{ bestBid := 4800000, bestAsk := 4800000, bidQty := 1000000, askQty := 1000000 }, 2⟩]
        = .ok (e, seen) ∧
      ∀ before sight, before ++ [sight] <+: seen → sight.StopsOut 200000 e.paper before :=
  have ⟨e, seen, ran, _, promised⟩ := run_stopsOut _ () { maxDrawdown := 200000 } (by decide) _
  ⟨e, seen, ran, promised⟩

/-! ### Unusable ticks -/

/-- **A tick leaves the peak and the latch** as they are if it marks no new peak and no breach. An
unusable tick is marked like every other. -/
theorem run_unusable {σ : Type} (onTick : Strategy σ) (strategy : σ) (cfg : RiskConfig)
    (on : 0 < cfg.maxDrawdown) (arrivals : List Arrival) (tick : Arrival)
    (kind : tick.event.kind = .bookTicker) :
    ∃ e reports risk e' report risk', Machine.run (TradingEngine.onEvent onTick)
        (TradingEngine.new strategy (some cfg)) arrivals = .ok (e, reports) ∧
      e.risk = some risk ∧ e.onEvent onTick tick = .ok (e', report) ∧ e'.risk = some risk' ∧
      (risk'.peakEquity = risk.peakEquity ∧ risk'.halted = risk.halted ↔
        e.pos.equityAt tick.event.snapshot.mid ≤ risk.peakEquity ∧
          (risk.halted = true ∨
            risk.peakEquity - e.pos.equityAt tick.event.snapshot.mid ≤ cfg.maxDrawdown)) := by
  obtain ⟨e, reports, m, left, ran, sound, risk, is, rfl⟩ := TradingEngine.run_reaches
    (Paper.Managed.new strategy cfg) (fun _ _ managed => managed.onEvent) arrivals
  obtain ⟨e', report, _, _, did, _, same, _⟩ := TradingEngine.onEvent_spec onTick sound tick
  have marked := congrArg Paper.risk same
  rw [Paper.onEvent_risk, kind, is] at marked
  exact ⟨e, reports, risk, e', report, _, ran, is, did, marked,
    RiskManager.observeEquity_unmoved on⟩

/-- A position is bought at 5'000'100 and marked at the middle of two prices that cross, which is
where it was bought: neither the peak nor the latch moves. -/
theorem run_unusable_open :
    ∃ (onTick : Strategy Unit) (buys crossed : Arrival) (e : TradingEngine Unit)
        (reports : List Report) (risk : RiskManager) (e' : TradingEngine Unit) (report : Report)
        (risk' : RiskManager),
      Machine.run (TradingEngine.onEvent onTick)
        (TradingEngine.new () (some { maxDrawdown := 200000 })) [buys] = .ok (e, reports) ∧
      e.pos.btcQty = 1000000 ∧ ¬crossed.event.snapshot.Usable ∧ e.risk = some risk ∧
      e.onEvent onTick crossed = .ok (e', report) ∧ e'.risk = some risk' ∧
      risk'.peakEquity = risk.peakEquity ∧ risk'.halted = risk.halted := by
  let onTick : Strategy Unit := fun _ _ => (some ⟨.buy, 1000000⟩, ())
  let buys : Arrival :=
    ⟨{ bestBid := 5000000, bestAsk := 5000100, bidQty := 1000000, askQty := 1000000 }, 1⟩
  let crossed : Arrival :=
    ⟨{ bestBid := 5000200, bestAsk := 5000000, bidQty := 1000000, askQty := 1000000 }, 2⟩
  obtain ⟨e, reports, risk, e', report, risk', ran, is, did, is', unmoved⟩ :=
    run_unusable onTick () { maxDrawdown := 200000 } (by decide) [buys] crossed rfl
  obtain ⟨e₁, _, _, _, bought, _, same, _⟩ := TradingEngine.onEvent_spec onTick
    (TradingEngine.Sound.new () (some { maxDrawdown := 200000 }) fun _ => 0) buys
  obtain rfl : e₁ = e :=
    (Prod.mk.inj (Except.ok.inj ((Machine.run_one bought).symm.trans ran))).1
  rw [TradingEngine.paper_new] at same
  have pos : e₁.pos = ⟨1000000, -5000100, 1000000, 1⟩ := by
    rw [← TradingEngine.paper_pos, same]
    decide
  have known : e₁.risk = some ⟨{ maxDrawdown := 200000 }, 0, false⟩ := by
    rw [← TradingEngine.paper_risk, same]
    decide
  obtain rfl := Option.some.inj (is.symm.trans known)
  refine ⟨onTick, buys, crossed, e₁, reports, _, e', report, risk', ran, congrArg Position.btcQty pos,
    by decide, is, did, is', unmoved.mpr ?_⟩
  rw [pos]
  decide

/-- A position is bought at 5'000'100, and a tick with an empty book halts the risk manager. -/
theorem run_unusable_halts :
    ∃ (onTick : Strategy Unit) (buys empty : Arrival) (e : TradingEngine Unit)
        (reports : List Report) (e' : TradingEngine Unit) (report : Report),
      Machine.run (TradingEngine.onEvent onTick)
        (TradingEngine.new () (some { maxDrawdown := 200000 })) [buys] = .ok (e, reports) ∧
      e.pos.btcQty = 1000000 ∧ e.risk = some ⟨{ maxDrawdown := 200000 }, 0, false⟩ ∧
      empty.event.kind = .bookTicker ∧ ¬empty.event.snapshot.Usable ∧
      e.onEvent onTick empty = .ok (e', report) ∧
      e'.risk = some ⟨{ maxDrawdown := 200000 }, 0, true⟩ := by
  let onTick : Strategy Unit := fun _ _ => (some ⟨.buy, 1000000⟩, ())
  let buys : Arrival :=
    ⟨{ bestBid := 5000000, bestAsk := 5000100, bidQty := 1000000, askQty := 1000000 }, 1⟩
  obtain ⟨e, report, m, left, bought, sound, same, _⟩ := TradingEngine.onEvent_spec onTick
    (TradingEngine.Sound.new () (some { maxDrawdown := 200000 }) fun _ => 0) buys
  obtain ⟨e', report', _, _, marked, _, same', _⟩ :=
    TradingEngine.onEvent_spec onTick sound ⟨{ kind := .bookTicker }, 2⟩
  rw [TradingEngine.paper_new] at same
  rw [same] at same'
  refine ⟨onTick, buys, ⟨{ kind := .bookTicker }, 2⟩, e, [report], e', report',
    Machine.run_one bought, ?_, ?_, rfl, by decide, marked, ?_⟩
  · rw [← TradingEngine.paper_pos, same]
    decide
  · rw [← TradingEngine.paper_risk, same]
    decide
  · rw [← TradingEngine.paper_risk, same']
    decide

end Ob
