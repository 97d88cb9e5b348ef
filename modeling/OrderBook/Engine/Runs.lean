/-
**Runs of the engine.**

`watch` is the engine with its events made visible: what it keeps besides its book before an event,
what the event makes it tell, and what it keeps afterwards. By `watch_spec` an event has the effect
of the direct rule, so a property of a history that the direct rule keeps holds after every run
(`run_watched`), and one of a state in every state (`run_reaches`). The rest says what the direct
rule does to a position: nothing, or one fill of an action that the gate let through.
-/

import OrderBook.Engine.Ticks
import OrderBook.Library.Machine

namespace Ob

/-- What there is to see of an event. -/
structure Sight (σ : Type) where
  arrival : Arrival
  before : Paper σ
  report : Report
  after : Paper σ

/-- An event with the effect of the direct rule. -/
structure Sight.Direct {σ : Type} (onTick : Strategy σ) (sight : Sight σ) : Prop where
  after : sight.after = (sight.before.onEvent onTick sight.arrival).1
  tells : sight.report.Tells (sight.before.onEvent onTick sight.arrival).2

namespace TradingEngine

variable {σ : Type} {e : TradingEngine σ} {m : Market} {left : Side → Quantity}

/-- `onEvent`, with what there is to see of it. -/
def watch (onTick : Strategy σ) (e : TradingEngine σ) (arrival : Arrival) :
    Mem (TradingEngine σ × Sight σ) := do
  let (next, report) ← e.onEvent onTick arrival
  return (next, { arrival, before := e.paper, report, after := next.paper })

theorem watch_spec (onTick : Strategy σ) (sound : e.Sound m left) (arrival : Arrival) :
    ∃ e' sight m' left', e.watch onTick arrival = .ok (e', sight) ∧ e'.Sound m' left' ∧
      sight.arrival = arrival ∧ sight.before = e.paper ∧ sight.after = e'.paper ∧
      sight.Direct onTick := by
  obtain ⟨e', report, m', left', did, sound', same, tells⟩ := onEvent_spec onTick sound arrival
  refine ⟨e', ⟨arrival, e.paper, report, e'.paper⟩, m', left', ?_, sound', rfl, rfl, rfl,
    same, tells⟩
  simp only [watch, did, Mem.ok_bind, Mem.pure_eq]

theorem watch_arrival {onTick : Strategy σ} {e e' : TradingEngine σ} {arrival : Arrival}
    {sight : Sight σ} (did : e.watch onTick arrival = .ok (e', sight)) :
    arrival = sight.arrival := by
  unfold watch at did
  cases happened : e.onEvent onTick arrival with
  | error fault =>
    rw [happened] at did
    cases did
  | ok next =>
    rw [happened] at did
    cases did
    rfl

/-- Every event is seen, in order. -/
theorem watched_arrivals {onTick : Strategy σ} {e e' : TradingEngine σ} {arrivals : List Arrival}
    {seen : List (Sight σ)} (ran : Machine.run (watch onTick) e arrivals = .ok (e', seen)) :
    seen.map Sight.arrival = arrivals := by
  have each := Machine.run_outputs (Q := fun arrival sight => arrival = Sight.arrival sight)
    (fun _ _ _ _ did => watch_arrival did) ran
  rw [← List.forall₂_map_right_iff, List.forall₂_eq_eq_eq] at each
  exact each.symm

/-- **Induction along a history of events.** -/
theorem run_watched {P : List (Sight σ) → Paper σ → Prop} {onTick : Strategy σ} {strategy : σ}
    {cfg : Option RiskConfig} (start : P [] (Paper.new strategy cfg))
    (kept : ∀ seen sight, P seen sight.before → sight.Direct onTick →
      P (seen ++ [sight]) sight.after) (arrivals : List Arrival) :
    ∃ e seen m left, Machine.run (watch onTick) (new strategy cfg) arrivals = .ok (e, seen) ∧
      seen.map Sight.arrival = arrivals ∧ e.Sound m left ∧ P seen e.paper := by
  have step : ∀ seen (e : TradingEngine σ) arrival,
      ((∃ m left, e.Sound m left) ∧ P seen e.paper) → ∃ e' sight,
        e.watch onTick arrival = .ok (e', sight) ∧
          (∃ m left, e'.Sound m left) ∧ P (seen ++ [sight]) e'.paper := by
    rintro seen e arrival ⟨⟨m, left, sound⟩, holds⟩
    obtain ⟨e', sight, m', left', did, sound', _, before, after, direct⟩ :=
      watch_spec onTick sound arrival
    exact ⟨e', sight, did, ⟨m', left', sound'⟩, after ▸ kept seen sight (before ▸ holds) direct⟩
  have starts := Sound.new strategy cfg fun _ => 0
  obtain ⟨e, seen, ran, ⟨m, left, sound⟩, holds⟩ :=
    Machine.run_history step arrivals ⟨⟨_, _, starts⟩, start⟩
  exact ⟨e, seen, m, left, ran, watched_arrivals ran, sound, holds⟩

/-- What the direct rule keeps holds in every state that the engine reaches. -/
theorem run_reaches {P : Paper σ → Prop} {onTick : Strategy σ} {strategy : σ}
    {cfg : Option RiskConfig} (start : P (Paper.new strategy cfg))
    (kept : ∀ p arrival, P p → P (p.onEvent onTick arrival).1) (arrivals : List Arrival) :
    ∃ e reports m left, Machine.run (onEvent onTick) (new strategy cfg) arrivals =
      .ok (e, reports) ∧ e.Sound m left ∧ P e.paper := by
  have step : ∀ (e : TradingEngine σ) arrival,
      ((∃ m left, e.Sound m left) ∧ P e.paper) → True → ∃ e' report,
        e.onEvent onTick arrival = .ok (e', report) ∧
          (∃ m left, e'.Sound m left) ∧ P e'.paper := by
    rintro e arrival ⟨⟨m, left, sound⟩, holds⟩ -
    obtain ⟨e', report, m', left', did, sound', same, _⟩ := onEvent_spec onTick sound arrival
    exact ⟨e', report, did, ⟨m', left', sound'⟩, same ▸ kept _ _ holds⟩
  have starts := Sound.new strategy cfg fun _ => 0
  obtain ⟨e, reports, ran, ⟨m, left, sound⟩, holds⟩ :=
    Machine.run_along step ⟨⟨_, _, starts⟩, start⟩ (Machine.Along.always arrivals _)
  exact ⟨e, reports, m, left, ran, sound, holds⟩

end TradingEngine

/-! ### What an event does to a position -/

namespace Paper

variable {σ : Type} {onTick : Strategy σ} {p : Paper σ} {arrival : Arrival} {fill : Fill}

theorem onEvent_pos (onTick : Strategy σ) (p : Paper σ) (arrival : Arrival) :
    (p.onEvent onTick arrival).1.pos =
      (p.onEvent onTick arrival).2.elim p.pos p.pos.after := by
  unfold onEvent
  cases arrival.event.kind <;> rfl

/-- The risk manager an event leaves: the one before it, with the equity marked. -/
theorem onEvent_risk (onTick : Strategy σ) (p : Paper σ) (arrival : Arrival) :
    (p.onEvent onTick arrival).1.risk = match arrival.event.kind with
      | .error => p.risk
      | .bookTicker => p.risk.map fun risk : RiskManager =>
          risk.observeEquity (p.pos.equityAt arrival.event.snapshot.mid) := by
  unfold onEvent
  cases arrival.event.kind <;> rfl

/-- A fill is a part of an action that the gate let through, at the price the gate was asked
about. -/
theorem onEvent_fill (filled : (p.onEvent onTick arrival).2 = some fill) :
    ∃ proposed a, gated (p.onEvent onTick arrival).1.risk p.pos arrival.event.snapshot proposed =
        some a ∧ fill.side = a.side ∧
      fill.price = arrival.event.snapshot.priceAcross proposed.side ∧ 0 < fill.qty ∧
      fill.qty ≤ a.qty.toNat := by
  unfold onEvent at filled ⊢
  cases kind : arrival.event.kind with
  | error => simp [kind] at filled
  | bookTicker =>
    simp only [kind] at filled ⊢
    obtain ⟨proposed, _, filled⟩ := Option.bind_eq_some_iff.mp filled
    obtain ⟨a, passed, filled⟩ := Option.bind_eq_some_iff.mp filled
    unfold MarketSnapshot.fillOf at filled
    split at filled
    · rename_i fills
      cases filled
      obtain ⟨_, some_qty, some_size⟩ := fills
      refine ⟨proposed, a, passed, rfl, ?_, ?_, Nat.min_le_left _ _⟩
      · rw [(gated_le passed).1]
      · refine Nat.lt_min.mpr ⟨Nat.pos_of_ne_zero fun none => ?_, Nat.pos_of_ne_zero fun none => ?_⟩
        · exact some_qty (UInt64.toNat_inj.mp none)
        · exact some_size (UInt64.toNat_inj.mp none)
    · cases filled

/-- The engine has a risk manager with these limits. -/
def Managed (cfg : RiskConfig) (p : Paper σ) : Prop := ∃ risk, p.risk = some risk ∧ risk.cfg = cfg

theorem Managed.new (strategy : σ) (cfg : RiskConfig) : (new strategy (some cfg)).Managed cfg :=
  ⟨_, rfl, rfl⟩

theorem Managed.onEvent {cfg : RiskConfig} (managed : p.Managed cfg) :
    (p.onEvent onTick arrival).1.Managed cfg := by
  obtain ⟨risk, is, rfl⟩ := managed
  unfold Managed
  rw [onEvent_risk, is]
  cases arrival.event.kind
  · exact ⟨_, rfl, rfl⟩
  · exact ⟨_, rfl, rfl⟩

/-- A fill under a risk manager is a part of an action that it let through at the fill's price. -/
theorem Managed.passed {cfg : RiskConfig} (managed : p.Managed cfg)
    (filled : (p.onEvent onTick arrival).2 = some fill) :
    ∃ risk proposed a, (p.onEvent onTick arrival).1.risk = some risk ∧ risk.cfg = cfg ∧
      risk.gate proposed p.pos.btcQty fill.price = some a ∧ fill.side = a.side ∧ 0 < fill.qty ∧
      fill.qty ≤ a.qty.toNat := by
  obtain ⟨risk, is, limits⟩ := @Managed.onEvent _ onTick _ arrival _ managed
  obtain ⟨proposed, a, passed, side, price, some_qty, le⟩ := onEvent_fill filled
  rw [is, gated, ← price] at passed
  exact ⟨risk, proposed, a, is, limits, passed, side, some_qty, le⟩

/-- A fill moves the position in its direction. -/
theorem after_btcQty (pos : Position) (fill : Fill) :
    (pos.after fill).btcQty = pos.btcQty + fill.side.dir * fill.qty := by
  unfold Position.after
  cases fill.side
  · exact congrArg (pos.btcQty + ·) (Int.one_mul _).symm
  · rw [Side.dir, Int.neg_one_mul]
    rfl

end Paper

end Ob
