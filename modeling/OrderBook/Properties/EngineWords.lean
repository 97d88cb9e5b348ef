/-
**The engine in 64 bits.**

The accounts, limits and stops of the engine are proved of unbounded integers. The program computes with
words, which wrap.

* `run_words` — as long as the events, the size of an action and the prices are not too large together,
  it makes no difference: the run on words does not fail, and its state and its reports stand for those
  of the run on integers.
* `answers_words` — neither does it for the strategy, whose sum is of no more prices than its window has
  places, and one.
-/

import OrderBook.Engine.WordRuns
import OrderBook.Properties.MeanReversion

namespace Ob.Word

/-! ### The engine -/

namespace TradingEngine

variable {σ : Type}

theorem new_ints (strategy : σ) (cfg : Option RiskConfig) :
    (new strategy cfg).ints = Ob.TradingEngine.new strategy (cfg.map RiskConfig.ints) := by
  unfold new Ob.TradingEngine.new ints
  simp only [Option.map_map]
  rfl

/-- A new engine has done nothing yet. -/
theorem new_modest (strategy : σ) {cfg : Option RiskConfig} {qty price most : Nat}
    (limits : ∀ c ∈ cfg, c.ints.Fits most) :
    (new strategy cfg).ints.paper.Modest 0 qty price most := by
  refine ⟨⟨?_, ?_, Nat.zero_le _, Nat.le_refl 0⟩, fun risk is => ?_, fun risk is => ?_⟩
  · exact (abs_zero (α := Int)).le.trans (Int.natCast_nonneg _)
  · exact (abs_zero (α := Int)).le.trans (Int.natCast_nonneg _)
  · obtain ⟨risk', managed, rfl⟩ := Option.map_eq_some_iff.mp is
    obtain ⟨c, _, rfl⟩ := Option.map_eq_some_iff.mp managed
    exact (abs_zero (α := Int)).le.trans (by omega)
  · obtain ⟨risk', managed, rfl⟩ := Option.map_eq_some_iff.mp is
    obtain ⟨c, configured, rfl⟩ := Option.map_eq_some_iff.mp managed
    exact limits c configured

/-- **Words are enough.** -/
theorem run_words (onTick : Strategy σ) (strategy : σ) (cfg : Option RiskConfig) (qty price : Nat)
    (arrivals : List Arrival) (positive : 0 < qty ∧ 0 < price)
    (small : arrivals.length * (qty * price) < 2 ^ 61) (acts : AtMost qty onTick)
    (quiet : ∀ arrival ∈ arrivals, arrival.Quiet price)
    (limits : ∀ c ∈ cfg, c.ints.Fits (arrivals.length * qty)) :
    ∃ w reports, Machine.run (onEvent onTick) (new strategy cfg) arrivals = .ok (w, reports) ∧
      Machine.run (Ob.TradingEngine.onEvent onTick)
        (Ob.TradingEngine.new strategy (cfg.map RiskConfig.ints)) arrivals =
          .ok (w.ints, reports.map Report.ints) ∧
      w.pos.ints.Within arrivals.length qty price := by
  have unit : 0 < qty * price := Nat.mul_pos positive.1 positive.2
  have kept : ∀ (k : Nat) (w : TradingEngine σ) (arrival : Arrival), k < arrivals.length →
      ((∃ m left, w.ints.Sound m left) ∧
        w.ints.paper.Modest k qty price (arrivals.length * qty)) → arrival.Quiet price →
      ∃ next report, w.onEvent onTick arrival = .ok (next, report) ∧
        w.ints.onEvent onTick arrival = .ok (next.ints, report.ints) ∧
        (∃ m left, next.ints.Sound m left) ∧
        next.ints.paper.Modest (k + 1) qty price (arrivals.length * qty) := by
    rintro k w arrival early ⟨⟨m, left, sound⟩, modest⟩ quiet
    have room : (k + 1) * (qty * price) < 2 ^ 61 :=
      (Nat.mul_le_mul_right _ early).trans_lt small
    have count : k + 1 ≤ (k + 1) * (qty * price) := Nat.le_mul_of_pos_right _ unit
    have narrow : price ≤ (k + 1) * (qty * price) :=
      (Nat.le_mul_of_pos_left _ positive.1).trans (Nat.le_mul_of_pos_left _ (Nat.succ_pos k))
    have words := onEvent_words sound modest positive.2 room (Nat.mul_le_mul_right _ early)
      (by omega) (by omega) quiet acts
    obtain ⟨e, report, m', left', did, sound', same, _⟩ :=
      Ob.TradingEngine.onEvent_spec onTick sound arrival
    rw [did] at words
    cases happened : w.onEvent onTick arrival with
    | error fault =>
      rw [happened] at words
      cases words
    | ok result =>
      rw [happened] at words
      obtain ⟨next, report'⟩ := result
      obtain ⟨rfl, rfl⟩ := Prod.mk.inj (Except.ok.inj words)
      exact ⟨next, report', rfl, did, ⟨m', left', sound'⟩, same ▸ modest.onEvent quiet acts⟩
  have sound := Ob.TradingEngine.Sound.new strategy (cfg.map RiskConfig.ints) fun _ => 0
  rw [← new_ints] at sound ⊢
  obtain ⟨w, reports, ran, ran', _, modest⟩ := Machine.run_counted kept
    ⟨⟨_, _, sound⟩, new_modest strategy limits⟩ quiet (Nat.zero_add _).le
  rw [Nat.zero_add] at modest
  exact ⟨w, reports, ran, ran', modest.pos⟩

/-- A strategy that buys on every tick, under a position limit that it comes up against. -/
theorem run_words_limited :
    let buys : Strategy Nat := fun n _ => (some ⟨.buy, 1000⟩, n + 1)
    let tick : Arrival :=
      { event := { bestBid := 6500000, bestAsk := 6500050, bidQty := 900, askQty := 900 } }
    ∃ w reports, Machine.run (onEvent buys) (new 0 (some { maxPositionQty := 1500 })) [tick, tick] =
        .ok (w, reports) ∧
      Machine.run (Ob.TradingEngine.onEvent buys) (Ob.TradingEngine.new 0
        (some { maxPositionQty := 1500 })) [tick, tick] = .ok (w.ints, reports.map Report.ints) ∧
      w.pos.ints.Within 2 1000 6500050 := by
  refine run_words _ 0 (some { maxPositionQty := 1500 }) 1000 6500050 _ ⟨by decide, by decide⟩
    (by decide) ?_ ?_ ?_
  · rintro n snap act ⟨⟩
    decide
  · intro arrival mem
    rw [List.mem_cons, List.mem_singleton, or_self] at mem
    subst mem
    exact ⟨by decide, by decide⟩
  · rintro c ⟨⟩
    exact ⟨by decide, by decide⟩

end TradingEngine

/-! ### The strategy -/

namespace MeanReversion

variable {cfg : Ob.MeanReversion.Config} {r : MeanReversion} {price : Nat}

theorem abs_sum_le {prices : List Int} (each : ∀ x ∈ prices, |x| ≤ price) :
    |prices.sum| ≤ ((prices.length * price : Nat) : Int) := by
  induction prices with
  | nil => exact (abs_zero (α := Int)).le.trans (Int.natCast_nonneg _)
  | cons x prices ih =>
    have first := each x List.mem_cons_self
    have rest := ih fun y mem => each y (List.mem_cons_of_mem _ mem)
    have sum := abs_add_le x prices.sum
    rw [List.sum_cons, List.length_cons, Nat.succ_mul, Nat.cast_add]
    omega

/-- There is room for the prices of a window and one more, and for two prices. -/
theorem rooms (small : (max cfg.window 1 + 1) * price < 2 ^ 63) :
    (cfg.window + 1) * price < 2 ^ 63 ∧ price < 2 ^ 62 := by
  have window : (cfg.window + 1) * price ≤ (max cfg.window 1 + 1) * price :=
    Nat.mul_le_mul_right _ (Nat.succ_le_succ (Nat.le_max_left _ _))
  have two : 2 * price ≤ (max cfg.window 1 + 1) * price :=
    Nat.mul_le_mul_right _ (Nat.succ_le_succ (Nat.le_max_right _ _))
  omega

/-- The prices of a window and of one more fit into a word together. -/
theorem window_sum_lt (small : (cfg.window + 1) * price < 2 ^ 63) {window : List Price}
    (short : window.length ≤ cfg.window + 1) (each : ∀ x ∈ window, |x.toInt| ≤ price) :
    |(window.map Int64.toInt).sum| < 2 ^ 63 := by
  have each' : ∀ x ∈ window.map Int64.toInt, |x| ≤ price := by
    rintro _ mem
    obtain ⟨x, inside, rfl⟩ := List.mem_map.mp mem
    exact each x inside
  have le := abs_sum_le each'
  rw [List.length_map] at le
  have most : window.length * price ≤ (cfg.window + 1) * price := Nat.mul_le_mul_right _ short
  omega

/-- The window is not too long, its prices are not too large, and the sum is theirs. -/
structure Holds (cfg : Ob.MeanReversion.Config) (price : Nat) (r : MeanReversion) : Prop where
  short : r.window.length ≤ cfg.window
  prices : ∀ x ∈ r.window, |x.toInt| ≤ price
  sum : r.sum.toInt = (r.window.map Int64.toInt).sum

theorem Holds.start (cfg : Ob.MeanReversion.Config) (price : Nat) : Holds cfg price {} where
  short := Nat.zero_le _
  prices := List.forall_mem_nil _
  sum := rfl

open Words in
/-- **One more price.** -/
theorem Holds.push (holds : r.Holds cfg price) {mid : Price} (quiet : |mid.toInt| ≤ price)
    (small : (cfg.window + 1) * price < 2 ^ 63) :
    (r.push cfg mid).Holds cfg price ∧ (r.push cfg mid).ints = r.ints.push cfg mid.toInt := by
  obtain ⟨short, prices, sum⟩ := holds
  have each : ∀ x ∈ r.window ++ [mid], |x.toInt| ≤ price := by
    intro x mem
    rcases List.mem_append.mp mem with mem | mem
    · exact prices x mem
    · rw [List.mem_singleton.mp mem]
      exact quiet
  have total : ((r.window ++ [mid]).map Int64.toInt).sum = r.sum.toInt + mid.toInt := by
    rw [List.map_append, List.sum_append, List.map_singleton, List.sum_singleton, sum]
  have length : (r.window ++ [mid]).length = r.window.length + 1 := List.length_append
  have fits := abs_lt.mp (window_sum_lt small (by omega) each)
  rw [total] at fits
  have added : (r.sum + mid).toInt = r.sum.toInt + mid.toInt := by
    rw [toInt_add, wrap_fits fits.1.le fits.2]
  have same_length : (r.ints.window ++ [mid.toInt]).length = (r.window ++ [mid]).length := by
    rw [List.length_append, List.length_append, ints, List.length_map]
    rfl
  unfold MeanReversion.push Ob.MeanReversion.push
  simp only [same_length]
  by_cases long : (r.window ++ [mid]).length > cfg.window
  · simp only [if_pos long]
    cases window : r.window ++ [mid] with
    | nil => simp at window
    | cons front rest =>
      rw [window] at each total length
      rw [List.map_cons, List.sum_cons] at total
      rw [List.length_cons] at length
      have each' : ∀ x ∈ rest, |x.toInt| ≤ price := fun x mem => each x (List.mem_cons_of_mem _ mem)
      have fits' := abs_lt.mp (window_sum_lt small (by omega) each')
      have rest_sum : r.sum.toInt + mid.toInt - front.toInt = (rest.map Int64.toInt).sum := by omega
      have left : (r.sum + mid - front).toInt = (rest.map Int64.toInt).sum := by
        rw [toInt_sub, added, rest_sum, wrap_fits fits'.1.le fits'.2]
      have window' : r.ints.window ++ [mid.toInt] = front.toInt :: rest.map Int64.toInt := by
        rw [← List.map_cons, ← window, List.map_append]
        rfl
      refine ⟨⟨by show rest.length ≤ _; omega, each', left⟩, ?_⟩
      rw [window']
      show Ob.MeanReversion.mk (rest.map Int64.toInt) (r.sum + mid - front).toInt _ =
        Ob.MeanReversion.mk (rest.map Int64.toInt) (r.sum.toInt + mid.toInt - front.toInt) _
      rw [left, rest_sum]
      rfl
  · simp only [if_neg long]
    refine ⟨⟨Nat.not_lt.mp long, each, added.trans total.symm⟩, ?_⟩
    show Ob.MeanReversion.mk ((r.window ++ [mid]).map Int64.toInt) (r.sum + mid).toInt _ = _
    rw [added, List.map_append]
    rfl

@[simp] theorem push_sinceAction (cfg : Ob.MeanReversion.Config) (r : MeanReversion) (mid : Price) :
    (r.push cfg mid).sinceAction = r.sinceAction := by
  simp only [push]
  split <;> rfl

/-- **One tick**, the `k + 1`-st. -/
theorem Holds.tick (holds : r.Holds cfg price) (side : Int → Float.Model → Option Side)
    {s : MarketSnapshot} (mid_eq : (mid s).toInt = s.mid) (quiet : |s.mid| ≤ price)
    (small : (cfg.window + 1) * price < 2 ^ 63) {k : Nat} (waited : r.sinceAction.toNat ≤ k)
    (few : k + 1 < 2 ^ 64) :
    (tickWith side cfg r s).2.Holds cfg price ∧ (tickWith side cfg r s).2.sinceAction.toNat ≤ k + 1 ∧
      Ob.MeanReversion.tickWith side cfg r.ints s =
        ((tickWith side cfg r s).1, (tickWith side cfg r s).2.ints) := by
  obtain ⟨pushed, same⟩ := holds.push (mid_eq ▸ quiet) small
  rw [mid_eq] at same
  unfold tickWith Ob.MeanReversion.tickWith
  have none_iff : mid s = 0 ↔ s.mid = 0 := by
    rw [← mid_eq, ← Int64.toInt_zero, Int64.toInt_inj]
  by_cases silent : mid s = 0
  · rw [if_pos silent, if_pos (none_iff.mp silent)]
    exact ⟨holds, Nat.le_succ_of_le waited, rfl⟩
  rw [if_neg silent, if_neg (mt none_iff.mpr silent), ← same]
  have length : (r.push cfg (mid s)).ints.window.length = (r.push cfg (mid s)).window.length :=
    List.length_map _
  have since : (r.push cfg (mid s)).ints.sinceAction = r.sinceAction.toNat :=
    congrArg UInt64.toNat (push_sinceAction cfg r (mid s))
  have counted : (r.sinceAction + 1).toNat = r.sinceAction.toNat + 1 := by
    rw [UInt64.toNat_add, UInt64.toNat_one, Nat.mod_eq_of_lt (by omega)]
  simp only [length, since, push_sinceAction]
  generalize r.push cfg (mid s) = r' at pushed since ⊢
  have stays : ∀ since : UInt64, ({ r' with sinceAction := since } : MeanReversion).Holds cfg price :=
    fun _ => ⟨pushed.short, pushed.prices, pushed.sum⟩
  have shown : ({ r' with sinceAction := r.sinceAction + 1 } : MeanReversion).ints =
      { r'.ints with sinceAction := r.sinceAction.toNat + 1 } := by
    rw [← counted]
    rfl
  by_cases filling : r'.window.length < cfg.window
  · rw [if_pos filling, if_pos filling]
    exact ⟨pushed, Nat.le_succ_of_le (since.trans_le waited), rfl⟩
  rw [if_neg filling, if_neg filling, ← shown]
  by_cases cooling : r.sinceAction.toNat < cfg.coolDown
  · rw [if_pos cooling, if_pos cooling]
    exact ⟨stays _, counted.trans_le (Nat.succ_le_succ waited), rfl⟩
  rw [if_neg cooling, if_neg cooling, mid_eq]
  have sum : r'.ints.sum = r'.sum.toInt := rfl
  rw [sum]
  cases side s.mid (Float.Model.ofInt r'.sum.toInt / Float.Model.ofNat r'.window.length) with
  | none => exact ⟨stays _, counted.trans_le (Nat.succ_le_succ waited), rfl⟩
  | some side => exact ⟨stays 0, Nat.zero_le _, rfl⟩

/-- A tick, its answer last. -/
def step (side : Int → Float.Model → Option Side) (cfg : Ob.MeanReversion.Config) (r : MeanReversion)
    (tick : MarketSnapshot) : MeanReversion × Option StrategyAction :=
  (tickWith side cfg r tick).swap

/-- After a history of prices that are at most `price`, the words stand for the integers. -/
def StandsFor (side : Int → Float.Model → Option Side) (cfg : Ob.MeanReversion.Config) (price : Nat)
    (ticks : List MarketSnapshot) (acts : List (Option StrategyAction)) (r : MeanReversion) : Prop :=
  ticks.length < 2 ^ 64 →
    (∀ tick ∈ ticks, |tick.bestBid.toInt| ≤ price ∧ |tick.bestAsk.toInt| ≤ price) →
    r.Holds cfg price ∧ r.sinceAction.toNat ≤ ticks.length ∧
      Machine.answers (Ob.MeanReversion.step side cfg) {} ticks = (r.ints, acts)

theorem StandsFor.tick {side : Int → Float.Model → Option Side} {ticks : List MarketSnapshot}
    {acts : List (Option StrategyAction)} (stands : StandsFor side cfg price ticks acts r)
    (small : (max cfg.window 1 + 1) * price < 2 ^ 63) (tick : MarketSnapshot) :
    StandsFor side cfg price (ticks ++ [tick]) (acts ++ [(step side cfg r tick).2])
      (step side cfg r tick).1 := by
  intro few quiet
  have length : (ticks ++ [tick]).length = ticks.length + 1 := List.length_append
  obtain ⟨bid, ask⟩ := quiet tick (List.mem_append_right _ (List.mem_singleton.mpr rfl))
  obtain ⟨holds, waited, same⟩ := stands (by omega) fun tick mem =>
    quiet tick (List.mem_append_left _ mem)
  have arrives : Arrival.Quiet price
      { event := { bestBid := tick.bestBid, bestAsk := tick.bestAsk } } := ⟨bid, ask⟩
  have near : |tick.mid| ≤ price := arrives.mid
  obtain ⟨room, narrow⟩ := rooms small
  obtain ⟨holds', waited', ticked⟩ := holds.tick side
    (mid_words (bid.trans_lt (by omega)) (ask.trans_lt (by omega))) near room waited (by omega)
  refine ⟨holds', length ▸ waited', ?_⟩
  rw [Machine.answers_snoc, same]
  show ((Ob.MeanReversion.tickWith side cfg r.ints tick).swap.1,
    acts ++ [(Ob.MeanReversion.tickWith side cfg r.ints tick).swap.2]) = _
  rw [ticked]
  rfl

theorem answers_stand (side : Int → Float.Model → Option Side)
    (small : (max cfg.window 1 + 1) * price < 2 ^ 63) (ticks : List MarketSnapshot) :
    StandsFor side cfg price ticks (Machine.answers (step side cfg) {} ticks).2
      (Machine.answers (step side cfg) {} ticks).1 :=
  Machine.answers_history (P := StandsFor side cfg price)
    (fun _ _ => ⟨.start cfg price, Nat.le_refl 0, rfl⟩)
    (fun _ _ _ tick stands => stands.tick small tick) ticks

/-- **The strategy in 64 bits.** Along every history of ticks whose prices are at most `price`, the words
answer as the integers do, and stand for them. -/
theorem answers_words (side : Int → Float.Model → Option Side) (cfg : Ob.MeanReversion.Config)
    (price : Nat) (small : (max cfg.window 1 + 1) * price < 2 ^ 63)
    (ticks : List MarketSnapshot) (few : ticks.length < 2 ^ 64)
    (quiet : ∀ tick ∈ ticks, |tick.bestBid.toInt| ≤ price ∧ |tick.bestAsk.toInt| ≤ price) :
    (Machine.answers (step side cfg) {} ticks).2 =
        (Machine.answers (Ob.MeanReversion.step side cfg) {} ticks).2 ∧
      (Machine.answers (step side cfg) {} ticks).1.ints =
        (Machine.answers (Ob.MeanReversion.step side cfg) {} ticks).1 := by
  obtain ⟨_, _, same⟩ := answers_stand side small ticks few quiet
  rw [same]
  exact ⟨rfl, rfl⟩

theorem answers_words_default :
    let tick : MarketSnapshot := ⟨6500000, 6500050, 900, 900, 6500025, 7⟩
    let side := Ob.MeanReversion.entry {}
    (Machine.answers (step side {}) {} [tick, tick]).2 =
        (Machine.answers (Ob.MeanReversion.step side {}) {} [tick, tick]).2 ∧
      (Machine.answers (step side {}) {} [tick, tick]).1.ints =
        (Machine.answers (Ob.MeanReversion.step side {}) {} [tick, tick]).1 := by
  refine answers_words _ {} 6500050 (by decide) _ (by decide) ?_
  intro tick mem
  rw [List.mem_cons, List.mem_singleton, or_self] at mem
  subst mem
  exact ⟨by decide, by decide⟩

end MeanReversion

end Ob.Word
