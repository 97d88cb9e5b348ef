/-
**Runs of the engine on machine words.**

`shown` is what the words of an engine and of its report stand for. While nothing wraps, an event does to
the words what it does to what they stand for (`onEvent_words`), and nothing wraps after `k` events whose
prices are at most `price`, if no action is of more than `qty`: what they can have made of an engine is
`Modest`. The callback of a taker sees one trade (`taker_trade`), so the collected sums do not wrap either.
-/

import Mathlib.Algebra.Order.Ring.Abs
import OrderBook.Engine.Runs
import OrderBook.Engine.Words
import OrderBook.Refine.Callbacks

namespace Ob

/-! ### What events can have made of a position -/

theorem abs_mul_le {x y a b : Int} (le : |x| ≤ a) (le' : |y| ≤ b) : |x * y| ≤ a * b := by
  rw [abs_mul]
  exact mul_le_mul le le' (abs_nonneg y) ((abs_nonneg x).trans le)

theorem abs_tdiv_le (x k : Int) : |x.tdiv k| ≤ |x| := by
  rw [Int.abs_eq_natAbs, Int.abs_eq_natAbs]
  exact_mod_cast Int.natAbs_tdiv_le_natAbs x k

/-- After `k` fills of at most `qty` at prices of at most `price`. -/
structure Position.Within (k qty price : Nat) (pos : Position) : Prop where
  btcQty : |pos.btcQty| ≤ ((k * qty : Nat) : Int)
  cash : |pos.cash| ≤ ((k * (qty * price) : Nat) : Int)
  volume : pos.grossVolume ≤ k * qty
  fills : pos.fills ≤ k

namespace Position.Within

variable {k qty price : Nat} {pos : Position}

theorem more (within : pos.Within k qty price) : pos.Within (k + 1) qty price where
  btcQty := within.btcQty.trans (Int.ofNat_le.mpr (Nat.mul_le_mul_right _ (Nat.le_succ k)))
  cash := within.cash.trans (Int.ofNat_le.mpr (Nat.mul_le_mul_right _ (Nat.le_succ k)))
  volume := within.volume.trans (Nat.mul_le_mul_right _ (Nat.le_succ k))
  fills := within.fills.trans (Nat.le_succ k)

/-- What a fill is worth. -/
theorem notional_le (fill : Fill) (some_qty : fill.qty ≤ qty) (some_price : |fill.price.toInt| ≤ price) :
    |((fill.qty : Int) * fill.price.toInt).tdiv quantityScale| ≤ ((qty * price : Nat) : Int) := by
  refine (abs_tdiv_le _ _).trans ?_
  rw [Nat.cast_mul]
  refine abs_mul_le ?_ some_price
  rw [abs_of_nonneg (Int.natCast_nonneg _)]
  exact_mod_cast some_qty

theorem after (within : pos.Within k qty price) {fill : Fill} (some_qty : fill.qty ≤ qty)
    (some_price : |fill.price.toInt| ≤ price) : (pos.after fill).Within (k + 1) qty price := by
  have worth := abs_le.mp (notional_le fill some_qty some_price)
  have held := abs_le.mp within.btcQty
  have cash := abs_le.mp within.cash
  have units : (((k + 1) * qty : Nat) : Int) = ((k * qty : Nat) : Int) + qty := by
    rw [Nat.succ_mul, Nat.cast_add]
  have money : (((k + 1) * (qty * price) : Nat) : Int) =
      ((k * (qty * price) : Nat) : Int) + ((qty * price : Nat) : Int) := by
    rw [Nat.succ_mul, Nat.cast_add]
  have part : (fill.qty : Int) ≤ qty := by exact_mod_cast some_qty
  have volume := within.volume
  have fills := within.fills
  have traded : pos.grossVolume + fill.qty ≤ (k + 1) * qty := by
    rw [Nat.succ_mul]
    omega
  unfold Position.after
  cases fill.side
  · refine ⟨?_, ?_, traded, Nat.succ_le_succ fills⟩
    · show |pos.btcQty + fill.qty| ≤ _
      rw [units]
      exact abs_le.mpr ⟨by omega, by omega⟩
    · show |pos.cash - ((fill.qty : Int) * fill.price.toInt).tdiv quantityScale| ≤ _
      rw [money]
      exact abs_le.mpr ⟨by omega, by omega⟩
  · refine ⟨?_, ?_, traded, Nat.succ_le_succ fills⟩
    · show |pos.btcQty - fill.qty| ≤ _
      rw [units]
      exact abs_le.mpr ⟨by omega, by omega⟩
    · show |pos.cash + ((fill.qty : Int) * fill.price.toInt).tdiv quantityScale| ≤ _
      rw [money]
      exact abs_le.mpr ⟨by omega, by omega⟩

/-- The equity at a mid price. -/
theorem equity (within : pos.Within k qty price) {mid : Int} (some_mid : |mid| ≤ price) :
    |pos.btcQty * mid| ≤ ((k * (qty * price) : Nat) : Int) ∧
      |pos.equityAt mid| ≤ 2 * ((k * (qty * price) : Nat) : Int) := by
  have product : |pos.btcQty * mid| ≤ ((k * (qty * price) : Nat) : Int) := by
    have le := abs_mul_le within.btcQty some_mid
    rwa [← Nat.cast_mul, Nat.mul_assoc] at le
  refine ⟨product, ?_⟩
  unfold Position.equityAt
  have quotient := (abs_tdiv_le (pos.btcQty * mid) quantityScale).trans product
  have sum := abs_add_le pos.cash ((pos.btcQty * mid).tdiv quantityScale)
  have cash := within.cash
  omega

end Position.Within

/-! ### What events can have made of an engine -/

/-- A limit and whatever a position can be fit into a word together. -/
structure RiskConfig.Fits (most : Nat) (cfg : RiskConfig) : Prop where
  position : cfg.maxPositionQty + most < 2 ^ 63
  notional : cfg.maxNotional * quantityScale + most < 2 ^ 63

/-- An event whose prices are at most `price`. -/
structure Arrival.Quiet (price : Nat) (arrival : Arrival) : Prop where
  bid : |arrival.event.bestBid.toInt| ≤ price
  ask : |arrival.event.bestAsk.toInt| ≤ price

/-- The strategy does not propose more than `qty`. -/
def AtMost {σ : Type} (qty : Nat) (onTick : Strategy σ) : Prop :=
  ∀ s snap act, (onTick s snap).1 = some act → act.qty.toNat ≤ qty

structure Paper.Modest {σ : Type} (k qty price most : Nat) (p : Paper σ) : Prop where
  pos : p.pos.Within k qty price
  peak : ∀ risk ∈ p.risk, |risk.peakEquity| ≤ 2 * ((k * (qty * price) : Nat) : Int)
  limits : ∀ risk ∈ p.risk, risk.cfg.Fits most

section Modest

variable {σ : Type} {k qty price most : Nat} {p : Paper σ} {onTick : Strategy σ} {arrival : Arrival}

theorem Arrival.Quiet.mid (quiet : arrival.Quiet price) : |arrival.event.snapshot.mid| ≤ price := by
  have bid := quiet.bid
  have ask := quiet.ask
  have sum := abs_add_le arrival.event.bestBid.toInt arrival.event.bestAsk.toInt
  rw [MarketSnapshot.mid, Int.abs_eq_natAbs, Int.natAbs_tdiv]
  rw [Int.abs_eq_natAbs (_ + _)] at sum
  show (((arrival.event.bestBid.toInt + arrival.event.bestAsk.toInt).natAbs / 2 : Nat) : Int) ≤ _
  omega

theorem Arrival.Quiet.across (quiet : arrival.Quiet price) (side : Side) :
    |(arrival.event.snapshot.priceAcross side).toInt| ≤ price := by
  cases side
  · exact quiet.ask
  · exact quiet.bid

/-- A fill is a part of what the strategy proposed, at a price of the tick. -/
theorem onEvent_part (quiet : arrival.Quiet price) (acts : AtMost qty onTick) {fill : Fill}
    (filled : (p.onEvent onTick arrival).2 = some fill) :
    fill.qty ≤ qty ∧ |fill.price.toInt| ≤ price := by
  unfold Paper.onEvent at filled
  cases kind : arrival.event.kind with
  | error => simp [kind] at filled
  | bookTicker =>
    simp only [kind] at filled
    obtain ⟨proposed, proposes, filled⟩ := Option.bind_eq_some_iff.mp filled
    obtain ⟨a, passed, filled⟩ := Option.bind_eq_some_iff.mp filled
    unfold MarketSnapshot.fillOf at filled
    split at filled
    · cases filled
      refine ⟨(Nat.min_le_left _ _).trans ?_, quiet.across a.side⟩
      exact (UInt64.le_iff_toNat_le.mp (Paper.gated_le passed).2).trans (acts _ _ _ proposes)
    · cases filled

theorem RiskManager.abs_observeEquity_le (risk : RiskManager) (equity : Int) :
    |(risk.observeEquity equity).peakEquity| ≤ max |risk.peakEquity| |equity| := by
  unfold RiskManager.observeEquity
  simp only
  split
  · exact le_max_right _ _
  · exact le_max_left _ _

/-- **One more event.** -/
theorem Paper.Modest.onEvent (modest : p.Modest k qty price most) (quiet : arrival.Quiet price)
    (acts : AtMost qty onTick) : (p.onEvent onTick arrival).1.Modest (k + 1) qty price most := by
  have more : ((k * (qty * price) : Nat) : Int) ≤ (((k + 1) * (qty * price) : Nat) : Int) :=
    Int.ofNat_le.mpr (Nat.mul_le_mul_right _ (Nat.le_succ k))
  refine ⟨?_, ?_, ?_⟩
  · rw [Paper.onEvent_pos]
    cases filled : (p.onEvent onTick arrival).2 with
    | none => exact modest.pos.more
    | some fill =>
      obtain ⟨some_qty, some_price⟩ := onEvent_part quiet acts filled
      exact modest.pos.after some_qty some_price
  · rw [Paper.onEvent_risk]
    cases arrival.event.kind with
    | error => exact fun risk is => (modest.peak risk is).trans (by omega)
    | bookTicker =>
      intro risk is
      obtain ⟨risk', is', rfl⟩ := Option.map_eq_some_iff.mp is
      have equity := (modest.pos.equity quiet.mid).2
      have peak := modest.peak risk' is'
      exact (risk'.abs_observeEquity_le _).trans (max_le (by omega) (by omega))
  · rw [Paper.onEvent_risk]
    cases arrival.event.kind with
    | error => exact modest.limits
    | bookTicker =>
      intro risk is
      obtain ⟨risk', is', rfl⟩ := Option.map_eq_some_iff.mp is
      exact modest.limits risk' is'

end Modest

namespace Word

open Words

/-! ### Words that do not wrap -/

theorem mid_words {s : MarketSnapshot} (bid : |s.bestBid.toInt| < 2 ^ 62)
    (ask : |s.bestAsk.toInt| < 2 ^ 62) : (mid s).toInt = s.mid := by
  obtain ⟨bid, bid'⟩ := abs_lt.mp bid
  obtain ⟨ask, ask'⟩ := abs_lt.mp ask
  rw [mid, toInt_div _ (by decide), toInt_add, wrap_fits (by omega) (by omega)]
  rfl

theorem notional_words {a b : Int64} (fits : |a.toInt * b.toInt| < 2 ^ 63) :
    (a * b / quantityScale).toInt = (a.toInt * b.toInt).tdiv Ob.quantityScale := by
  obtain ⟨low, high⟩ := abs_lt.mp fits
  rw [toInt_div _ (by decide), toInt_mul, wrap_fits low.le high]
  rfl

theorem Position.equityAt_words {pos : Position} {mid : Price}
    (product : |pos.btcQty.toInt * mid.toInt| < 2 ^ 62) (cash : |pos.cash.toInt| < 2 ^ 62) :
    (pos.equityAt mid).toInt = pos.ints.equityAt mid.toInt := by
  have quotient := abs_lt.mp ((abs_tdiv_le _ Ob.quantityScale).trans_lt product)
  obtain ⟨low, high⟩ := abs_lt.mp cash
  rw [Position.equityAt, toInt_add, notional_words (product.trans (by decide)),
    wrap_fits (by omega) (by omega)]
  rfl

theorem RiskManager.observeEquity_words {risk : RiskManager} {equity : Int64}
    (peak : |risk.peakEquity.toInt| < 2 ^ 62) (small : |equity.toInt| < 2 ^ 62) :
    (risk.observeEquity equity).ints = risk.ints.observeEquity equity.toInt := by
  obtain ⟨low, high⟩ := abs_lt.mp peak
  obtain ⟨low', high'⟩ := abs_lt.mp small
  have lt_iff : ∀ a b : Int64, a < b ↔ a.toInt < b.toInt := fun _ _ => Int64.lt_iff_toInt_lt
  unfold RiskManager.observeEquity Ob.RiskManager.observeEquity RiskManager.ints
  by_cases above : equity > risk.peakEquity
  · have above' : equity.toInt > risk.peakEquity.toInt := (lt_iff _ _).mp above
    have drawdown : (equity - equity).toInt = equity.toInt - equity.toInt := by
      rw [toInt_sub, wrap_fits (by omega) (by omega)]
    simp only [if_pos above', gt_iff_lt, lt_iff, drawdown, RiskConfig.ints,
      Int64.toInt_zero]
  · have above' : ¬equity.toInt > risk.peakEquity.toInt := mt (lt_iff _ _).mpr above
    have drawdown : (risk.peakEquity - equity).toInt = risk.peakEquity.toInt - equity.toInt := by
      rw [toInt_sub, wrap_fits (by omega) (by omega)]
    simp only [if_neg above', gt_iff_lt, lt_iff, drawdown, RiskConfig.ints,
      Int64.toInt_zero]

/-- One trade of a taker, booked. -/
theorem Position.book_words {pos : Position} {k qty price : Nat} (side : Side) {t : Trade}
    (trades : List Trade) (eventTs now : Timestamp) (within : pos.ints.Within k qty price)
    (some_qty : t.qty.toNat ≤ qty) (some_price : |t.price.toInt| ≤ price) (positive : 0 < price)
    (small : (k + 1) * (qty * price) < 2 ^ 61) (few : k < 2 ^ 61) :
    (pos.book side (({ trades } : Collected).add side t)).ints =
      pos.ints.after ⟨side, t.price, t.qty.toNat, eventTs, now⟩ := by
  have worth := Ob.Position.Within.notional_le ⟨side, t.price, t.qty.toNat, eventTs, now⟩
    some_qty some_price
  obtain ⟨units, cash, volume, fills⟩ := within
  have split : (k + 1) * (qty * price) = k * (qty * price) + qty * price := Nat.succ_mul _ _
  have unit : qty ≤ qty * price := Nat.le_mul_of_pos_right _ positive
  have units_le : k * qty ≤ k * (qty * price) := Nat.mul_le_mul_left _ unit
  have cast : t.qty.toInt64.toInt = t.qty.toNat := by rw [toInt_cast, if_pos (by omega)]
  have product : |t.qty.toInt64.toInt * t.price.toInt| < 2 ^ 63 := by
    rw [cast]
    have le := abs_mul_le (x := (t.qty.toNat : Int)) (a := qty)
      (by rw [abs_of_nonneg (Int.natCast_nonneg _)]; exact_mod_cast some_qty) some_price
    rw [← Nat.cast_mul] at le
    omega
  have notional := notional_words product
  rw [cast] at notional
  have worth' := abs_le.mp worth
  have cash' := abs_le.mp cash
  have units' := abs_le.mp units
  have volume' : (pos.grossVolume + (0 + t.qty)).toNat = pos.grossVolume.toNat + t.qty.toNat := by
    have small_volume : pos.grossVolume.toNat ≤ k * qty := volume
    rw [UInt64.zero_add, UInt64.toNat_add, Nat.mod_eq_of_lt (by omega)]
  have fills' : (pos.fills + 1).toNat = pos.fills.toNat + 1 := by
    have few_fills : pos.fills.toNat ≤ k := fills
    rw [UInt64.toNat_add, UInt64.toNat_one, Nat.mod_eq_of_lt (by omega)]
  have whole : (0 + t.qty : Quantity).toInt64.toInt = t.qty.toNat := by rw [UInt64.zero_add, cast]
  -- of position and cash the words show what they stand for
  have held : pos.ints.btcQty = pos.btcQty.toInt := rfl
  have paid : pos.ints.cash = pos.cash.toInt := rfl
  rw [held] at units'
  rw [paid] at cash'
  simp only at worth'
  cases side
  · refine congr (congr (congr (congrArg Ob.Position.mk ?_) ?_) volume') fills'
    · show (pos.btcQty + (0 + t.qty : Quantity).toInt64).toInt = pos.btcQty.toInt + t.qty.toNat
      rw [toInt_add, whole, wrap_fits (by omega) (by omega)]
    · show (pos.cash + (0 + -(t.qty.toInt64 * t.price / quantityScale))).toInt = pos.cash.toInt - _
      rw [Int64.zero_add, ← Int64.sub_eq_add_neg, toInt_sub, notional,
        wrap_fits (by omega) (by omega)]
  · refine congr (congr (congr (congrArg Ob.Position.mk ?_) ?_) volume') fills'
    · show (pos.btcQty - (0 + t.qty : Quantity).toInt64).toInt = pos.btcQty.toInt - t.qty.toNat
      rw [toInt_sub, whole, wrap_fits (by omega) (by omega)]
    · show (pos.cash + (0 + t.qty.toInt64 * t.price / quantityScale)).toInt = pos.cash.toInt + _
      rw [Int64.zero_add, toInt_add, notional, wrap_fits (by omega) (by omega)]

end Word

/-! ### What keeping the quotes leaves alone -/

namespace TradingEngine

variable {σ : Type} {e e' e'' : TradingEngine σ} {m : Market} {left : Side → Quantity} {side : Side}
  {trades trades' : List Trade}

/-- Nothing but the book and the quotes has changed. -/
def Keeps (e e' : TradingEngine σ) : Prop := e' = { e with book := e'.book, bid := e'.bid, ask := e'.ask }

theorem Keeps.trans (keeps : e.Keeps e') (keeps' : e'.Keeps e'') : e.Keeps e'' := by
  unfold Keeps at keeps keeps' ⊢
  rw [keeps] at keeps'
  exact keeps'

theorem cancelQuote_keeps (did : e.cancelQuote side = .ok e') : e.Keeps e' := by
  unfold cancelQuote at did
  split at did
  · obtain ⟨done, _, did⟩ := Mem.bind_ok did
    cases did
    rfl
  · cases did
    rfl

theorem placeQuote_keeps (did : e.placeQuote side trades = .ok (e', trades')) : e.Keeps e' := by
  unfold placeQuote at did
  obtain ⟨done, _, did⟩ := Mem.bind_ok did
  cases did
  rfl

theorem drawQuote_keeps (did : e.drawQuote side trades = .ok (e', trades')) : e.Keeps e' := by
  unfold drawQuote at did
  split at did
  · exact placeQuote_keeps did
  · cases did
    rfl

theorem refreshQuotes_keeps {s : MarketSnapshot} (did : e.refreshQuotes s = .ok (e', trades)) :
    e.Keeps e' := by
  unfold refreshQuotes at did
  obtain ⟨e₁, bid, did⟩ := Mem.bind_ok did
  obtain ⟨e₂, ask, did⟩ := Mem.bind_ok did
  refine ((cancelQuote_keeps bid).trans (cancelQuote_keeps ask)).trans ?_
  split at did
  · cases did
    rfl
  · split at did
    · obtain ⟨⟨e₃, trades₃⟩, draw, did⟩ := Mem.bind_ok did
      exact (drawQuote_keeps draw).trans (drawQuote_keeps did)
    · cases did
      rfl

/-! ### What a taker sees -/

end TradingEngine

/-- One trade of a taker. -/
def Collected.add (side : Side) (c : Collected) (t : Trade) : Collected := (collect side c t).getD c

theorem foldl_trades (side : Side) (trades : List Trade) (c : Collected) :
    (trades.foldl (Collected.add side) c).trades = c.trades ++ trades := by
  induction trades generalizing c with
  | nil => exact (List.append_nil _).symm
  | cons trade trades ih =>
    rw [List.foldl_cons, ih]
    exact List.append_assoc c.trades [trade] trades

namespace TradingEngine

variable {σ : Type} {e : TradingEngine σ} {m : Market} {left : Side → Quantity}

/-- **A taker sees one trade**, at the price of the quote and for a part of what it is to trade. -/
theorem taker_trade (sound : e.Sound m left) (a : StrategyAction)
    (live : (e.quote a.side.opposite).live = true) (some_qty : a.qty ≠ 0)
    (priced : (e.quote a.side.opposite).cur ≠ 0) :
    ∃ done trade, e.book.submit (e.takerTicket a) OrderBook.recorder [] = .ok done ∧
      done.seen = [trade] ∧ trade.price = (e.quote a.side.opposite).cur ∧
      trade.qty.toNat ≤ a.qty.toNat ∧ trade.qty ≠ 0 := by
  obtain ⟨done, m', left', trade, submitted, collected, price, qty, some_fill, _⟩ :=
    taker_spec sound a [] live some_qty priced
  have folds := OrderBook.submit_folds e.book (e.takerTicket a) (Collected.add a.side) { trades := [] }
  have same : e.book.submit (e.takerTicket a) (collect a.side) { trades := [] } = _ := folds
  rw [submitted] at same
  cases recorded : e.book.submit (e.takerTicket a) OrderBook.recorder [] with
  | error fault =>
    rw [recorded] at same
    cases same
  | ok done₀ =>
    rw [recorded] at same
    have is : done = done₀.map (List.foldl (Collected.add a.side) { trades := [] }) :=
      Except.ok.inj same
    obtain ⟨c, returned, _, _, tape, _⟩ := collect_one a.side [] trade
    obtain rfl : done.seen = c := Option.some.inj (collected.symm.trans returned)
    rw [is] at tape
    have seen : done₀.seen = [trade] := by
      have all := foldl_trades a.side done₀.seen { trades := [] }
      rw [List.nil_append] at all
      exact all.symm.trans tape
    refine ⟨done₀, trade, rfl, seen, price, ?_, some_fill⟩
    rw [qty, Quantity.toNat_min]
    exact Nat.min_le_left _ _

end TradingEngine

/-! ### The engine on words -/

namespace Word.TradingEngine

variable {σ : Type} {w : TradingEngine σ} {m : Market} {left : Side → Quantity} {k qty price most : Nat}

/-- What the words of an engine and of its report stand for. -/
def shown (r : TradingEngine σ × Report) : Ob.TradingEngine σ × Ob.Report := (r.1.ints, r.2.ints)

theorem withQuotes_ints {e : Ob.TradingEngine σ} (keeps : w.ints.Keeps e) :
    (w.withQuotes e).ints = e := keeps.symm

theorem settled_ints (w : TradingEngine σ) (side : Side) (q : Quote) (book : OrderBook)
    {pos : Position} {pos' : Ob.Position} (same : pos.ints = pos') :
    ({ w.withQuotes (w.ints.withQuote side q) with book, nextId := w.nextId + 1, pos } :
      TradingEngine σ).ints =
      { w.ints.withQuote side q with book, nextId := w.ints.nextId + 1, pos := pos' } := by
  subst same
  cases side <;> rfl

/-- `take` when the taker has traded. -/
theorem take_traded {a : StrategyAction} {trades : List Trade} {done : OrderBook.Submitted Collected}
    (submitted : w.book.submit (w.ints.takerTicket a) (collect a.side) { trades } = .ok done)
    (some_filled : done.seen.filled ≠ 0) (live : (w.quote a.side.opposite).live = true)
    (s : MarketSnapshot) (now : Timestamp) :
    w.take a s now trades = .ok
      ({ w.withQuotes (w.ints.withQuote a.side.opposite { w.quote a.side.opposite with
          live := decide (Ob.TradingEngine.bestAcross done.book a.side ≠ 0) }) with
        book := done.book, nextId := w.nextId + 1, pos := w.pos.book a.side done.seen },
        ⟨done.seen.trades, [⟨a.side, done.seen.lastPx, done.seen.filled, s.eventTs, now⟩]⟩) := by
  simp only [take, submitted, Mem.ok_bind, some_filled, if_false, Mem.pure_eq]
  by_cases gone : Ob.TradingEngine.bestAcross done.book a.side = 0
  · simp only [gone, if_true, ne_eq, not_true_eq_false, decide_false]
    rfl
  · have same : w.ints.withQuote a.side.opposite { w.quote a.side.opposite with live := true } =
        w.ints := Ob.TradingEngine.withQuote_live live
    simp only [gone, if_false, ne_eq, not_false_eq_true, decide_true, same]
    rfl

/-- The order of a taker of at most `qty` crosses a quote whose price is at most `price`. -/
theorem take_words (sound : w.ints.Sound m left) (a : StrategyAction) (s : MarketSnapshot)
    (now : Timestamp) (trades : List Trade) (live : (w.quote a.side.opposite).live = true)
    (some_qty : a.qty ≠ 0) (priced : (w.quote a.side.opposite).cur ≠ 0)
    (within : w.pos.ints.Within k qty price) (part : a.qty.toNat ≤ qty)
    (some_price : |(w.quote a.side.opposite).cur.toInt| ≤ price) (positive : 0 < price)
    (small : (k + 1) * (qty * price) < 2 ^ 61) (few : k < 2 ^ 61) :
    w.ints.take a s now trades = shown <$> w.take a s now trades := by
  obtain ⟨done, trade, recorded, seen, at_, le, some_fill⟩ :=
    Ob.TradingEngine.taker_trade sound a live some_qty priced
  have submit : w.book.submit (w.ints.takerTicket a) (collect a.side) { trades } =
      .ok (done.map fun _ => ({ trades } : Collected).add a.side trade) := by
    have folds := OrderBook.submit_folds w.book (w.ints.takerTicket a) (Collected.add a.side) { trades }
    rw [show w.book.submit (w.ints.takerTicket a) OrderBook.recorder [] = _ from recorded] at folds
    refine folds.trans (congrArg Except.ok ?_)
    simp only [OrderBook.Submitted.map, seen, List.foldl_cons, List.foldl_nil]
  have submit' : w.ints.book.submit (w.ints.takerTicket a) (Ob.collect a.side) { trades } =
      .ok (done.map fun _ => Ob.Collected.add a.side { trades } trade) := by
    have folds := OrderBook.submit_folds w.ints.book (w.ints.takerTicket a) (Ob.Collected.add a.side)
      { trades }
    rw [recorded] at folds
    refine folds.trans (congrArg Except.ok ?_)
    simp only [OrderBook.Submitted.map, seen, List.foldl_cons, List.foldl_nil]
  have booked := Position.book_words a.side trades s.eventTs now within (le.trans part)
    (at_ ▸ some_price) positive small few
  obtain ⟨c, returned, filled, px, tape, booked'⟩ :=
    Ob.TradingEngine.collect_one a.side trades trade
  have collected : Ob.Collected.add a.side { trades } trade = c := by
    rw [Ob.Collected.add, returned]
    rfl
  rw [collected] at submit'
  have some_filled : c.filled ≠ 0 := by
    rw [filled]
    exact fun none => some_fill (UInt64.toNat_inj.mp none)
  have some_filled' : (({ trades } : Collected).add a.side trade).filled ≠ 0 := by
    show 0 + trade.qty ≠ 0
    rwa [UInt64.zero_add]
  rw [take_traded submit some_filled' live,
    Ob.TradingEngine.take_traded submit' some_filled live]
  have pos_eq : (w.pos.book a.side (({ trades } : Collected).add a.side trade)).ints =
      w.ints.pos.book a.side c := booked.trans (booked' _ _ _).symm
  have fill_eq : (⟨a.side, c.lastPx, c.filled, s.eventTs, now⟩ : Ob.Fill) =
      Fill.ints ⟨a.side, trade.price, 0 + trade.qty, s.eventTs, now⟩ := by
    rw [px, filled, UInt64.zero_add]
    rfl
  refine congrArg Except.ok (Prod.ext ?_ ?_)
  · exact (settled_ints w a.side.opposite _ done.book pos_eq).symm
  · exact congrArg₂ Ob.Report.mk tape (congrArg (fun fill => [fill]) fill_eq)

/-- What is there while an action is worked on: quotes whose prices are at most `price`, and a position
and limits that leave room. -/
structure Calm (k qty price most : Nat) (w : TradingEngine σ) : Prop where
  within : w.pos.ints.Within k qty price
  limits : ∀ risk ∈ w.risk, risk.cfg.ints.Fits most
  prices : ∀ side, |(w.quote side).cur.toInt| ≤ price
  positive : 0 < price
  small : (k + 1) * (qty * price) < 2 ^ 61
  room : (k + 1) * qty ≤ most
  few : k < 2 ^ 61

theorem Calm.gated_words (calm : w.Calm k qty price most) {proposed : StrategyAction}
    (part : proposed.qty.toNat ≤ qty) : w.ints.gated proposed = w.gated proposed := by
  obtain ⟨⟨units, _, _, _⟩, limits, prices, positive, small, room, _⟩ := calm
  have units' : |w.pos.btcQty.toInt| ≤ ((k * qty : Nat) : Int) := units
  have split : (k + 1) * qty = k * qty + qty := Nat.succ_mul _ _
  have unit : (k + 1) * qty ≤ (k + 1) * (qty * price) :=
    Nat.mul_le_mul_left _ (Nat.le_mul_of_pos_right _ positive)
  have most_units : |w.pos.btcQty.toInt| + proposed.qty.toNat ≤ (((k + 1) * qty : Nat) : Int) := by
    omega
  unfold gated Ob.TradingEngine.gated
  have same : w.ints.risk = w.risk.map RiskManager.ints := rfl
  rw [same]
  cases managed : w.risk with
  | none => rfl
  | some risk =>
    obtain ⟨position, notional⟩ := limits risk managed
    refine (RiskManager.gate_agrees risk proposed (by omega) (by omega) (fun some_price => ?_)
      fun on => ?_).symm
    · have px : |(w.ints.quote proposed.side.opposite).cur.toInt| ≤ price := prices _
      rw [abs_of_pos some_price] at px
      have le := mul_le_mul most_units px some_price.le (Int.natCast_nonneg _)
      rw [← Nat.cast_mul, Nat.mul_assoc] at le
      exact lt_of_le_of_lt le (by exact_mod_cast small.trans (by decide))
    · have le : ((k * qty : Nat) : Int) ≤ most := by omega
      omega

/-- A quote that is offered. -/
theorem offer_words {side : Side} {e : Ob.TradingEngine σ}
    (offered : (if (w.ints.quote side).live then pure (w.ints, []) else w.ints.placeQuote side []) =
      .ok (e, [])) :
    (if (w.quote side).live then pure (w, []) else w.placeQuote side []) = .ok (w.withQuotes e, []) ∧
      w.ints.Keeps e := by
  by_cases live : (w.ints.quote side).live = true
  · rw [if_pos live] at offered
    have live' : (w.quote side).live = true := live
    cases offered
    rw [if_pos live']
    exact ⟨rfl, rfl⟩
  · rw [if_neg live] at offered
    have live' : ¬(w.quote side).live = true := live
    rw [if_neg live', placeQuote, offered]
    exact ⟨rfl, Ob.TradingEngine.placeQuote_keeps offered⟩

theorem applyAction_words (sound : w.ints.Sound m left) (calm : w.Calm k qty price most)
    {s : MarketSnapshot} (shows : w.ints.Shows s left) (proposed : StrategyAction)
    (part : proposed.qty.toNat ≤ qty) (now : Timestamp) :
    w.ints.applyAction proposed s now [] = shown <$> w.applyAction proposed s now [] := by
  unfold applyAction Ob.TradingEngine.applyAction
  by_cases nothing : proposed.qty = 0
  · rw [if_pos nothing, if_pos nothing]
    rfl
  rw [if_neg nothing, if_neg nothing, calm.gated_words part]
  cases passed : w.gated proposed with
  | none => rfl
  | some a =>
    have le : a.qty.toNat ≤ qty := by
      have passed' : w.ints.gated proposed = some a := (calm.gated_words part).trans passed
      rw [shows.gated_eq] at passed'
      exact (UInt64.le_iff_toNat_le.mp (Paper.gated_le passed').2).trans part
    simp only
    by_cases idle : a.qty = 0 ∨ (w.quote a.side.opposite).cur = 0 ∨
        (w.quote a.side.opposite).curQty = 0
    · have idle' : a.qty = 0 ∨ (w.ints.quote a.side.opposite).cur = 0 ∨
          (w.ints.quote a.side.opposite).curQty = 0 := idle
      rw [if_pos idle, if_pos idle']
      rfl
    · have idle' : ¬(a.qty = 0 ∨ (w.ints.quote a.side.opposite).cur = 0 ∨
          (w.ints.quote a.side.opposite).curQty = 0) := idle
      obtain ⟨some_qty, priced, some_size⟩ := by simpa only [not_or] using idle'
      obtain ⟨e₁, m₁, left₁, offered, same, sound₁, live, px, whole⟩ := shows.offer sound some_size
      obtain ⟨offered', keeps⟩ := offer_words offered
      rw [if_neg idle, if_neg idle', offered, offered', Mem.ok_bind, Mem.ok_bind]
      have is := withQuotes_ints keeps
      have live' : ((w.withQuotes e₁).quote a.side.opposite).live = true := by
        rw [quote, is]
        exact live
      have px' : ((w.withQuotes e₁).quote a.side.opposite).cur = (w.quote a.side.opposite).cur := by
        rw [quote, is]
        exact px
      simp only [if_pos live, if_pos live']
      rw [← is] at sound₁
      have taken := take_words sound₁ a s now [] live' some_qty (px' ▸ priced) calm.within le
        (px' ▸ calm.prices _) calm.positive calm.small calm.few
      rwa [is] at taken

theorem applyAction_unpriced (unpriced : ∀ side, (w.quote side).cur = 0) (proposed : StrategyAction)
    (s : MarketSnapshot) (now : Timestamp) (trades : List Trade) :
    w.applyAction proposed s now trades = .ok (w, { trades }) := by
  unfold applyAction
  by_cases nothing : proposed.qty = 0
  · rw [if_pos nothing]
    rfl
  · rw [if_neg nothing]
    cases w.gated proposed with
    | none => rfl
    | some a => simp only [unpriced, true_or, or_true, if_true, Mem.pure_eq]

/-- An action on a tick that the quotes show if it is usable. -/
theorem action_words {s : MarketSnapshot} (sound : w.ints.Sound m left)
    (calm : w.Calm k qty price most) (shows : s.Usable → w.ints.Shows s left)
    (unpriced : ¬s.Usable → ∀ side, (w.ints.quote side).cur = 0) (proposed : StrategyAction)
    (part : proposed.qty.toNat ≤ qty) (now : Timestamp) :
    w.ints.applyAction proposed s now [] = shown <$> w.applyAction proposed s now [] := by
  by_cases usable : s.Usable
  · exact applyAction_words sound calm (shows usable) proposed part now
  · have dead : ∀ side, (w.quote side).cur = 0 := unpriced usable
    rw [Ob.TradingEngine.applyAction_unpriced dead, applyAction_unpriced dead]
    rfl

/-- The risk manager with the equity at a mid price shown to it. -/
def marked (w : TradingEngine σ) (mid : Price) : Option RiskManager :=
  w.risk.map fun risk => risk.observeEquity (w.pos.equityAt mid)

theorem marked_words (modest : w.ints.paper.Modest k qty price most)
    (small : k * (qty * price) < 2 ^ 61) {s : MarketSnapshot} (mid_eq : (mid s).toInt = s.mid)
    (near : |s.mid| ≤ price) : (w.marked (mid s)).map RiskManager.ints =
      w.ints.risk.map fun risk : Ob.RiskManager =>
        risk.observeEquity (w.ints.pos.equityAt s.mid) := by
  have within : w.pos.ints.Within k qty price := modest.pos
  have equity := within.equity near
  have few_money : ((k * (qty * price) : Nat) : Int) < 2 ^ 61 := by omega
  have equity_eq : (w.pos.equityAt (mid s)).toInt = w.ints.pos.equityAt s.mid := by
    rw [Position.equityAt_words (by rw [mid_eq]; exact equity.1.trans_lt (by omega))
      (within.cash.trans_lt (by omega)), mid_eq]
    rfl
  rw [marked, ints, Option.map_map, Option.map_map]
  refine Option.map_congr fun risk managed => ?_
  have peak : |risk.peakEquity.toInt| ≤ 2 * ((k * (qty * price) : Nat) : Int) :=
    modest.peak risk.ints (Option.map_eq_some_iff.mpr ⟨risk, managed, rfl⟩)
  show (risk.observeEquity _).ints = risk.ints.observeEquity _
  rw [RiskManager.observeEquity_words (peak.trans_lt (by omega))
    (by rw [equity_eq]; exact equity.2.trans_lt (by omega)), equity_eq]
  rfl

theorem marked_fits (modest : w.ints.paper.Modest k qty price most) (mid : Price) :
    ∀ risk ∈ w.marked mid, risk.cfg.ints.Fits most := by
  intro risk is
  obtain ⟨risk', managed, rfl⟩ := Option.map_eq_some_iff.mp is
  exact modest.limits risk'.ints (Option.map_eq_some_iff.mpr ⟨risk', managed, rfl⟩)

/-- **An event does to the words what it does to what they stand for**, while there is room. -/
theorem onEvent_words {onTick : Strategy σ} {arrival : Arrival} (sound : w.ints.Sound m left)
    (modest : w.ints.paper.Modest k qty price most) (positive : 0 < price)
    (small : (k + 1) * (qty * price) < 2 ^ 61) (room : (k + 1) * qty ≤ most) (few : k < 2 ^ 61)
    (narrow : price < 2 ^ 61) (quiet : arrival.Quiet price) (acts : AtMost qty onTick) :
    w.ints.onEvent onTick arrival = shown <$> w.onEvent onTick arrival := by
  unfold onEvent Ob.TradingEngine.onEvent
  cases arrival.event.kind with
  | error => rfl
  | bookTicker =>
    simp only
    have within : w.pos.ints.Within k qty price := modest.pos
    have mid_eq : (mid arrival.event.snapshot).toInt = arrival.event.snapshot.mid :=
      mid_words (quiet.bid.trans_lt (by omega)) (quiet.ask.trans_lt (by omega))
    have less : k * (qty * price) ≤ (k + 1) * (qty * price) :=
      Nat.mul_le_mul_right _ (Nat.le_succ k)
    have marks := marked_words modest (less.trans_lt small) mid_eq quiet.mid
    have limits := marked_fits modest (mid arrival.event.snapshot)
    have prices := quiet.across
    have mark_eq : (w.risk.map fun risk : RiskManager =>
      risk.observeEquity (w.pos.equityAt (mid arrival.event.snapshot))) =
        w.marked (mid arrival.event.snapshot) := rfl
    rw [mark_eq]
    generalize w.marked (mid arrival.event.snapshot) = mark at marks limits ⊢
    generalize (w.ints.risk.map fun risk : Ob.RiskManager =>
      risk.observeEquity (w.ints.pos.equityAt arrival.event.snapshot.mid)) = marked at marks ⊢
    generalize arrival.event.snapshot = s at mid_eq prices ⊢
    -- the engine with its marks, and with its quotes drawn
    have starts : ({ w with lastMid := mid s, risk := mark } : TradingEngine σ).ints =
        { w.ints with lastMid := s.mid, risk := marked } := by
      rw [← mid_eq, ← marks]
      rfl
    have marked_sound : ({ w.ints with lastMid := s.mid, risk := marked } : Ob.TradingEngine σ).Sound
        m left := ⟨sound.stands, sound.complete, sound.quotes⟩
    rw [← starts] at marked_sound ⊢
    obtain ⟨e₁, m₁, left₁, refreshed, _, sound₁, shows, unpriced⟩ :=
      Ob.TradingEngine.refreshQuotes_spec marked_sound s
    have is := withQuotes_ints (Ob.TradingEngine.refreshQuotes_keeps refreshed)
    have prices₁ : ∀ side, |(e₁.quote side).cur.toInt| ≤ price := by
      intro side
      by_cases usable : s.Usable
      · have px := (shows usable).price side.opposite
        rw [Side.opposite_opposite] at px
        rw [px]
        exact prices _
      · rw [unpriced usable side]
        exact Int.natCast_nonneg price
    rw [refreshQuotes, refreshed, Mem.ok_bind, Mem.ok_bind]
    simp only [Mem.pure_eq, Mem.ok_bind]
    generalize next : ({ w with lastMid := mid s, risk := mark } : TradingEngine σ).withQuotes e₁ = w₁
      at is ⊢
    have calm : w₁.Calm k qty price most := by
      subst next
      exact ⟨within, limits, fun side => by rw [quote, is]; exact prices₁ side, positive, small, room,
        few⟩
    subst is
    have part := acts w₁.strategy s
    have same : w₁.ints.strategy = w₁.strategy := rfl
    rw [same]
    generalize onTick w₁.strategy s = decision at part ⊢
    obtain ⟨act, strategy⟩ := decision
    cases act with
    | none => rfl
    | some act =>
      refine action_words (w := { w₁ with strategy }) ⟨sound₁.stands, sound₁.complete, sound₁.quotes⟩
        ⟨calm.within, calm.limits, calm.prices, calm.positive, calm.small, calm.room, calm.few⟩
        (fun usable => ?_) unpriced act (part act rfl) arrival.now
      obtain ⟨px, size, whole, apart⟩ := shows usable
      exact ⟨px, size, whole, apart⟩

end Word.TradingEngine

end Ob
