/-
**The limits of the risk gate.**

* `run_limited` — over every run of an engine with limits, the position stays within the position
  limit, and a fill leaves a notional within its limit or a smaller position.
* `gate_maximal_iff` — the gate is asked for the largest quantity that both limits allow. It finds
  it unless its inverse of the notional, which divides the limit by the price, falls short of what
  the truncated notional still allows.
* `gate_recovers` — from any position, also one beyond a limit, a passed action makes no breach
  worse, and what only reduces the position passes unchanged.
-/

import OrderBook.Engine.Runs

namespace Ob

/-! ### Over a run -/

/-- What the limits promise of an event. The position limit holds after it. A fill leaves a notional
within its limit, at the price of the fill, or a position smaller than before. -/
structure Sight.Limited {σ : Type} (cfg : RiskConfig) (sight : Sight σ) : Prop where
  position : 0 < cfg.maxPositionQty → |sight.after.pos.btcQty| ≤ cfg.maxPositionQty
  notional : 0 < cfg.maxNotional → ∀ fill ∈ sight.report.fills, 0 < fill.price →
    (|sight.after.pos.btcQty| * fill.price.toInt).tdiv quantityScale ≤ cfg.maxNotional ∨
      |sight.after.pos.btcQty| < |sight.before.pos.btcQty|

/-- **One event.** -/
theorem Sight.Direct.limited {σ : Type} {onTick : Strategy σ} {cfg : RiskConfig} {sight : Sight σ}
    (direct : sight.Direct onTick) (managed : sight.before.Managed cfg)
    (within : 0 < cfg.maxPositionQty → |sight.before.pos.btcQty| ≤ cfg.maxPositionQty) :
    sight.Limited cfg := by
  have moved := Paper.onEvent_pos onTick sight.before sight.arrival
  have told := direct.tells.1
  rw [← direct.after] at moved
  cases filled : (sight.before.onEvent onTick sight.arrival).2 with
  | none =>
    rw [filled] at moved told
    refine ⟨fun on => moved ▸ within on, fun _ fill member => ?_⟩
    rw [told] at member
    cases member
  | some fill =>
    obtain ⟨risk, proposed, a, _, rfl, passed, side, some_qty, le⟩ := managed.passed filled
    rw [filled] at moved told
    have there := (congrArg Position.btcQty moved).trans (Paper.after_btcQty _ fill)
    rw [side] at there
    refine ⟨fun on => ?_, fun on fill' member positive => ?_⟩
    · rw [there]
      exact RiskManager.gate_position passed on (within on) le
    · rw [told] at member
      obtain rfl := List.mem_singleton.mp member
      rw [there]
      exact RiskManager.gate_notional passed on (Int64.lt_iff_toInt_lt.mp positive) some_qty le

/-- A history under limits. -/
structure Paper.Obeys {σ : Type} (cfg : RiskConfig) (seen : List (Sight σ)) (p : Paper σ) :
    Prop where
  managed : p.Managed cfg
  within : 0 < cfg.maxPositionQty → |p.pos.btcQty| ≤ cfg.maxPositionQty
  limited : ∀ sight ∈ seen, sight.Limited cfg

/-- **The limits hold over every run.** -/
theorem run_limited {σ : Type} (onTick : Strategy σ) (strategy : σ) (cfg : RiskConfig)
    (arrivals : List Arrival) :
    ∃ e seen, Machine.run (TradingEngine.watch onTick) (TradingEngine.new strategy (some cfg))
        arrivals = .ok (e, seen) ∧ seen.map Sight.arrival = arrivals ∧
      ∀ sight ∈ seen, sight.Limited cfg := by
  have start : (Paper.new strategy (some cfg)).Obeys cfg [] :=
    ⟨.new strategy cfg, fun on => Int.le_of_lt on, List.forall_mem_nil _⟩
  have kept : ∀ (seen : List (Sight σ)) (sight : Sight σ), sight.before.Obeys cfg seen →
      sight.Direct onTick → sight.after.Obeys cfg (seen ++ [sight]) := by
    intro seen sight obeys direct
    have one := direct.limited obeys.managed obeys.within
    exact ⟨direct.after ▸ obeys.managed.onEvent, one.position, List.forall_mem_append.mpr
      ⟨obeys.limited, List.forall_mem_singleton.mpr one⟩⟩
  obtain ⟨e, seen, _, _, ran, same, _, obeys⟩ := TradingEngine.run_watched start kept arrivals
  exact ⟨e, seen, ran, same, obeys.limited⟩

/-! ### One question to the gate -/

/-- A position that both limits allow. -/
structure RiskConfig.Allows (cfg : RiskConfig) (execPx : Price) (post : Int) : Prop where
  position : 0 < cfg.maxPositionQty → |post| ≤ cfg.maxPositionQty
  notional : 0 < cfg.maxNotional →
    (|post| * execPx.toInt).tdiv quantityScale ≤ cfg.maxNotional

namespace RiskManager

/-- The quantities up to the proposed one that lead to a position both limits allow. -/
def permitted (risk : RiskManager) (proposed : StrategyAction) (cur : Int) (execPx : Price) :
    Set Nat :=
  {q | 1 ≤ q ∧ q ≤ proposed.qty.toNat ∧ risk.cfg.Allows execPx (cur + proposed.side.dir * q)}

/-- The gate answers with the largest permitted quantity, and with nothing if there is none. -/
def Maximal (risk : RiskManager) (proposed : StrategyAction) (cur : Int) (execPx : Price) : Prop :=
  match risk.gate proposed cur execPx with
  | some a => a.side = proposed.side ∧ IsGreatest (risk.permitted proposed cur execPx) a.qty.toNat
  | none => risk.permitted proposed cur execPx = ∅

/-- The proposed quantity, cut to the room that the position limit leaves. -/
def room (cfg : RiskConfig) (proposed : StrategyAction) (cur : Int) : Int :=
  if 0 < cfg.maxPositionQty then
    min ↑proposed.qty.toNat (cfg.maxPositionQty - proposed.side.dir * cur)
  else proposed.qty.toNat

/-- Nothing is lost by dividing the notional limit by the price: the limit is off, or all that the
position limit leaves is within it, or one unit more would break it, or no multiple of the price
lies strictly between the limit and the next one. -/
def Lossless (cfg : RiskConfig) (proposed : StrategyAction) (cur : Int) (execPx : Price) : Prop :=
  0 < cfg.maxNotional →
    notional execPx (cur + proposed.side.dir * room cfg proposed cur) ≤ cfg.maxNotional ∨
    cfg.maxNotional < notional execPx (cur + proposed.side.dir * 1) ∨
    ∀ k : Int, ¬(cfg.maxNotional * quantityScale < k * execPx.toInt ∧
      k * execPx.toInt < (cfg.maxNotional + 1) * quantityScale)

section Question

variable {risk : RiskManager} {proposed : StrategyAction} {cur : Int} {execPx : Price}

/-- What the position limit leaves of the proposed quantity. -/
theorem limitPosition_room {cfg : RiskConfig}
    (stands : 0 < cfg.maxPositionQty → |cur| ≤ cfg.maxPositionQty) :
    0 ≤ room cfg proposed cur ∧
      (limitPosition cfg proposed.side.dir cur proposed.qty.toNat = some (room cfg proposed cur) ∨
        limitPosition cfg proposed.side.dir cur proposed.qty.toNat = none ∧
          room cfg proposed cur = 0) := by
  have some_qty : (0 : Int) ≤ proposed.qty.toNat := Int.natCast_nonneg _
  unfold room
  by_cases on : 0 < cfg.maxPositionQty
  · have within := stands on
    rw [← proposed.side.abs_dir_mul, abs_le] at within
    rw [limitPosition_eq on, if_pos on]
    by_cases beyond : cfg.maxPositionQty < |proposed.side.dir * cur + proposed.qty.toNat|
    · rw [if_pos beyond, withinRoom]
      rw [lt_abs] at beyond
      grind
    · rw [if_neg beyond]
      rw [Int.not_lt, abs_le] at beyond
      rw [Int.min_eq_left (by omega)]
      exact ⟨some_qty, .inl rfl⟩
  · rw [limitPosition_off on, if_neg on]
    exact ⟨some_qty, .inl rfl⟩

theorem mem_permitted (allows : risk.cfg.Allows execPx cur) {q : Nat} :
    q ∈ risk.permitted proposed cur execPx ↔ 1 ≤ q ∧ (q : Int) ≤ room risk.cfg proposed cur ∧
      (0 < risk.cfg.maxNotional →
        notional execPx (proposed.side.dir * cur + q) ≤ risk.cfg.maxNotional) := by
  have position : 1 ≤ q → ((q : Int) ≤ room risk.cfg proposed cur ↔ q ≤ proposed.qty.toNat ∧
      (0 < risk.cfg.maxPositionQty →
        |cur + proposed.side.dir * q| ≤ risk.cfg.maxPositionQty)) := by
    intro some_q
    unfold room
    by_cases on : 0 < risk.cfg.maxPositionQty
    · have within := allows.position on
      rw [← proposed.side.abs_dir_mul, abs_le] at within
      simp only [on, if_true, true_implies, proposed.side.abs_dir, abs_le]
      omega
    · simp only [on, if_false, false_implies, and_true]
      omega
  rw [← notional_dir]
  constructor
  · rintro ⟨some_q, le, there⟩
    exact ⟨some_q, (position some_q).mpr ⟨le, there.position⟩, there.notional⟩
  · rintro ⟨some_q, le, there⟩
    obtain ⟨le, within⟩ := (position some_q).mp le
    exact ⟨some_q, le, within, there⟩

/-- The gate's answer when this quantity is left. -/
def reply (proposed : StrategyAction) (qty : Int) : Option StrategyAction :=
  if qty ≤ 0 then none else some ⟨proposed.side, UInt64.ofNat qty.toNat⟩

theorem gate_eq (running : risk.halted = false)
    (allows : risk.cfg.Allows execPx cur) {answer : Option Int}
    (limited : limitNotional risk.cfg proposed.side.dir cur execPx.toInt
      (room risk.cfg proposed cur) = answer) :
    risk.gate proposed cur execPx = answer.bind (reply proposed) ∨
      risk.gate proposed cur execPx = none ∧ room risk.cfg proposed cur = 0 := by
  subst limited
  rw [gate, if_neg (Bool.not_eq_true _ ▸ running)]
  rcases (limitPosition_room allows.position).2 with position | ⟨position, none⟩
  · rw [position]
    exact .inl rfl
  · rw [position]
    exact .inr ⟨rfl, none⟩

/-- **Within the notional limit** the gate answers with what the position limit leaves. -/
theorem gate_within_notional (running : risk.halted = false)
    (allows : risk.cfg.Allows execPx cur) (positive : 0 < execPx.toInt)
    (within : 0 < risk.cfg.maxNotional →
      notional execPx (proposed.side.dir * cur + room risk.cfg proposed cur) ≤
        risk.cfg.maxNotional) :
    risk.gate proposed cur execPx = reply proposed (room risk.cfg proposed cur) := by
  have limited : limitNotional risk.cfg proposed.side.dir cur execPx.toInt
      (room risk.cfg proposed cur) = some (room risk.cfg proposed cur) := by
    by_cases on : 0 < risk.cfg.maxNotional
    · rw [limitNotional_eq on positive, if_neg (Int.not_lt.mpr (within on))]
    · rw [limitNotional_off fun both => on both.1]
  rcases gate_eq running allows limited with answer | ⟨answer, none⟩
  · exact answer
  · rw [answer, none]
    rfl

/-- **Beyond the notional limit** it answers with the room up to its inverse of the limit. -/
theorem gate_beyond_notional (running : risk.halted = false)
    (allows : risk.cfg.Allows execPx cur) (positive : 0 < execPx.toInt)
    (on : 0 < risk.cfg.maxNotional)
    (beyond : risk.cfg.maxNotional <
      notional execPx (proposed.side.dir * cur + room risk.cfg proposed cur))
    (short : (risk.cfg.maxNotional * quantityScale).tdiv execPx.toInt - proposed.side.dir * cur <
      room risk.cfg proposed cur) :
    risk.gate proposed cur execPx = reply proposed
      ((risk.cfg.maxNotional * quantityScale).tdiv execPx.toInt - proposed.side.dir * cur) := by
  have limited : limitNotional risk.cfg proposed.side.dir cur execPx.toInt
      (room risk.cfg proposed cur) = _ := limitNotional_eq on positive
  rw [if_pos beyond, withinRoom, if_pos short] at limited
  rcases gate_eq running allows limited with answer | ⟨answer, none⟩
  · rw [answer, reply]
    split
    · rfl
    · rw [Option.bind_some, reply, if_neg ‹_›]
  · rw [answer, reply, if_pos (by omega)]

/-- A quantity is the largest permitted one if it is permitted, unless it is 0, and no larger one
is. -/
theorem maximal_iff {qty : Int} (le : qty ≤ proposed.qty.toNat)
    (answer : risk.gate proposed cur execPx = reply proposed qty) :
    risk.Maximal proposed cur execPx ↔
      (0 < qty → qty.toNat ∈ risk.permitted proposed cur execPx) ∧
        ∀ q ∈ risk.permitted proposed cur execPx, (q : Int) ≤ qty := by
  rw [Maximal, answer, reply]
  by_cases none : qty ≤ 0
  · rw [if_pos none]
    constructor
    · intro empty
      refine ⟨fun positive => absurd none (Int.not_le.mpr positive), fun q member => ?_⟩
      rw [empty] at member
      cases member
    · rintro ⟨_, upper⟩
      refine Set.eq_empty_of_forall_notMem fun q member => ?_
      have := upper q member
      have := member.1
      omega
  · have bound := proposed.qty.toNat_lt
    have fits : (UInt64.ofNat qty.toNat).toNat = qty.toNat :=
      UInt64.toNat_ofNat_of_lt' (by rw [UInt64.size]; omega)
    have positive : 0 < qty := Int.not_le.mp none
    simp only [if_neg none, fits, true_and]
    constructor
    · rintro ⟨here, upper⟩
      exact ⟨fun _ => here, fun q member => Int.le_toNat (Int.le_of_lt positive) |>.mp
        (upper member)⟩
    · rintro ⟨here, upper⟩
      exact ⟨here positive, fun q member => (Int.le_toNat (Int.le_of_lt positive)).mpr
        (upper q member)⟩

/-- Beyond the notional limit nothing more than the inverse finds is permitted, exactly if one unit
more breaks the limit, or no multiple of the price lies strictly between the limit and the next. -/
theorem inverse_upper_iff {c left limit : Int} (positive : 0 < execPx.toInt) (on : 0 ≤ limit)
    (stands : notional execPx c ≤ limit)
    (short : (limit * quantityScale).tdiv execPx.toInt < c + left) (some_left : 0 < left) :
    (∀ q : Nat, 1 ≤ q → (q : Int) ≤ left → notional execPx (c + q) ≤ limit →
        (q : Int) ≤ (limit * quantityScale).tdiv execPx.toInt - c) ↔
      limit < notional execPx (c + 1) ∨
        ∀ k : Int, ¬(limit * quantityScale < k * execPx.toInt ∧
          k * execPx.toInt < (limit + 1) * quantityScale) := by
  have inverse : ∀ {x}, x ≤ (limit * quantityScale).tdiv execPx.toInt ↔ _ :=
    le_inverse_iff positive on
  have nonneg := inverse_nonneg positive on
  constructor
  · intro upper
    by_contra fails
    push Not at fails
    obtain ⟨one, k, above, below⟩ := fails
    -- the inverse is short of `k`, and everything up to `k` is within the limit
    have missed : (limit * quantityScale).tdiv execPx.toInt < k := by
      rw [← Int.not_le, inverse]
      exact Int.not_le.mpr above
    by_cases past : (limit * quantityScale).tdiv execPx.toInt < c
    · have := upper 1 (Nat.le_refl 1) some_left one
      omega
    · obtain ⟨q, q_eq⟩ := Int.eq_ofNat_of_zero_le
        (by omega : 0 ≤ (limit * quantityScale).tdiv execPx.toInt + 1 - c)
      have within : notional execPx k ≤ limit := by
        rw [notional_le_iff positive, abs_of_nonneg (by omega)]
        exact below
      have more : notional execPx (c + q) ≤ limit := by
        refine notional_mono positive ?_ within
        rw [abs_of_nonneg (by omega), abs_of_nonneg (by omega)]
        omega
      have := upper q (by omega) (by omega) more
      omega
  · rintro (breaks | gap) q some_q _ within
    · -- one unit more only breaks the limit on the way up, and then so do all
      have up : |c| < |c + 1| := abs_lt_of_notional positive stands breaks
      have back : |c + q| < |c + 1| := abs_lt_of_notional positive within breaks
      grind
    · by_cases up : 0 ≤ c + q
      · rw [notional_le_iff positive, abs_of_nonneg up] at within
        have : c + q ≤ (limit * quantityScale).tdiv execPx.toInt := by
          rw [inverse, ← Int.not_lt]
          exact fun above => gap _ ⟨above, within⟩
        omega
      · omega

theorem room_le {cfg : RiskConfig} : room cfg proposed cur ≤ proposed.qty.toNat := by
  unfold room
  split
  · exact Int.min_le_left _ _
  · exact Int.le_refl _

/-- Within the notional limit the gate is maximal. -/
theorem maximal_within (running : risk.halted = false) (allows : risk.cfg.Allows execPx cur)
    (positive : 0 < execPx.toInt)
    (within : 0 < risk.cfg.maxNotional →
      notional execPx (proposed.side.dir * cur + room risk.cfg proposed cur) ≤
        risk.cfg.maxNotional) :
    risk.Maximal proposed cur execPx := by
  rw [maximal_iff room_le (gate_within_notional running allows positive within)]
  refine ⟨fun some_room => (mem_permitted allows).mpr ?_, fun q member =>
    ((mem_permitted allows).mp member).2.1⟩
  rw [Int.toNat_of_nonneg (limitPosition_room allows.position).1]
  exact ⟨Int.lt_toNat.mpr some_room, Int.le_refl _, within⟩

/-- Beyond it, the gate is maximal if one unit more breaks the limit, or no multiple of the price
lies strictly between the limit and the next. -/
theorem maximal_beyond_iff (running : risk.halted = false) (allows : risk.cfg.Allows execPx cur)
    (positive : 0 < execPx.toInt) (on : 0 < risk.cfg.maxNotional)
    (beyond : risk.cfg.maxNotional <
      notional execPx (proposed.side.dir * cur + room risk.cfg proposed cur)) :
    risk.Maximal proposed cur execPx ↔
      risk.cfg.maxNotional < notional execPx (proposed.side.dir * cur + 1) ∨
        ∀ k : Int, ¬(risk.cfg.maxNotional * quantityScale < k * execPx.toInt ∧
          k * execPx.toInt < (risk.cfg.maxNotional + 1) * quantityScale) := by
  have limit : 0 ≤ risk.cfg.maxNotional := Int.le_of_lt on
  have nonneg : 0 ≤ room risk.cfg proposed cur := (limitPosition_room allows.position).1
  have stands : notional execPx (proposed.side.dir * cur) ≤ risk.cfg.maxNotional := by
    have := allows.notional on
    rwa [← proposed.side.abs_dir_mul] at this
  have up : |proposed.side.dir * cur| <
      |proposed.side.dir * cur + room risk.cfg proposed cur| :=
    abs_lt_of_notional positive stands beyond
  have over_zero : 0 ≤ proposed.side.dir * cur + room risk.cfg proposed cur ∧
      0 < room risk.cfg proposed cur := by
    grind
  have short : (risk.cfg.maxNotional * quantityScale).tdiv execPx.toInt <
      proposed.side.dir * cur + room risk.cfg proposed cur := by
    rw [← Int.not_le]
    exact fun le => absurd (notional_inverse positive limit over_zero.1 le)
      (Int.not_le.mpr beyond)
  have answer := gate_beyond_notional running allows positive on beyond (by omega)
  have cut := @room_le proposed cur risk.cfg
  rw [maximal_iff (by omega) answer, ← inverse_upper_iff positive limit stands short over_zero.2]
  constructor
  · rintro ⟨_, upper⟩ q some_q le inside
    exact upper q ((mem_permitted allows).mpr ⟨some_q, le, fun _ => inside⟩)
  · intro upper
    refine ⟨fun some_qty => (mem_permitted allows).mpr ?_, fun q member => ?_⟩
    · rw [Int.toNat_of_nonneg (Int.le_of_lt some_qty)]
      refine ⟨Int.lt_toNat.mpr some_qty, by omega, fun _ => ?_⟩
      have inverse := inverse_nonneg positive limit
      exact notional_inverse positive limit (by omega) (by omega)
    · obtain ⟨some_q, le, inside⟩ := (mem_permitted allows).mp member
      exact upper q some_q le (inside on)

/-- **The gate is maximal exactly where nothing is lost.** -/
theorem gate_maximal_iff (running : risk.halted = false) (positive : 0 < execPx)
    (allows : risk.cfg.Allows execPx cur) :
    risk.Maximal proposed cur execPx ↔ Lossless risk.cfg proposed cur execPx := by
  replace positive : 0 < execPx.toInt := Int64.lt_iff_toInt_lt.mp positive
  unfold Lossless
  rw [notional_dir, notional_dir]
  by_cases within : 0 < risk.cfg.maxNotional →
      notional execPx (proposed.side.dir * cur + room risk.cfg proposed cur) ≤ risk.cfg.maxNotional
  · exact iff_of_true (maximal_within running allows positive within) fun on => .inl (within on)
  · push Not at within
    obtain ⟨on, beyond⟩ := within
    rw [maximal_beyond_iff running allows positive on beyond]
    constructor
    · exact fun choice _ => .inr choice
    · intro lossless
      exact (lossless on).resolve_left (Int.not_le.mpr beyond)

end Question

/-- A million units proposed at a price of 5'000'000 against a notional limit of 3'000'000. -/
theorem gate_maximal_clamped :
    Maximal { cfg := { maxNotional := 3000000 } } ⟨.buy, 1000000⟩ 0 5000000 := by
  refine (gate_maximal_iff rfl (by decide) ⟨?_, ?_⟩).mpr fun _ => .inr (.inr fun k => ?_)
  · exact fun _ => by decide
  · exact fun _ => by decide
  · have price : (5000000 : Price).toInt = 5000000 := rfl
    rw [price, quantityScale]
    omega

/-- At a price of 500'000 the same limit allows 6'000'001 units, and the gate lets 6'000'000
through. -/
theorem gate_not_maximal :
    ∃ (risk : RiskManager) (proposed : StrategyAction) (execPx : Price),
      risk.halted = false ∧ 0 ≤ risk.cfg.maxPositionQty ∧ 0 ≤ risk.cfg.maxNotional ∧ 0 < execPx ∧
      risk.cfg.Allows execPx 0 ∧ risk.gate proposed 0 execPx = some ⟨.buy, 6000000⟩ ∧
      6000001 ∈ risk.permitted proposed 0 execPx ∧ ¬risk.Maximal proposed 0 execPx := by
  have more : 6000001 ∈ permitted { cfg := { maxNotional := 3000000 } } ⟨.buy, 10000000⟩ 0
      500000 :=
    ⟨by decide, by decide, fun on => absurd on (by decide), fun _ => by decide⟩
  have answer : gate { cfg := { maxNotional := 3000000 } } ⟨.buy, 10000000⟩ 0 500000 =
      some ⟨.buy, 6000000⟩ := by decide
  refine ⟨_, _, _, rfl, by decide, by decide, by decide, ⟨fun _ => by decide, fun _ => by decide⟩,
    answer, more, fun maximal => ?_⟩
  rw [Maximal, answer] at maximal
  exact absurd (maximal.2.2 more) (by decide)

/-! ### From any position -/

section Breach

variable {risk : RiskManager} {proposed a : StrategyAction} {cur : Int} {execPx : Price}

/-- A position beyond its limit does not move further beyond it. -/
theorem gate_position_any (passed : risk.gate proposed cur execPx = some a)
    (on : 0 < risk.cfg.maxPositionQty) :
    |cur + a.side.dir * a.qty.toNat| ≤ max |cur| risk.cfg.maxPositionQty := by
  obtain ⟨_, same, some_qty, first, position, notional⟩ := gate_passed passed
  have le := limitNotional_le notional
  rw [limitPosition_eq on] at position
  rw [same, proposed.side.abs_dir, ← proposed.side.abs_dir_mul cur]
  rcases limited_room position with ⟨inside, rfl⟩ | ⟨_, room⟩
  · refine Int.le_trans (abs_add_le_max (Int.natCast_nonneg _) le) ?_
    exact max_le_max (Int.le_refl _) (Int.not_lt.mp inside)
  · grind

/-- Neither does a notional. -/
theorem gate_notional_any (passed : risk.gate proposed cur execPx = some a)
    (on : 0 < risk.cfg.maxNotional) (positive : 0 < execPx.toInt) :
    notional execPx (cur + a.side.dir * a.qty.toNat) ≤
      max (notional execPx cur) risk.cfg.maxNotional := by
  have some_qty := (gate_passed passed).2.2.1
  rcases gate_notional passed on positive some_qty (Nat.le_refl _) with within | smaller
  · exact Int.le_trans within (Int.le_max_right _ _)
  · refine Int.le_trans ?_ (Int.le_max_left _ _)
    exact notional_mono positive (Int.le_of_lt smaller) (Int.le_refl _)

/-- Where the room is at least the quantity, a limit lets it through. -/
theorem limited_all {beyond : Prop} [Decidable beyond] {room allowed : Int}
    (some_room : 0 < room) (enough : allowed ≤ room) :
    (if beyond then withinRoom room allowed else some allowed) = some allowed := by
  unfold withinRoom
  rw [if_neg (Int.not_le.mpr some_room), if_neg (Int.not_lt.mpr enough), ite_self]

/-- **A way out stays open**: what only brings the position closer to zero passes unchanged. -/
theorem gate_exit (running : risk.halted = false) (some_qty : 0 < proposed.qty)
    (positive : 0 < execPx.toInt) (short : proposed.side.dir * cur + proposed.qty.toNat ≤ 0) :
    risk.gate proposed cur execPx = some proposed := by
  have some_nat : 0 < proposed.qty.toNat := UInt64.lt_iff_toNat_lt.mp some_qty
  have position : limitPosition risk.cfg proposed.side.dir cur proposed.qty.toNat =
      some ↑proposed.qty.toNat := by
    by_cases on : 0 < risk.cfg.maxPositionQty
    · rw [limitPosition_eq on]
      exact limited_all (by omega) (by omega)
    · exact limitPosition_off on
  have notional : limitNotional risk.cfg proposed.side.dir cur execPx.toInt proposed.qty.toNat =
      some ↑proposed.qty.toNat := by
    by_cases on : 0 < risk.cfg.maxNotional
    · have inverse := inverse_nonneg positive (Int.le_of_lt on)
      rw [limitNotional_eq on positive]
      exact limited_all (by omega) (by omega)
    · exact limitNotional_off fun both => on both.1
  unfold gate
  rw [if_neg (Bool.not_eq_true _ ▸ running), position, Option.bind_eq_bind, Option.bind_some,
    notional, Option.bind_some, if_neg (by omega), Int.toNat_natCast, UInt64.ofNat_toNat]

/-- **The gate makes no breach worse and blocks no exit**, from any position. -/
theorem gate_recovers (running : risk.halted = false) (positive : 0 < execPx) :
    (∀ a, risk.gate proposed cur execPx = some a →
      a.side = proposed.side ∧ 0 < a.qty ∧ a.qty ≤ proposed.qty ∧
      (0 < risk.cfg.maxPositionQty →
        |cur + a.side.dir * a.qty.toNat| ≤ max |cur| risk.cfg.maxPositionQty) ∧
      (0 < risk.cfg.maxNotional →
        notional execPx (cur + a.side.dir * a.qty.toNat) ≤
          max (notional execPx cur) risk.cfg.maxNotional)) ∧
    (0 < proposed.qty → proposed.side.dir * cur + proposed.qty.toNat ≤ 0 →
      risk.gate proposed cur execPx = some proposed) := by
  replace positive : 0 < execPx.toInt := Int64.lt_iff_toInt_lt.mp positive
  refine ⟨fun a passed => ?_, fun some_qty short => gate_exit running some_qty positive short⟩
  obtain ⟨side, some_qty, le⟩ := gate_within passed
  refine ⟨side, ?_, le, gate_position_any passed, fun on => gate_notional_any passed on positive⟩
  exact UInt64.pos_iff_ne_zero.mpr some_qty

/-- Short of 500 with a position limit of 100, of a buy of 700 the 600 pass that end at the limit, and
a buy of 300 passes as a whole. -/
theorem gate_recovers_short :
    ∃ a, gate { cfg := { maxPositionQty := 100 } } ⟨.buy, 700⟩ (-500) 1 = some a ∧ a.qty = 600 ∧
      |-500 + a.side.dir * a.qty.toNat| ≤ max |-500| 100 ∧
      gate { cfg := { maxPositionQty := 100 } } ⟨.buy, 300⟩ (-500) 1 = some ⟨.buy, 300⟩ := by
  have passed : gate { cfg := { maxPositionQty := 100 } } ⟨.buy, 700⟩ (-500) 1 =
    some ⟨.buy, 600⟩ := by decide
  obtain ⟨_, _, _, position, _⟩ := (gate_recovers rfl (by decide)).1 _ passed
  have exits : gate { cfg := { maxPositionQty := 100 } } ⟨.buy, 300⟩ (-500) 1 =
    some ⟨.buy, 300⟩ := (gate_recovers rfl (by decide)).2 (by decide) (by decide)
  exact ⟨_, passed, rfl, position (by decide), exits⟩

end Breach

end RiskManager

end Ob
