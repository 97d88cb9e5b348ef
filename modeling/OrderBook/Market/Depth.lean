/-
**How much of an order trades.**

The depth that a taker can reach on a side is the sum of what is left of the orders at prices it
accepts. It decides the sweep and the fill-or-kill check:

* `sweep_left` — a sweep that runs to its end leaves what the taker wants beyond the depth.
* `shortfall_toNat` — the check compares with the depth as the cached totals have it.
* `cachedDepth_le` — that is never more than the depth, as a total that has wrapped is too small.
* `cachedDepth_eq` — and it is the depth where no total has wrapped.
-/

import OrderBook.Market.Place

namespace Ob

/-- What a taker could trade at most with these orders. -/
def depth (taker : Ticket) (orders : List Resting) : Nat :=
  (quantities (orders.filter fun order => taker.accepts order.val.price)).sum

section Depth

variable {taker : Ticket} {side : Side}

theorem depth_append (orders more : List Resting) :
    depth taker (orders ++ more) = depth taker orders + depth taker more := by
  rw [depth, List.filter_append, quantities_append]
  rfl

/-- A rung is reached as a whole or not at all. -/
theorem depth_rung {rung : Rung} (prices : ∀ order ∈ rung.queue, order.val.price = rung.price) :
    depth taker rung.queue =
      if taker.accepts rung.price then (quantities rung.queue).sum else 0 := by
  unfold depth
  split
  · rename_i accepted
    rw [List.filter_eq_self.mpr fun order member => by rw [prices order member, accepted]]
  · rename_i refused
    rw [List.filter_eq_nil_iff.mpr fun order member => by rw [prices order member]; exact refused]
    rfl

/-- Behind a price that is refused there are only worse ones. -/
theorem Ticket.refuses_worse {p q : Price} (refused : taker.accepts p = false)
    (worse : rank taker.side.opposite q < rank taker.side.opposite p) :
      taker.accepts q = false := by
  refine accepts_false.mpr ⟨(accepts_false.mp refused).1, ?_⟩
  rw [← Bool.not_eq_true, priceCrosses_iff]
  exact Int.not_le.mpr (Int.lt_trans worse (rank_lt_of_refused refused))

theorem depth_refused {ladder : Ladder} (wf : ladder.Wf taker.side.opposite)
    (refused : ∀ rung ∈ ladder, taker.accepts rung.price = false) :
      depth taker ladder.orders = 0 := by
  have none : ladder.orders.filter (fun order => taker.accepts order.val.price) = [] := by
    refine List.filter_eq_nil_iff.mpr fun order member => ?_
    obtain ⟨rung, inLadder, _, price⟩ := wf.rung_of_mem member
    rw [← price, refused rung inLadder]
    exact Bool.false_ne_true
  rw [depth, none]
  rfl

/-- The depth of a side, read from its best rung on. -/
theorem depth_cons {rung : Rung} {ladder : Ladder}
    (wf : Ladder.Wf taker.side.opposite (rung :: ladder)) :
    depth taker (Ladder.orders (rung :: ladder)) =
      if taker.accepts rung.price then (quantities rung.queue).sum + depth taker ladder.orders
      else 0 := by
  rw [Ladder.orders_cons, depth_append, depth_rung (wf.rungs rung List.mem_cons_self).prices]
  split
  · rfl
  · rename_i refused
    refine (Nat.zero_add _).trans (depth_refused wf.tail fun other member => ?_)
    exact Ticket.refuses_worse (Bool.eq_false_iff.mpr refused)
      ((Ladder.sorted_cons.mp wf.sorted).1 other member)

end Depth

/-! ### The sweep -/

section Sweep

variable {σ : Type} (onTrade : TradeCallback σ) (taker : Ticket)

/-- A taker with something left accepts no price that stays. -/
theorem sweep_refuses (ladder : Ladder) (wf : ladder.Wf taker.side.opposite)
    (left : Quantity) (seen : σ)
    (quiet : (sweep onTrade taker ladder left seen).threw = false)
    (remains : (sweep onTrade taker ladder left seen).left ≠ 0) :
    ∀ rung ∈ (sweep onTrade taker ladder left seen).ladder, taker.accepts rung.price = false := by
  have wf' := sweep_wf onTrade taker ladder left seen wf
  cases shape : (sweep onTrade taker ladder left seen).ladder with
  | nil => exact List.forall_mem_nil _
  | cons head below =>
    rw [shape] at wf'
    have first := sweep_exit onTrade taker ladder left seen quiet remains shape
    exact List.forall_mem_cons.mpr ⟨first, fun rung member =>
      Ticket.refuses_worse first ((Ladder.sorted_cons.mp wf'.sorted).1 rung member)⟩

theorem sweepQueue_remains (price : Price) (queue : List Resting) (total left : Quantity) (seen : σ)
    (quiet : (sweepQueue onTrade taker price queue total left seen).threw = false) :
    (sweepQueue onTrade taker price queue total left seen).left.toNat =
      left.toNat - (quantities queue).sum := by
  fun_induction sweepQueue onTrade taker price queue total left seen with
  | case1 => exact (Nat.sub_zero _).symm
  | case2 => exact (Nat.zero_sub _).symm
  | case3 => cases quiet
  | case4 maker queue total left seen goes fill seen' returns gone s ih =>
    refine (ih quiet).trans ?_
    rw [Quantity.toNat_sub_min_left, quantities_cons, Nat.sub_sub]
  | case5 maker queue total left seen goes fill seen' returns remains =>
    have spent := congrArg UInt64.toNat (Quantity.sub_min_eq_zero remains)
    show (left - min left maker.val.qty).toNat = _
    rw [Quantity.toNat_sub_min_left] at spent ⊢
    rw [quantities_cons, spent]
    have : (0 : Quantity).toNat = 0 := rfl
    omega

/-- **What a sweep leaves of the taker.** -/
theorem sweep_left (ladder : Ladder) (wf : ladder.Wf taker.side.opposite)
    (left : Quantity) (seen : σ)
    (quiet : (sweep onTrade taker ladder left seen).threw = false) :
    (sweep onTrade taker ladder left seen).left.toNat = left.toNat - depth taker ladder.orders := by
  fun_induction sweep onTrade taker ladder left seen with
  | case1 => exact (Nat.sub_zero _).symm
  | case2 rung ladder left seen stop =>
    rw [depth_cons wf]
    rcases stop with rfl | refused
    · exact (Nat.zero_sub _).symm
    · rw [refused]
      exact (Nat.sub_zero _).symm
  | case3 => cases quiet
  | case4 rung ladder left seen goes here quiet' emptied s ih =>
    have accepted : taker.accepts rung.price = true := Bool.not_eq_false _ ▸ (not_or.mp goes).2
    have remains := sweepQueue_remains onTrade taker rung.price rung.queue rung.total left seen
      (Bool.eq_false_iff.mpr quiet')
    rw [depth_cons wf, if_pos accepted, ← Nat.sub_sub, ← remains]
    exact ih wf.tail quiet
  | case5 rung ladder left seen goes here rung' quiet' kept =>
    have accepted : taker.accepts rung.price = true := Bool.not_eq_false _ ▸ (not_or.mp goes).2
    have remains := sweepQueue_remains onTrade taker rung.price rung.queue rung.total left seen
      (Bool.eq_false_iff.mpr quiet')
    have spent := sweepQueue_left onTrade taker rung.price rung.queue rung.total left seen
      (Bool.eq_false_iff.mpr quiet') kept
    rw [depth_cons wf, if_pos accepted, ← Nat.sub_sub, ← remains]
    show here.left.toNat = here.left.toNat - _
    rw [spent]
    exact (Nat.zero_sub _).symm

end Sweep

/-! ### The fill-or-kill check -/

section Shortfall

variable {taker : Ticket}

theorem Ticket.accepts_limited (limited : taker.type ≠ .market) (p : Price) :
    taker.accepts p = priceCrosses taker.side taker.price p := by
  rw [accepts, decide_eq_false limited, Bool.false_or]

/-- The depth as the cached totals have it. -/
def cachedDepth (taker : Ticket) (ladder : Ladder) : Nat :=
  ((ladder.filter fun rung => taker.accepts rung.price).map fun rung => rung.total.toNat).sum

theorem cachedDepth_cons {rung : Rung} {ladder : Ladder}
    (wf : Ladder.Wf taker.side.opposite (rung :: ladder)) :
    cachedDepth taker (rung :: ladder) =
      if taker.accepts rung.price then rung.total.toNat + cachedDepth taker ladder else 0 := by
  unfold cachedDepth
  split
  · rename_i accepted
    rw [List.filter_cons, if_pos accepted, List.map_cons, List.sum_cons]
  · rename_i refused
    have worse : ladder.filter (fun other => taker.accepts other.price) = [] := by
      refine List.filter_eq_nil_iff.mpr fun other member => ?_
      rw [Ticket.refuses_worse (Bool.eq_false_iff.mpr refused)
        ((Ladder.sorted_cons.mp wf.sorted).1 other member)]
      exact Bool.false_ne_true
    rw [List.filter_cons, if_neg refused, worse]
    rfl

/-- The saturating subtraction of the check. -/
theorem Quantity.toNat_saturating (total needed : Quantity) :
    (if total ≥ needed then 0 else needed - total).toNat = needed.toNat - total.toNat := by
  split
  · rename_i enough
    have := UInt64.le_iff_toNat_le.mp enough
    exact (Nat.sub_eq_zero_of_le this).symm
  · rename_i short
    have : total.toNat ≤ needed.toNat := by
      have := mt UInt64.le_iff_toNat_le.mpr short
      omega
    exact UInt64.toNat_sub_of_le _ _ (UInt64.le_iff_toNat_le.mpr this)

/-- The check compares with the cached depth. -/
theorem shortfall_toNat (limited : taker.type ≠ .market) (ladder : Ladder)
    (wf : ladder.Wf taker.side.opposite) (needed : Quantity) :
    (Ladder.shortfall taker.side taker.price ladder needed).toNat =
      needed.toNat - cachedDepth taker ladder := by
  induction ladder generalizing needed with
  | nil => exact (Nat.sub_zero _).symm
  | cons rung ladder ih =>
    rw [Ladder.shortfall, cachedDepth_cons wf, Ticket.accepts_limited limited]
    by_cases more : needed > 0
    · rw [if_pos more]
      split
      · rw [ih wf.tail, Quantity.toNat_saturating, Nat.sub_sub]
      · exact (Nat.sub_zero _).symm
    · rw [if_neg more]
      have none : needed.toNat = 0 := by
        rw [gt_iff_lt, UInt64.lt_iff_toNat_lt] at more
        exact Nat.le_zero.mp (Nat.not_lt.mp more)
      rw [none, Nat.zero_sub]

/-- A cached total that has wrapped is too small, never too large. -/
theorem cachedDepth_le (ladder : Ladder) (wf : ladder.Wf taker.side.opposite) :
    cachedDepth taker ladder ≤ depth taker ladder.orders := by
  induction ladder with
  | nil => exact Nat.le_refl 0
  | cons rung ladder ih =>
    rw [cachedDepth_cons wf, depth_cons wf]
    split
    · refine Nat.add_le_add ?_ (ih wf.tail)
      rw [(wf.rungs rung List.mem_cons_self).total, UInt64.toNat_ofNat']
      exact Nat.mod_le _ _
    · exact Nat.le_refl 0

/-- Whether no total of a side has wrapped. -/
def Ladder.Exact (ladder : Ladder) : Prop := ∀ rung ∈ ladder, (quantities rung.queue).sum < 2 ^ 64

theorem cachedDepth_eq (ladder : Ladder) (wf : ladder.Wf taker.side.opposite)
    (exact : ladder.Exact) :
    cachedDepth taker ladder = depth taker ladder.orders := by
  induction ladder with
  | nil => rfl
  | cons rung ladder ih =>
    obtain ⟨here, below⟩ := List.forall_mem_cons.mp exact
    rw [cachedDepth_cons wf, depth_cons wf, ih wf.tail below,
      (wf.rungs rung List.mem_cons_self).total, UInt64.toNat_ofNat', Nat.mod_eq_of_lt here]

end Shortfall

end Ob
