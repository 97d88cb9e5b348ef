/-
**What a sweep reports.**

With the recording callback the state of the callback is the list of trades. Along a sweep nothing
is lost or invented:

* `sweep_traded` — what is reported and what the taker has left make up what it had.
* `sweep_sold` — for every id, what is reported as sold and what is left in the book make up what
  was there.
* `sweep_reports` — every trade reported is one of the taker, at a price it accepts, of a positive
  quantity.
-/

import OrderBook.Market.Depth

namespace Ob

open OrderBook

/-- The quantity of a list of trades. -/
def traded (trades : List Trade) : Nat := (trades.map fun trade => trade.qty.toNat).sum

/-- What an id has traded as maker. -/
def sold (id : OrderId) (trades : List Trade) : Nat :=
  traded (trades.filter fun trade => trade.makerId = id)

/-- What an id has traded as taker. -/
def bought (id : OrderId) (trades : List Trade) : Nat :=
  traded (trades.filter fun trade => trade.takerId = id)

/-- What is left of the orders with an id. -/
def remaining (id : OrderId) (orders : List Resting) : Nat :=
  (quantities (orders.filter fun order => order.val.id = id)).sum

section Sums

theorem traded_append (trades more : List Trade) :
    traded (trades ++ more) = traded trades + traded more := by
  rw [traded, List.map_append, List.sum_append]
  rfl

theorem traded_singleton (trade : Trade) : traded [trade] = trade.qty.toNat := Nat.add_zero _

theorem sold_append (id : OrderId) (trades more : List Trade) :
    sold id (trades ++ more) = sold id trades + sold id more := by
  rw [sold, List.filter_append, traded_append]
  rfl

theorem bought_append (id : OrderId) (trades more : List Trade) :
    bought id (trades ++ more) = bought id trades + bought id more := by
  rw [bought, List.filter_append, traded_append]
  rfl

theorem remaining_append (id : OrderId) (orders more : List Resting) :
    remaining id (orders ++ more) = remaining id orders + remaining id more := by
  rw [remaining, List.filter_append, quantities_append]
  rfl

theorem remaining_perm (id : OrderId) {orders more : List Resting} (perm : orders.Perm more) :
    remaining id orders = remaining id more := ((perm.filter _).map _).sum_nat

theorem sold_singleton (id : OrderId) (trade : Trade) :
    sold id [trade] = if trade.makerId = id then trade.qty.toNat else 0 := by
  by_cases same : trade.makerId = id
  · simp [sold, same, traded_singleton]
  · simp [sold, same, traded]

theorem remaining_singleton (id : OrderId) (order : Resting) :
    remaining id [order] = if order.val.id = id then order.val.qty.toNat else 0 := by
  by_cases same : order.val.id = id
  · simp [remaining, same, quantities]
  · simp [remaining, same, quantities]

theorem remaining_cons (id : OrderId) (order : Resting) (orders : List Resting) :
    remaining id (order :: orders) =
      (if order.val.id = id then order.val.qty.toNat else 0) + remaining id orders := by
  rw [← List.singleton_append, remaining_append, remaining_singleton]

end Sums

/-! ### One rung -/

section Queue

variable (taker : Ticket) (price : Price) (queue : List Resting) (total left : Quantity)
  (seen : List Trade)

theorem sweepQueue_traded :
    traded (sweepQueue recorder taker price queue total left seen).seen +
        (sweepQueue recorder taker price queue total left seen).left.toNat =
      traded seen + left.toNat := by
  fun_induction sweepQueue recorder taker price queue total left seen with
  | case1 | case2 | case3 => rfl
  | case4 maker queue total left seen goes fill seen' returns gone s ih =>
    cases returns
    refine ih.trans ?_
    rw [traded_append, traded_singleton, Quantity.toNat_sub_min_left]
    show traded seen + (min left maker.val.qty).toNat + _ = _
    rw [Quantity.toNat_min]
    omega
  | case5 maker queue total left seen goes fill seen' returns remains =>
    cases returns
    show traded _ + (left - min left maker.val.qty).toNat = _
    rw [traded_append, traded_singleton, Quantity.toNat_sub_min_left]
    show traded seen + (min left maker.val.qty).toNat + _ = _
    rw [Quantity.toNat_min]
    omega

/-- The two sides of a maker's account: reported as sold, or still there. -/
theorem sweepQueue_sold (id : OrderId) :
    sold id (sweepQueue recorder taker price queue total left seen).seen +
        remaining id (sweepQueue recorder taker price queue total left seen).queue =
      sold id seen + remaining id queue := by
  fun_induction sweepQueue recorder taker price queue total left seen with
  | case1 | case2 | case3 => rfl
  | case4 maker queue total left seen goes fill seen' returns gone s ih =>
    cases returns
    refine ih.trans ?_
    have whole : fill.toNat = maker.val.qty.toNat := by
      have zero := congrArg UInt64.toNat gone
      rw [Quantity.toNat_sub_min_right] at zero
      rw [Quantity.toNat_min]
      have : (0 : Quantity).toNat = 0 := rfl
      omega
    rw [sold_append, sold_singleton, remaining_cons, Nat.add_assoc]
    show _ + ((if maker.val.id = id then fill.toNat else 0) + _) = _
    rw [whole]
  | case5 maker queue total left seen goes fill seen' returns remains =>
    cases returns
    show sold id (seen ++ [_]) + remaining id (maker.reduce fill :: queue) = _
    rw [sold_append, sold_singleton, remaining_cons, remaining_cons]
    show _ + (if maker.val.id = id then (min left maker.val.qty).toNat else 0) +
      ((if maker.val.id = id then (maker.val.qty - min left maker.val.qty).toNat else 0) + _) = _
    rw [Quantity.toNat_sub_min_right, Quantity.toNat_min]
    split <;> omega

/-- What holds of every possible trade of the taker at this price holds of those reported. -/
theorem sweepQueue_reports {P : Trade → Prop} (positive : ∀ order ∈ queue, 0 < order.val.qty)
    (before : ∀ trade ∈ seen, P trade)
    (possible : ∀ maker fill, 0 < fill → P (tradeOf taker maker price fill)) :
    ∀ trade ∈ (sweepQueue recorder taker price queue total left seen).seen, P trade := by
  fun_induction sweepQueue recorder taker price queue total left seen with
  | case1 | case2 | case3 => exact before
  | case4 maker queue total left seen goes fill seen' returns gone s ih =>
    cases returns
    obtain ⟨here, later⟩ := List.forall_mem_cons.mp positive
    refine ih later (List.forall_mem_append.mpr ⟨before, List.forall_mem_singleton.mpr ?_⟩)
    exact possible maker fill (Quantity.min_pos goes here)
  | case5 maker queue total left seen goes fill seen' returns remains =>
    cases returns
    obtain ⟨here, later⟩ := List.forall_mem_cons.mp positive
    refine List.forall_mem_append.mpr ⟨before, List.forall_mem_singleton.mpr ?_⟩
    exact possible maker fill (Quantity.min_pos goes here)

end Queue

/-! ### One side -/

section Side

variable (taker : Ticket) (ladder : Ladder) (left : Quantity) (seen : List Trade)

/-- **The taker's account.** -/
theorem sweep_traded :
    traded (sweep recorder taker ladder left seen).seen +
        (sweep recorder taker ladder left seen).left.toNat =
      traded seen + left.toNat := by
  fun_induction sweep recorder taker ladder left seen with
  | case1 | case2 => rfl
  | case3 rung ladder left seen goes here rung' threw => exact sweepQueue_traded _ _ _ _ _ _
  | case4 rung ladder left seen goes here quiet emptied s ih =>
    exact ih.trans (sweepQueue_traded _ _ _ _ _ _)
  | case5 rung ladder left seen goes here rung' quiet kept => exact sweepQueue_traded _ _ _ _ _ _

/-- **The makers' accounts.** -/
theorem sweep_sold (id : OrderId) :
    sold id (sweep recorder taker ladder left seen).seen +
        remaining id (sweep recorder taker ladder left seen).ladder.orders =
      sold id seen + remaining id ladder.orders := by
  have rungs : ∀ (rung : Rung) (rest : List Resting) (left : Quantity) (seen : List Trade),
      sold id (sweepQueue recorder taker rung.price rung.queue rung.total left seen).seen +
          remaining id
            ((sweepQueue recorder taker rung.price rung.queue rung.total left seen).queue ++ rest) =
        sold id seen + remaining id (rung.queue ++ rest) := by
    intro rung rest left seen
    have account := sweepQueue_sold taker rung.price rung.queue rung.total left seen id
    rw [remaining_append, remaining_append]
    omega
  fun_induction sweep recorder taker ladder left seen with
  | case1 | case2 => rfl
  | case3 rung ladder left seen goes here rung' threw =>
    exact rungs rung (Ladder.orders ladder) left seen
  | case4 rung ladder left seen goes here quiet emptied s ih =>
    refine ih.trans ?_
    have account := rungs rung (Ladder.orders ladder) left seen
    rw [emptied] at account
    exact account
  | case5 rung ladder left seen goes here rung' quiet kept =>
    exact rungs rung (Ladder.orders ladder) left seen

theorem sweep_reports {P : Trade → Prop} {side : Side} (wf : ladder.Wf side)
    (before : ∀ trade ∈ seen, P trade)
    (possible : ∀ maker price fill, taker.accepts price = true → 0 < fill →
      P (tradeOf taker maker price fill)) :
    ∀ trade ∈ (sweep recorder taker ladder left seen).seen, P trade := by
  have rungs : ∀ (rung : Rung) (ladder : Ladder) (left : Quantity) (seen : List Trade),
      Ladder.Wf side (rung :: ladder) → (∀ trade ∈ seen, P trade) →
      ¬(left = 0 ∨ taker.accepts rung.price = false) →
      ∀ trade ∈ (sweepQueue recorder taker rung.price rung.queue rung.total left seen).seen,
        P trade := by
    intro rung ladder left seen wf before goes
    refine sweepQueue_reports taker _ _ _ _ _ (wf.rungs rung List.mem_cons_self).positive before ?_
    exact fun maker fill =>
      possible maker rung.price fill (Bool.not_eq_false _ ▸ (not_or.mp goes).2)
  fun_induction sweep recorder taker ladder left seen with
  | case1 | case2 => exact before
  | case3 rung ladder left seen goes here rung' threw =>
    exact rungs rung ladder left seen wf before goes
  | case4 rung ladder left seen goes here quiet emptied s ih =>
    exact ih wf.tail (rungs rung ladder left seen wf before goes)
  | case5 rung ladder left seen goes here rung' quiet kept =>
    exact rungs rung ladder left seen wf before goes

end Side

end Ob
