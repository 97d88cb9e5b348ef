/-
**The waterfall.**

A sweep in closed form. Of the orders that a taker crosses, in the order in which they trade, each
gets the smaller of its own quantity and what the orders before it have left (`shares`).

* `shares_append` — what a list leaves is shared out among the orders after it.
* `sweepQueue_shares`, `sweep_shares` — a sweep reports the shares that are not 0 and keeps what
  they leave, ahead of the orders out of the taker's reach.
* `Market.submit_spared` — an order that crosses nothing comes to rest or gives its slot back.
-/

import OrderBook.Market.Outcome
import OrderBook.Market.Trades

namespace Ob

open OrderBook

/-- An order and what it gets. -/
structure Share where
  order : Resting
  fill : Nat

/-- A quantity shared out among orders, first come first served. -/
def shares (qty : Nat) (orders : List Resting) : List Share :=
  orders.mapIdx fun i order =>
    ⟨order, min order.val.qty.toNat (qty - (quantities (orders.take i)).sum)⟩

/-- The trades of a taker with those that get something. -/
def reported (taker : Ticket) (shares : List Share) : List Trade :=
  (shares.filter fun share => 0 < share.fill).map fun share =>
    tradeOf taker share.order share.order.val.price (UInt64.ofNat share.fill)

/-- What the shares leave of the orders. -/
def remainders (shares : List Share) : List Resting :=
  (shares.filter fun share => share.fill < share.order.val.qty.toNat).map fun share =>
    share.order.reduce (UInt64.ofNat share.fill)

/-- The orders at prices that a taker accepts. -/
def crossed (taker : Ticket) (orders : List Resting) : List Resting :=
  orders.filter fun order => taker.accepts order.val.price

/-- The orders out of its reach. -/
def spared (taker : Ticket) (orders : List Resting) : List Resting :=
  orders.filter fun order => !taker.accepts order.val.price

/-! ### Sharing out -/

section Shares

variable {qty : Nat} {order : Resting} {orders more : List Resting} {taker : Ticket}

theorem shares_cons : shares qty (order :: orders) =
    ⟨order, min order.val.qty.toNat qty⟩ :: shares (qty - order.val.qty.toNat) orders := by
  rw [shares, List.mapIdx_cons, shares]
  refine congrArg₂ List.cons rfl ?_
  simp only [List.take_succ_cons, quantities_cons, Nat.sub_sub]

theorem shares_append : shares qty (orders ++ more) =
    shares qty orders ++ shares (qty - (quantities orders).sum) more := by
  induction orders generalizing qty with
  | nil => rfl
  | cons order orders ih =>
    rw [List.cons_append, shares_cons, shares_cons, ih, quantities_cons, Nat.sub_sub]
    rfl

theorem reported_append (first second : List Share) :
    reported taker (first ++ second) = reported taker first ++ reported taker second := by
  rw [reported, List.filter_append, List.map_append]
  rfl

theorem remainders_append (first second : List Share) :
    remainders (first ++ second) = remainders first ++ remainders second := by
  rw [remainders, List.filter_append, List.map_append]
  rfl

theorem reported_cons {share : Share} {rest : List Share} (some_fill : 0 < share.fill) :
    reported taker (share :: rest) =
      tradeOf taker share.order share.order.val.price (UInt64.ofNat share.fill) ::
        reported taker rest := by
  rw [reported, List.filter_cons, if_pos (decide_eq_true some_fill), List.map_cons]
  rfl

theorem remainders_gone {share : Share} {rest : List Share}
    (whole : share.order.val.qty.toNat ≤ share.fill) :
    remainders (share :: rest) = remainders rest := by
  rw [remainders, List.filter_cons, if_neg fun kept =>
    Nat.not_lt.mpr whole (of_decide_eq_true kept)]
  rfl

theorem remainders_cons {share : Share} {rest : List Share}
    (partly : share.fill < share.order.val.qty.toNat) :
    remainders (share :: rest) =
      share.order.reduce (UInt64.ofNat share.fill) :: remainders rest := by
  rw [remainders, List.filter_cons, if_pos (decide_eq_true partly), List.map_cons]
  rfl

theorem Resting.reduce_zero (order : Resting) : order.reduce (UInt64.ofNat 0) = order := by
  obtain ⟨addr, ticket⟩ := order
  exact congrArg (fun qty => (⟨addr, { ticket with qty := qty }⟩ : Resting)) (UInt64.sub_zero _)

/-- Nothing is shared out: nothing is reported. -/
theorem reported_none : reported taker (shares 0 orders) = [] := by
  induction orders with
  | nil => rfl
  | cons order orders ih =>
    rw [shares_cons, Nat.zero_sub, Nat.min_zero]
    exact ih

/-- And everything stays. -/
theorem remainders_none (positive : ∀ order ∈ orders, 0 < order.val.qty) :
    remainders (shares 0 orders) = orders := by
  induction orders with
  | nil => rfl
  | cons order orders ih =>
    obtain ⟨here, later⟩ := List.forall_mem_cons.mp positive
    rw [shares_cons, Nat.zero_sub, Nat.min_zero,
      remainders_cons (UInt64.lt_iff_toNat_lt.mp here), Resting.reduce_zero, ih later]

end Shares

/-- A fill is the share of the first order. -/
theorem Quantity.min_eq_share (left qty : Quantity) :
    min left qty = UInt64.ofNat (min qty.toNat left.toNat) := by
  rw [Nat.min_comm, ← Quantity.toNat_min, UInt64.ofNat_toNat]

theorem Quantity.share_pos {left qty : Quantity} (some_left : ¬left = 0) (some_qty : 0 < qty) :
    0 < min qty.toNat left.toNat := by
  have positive := UInt64.lt_iff_toNat_lt.mp (Quantity.min_pos some_left some_qty)
  rwa [Quantity.toNat_min, Nat.min_comm] at positive

/-! ### One rung -/

section Queue

variable (taker : Ticket) (price : Price) (queue : List Resting) (total left : Quantity)
  (seen : List Trade)

theorem sweepQueue_shares (prices : ∀ order ∈ queue, order.val.price = price)
    (positive : ∀ order ∈ queue, 0 < order.val.qty) :
    (sweepQueue recorder taker price queue total left seen).seen =
        seen ++ reported taker (shares left.toNat queue) ∧
      (sweepQueue recorder taker price queue total left seen).queue =
        remainders (shares left.toNat queue) := by
  fun_induction sweepQueue recorder taker price queue total left seen with
  | case1 => exact ⟨(List.append_nil _).symm, rfl⟩
  | case2 maker queue total seen =>
    exact ⟨by rw [UInt64.toNat_zero, reported_none, List.append_nil],
      (remainders_none positive).symm⟩
  | case3 maker queue total left seen goes fill throws => cases throws
  | case4 maker queue total left seen goes fill seen' returns gone s ih =>
    cases returns
    obtain ⟨here, prices⟩ := List.forall_mem_cons.mp prices
    obtain ⟨some_qty, positive⟩ := List.forall_mem_cons.mp positive
    obtain ⟨trades, queue_eq⟩ := ih prices positive
    have share : fill = _ := Quantity.min_eq_share left maker.val.qty
    have some_fill := Quantity.share_pos goes some_qty
    have whole := congrArg UInt64.toNat gone
    rw [Quantity.toNat_sub_min_right] at whole
    rw [Quantity.toNat_sub_min_left] at trades queue_eq
    rw [shares_cons]
    constructor
    · rw [reported_cons some_fill]
      refine trades.trans ?_
      rw [share, here, List.append_assoc]
      rfl
    · refine queue_eq.trans (remainders_gone ?_).symm
      exact Nat.le_min.mpr ⟨Nat.le_refl _, Nat.le_of_sub_eq_zero whole⟩
  | case5 maker queue total left seen goes fill seen' returns remains =>
    cases returns
    obtain ⟨here, _⟩ := List.forall_mem_cons.mp prices
    obtain ⟨some_qty, positive⟩ := List.forall_mem_cons.mp positive
    have share : fill = _ := Quantity.min_eq_share left maker.val.qty
    have some_fill := Quantity.share_pos goes some_qty
    have partly := UInt64.lt_iff_toNat_lt.mp (UInt64.pos_iff_ne_zero.mpr remains)
    rw [Quantity.toNat_sub_min_right, UInt64.toNat_zero, Nat.sub_pos_iff_lt] at partly
    rw [shares_cons, Nat.sub_eq_zero_of_le (Nat.le_of_lt partly)]
    constructor
    · rw [reported_cons some_fill, reported_none]
      show seen ++ [_] = seen ++ [_]
      rw [share, here]
    · rw [remainders_cons (Nat.lt_of_le_of_lt (Nat.min_le_right _ _) partly),
        remainders_none positive, ← share]

end Queue

/-! ### One side -/

section Side

variable {taker : Ticket} {rung : Rung} {ladder : Ladder}

/-- A rung is crossed as a whole or not at all, and behind one that is not nothing is. -/
theorem crossed_cons (wf : Ladder.Wf taker.side.opposite (rung :: ladder)) :
    crossed taker (Ladder.orders (rung :: ladder)) =
      if taker.accepts rung.price then rung.queue ++ crossed taker (Ladder.orders ladder)
      else [] := by
  have prices := (wf.rungs rung List.mem_cons_self).prices
  rw [Ladder.orders_cons, crossed, List.filter_append]
  split
  · rename_i accepted
    rw [List.filter_eq_self.mpr fun order member => by rw [prices order member, accepted]]
    rfl
  · rename_i refused
    refine List.append_eq_nil_iff.mpr ⟨?_, ?_⟩
    · refine List.filter_eq_nil_iff.mpr fun order member => ?_
      rw [prices order member]
      exact refused
    · refine List.filter_eq_nil_iff.mpr fun order member => ?_
      obtain ⟨other, inLadder, _, price⟩ := wf.tail.rung_of_mem member
      rw [← price, Ticket.refuses_worse (Bool.eq_false_iff.mpr refused)
        ((Ladder.sorted_cons.mp wf.sorted).1 other inLadder)]
      exact Bool.false_ne_true

/-- What a taker crosses stands before what it does not. -/
theorem crossed_spared (wf : ladder.Wf taker.side.opposite) :
    crossed taker ladder.orders ++ spared taker ladder.orders = ladder.orders := by
  induction ladder with
  | nil => rfl
  | cons rung ladder ih =>
    have prices := (wf.rungs rung List.mem_cons_self).prices
    rw [crossed_cons wf]
    split
    · rename_i accepted
      have none : rung.queue.filter (fun order => !taker.accepts order.val.price) = [] :=
        List.filter_eq_nil_iff.mpr fun order member => by
          rw [prices order member, accepted]
          exact Bool.false_ne_true
      rw [List.append_assoc, Ladder.orders_cons, spared, List.filter_append, none, List.nil_append]
      exact congrArg (rung.queue ++ ·) (ih wf.tail)
    · rename_i refused
      -- nothing is crossed, so all is spared
      have nothing := crossed_cons wf
      rw [if_neg refused, crossed, List.filter_eq_nil_iff] at nothing
      refine List.filter_eq_self.mpr fun order member => ?_
      rw [Bool.not_eq_eq_eq_not, Bool.not_true, ← Bool.not_eq_true]
      exact nothing order member

theorem spared_cons (wf : Ladder.Wf taker.side.opposite (rung :: ladder))
    (accepted : taker.accepts rung.price = true) :
    spared taker (Ladder.orders (rung :: ladder)) = spared taker (Ladder.orders ladder) := by
  have all := crossed_spared wf
  rw [crossed_cons wf, if_pos accepted, Ladder.orders_cons, List.append_assoc] at all
  have tails := (List.append_cancel_left all).trans (crossed_spared wf.tail).symm
  exact List.append_cancel_left tails

theorem crossed_positive (wf : ladder.Wf taker.side.opposite) :
    ∀ order ∈ crossed taker ladder.orders, 0 < order.val.qty := by
  intro order member
  obtain ⟨rung, inLadder, inQueue⟩ := Ladder.mem_orders.mp (List.mem_filter.mp member).1
  exact (wf.rungs rung inLadder).positive order inQueue

variable (taker) (ladder) (left : Quantity) (seen : List Trade)

/-- **A sweep shares the taker out** among the orders it crosses. -/
theorem sweep_shares (wf : ladder.Wf taker.side.opposite) :
    (sweep recorder taker ladder left seen).seen =
        seen ++ reported taker (shares left.toNat (crossed taker ladder.orders)) ∧
      (sweep recorder taker ladder left seen).ladder.orders =
        remainders (shares left.toNat (crossed taker ladder.orders)) ++
          spared taker ladder.orders := by
  fun_induction sweep recorder taker ladder left seen with
  | case1 => exact ⟨(List.append_nil _).symm, rfl⟩
  | case2 rung ladder left seen stop =>
    have all := crossed_spared wf
    rcases stop with rfl | refused
    · rw [UInt64.toNat_zero, reported_none, remainders_none (crossed_positive wf), all]
      exact ⟨(List.append_nil _).symm, rfl⟩
    · rw [crossed_cons wf, if_neg (Bool.eq_false_iff.mp refused)] at all ⊢
      exact ⟨(List.append_nil _).symm, all.symm⟩
  | case3 rung ladder left seen goes here rung' threw =>
    exact absurd threw (Bool.not_eq_true _ ▸ sweepQueue_quiet recorder_returns _ _ _ _ _ _)
  | case4 rung ladder left seen goes here quiet emptied s ih =>
    have accepted : taker.accepts rung.price = true := Bool.not_eq_false _ ▸ (not_or.mp goes).2
    have wfRung := wf.rungs rung List.mem_cons_self
    obtain ⟨trades, queue_eq⟩ := sweepQueue_shares taker rung.price rung.queue rung.total left seen
      wfRung.prices wfRung.positive
    obtain ⟨more, orders_eq⟩ := ih wf.tail
    have remains := sweepQueue_remains recorder taker rung.price rung.queue rung.total left seen
      (Bool.eq_false_iff.mpr quiet)
    rw [crossed_cons wf, if_pos accepted, spared_cons wf accepted, shares_append, reported_append,
      remainders_append, ← queue_eq, emptied, ← remains, ← List.append_assoc, ← trades]
    exact ⟨more, orders_eq⟩
  | case5 rung ladder left seen goes here rung' quiet kept =>
    have accepted : taker.accepts rung.price = true := Bool.not_eq_false _ ▸ (not_or.mp goes).2
    have wfRung := wf.rungs rung List.mem_cons_self
    obtain ⟨trades, queue_eq⟩ := sweepQueue_shares taker rung.price rung.queue rung.total left seen
      wfRung.prices wfRung.positive
    have remains := sweepQueue_remains recorder taker rung.price rung.queue rung.total left seen
      (Bool.eq_false_iff.mpr quiet)
    have spent := sweepQueue_left recorder taker rung.price rung.queue rung.total left seen
      (Bool.eq_false_iff.mpr quiet) kept
    rw [crossed_cons wf, if_pos accepted, spared_cons wf accepted, shares_append, reported_append,
      remainders_append, ← queue_eq, ← remains, spent, UInt64.toNat_zero, reported_none,
      remainders_none (crossed_positive wf.tail), List.append_nil, List.append_assoc,
      crossed_spared wf.tail]
    exact ⟨trades, rfl⟩

end Side

/-! ### Orders that cross nothing -/

section Spared

variable {σ : Type} (onTrade : TradeCallback σ) (left : Quantity) (seen : σ) {m : Market}
  {ticket : Ticket}

/-- A taker that crosses nothing leaves a side as it is. -/
theorem sweep_spared {taker : Ticket} {ladder : Ladder} (wf : ladder.Wf taker.side.opposite)
    (nothing : crossed taker ladder.orders = []) :
    sweep onTrade taker ladder left seen = ⟨ladder, [], left, seen, false⟩ := by
  cases ladder with
  | nil => rfl
  | cons rung ladder =>
    refine if_pos (.inr ?_)
    by_contra accepted
    rw [crossed_cons wf, if_pos (Bool.not_eq_false _ ▸ accepted)] at nothing
    exact (wf.rungs rung List.mem_cons_self).nonempty (List.append_eq_nil_iff.mp nothing).1

/-- **An order that crosses nothing** comes to rest or gives its slot back. -/
theorem Market.submit_spared {o : Ptr} {free : List Ptr}
    (opposite : (m.ladder ticket.side.opposite).Wf ticket.side.opposite)
    (nothing : crossed ticket (m.ladder ticket.side.opposite).orders = [])
    (some_qty : ticket.qty ≠ 0) (shape : m.free = o :: free) (lives : ticket.type ≠ .fok) :
    m.submit ticket onTrade seen =
      if ticket.type = .limit then
        ⟨(m.taken ticket free).rest ⟨o, m.stamp ticket⟩, seen, some true, 0⟩
      else ⟨{ m with clock := m.tick ticket }, seen, some true, ticket.qty⟩ := by
  have swept : sweep onTrade (m.stamp ticket) _ ticket.qty seen = _ :=
    sweep_spared onTrade ticket.qty seen opposite nothing
  have alone : (m.taken ticket free).swept ticket.side.opposite
      ⟨m.ladder ticket.side.opposite, [], ticket.qty, seen, false⟩ = m.taken ticket free :=
    swept_self rfl
  have back : { m.taken ticket free with free := o :: free } =
      { m with clock := m.tick ticket } := by
    rw [taken, ← shape]
  rw [submit_swept onTrade some_qty shape (fun killed => lives killed.1) swept,
    if_neg Bool.false_ne_true]
  by_cases limit : ticket.type = .limit
  · rw [if_pos limit, if_pos ⟨UInt64.pos_iff_ne_zero.mpr some_qty, limit⟩]
    exact congrArg (fun m : Market => (⟨m.rest _, seen, some true, 0⟩ : Submitted σ)) alone
  · rw [if_neg limit, if_neg fun rests => limit rests.2, ← back]
    exact congrArg (fun m : Market =>
      (⟨{ m with free := o :: m.free }, seen, some true, ticket.qty⟩ : Submitted σ)) alone

end Spared

end Ob
