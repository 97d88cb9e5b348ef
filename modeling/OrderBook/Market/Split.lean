/-
**An order in two parts.**

* `remainders_twice` — a quantity shared out, and then another among what it leaves, leave what both
  together leave.
* `shares_account` — what the orders of an id at a price trade and what is left of them make up what
  they had.
* `Market.ioc_takes` — what an IOC order does to a market, in closed form.
* `Market.ioc_twice` — two IOC orders one after the other do what one of both quantities does.
-/

import OrderBook.Market.Queues
import OrderBook.Market.Waterfall

namespace Ob

open Links OrderBook

/-- What the orders with an id have traded at a price. -/
def soldAt (id : OrderId) (p : Price) (trades : List Trade) : Nat :=
  sold id (trades.filter fun trade => trade.price = p)

/-- What is left there of the orders with an id. -/
def remainingAt (id : OrderId) (p : Price) (orders : List Resting) : Nat :=
  remaining id (orders.filter fun order => order.val.price = p)

theorem soldAt_append (id : OrderId) (p : Price) (trades more : List Trade) :
    soldAt id p (trades ++ more) = soldAt id p trades + soldAt id p more := by
  rw [soldAt, List.filter_append, sold_append]
  rfl

theorem soldAt_singleton (id : OrderId) (p : Price) (trade : Trade) :
    soldAt id p [trade] = if trade.makerId = id ∧ trade.price = p then trade.qty.toNat else 0 := by
  by_cases here : trade.price = p
  · simp only [soldAt, List.filter_cons, List.filter_nil, here, decide_true, if_true, and_true,
      sold_singleton]
  · simp only [soldAt, List.filter_cons, List.filter_nil, here, decide_false, and_false, if_false,
      Bool.false_eq_true]
    rfl

theorem remainingAt_singleton (id : OrderId) (p : Price) (order : Resting) :
    remainingAt id p [order] =
      if order.val.id = id ∧ order.val.price = p then order.val.qty.toNat else 0 := by
  by_cases here : order.val.price = p
  · simp only [remainingAt, List.filter_cons, List.filter_nil, here, decide_true, if_true, and_true,
      remaining_singleton]
  · simp only [remainingAt, List.filter_cons, List.filter_nil, here, decide_false, and_false,
      if_false, Bool.false_eq_true]
    rfl

theorem remainingAt_append (id : OrderId) (p : Price) (orders more : List Resting) :
    remainingAt id p (orders ++ more) = remainingAt id p orders + remainingAt id p more := by
  rw [remainingAt, List.filter_append, remaining_append]
  rfl

/-! ### Sharing out twice -/

section Shares

variable {taker : Ticket} {qty : Nat} {order : Resting} {orders : List Resting}

theorem Resting.reduce_reduce (order : Resting) (first second : Nat) :
    (order.reduce (UInt64.ofNat first)).reduce (UInt64.ofNat second) =
      order.reduce (UInt64.ofNat (first + second)) := by
  have both : order.val.qty - UInt64.ofNat first - UInt64.ofNat second =
      order.val.qty - UInt64.ofNat (first + second) := by
    rw [UInt64.ofNat_add]
    grind
  exact congrArg (fun qty => (⟨order.addr, { order.val with qty := qty }⟩ : Resting)) both

theorem Resting.toNat_reduce {fill : Nat} (fits : fill ≤ order.val.qty.toNat) :
    (order.reduce (UInt64.ofNat fill)).val.qty.toNat = order.val.qty.toNat - fill := by
  have small : (UInt64.ofNat fill).toNat = fill :=
    UInt64.toNat_ofNat_of_lt' (Nat.lt_of_le_of_lt fits order.val.qty.toNat_lt)
  have within : UInt64.ofNat fill ≤ order.val.qty := by
    rw [UInt64.le_iff_toNat_le, small]
    exact fits
  exact (UInt64.toNat_sub_of_le _ _ within).trans (congrArg _ small)

/-- The first order is used up. -/
theorem remainders_whole (whole : order.val.qty.toNat ≤ qty) :
    remainders (shares qty (order :: orders)) =
      remainders (shares (qty - order.val.qty.toNat) orders) := by
  rw [shares_cons, Nat.min_eq_left whole]
  exact remainders_gone (Nat.le_refl _)

/-- The first order keeps something, and those behind it everything. -/
theorem remainders_part (positive : ∀ order ∈ orders, 0 < order.val.qty)
    (partly : qty < order.val.qty.toNat) :
    remainders (shares qty (order :: orders)) = order.reduce (UInt64.ofNat qty) :: orders := by
  rw [shares_cons, Nat.min_eq_right (Nat.le_of_lt partly), remainders_cons partly,
    Nat.sub_eq_zero_of_le (Nat.le_of_lt partly), remainders_none positive]

/-- **Sharing out twice.** -/
theorem remainders_twice {first second : Nat} (positive : ∀ order ∈ orders, 0 < order.val.qty) :
    remainders (shares second (remainders (shares first orders))) =
      remainders (shares (first + second) orders) := by
  induction orders generalizing first second with
  | nil => rfl
  | cons order orders ih =>
    obtain ⟨here, later⟩ := List.forall_mem_cons.mp positive
    by_cases whole : order.val.qty.toNat ≤ first
    · rw [remainders_whole whole, ih later, remainders_whole (Nat.le_add_right_of_le whole),
        Nat.sub_add_comm whole]
    · have partly := Nat.not_le.mp whole
      have left := Resting.toNat_reduce (Nat.le_of_lt partly)
      rw [remainders_part later partly]
      by_cases resumed : order.val.qty.toNat ≤ first + second
      · -- the second share begins in the middle of this order and uses it up
        rw [remainders_whole (by omega), remainders_whole resumed, left]
        congr 2
        omega
      · rw [remainders_part later (by omega), remainders_part later (by omega),
          Resting.reduce_reduce]

/-- What is left stands at the prices at which it stood. -/
theorem remainders_price {x : Resting} (member : x ∈ remainders (shares qty orders)) :
    ∃ order ∈ orders, x.val.price = order.val.price := by
  obtain ⟨share, inShares, rfl⟩ := List.mem_map.mp member
  obtain ⟨i, inside, rfl⟩ := List.mem_mapIdx.mp (List.mem_filter.mp inShares).1
  exact ⟨_, List.getElem_mem inside, rfl⟩

/-- The orders that were crossed and those that were not, told apart again. -/
theorem crossed_remainders : crossed taker
    (remainders (shares qty (crossed taker orders)) ++ spared taker orders) =
      remainders (shares qty (crossed taker orders)) := by
  rw [crossed, List.filter_append, List.filter_eq_self.mpr, List.filter_eq_nil_iff.mpr,
    List.append_nil]
  · intro order member accepted
    have refused := (List.mem_filter.mp member).2
    rw [accepted] at refused
    cases refused
  · intro order member
    obtain ⟨old, inside, price⟩ := remainders_price member
    rw [price]
    exact (List.mem_filter.mp inside).2

theorem spared_remainders : spared taker
    (remainders (shares qty (crossed taker orders)) ++ spared taker orders) =
      spared taker orders := by
  rw [spared, List.filter_append, List.filter_eq_nil_iff.mpr, List.nil_append,
    List.filter_eq_self.mpr]
  · exact fun order member => (List.mem_filter.mp member).2
  · intro order member refused
    obtain ⟨old, inside, price⟩ := remainders_price member
    rw [price, (List.mem_filter.mp inside).2] at refused
    cases refused

variable (taker)

/-- The account of one order. -/
theorem share_account {fill : Nat} (fits : fill ≤ order.val.qty.toNat) (id : OrderId) (p : Price) :
    soldAt id p (reported taker [⟨order, fill⟩]) + remainingAt id p (remainders [⟨order, fill⟩]) =
      remainingAt id p [order] := by
  have trades : soldAt id p (reported taker [⟨order, fill⟩]) =
      if order.val.id = id ∧ order.val.price = p then fill else 0 := by
    by_cases some_fill : 0 < fill
    · rw [reported_cons some_fill]
      refine (soldAt_singleton id p _).trans (if_congr Iff.rfl ?_ rfl)
      exact UInt64.toNat_ofNat_of_lt' (Nat.lt_of_le_of_lt fits order.val.qty.toNat_lt)
    · obtain rfl := Nat.eq_zero_of_not_pos some_fill
      exact (ite_self 0).symm
  have left : remainingAt id p (remainders [⟨order, fill⟩]) =
      if order.val.id = id ∧ order.val.price = p then order.val.qty.toNat - fill else 0 := by
    by_cases partly : fill < order.val.qty.toNat
    · rw [remainders_cons partly]
      exact (remainingAt_singleton id p _).trans (if_congr Iff.rfl (Resting.toNat_reduce fits) rfl)
    · rw [remainders_gone (Nat.not_lt.mp partly), Nat.sub_eq_zero_of_le (Nat.not_lt.mp partly)]
      exact (ite_self 0).symm
  rw [trades, left, remainingAt_singleton]
  split
  · exact Nat.add_sub_cancel' fits
  · rfl

/-- **The account** of the orders of an id at a price. -/
theorem shares_account (id : OrderId) (p : Price) :
    soldAt id p (reported taker (shares qty orders)) +
        remainingAt id p (remainders (shares qty orders)) =
      remainingAt id p orders := by
  induction orders generalizing qty with
  | nil => rfl
  | cons order orders ih =>
    have first := share_account taker (Nat.min_le_left order.val.qty.toNat qty) id p
    have later := @ih (qty - order.val.qty.toNat)
    have trades : reported taker (_ ++ _) = _ :=
      reported_append [⟨order, min order.val.qty.toNat qty⟩]
        (shares (qty - order.val.qty.toNat) orders)
    have left := remainders_append [⟨order, min order.val.qty.toNat qty⟩]
      (shares (qty - order.val.qty.toNat) orders)
    have all := remainingAt_append id p [order] orders
    rw [List.singleton_append] at trades left all
    rw [shares_cons, trades, left, soldAt_append, remainingAt_append, all, ← first, ← later]
    omega

end Shares

/-! ### One order -/

/-- What an order does to a market in which nothing of it comes to rest: the makers in `gone` are
used up. -/
structure Market.Took (m : Market) (ticket : Ticket) (done : Market.Submitted (List Trade))
    (gone : List Resting) : Prop where
  trades : done.seen = reported (m.stamp ticket)
    (shares ticket.qty.toNat (crossed ticket (m.ladder ticket.side.opposite).orders))
  own : done.market.ladder ticket.side = m.ladder ticket.side
  opposite : (done.market.ladder ticket.side.opposite).orders =
    remainders (shares ticket.qty.toNat (crossed ticket (m.ladder ticket.side.opposite).orders)) ++
      spared ticket (m.ladder ticket.side.opposite).orders
  split : ∃ rest, (m.ladder ticket.side.opposite).orders = gone ++ rest ∧
    Trimmed rest (done.market.ladder ticket.side.opposite).orders
  free : ∃ o free, m.free = o :: free ∧
    done.market.free = o :: ((gone.map Cell.addr).reverse ++ free)
  index : done.market.index = gone.foldl (fun index maker => index.erase maker.val.id) m.index

namespace Market

variable {capacity : Nat} {held : List Ptr} {m : Market} {ticket : Ticket}

/-- **One IOC order.** -/
theorem ioc_takes (opposite : (m.ladder ticket.side.opposite).Wf ticket.side.opposite)
    (some_free : m.free ≠ []) (some_qty : ticket.qty ≠ 0) (ioc : ticket.type = .ioc) :
    ∃ gone, m.Took ticket (m.submit ticket recorder []) gone := by
  obtain ⟨trades, orders⟩ := sweep_shares (m.stamp ticket) _ ticket.qty [] opposite
  have trimmed := sweep_trimmed recorder (m.stamp ticket) (m.ladder ticket.side.opposite) ticket.qty
    []
  have ends := m.submit_outcome recorder ticket []
  generalize m.submit ticket recorder [] = done at ends
  cases ends with
  | nothing none => exact absurd none some_qty
  | full _ full => exact absurd full some_free
  | killed _ _ killed =>
    rw [kills, ioc] at killed
    cases killed.1
  | rests _ _ _ _ _ _ limit =>
    rw [ioc] at limit
    cases limit
  | throws _ _ _ swept threw =>
    rw [← swept, sweep_quiet recorder_returns] at threw
    cases threw
  | @leaves o free s _ shape _ swept quiet rests =>
    have across := (m.taken ticket free).swept_same ticket.side.opposite s
    have own := (m.taken ticket free).swept_ne s (Side.opposite_ne ticket.side).symm
    rw [swept] at trades orders trimmed
    obtain ⟨rest, split, trimmed⟩ := trimmed
    exact ⟨s.consumed, trades, own, (congrArg Ladder.orders across).trans orders,
      ⟨rest, split, (congrArg Ladder.orders across).symm ▸ trimmed⟩, ⟨o, free, shape, rfl⟩, rfl⟩

end Market

/-! ### Two orders -/

/-- Two IOC orders that make up a third. -/
structure Ticket.Halves (first second whole : Ticket) : Prop where
  types : first.type = .ioc ∧ second.type = .ioc ∧ whole.type = .ioc
  sides : first.side = whole.side ∧ second.side = whole.side
  prices : first.price = whole.price ∧ second.price = whole.price
  some_qty : 0 < first.qty ∧ 0 < second.qty
  sizes : first.qty.toNat + second.qty.toNat = whole.qty.toNat

namespace Market

variable {m : Market} {first second whole : Ticket}

/-- An order that differs in its quantity, id and time takes from the same orders. -/
theorem Took.alike {ticket other : Ticket} {done : Submitted (List Trade)} {gone : List Resting}
    (took : m.Took ticket done gone) (type : ticket.type = other.type)
    (side : ticket.side = other.side) (price : ticket.price = other.price) :
    done.seen = reported (m.stamp ticket)
        (shares ticket.qty.toNat (crossed other (m.ladder other.side.opposite).orders)) ∧
      done.market.ladder other.side = m.ladder other.side ∧
      (done.market.ladder other.side.opposite).orders =
        remainders
            (shares ticket.qty.toNat (crossed other (m.ladder other.side.opposite).orders)) ++
          spared other (m.ladder other.side.opposite).orders ∧
      ∀ {α : Type} {f : Resting → α}, (∀ maker fill, f (maker.reduce fill) = f maker) →
        (m.ladder other.side.opposite).orders.map f =
          gone.map f ++ (done.market.ladder other.side.opposite).orders.map f := by
  have reach : ∀ p, ticket.accepts p = other.accepts p := fun p => by
    rw [Ticket.accepts, Ticket.accepts, type, side, price]
  have crossed_eq : ∀ orders, crossed ticket orders = crossed other orders := fun orders => by
    rw [crossed, crossed]
    exact List.filter_congr fun order _ => reach order.val.price
  have spared_eq : ∀ orders, spared ticket orders = spared other orders := fun orders => by
    rw [spared, spared]
    exact List.filter_congr fun order _ => congrArg not (reach order.val.price)
  obtain ⟨trades, own, opposite, ⟨rest, split, trimmed⟩, _⟩ := took
  rw [side] at trades own opposite split trimmed
  rw [crossed_eq] at trades opposite
  rw [spared_eq] at opposite
  refine ⟨trades, own, opposite, fun same => ?_⟩
  rw [split, List.map_append, trimmed.map_eq same]

/-- **Two IOC orders** one after the other do what one of both quantities does. -/
theorem ioc_twice (opposite : (m.ladder whole.side.opposite).Wf whole.side.opposite)
    (halves : Ticket.Halves first second whole) {once twice all : Submitted (List Trade)}
    {gone gone' goneAll : List Resting} (took : m.Took first once gone)
    (took' : once.market.Took second twice gone') (tookAll : m.Took whole all goneAll) :
    twice.market.ladder whole.side = all.market.ladder whole.side ∧
      (twice.market.ladder whole.side.opposite).orders =
        (all.market.ladder whole.side.opposite).orders ∧
      twice.market.free = all.market.free ∧ twice.market.index = all.market.index ∧
      ∀ id p, soldAt id p (once.seen ++ twice.seen) = soldAt id p all.seen := by
  obtain ⟨ioc, ioc', iocAll⟩ := halves.types
  obtain ⟨trades, own, across, marks⟩ :=
    took.alike (ioc.trans iocAll.symm) halves.sides.1 halves.prices.1
  obtain ⟨trades', own', across', marks'⟩ :=
    took'.alike (ioc'.trans iocAll.symm) halves.sides.2 halves.prices.2
  obtain ⟨tradesAll, ownAll, acrossAll, marksAll⟩ := tookAll.alike rfl rfl rfl
  rw [across, crossed_remainders] at trades'
  rw [across, crossed_remainders, spared_remainders, remainders_twice (crossed_positive opposite),
    halves.sizes, ← acrossAll] at across'
  -- the makers used up are the same, but for what is left of them
  have gone_eq : ∀ {α : Type} {f : Resting → α}, (∀ maker fill, f (maker.reduce fill) = f maker) →
      goneAll.map f = gone.map f ++ gone'.map f := fun same => by
    have all := marksAll same
    rw [marks same, marks' same, ← List.append_assoc, across'] at all
    exact (List.append_cancel_right all).symm
  refine ⟨own'.trans (own.trans ownAll.symm), across', ?_, ?_, fun id p => ?_⟩
  · obtain ⟨o, free, shape, left⟩ := took.free
    obtain ⟨o', free', shape', left'⟩ := took'.free
    obtain ⟨oAll, freeAll, shapeAll, leftAll⟩ := tookAll.free
    obtain ⟨rfl, rfl⟩ := List.cons.inj (shape.symm.trans shapeAll)
    obtain ⟨rfl, rfl⟩ := List.cons.inj (left.symm.trans shape')
    rw [left', leftAll, gone_eq Resting.reduce_addr, List.reverse_append, List.append_assoc]
  · have erased : ∀ (makers : List Resting) (index : IdIndex),
        makers.foldl (fun index maker => index.erase maker.val.id) index =
          (makers.map fun maker => maker.val.id).foldl (fun index id => index.erase id) index :=
      fun makers index => by rw [List.foldl_map]
    rw [took'.index, took.index, tookAll.index, erased, erased, erased, ← List.foldl_append,
      gone_eq fun _ _ => rfl]
  · have account : soldAt id p once.seen + _ = _ :=
      trades.symm ▸ shares_account (m.stamp first) id p
    have account' : soldAt id p twice.seen + _ = _ :=
      trades'.symm ▸ shares_account (once.market.stamp second) id p
    have accountAll : soldAt id p all.seen + _ = _ :=
      tradesAll.symm ▸ shares_account (m.stamp whole) id p
    rw [remainders_twice (crossed_positive opposite), halves.sizes] at account'
    rw [soldAt_append]
    omega

end Market

end Ob
