/-
**The reference book.**

What the order book is for, with no thought for speed: one flat list of the orders at rest, oldest
first. An incoming order trades again and again with the oldest order at the best price of the other
side, as long as that price crosses.

`Trades` is the same as a relation, one deal after another, so that runs of deals can be composed;
`trade_of_trades` turns it back into the loop, whose bound on turns is never reached
(`Trades.length_le`).
-/

import OrderBook.Market.Ladder

namespace Ob

namespace Reference

/-- An order at rest; the quantity is what is left of it. -/
structure Listed where
  id : OrderId
  side : Side
  price : Price
  qty : Quantity
  deriving DecidableEq, Repr

/-- A trade, without its time. -/
structure Deal where
  makerId : OrderId
  takerId : OrderId
  price : Price
  qty : Quantity
  deriving DecidableEq, Repr

/-- A market order trades at any price, the others at theirs or a better one. -/
def Crosses (taker : Ticket) (p : Price) : Prop :=
  taker.type = .market ∨ rank taker.side.opposite taker.price ≤ rank taker.side.opposite p

instance (taker : Ticket) (p : Price) : Decidable (Crosses taker p) :=
    inferInstanceAs (Decidable (_ ∨ _))

/-- The oldest of the orders at the best price of a side. -/
def best (side : Side) (orders : List Listed) : Option Listed :=
  orders.find? fun order => order.side = side ∧
    ∀ other ∈ orders, other.side = side → rank side other.price ≤ rank side order.price

/-- A quantity is taken off the order with an id, and the order off the list when nothing is
left. -/
def reduce (id : OrderId) (qty : Quantity) (orders : List Listed) : List Listed :=
  orders.filterMap fun order =>
    if order.id = id then
      if order.qty = qty then none else some { order with qty := order.qty - qty }
    else some order

/-- The trades of an order: the list after them, the trades, and what is left of the order. -/
def trade (taker : Ticket) : Nat → List Listed → Quantity → Mem (List Listed × List Deal × Quantity)
  | 0, _, _ => .error .loopBound
  | turns + 1, orders, left =>
    if left = 0 then .ok (orders, [], left)
    else
      match best taker.side.opposite orders with
      | none => .ok (orders, [], left)
      | some maker =>
        if Crosses taker maker.price then do
          let qty := min left maker.qty
          let (orders, deals, left) ← trade taker turns (reduce maker.id qty orders) (left - qty)
          return (orders, ⟨maker.id, taker.id, maker.price, qty⟩ :: deals, left)
        else .ok (orders, [], left)

/-- The quantity at the prices that an order crosses. -/
def crossing (taker : Ticket) (orders : List Listed) : Nat :=
  ((orders.filter fun order => order.side = taker.side.opposite ∧ Crosses taker order.price).map
    fun order => order.qty.toNat).sum

structure Book where
  capacity : Nat
  orders : List Listed

namespace Book

def new (capacity : Nat) : Book := ⟨capacity, []⟩

def submit (book : Book) (ticket : Ticket) : Mem (Book × List Deal × Bool) :=
  if book.orders.length = book.capacity then .ok (book, [], false)
  else if ticket.type = .fok ∧ crossing ticket book.orders < ticket.qty.toNat then
    .ok (book, [], true)
  else do
    let (orders, deals, left) ← trade ticket (book.orders.length + 1) book.orders ticket.qty
    if left ≠ 0 ∧ ticket.type = .limit then
      return ({ book with orders := orders ++ [⟨ticket.id, ticket.side, ticket.price, left⟩] },
        deals, true)
    else return ({ book with orders }, deals, true)

/-- The same, except that an order of quantity 0 is accepted even when there is no room. -/
def accept (book : Book) (ticket : Ticket) : Mem (Book × List Deal × Bool) :=
  if ticket.qty = 0 then .ok (book, [], true) else book.submit ticket

def cancel (book : Book) (id : OrderId) : Book × Bool :=
  ({ book with orders := book.orders.filter fun order => order.id ≠ id },
    book.orders.any fun order => order.id = id)

def bestPrice (book : Book) (side : Side) : Price :=
  match best side book.orders with
  | none => 0
  | some order => order.price

end Book

end Reference

/-! ### What a caller sees -/

/-- What a caller sees of a call and of the book after it. -/
structure View where
  ret : Bool
  deals : List Reference.Deal
  bestBid : Price
  bestAsk : Price
  resting : Nat
  deriving DecidableEq, Repr

def Trade.deal (trade : Trade) : Reference.Deal where
  makerId := trade.makerId
  takerId := trade.takerId
  price := trade.price
  qty := trade.qty

def OrderBook.view (b : OrderBook) (call : OrderBook.Call) : Mem (OrderBook × View) := do
  let (b, reply) ← b.handle call
  return (b, ⟨reply.ret, reply.trades.map Trade.deal, b.bestBid, b.bestAsk, b.restingOrders⟩)

namespace Reference

def Book.shown (book : Book) (ret : Bool) (deals : List Deal) : View :=
  ⟨ret, deals, book.bestPrice .buy, book.bestPrice .sell, book.orders.length⟩

/-- A call on the reference book, with one rule or another for submits. -/
def Book.view (submit : Book → Ticket → Mem (Book × List Deal × Bool)) (book : Book) :
    OrderBook.Call → Mem (Book × View)
  | .submit ticket => do
    let (book, deals, ret) ← submit book ticket
    return (book, book.shown ret deals)
  | .cancel id => return ((book.cancel id).1, (book.cancel id).1.shown (book.cancel id).2 [])

/-! ### Deals one after another -/

/-- A taker makes these deals, the list and the taker's remainder going from one state to
another. -/
inductive Trades (taker : Ticket) : List Listed → Quantity → List Deal → List Listed →
    Quantity → Prop
  | done (orders : List Listed) (left : Quantity) : Trades taker orders left [] orders left
  | deal {orders orders' : List Listed} {left left' : Quantity} {deals : List Deal} {maker : Listed}
      (goes : left ≠ 0) (first : best taker.side.opposite orders = some maker)
      (crosses : Crosses taker maker.price)
      (rest : Trades taker (reduce maker.id (min left maker.qty) orders)
        (left - min left maker.qty) deals
        orders' left') :
      Trades taker orders left (⟨maker.id, taker.id, maker.price, min left maker.qty⟩ :: deals)
        orders' left'

section Trades

variable {taker : Ticket} {orders orders' orders'' : List Listed} {left left' left'' : Quantity}
  {deals more : List Deal}

theorem Trades.trans (first : Trades taker orders left deals orders' left')
    (second : Trades taker orders' left' more orders'' left'') :
    Trades taker orders left (deals ++ more) orders'' left'' := by
  induction first with
  | done => exact second
  | deal goes best crosses _ ih => exact .deal goes best crosses (ih second)

/-- The best order of a side is one of the list. -/
theorem best_mem {side : Side} {maker : Listed} (first : best side orders = some maker) :
    maker ∈ orders :=
  List.mem_of_find?_eq_some first

theorem best_side {side : Side} {maker : Listed} (first : best side orders = some maker) :
    maker.side = side := by
  unfold best at first
  have chosen := List.find?_some first
  exact (of_decide_eq_true chosen).1

/-- Every deal but the last uses up an order of the list. -/
theorem Trades.length_le (trades : Trades taker orders left deals orders' left') :
    deals.length ≤ orders.length := by
  induction trades with
  | done => exact Nat.zero_le _
  | @deal orders orders' left left' deals maker goes first crosses rest ih =>
    have member := best_mem first
    by_cases spent : left - min left maker.qty = 0
    · rw [spent] at rest
      cases rest with
      | done => exact List.length_pos_of_mem member
      | deal goes => exact absurd rfl goes
    · have whole : min left maker.qty = maker.qty := by
        by_cases le : left ≤ maker.qty
        · rw [Quantity.min_of_le le, UInt64.sub_self] at spent
          exact absurd rfl spent
        · exact Quantity.min_of_not_le le
      refine Nat.le_trans (Nat.succ_le_succ ih) (Nat.succ_le_of_lt ?_)
      exact List.length_filterMap_lt_length_iff_exists.mpr ⟨maker, member, by simp [whole]⟩

/-- Deals bring no id to the list. -/
theorem Trades.ids (trades : Trades taker orders left deals orders' left') :
    (orders'.map Listed.id).Sublist (orders.map Listed.id) := by
  have reduced : ∀ (id : OrderId) (qty : Quantity) (orders : List Listed),
      ((reduce id qty orders).map Listed.id).Sublist (orders.map Listed.id) := by
    intro id qty orders
    induction orders with
    | nil => exact .slnil
    | cons order orders ih =>
      rw [reduce, List.filterMap_cons]
      split
      · exact ih.cons _
      · rename_i order' kept
        have same : order'.id = order.id := by
          split at kept
          · split at kept <;> cases kept
            rfl
          · cases kept
            rfl
        rw [List.map_cons, List.map_cons, same]
        exact ih.cons_cons _
  induction trades with
  | done => exact .refl _
  | deal _ _ _ _ ih => exact ih.trans (reduced _ _ _)

/-- The deals of a taker that can make no more are what the loop makes. -/
theorem trade_of_trades (trades : Trades taker orders left deals orders' left')
    (stops : left' = 0 ∨ ∀ maker, best taker.side.opposite orders' = some maker →
      ¬Crosses taker maker.price) {turns : Nat} (enough : deals.length < turns) :
    trade taker turns orders left = .ok (orders', deals, left') := by
  induction trades generalizing turns with
  | done orders left =>
    obtain ⟨turns, rfl⟩ := Nat.exists_eq_add_of_lt enough
    rw [trade]
    split
    · rfl
    · rename_i goes
      have refused := stops.resolve_left goes
      split
      · rfl
      · rename_i maker first
        rw [if_neg (refused maker first)]
  | @deal orders orders' left left' deals maker goes first crosses rest ih =>
    obtain ⟨turns, rfl⟩ := Nat.exists_eq_add_of_lt enough
    have further : trade taker (deals.length + 1 + turns) _ _ = _ := ih stops (by omega)
    rw [trade, if_neg goes]
    simp only [first, if_pos crosses]
    rw [show (_ :: deals).length + turns = deals.length + 1 + turns from rfl, further]
    rfl

end Trades

end Reference

end Ob
