/-
**The price ladder: one side of the market as a list.**

What `SideBook` is for, without pointers: a side is a list of rungs, best price first, and a rung is
a price, a total and the queue of the orders resting there, oldest first. `rank` turns both
orders of the source (prices rise to the best bid, fall to the best ask) into one order on integers.

The operations are the pure counterparts of what the source does to a side: `sweep` of a taker
against it, `insert` of a remainder, `remove` of a cancelled order.
-/

import OrderBook.Source.Book

namespace Ob

/-! ### Quantities -/

theorem Quantity.min_of_le {a b : Quantity} (le : a ≤ b) : min a b = a := if_pos le

theorem Quantity.min_of_not_le {a b : Quantity} (lt : ¬a ≤ b) : min a b = b := if_neg lt

theorem Quantity.toNat_min (a b : Quantity) : (min a b).toNat = min a.toNat b.toNat := by
  by_cases le : a ≤ b
  · rw [min_of_le le, Nat.min_eq_left (UInt64.le_iff_toNat_le.mp le)]
  · rw [min_of_not_le le, Nat.min_eq_right (Nat.le_of_not_le (mt UInt64.le_iff_toNat_le.mpr le))]

theorem Quantity.min_le_left (a b : Quantity) : min a b ≤ a := by
  rw [UInt64.le_iff_toNat_le, toNat_min]
  exact Nat.min_le_left _ _

theorem Quantity.min_le_right (a b : Quantity) : min a b ≤ b := by
  rw [UInt64.le_iff_toNat_le, toNat_min]
  exact Nat.min_le_right _ _

theorem Quantity.min_pos {a b : Quantity} (left : ¬a = 0) (right : 0 < b) : 0 < min a b := by
  have left' := UInt64.lt_iff_toNat_lt.mp (UInt64.pos_iff_ne_zero.mpr left)
  have right' := UInt64.lt_iff_toNat_lt.mp right
  rw [UInt64.lt_iff_toNat_lt, toNat_min]
  exact Nat.lt_min.mpr ⟨left', right'⟩

/-- What a fill leaves of the taker. -/
theorem Quantity.toNat_sub_min_left (left qty : Quantity) :
    (left - min left qty).toNat = left.toNat - qty.toNat := by
  rw [UInt64.toNat_sub_of_le _ _ (min_le_left left qty), toNat_min]
  omega

/-- What a fill leaves of the maker. -/
theorem Quantity.toNat_sub_min_right (left qty : Quantity) :
    (qty - min left qty).toNat = qty.toNat - left.toNat := by
  rw [UInt64.toNat_sub_of_le _ _ (min_le_right left qty), toNat_min]
  omega

theorem Quantity.sub_eq_zero {a b : Quantity} : a - b = 0 ↔ a = b := by
  rw [UInt64.sub_eq_iff_eq_add, UInt64.zero_add]

/-- A fill uses up the maker or the taker. -/
theorem Quantity.sub_min_eq_zero {left qty : Quantity} (remains : qty - min left qty ≠ 0) :
    left - min left qty = 0 := by
  by_cases le : left ≤ qty
  · rw [min_of_le le, UInt64.sub_self]
  · rw [min_of_not_le le, UInt64.sub_self] at remains
    exact absurd rfl remains

/-! ### Prices -/

/-- How good a price is on a side: the best price has the greatest rank. -/
def rank (side : Side) (p : Price) : Int :=
  match side with
  | .buy => p.toInt
  | .sell => -p.toInt

theorem rank_inj {side : Side} {p q : Price} : rank side p = rank side q ↔ p = q := by
  cases side <;> simp only [rank, Int.neg_inj, Int64.toInt_inj]

theorem lessForSide_iff {side : Side} {p q : Price} :
    SideBook.lessForSide side p q = true ↔ rank side p < rank side q := by
  cases side <;> simp only [SideBook.lessForSide, rank, decide_eq_true_eq, Int64.lt_iff_toInt_lt,
    gt_iff_lt, Int.neg_lt_neg_iff]

/-- A taker's price crosses a book price that is at least as good on the book's own side. -/
theorem priceCrosses_iff {taker : Side} {takerPx bookPx : Price} :
    priceCrosses taker takerPx bookPx = true ↔
      rank taker.opposite takerPx ≤ rank taker.opposite bookPx := by
  cases taker <;> simp only [priceCrosses, rank, Side.opposite, decide_eq_true_eq,
    Int64.le_iff_toInt_le, ge_iff_le, Int.neg_le_neg_iff]

/-! ### Rungs and ladders -/

/-- Whether a taker trades at a price: a market order at any, the others within their limit. -/
def Ticket.accepts (taker : Ticket) (p : Price) : Bool :=
  decide (taker.type = .market) || priceCrosses taker.side taker.price p

/-- The outer loop's test, as the source words it. -/
theorem Ticket.accepts_false {taker : Ticket} {p : Price} :
    taker.accepts p = false ↔
      taker.type ≠ .market ∧ priceCrosses taker.side taker.price p = false := by
  rw [accepts, Bool.or_eq_false_iff, decide_eq_false_iff_not]

/-- A price that is refused is strictly worse, for the book's side, than the taker's. -/
theorem Ticket.rank_lt_of_refused {taker : Ticket} {p : Price} (refused : taker.accepts p = false) :
    rank taker.side.opposite p < rank taker.side.opposite taker.price := by
  have outside := (accepts_false.mp refused).2
  rw [← Bool.not_eq_true, priceCrosses_iff] at outside
  exact Int.not_le.mp outside

/-- An order in the book: its slot and its ticket, the quantity being what is left of it. -/
abbrev Resting := Links.Cell Ptr Ticket

structure Rung where
  price : Price
  total : Quantity
  queue : List Resting
  deriving DecidableEq

/-- One side of the market, best price first. -/
abbrev Ladder := List Rung

/-- The price of the best rung, 0 when there is none. -/
def Ladder.bestPrice : Ladder → Price
  | [] => 0
  | rung :: _ => rung.price

/-- The orders of a side in the order in which they trade. -/
def Ladder.orders (ladder : Ladder) : List Resting := ladder.flatMap Rung.queue

theorem Ladder.orders_cons (rung : Rung) (ladder : Ladder) :
    Ladder.orders (rung :: ladder) = rung.queue ++ Ladder.orders ladder := rfl

theorem Ladder.orders_append (above below : Ladder) :
    Ladder.orders (above ++ below) = Ladder.orders above ++ Ladder.orders below :=
  List.flatMap_append

theorem Ladder.mem_orders {ladder : Ladder} {order : Resting} :
    order ∈ ladder.orders ↔ ∃ rung ∈ ladder, order ∈ rung.queue := List.mem_flatMap

/-- What is left of an order of which `fill` has traded. -/
def Resting.reduce (maker : Resting) (fill : Quantity) : Resting :=
  ⟨maker.addr, { maker.val with qty := maker.val.qty - fill }⟩

@[simp] theorem Resting.reduce_addr (maker : Resting) (fill : Quantity) :
    (maker.reduce fill).addr = maker.addr := rfl

/-- The trade of a taker with a maker at a price. -/
def tradeOf (taker : Ticket) (maker : Resting) (price : Price) (fill : Quantity) : Trade where
  makerId := maker.val.id
  takerId := taker.id
  price := price
  qty := fill
  ts := taker.ts

/-! ### The sweep of a taker -/

section Sweep

variable {σ : Type} (onTrade : TradeCallback σ) (taker : Ticket)

/-- A rung after a sweep: what is left of its queue and total, the makers that are gone, the
taker's remainder, and the callback's state. -/
structure QueueSweep (σ : Type) where
  queue : List Resting
  total : Quantity
  consumed : List Resting
  left : Quantity
  seen : σ
  threw : Bool

/-- A taker against the queue of one rung. -/
def sweepQueue (price : Price) : List Resting → Quantity → Quantity → σ → QueueSweep σ
  | [], total, left, seen => ⟨[], total, [], left, seen, false⟩
  | maker :: queue, total, left, seen =>
    if left = 0 then ⟨maker :: queue, total, [], left, seen, false⟩
    else
      let fill := min left maker.val.qty
      match onTrade seen (tradeOf taker maker price fill) with
      | none => ⟨maker :: queue, total, [], left, seen, true⟩
      | some seen' =>
        if maker.val.qty - fill = 0 then
          let rest := sweepQueue price queue (total - fill) (left - fill) seen'
          { rest with consumed := maker :: rest.consumed }
        else ⟨maker.reduce fill :: queue, total - fill, [], left - fill, seen', false⟩

/-- A side after a sweep. -/
structure Sweep (σ : Type) where
  ladder : Ladder
  consumed : List Resting
  left : Quantity
  seen : σ
  threw : Bool

/-- A taker against a side: rung by rung while its price allows, an emptied rung disappears. -/
def sweep : Ladder → Quantity → σ → Sweep σ
  | [], left, seen => ⟨[], [], left, seen, false⟩
  | rung :: ladder, left, seen =>
    if left = 0 ∨ taker.accepts rung.price = false then ⟨rung :: ladder, [], left, seen, false⟩
    else
      let here := sweepQueue onTrade taker rung.price rung.queue rung.total left seen
      let rung' : Rung := ⟨rung.price, here.total, here.queue⟩
      if here.threw then ⟨rung' :: ladder, here.consumed, here.left, here.seen, true⟩
      else if here.queue = [] then
        let rest := sweep ladder here.left here.seen
        { rest with consumed := here.consumed ++ rest.consumed }
      else ⟨rung' :: ladder, here.consumed, here.left, here.seen, false⟩

end Sweep

/-! ### Insertion and removal -/

/-- The rung of an order alone at its price. -/
def Rung.single (order : Resting) : Rung := ⟨order.val.price, order.val.qty, [order]⟩

def Rung.push (rung : Rung) (order : Resting) : Rung :=
  ⟨rung.price, rung.total + order.val.qty, rung.queue ++ [order]⟩

/-- An order joins the queue at its price, on a new rung if there is none. -/
def Ladder.insert (side : Side) (order : Resting) : Ladder → Ladder
  | [] => [Rung.single order]
  | rung :: ladder =>
    if rung.price = order.val.price then rung.push order :: ladder
    else if rank side rung.price < rank side order.val.price then
      Rung.single order :: rung :: ladder
    else rung :: Ladder.insert side order ladder

/-- A rung without the order in a slot. -/
def Rung.drop (rung : Rung) (order : Resting) : Rung :=
  ⟨rung.price, rung.total - order.val.qty, rung.queue.filter fun other => other.addr ≠ order.addr⟩

/-- An order leaves the queue at its price; the rung goes with its last order. -/
def Ladder.remove (order : Resting) : Ladder → Ladder
  | [] => []
  | rung :: ladder =>
    if rung.price = order.val.price then
      if (rung.drop order).queue = [] then ladder else rung.drop order :: ladder
    else rung :: Ladder.remove order ladder

/-- What a fill-or-kill order still needs after the totals of the rungs it crosses. -/
def Ladder.shortfall (side : Side) (price : Price) : Ladder → Quantity → Quantity
  | [], needed => needed
  | rung :: ladder, needed =>
    if needed > 0 then
      if priceCrosses side price rung.price then
        Ladder.shortfall side price ladder
          (if rung.total ≥ needed then 0 else needed - rung.total)
      else needed
    else needed

end Ob
