/-
**Orders, trades and the words they are made of.**

`types.hpp`: identifiers, prices, quantities and timestamps are fixed-width machine words and stay
so here. `Ticket` collects what the caller of `submit` passes; an `Order` is a ticket together with
the two intrusive links of the queue it stands in.
-/

import Mathlib.Algebra.Order.Ring.Nat
import OrderBook.Library.Links

namespace Ob

abbrev OrderId := UInt64
abbrev Price := Int64
abbrev Quantity := UInt64
abbrev Timestamp := UInt64

/-- A slot of the pool's storage, named by its position: what an `Order*` is here. -/
abbrev Ptr := Nat

inductive Side
  | buy
  | sell
  deriving DecidableEq, Repr

/-- The side a taker of this side trades against. -/
def Side.opposite : Side → Side
  | .buy => .sell
  | .sell => .buy

@[simp] theorem Side.opposite_opposite (side : Side) : side.opposite.opposite = side := by
  cases side <;> rfl

theorem Side.opposite_ne (side : Side) : side.opposite ≠ side := by
  cases side <;> decide

/-- There is no third side. -/
theorem Side.eq_or_opposite (side other : Side) : other = side ∨ other = side.opposite := by
  cases side <;> cases other <;> decide

inductive OrderType
  | limit
  | market
  | ioc
  | fok
  deriving DecidableEq, Repr

structure Trade where
  makerId : OrderId
  takerId : OrderId
  price : Price
  qty : Quantity
  ts : Timestamp
  deriving DecidableEq, Repr

/-- An order without its links: the arguments of `submit`. -/
structure Ticket where
  id : OrderId
  price : Price
  qty : Quantity
  ts : Timestamp
  side : Side
  type : OrderType
  deriving DecidableEq, Repr

structure Order extends Ticket where
  prev : Option Ptr := none
  next : Option Ptr := none
  deriving DecidableEq, Repr

instance : Links.LinkedNode Order Ptr Ticket where
  val := Order.toTicket
  prev := Order.prev
  next := Order.next
  setPrev link order := { order with prev := link }
  setNext link order := { order with next := link }
  val_setPrev _ _ := rfl
  prev_setPrev _ _ := rfl
  next_setPrev _ _ := rfl
  val_setNext _ _ := rfl
  prev_setNext _ _ := rfl
  next_setNext _ _ := rfl

/-- How a call can leave defined behaviour: it follows a pointer to nothing or to a released slot,
or a loop is still running when its bound on turns is used up. -/
inductive Fault
  | danglingPointer
  | loopBound
  deriving DecidableEq, Repr

/-- A computation on memory that may leave defined behaviour. -/
abbrev Mem (α : Type) := Except Fault α

@[simp] theorem Mem.ok_bind {α β : Type} (value : α) (rest : α → Mem β) :
    (Except.ok value >>= rest) = rest value := rfl

/-- A sequence that succeeds does so in both parts. -/
theorem Mem.bind_ok {α β : Type} {first : Mem α} {rest : α → Mem β} {result : β}
    (did : first >>= rest = .ok result) : ∃ value, first = .ok value ∧ rest value = .ok result := by
  cases first with
  | error fault => cases did
  | ok value => exact ⟨value, rfl, did⟩

@[simp] theorem Mem.pure_eq {α : Type} (value : α) : (pure value : Mem α) = Except.ok value := rfl

end Ob
