/-
**Price levels and the sorted vector of one side.**

`price_level.hpp` and the class `SideBook` of `order_book.hpp`. A level is a price, a cached total
and the two ends of an intrusive queue. A side keeps its levels in a vector sorted so that the best
price is the last element, and finds a price by `std::lower_bound`. A `PriceLevel*` is a position in
that vector.
-/

import OrderBook.Library.Search
import OrderBook.Source.Pool

namespace Ob

structure PriceLevel where
  price : Price := 0
  totalQty : Quantity := 0
  head : Option Ptr := none
  tail : Option Ptr := none
  deriving DecidableEq, Repr

namespace PriceLevel

def empty (lvl : PriceLevel) : Bool := lvl.head.isNone

/-- `if (tail) tail->next = o; else head = o;` -/
def linkTail (lvl : PriceLevel) (pool : ObjectPool Order) (o : Ptr) :
    Mem (ObjectPool Order × Option Ptr) :=
  match lvl.tail with
  | some t => do
    let pool ← pool.modify t fun x => { x with next := some o }
    return (pool, lvl.head)
  | none => return (pool, some o)

def pushBack (lvl : PriceLevel) (pool : ObjectPool Order) (o : Ptr) :
    Mem (ObjectPool Order × PriceLevel) := do
  let pool ← pool.modify o fun x => { x with prev := lvl.tail, next := none }
  let (pool, head) ← lvl.linkTail pool o
  let x ← pool.deref o
  return (pool, { lvl with head, tail := some o, totalQty := lvl.totalQty + x.qty })

/-- `if (o->prev) o->prev->next = o->next; else head = o->next;` -/
def bypassPrev (lvl : PriceLevel) (pool : ObjectPool Order) (x : Order) :
    Mem (ObjectPool Order × Option Ptr) :=
  match x.prev with
  | some p => do
    let pool ← pool.modify p fun y => { y with next := x.next }
    return (pool, lvl.head)
  | none => return (pool, x.next)

/-- `if (o->next) o->next->prev = o->prev; else tail = o->prev;` -/
def bypassNext (lvl : PriceLevel) (pool : ObjectPool Order) (x : Order) :
    Mem (ObjectPool Order × Option Ptr) :=
  match x.next with
  | some n => do
    let pool ← pool.modify n fun y => { y with prev := x.prev }
    return (pool, lvl.tail)
  | none => return (pool, x.prev)

def unlink (lvl : PriceLevel) (pool : ObjectPool Order) (o : Ptr) :
    Mem (ObjectPool Order × PriceLevel) := do
  let x ← pool.deref o
  let (pool, head) ← lvl.bypassPrev pool x
  let x ← pool.deref o
  let (pool, tail) ← lvl.bypassNext pool x
  let x ← pool.deref o
  let pool ← pool.modify o fun y => { y with prev := none, next := none }
  return (pool, { lvl with head, tail, totalQty := lvl.totalQty - x.qty })

end PriceLevel

structure SideBook where
  side : Side
  levels : List PriceLevel := []
  deriving DecidableEq, Repr

namespace SideBook

def lessForSide (side : Side) (a b : Price) : Bool :=
  match side with
  | .buy => decide (a < b)
  | .sell => decide (a > b)

/-- `find_level`: the position `std::lower_bound` returns. -/
def findLevel (book : SideBook) (p : Price) : Nat :=
  Search.lowerBound (fun lvl => lessForSide book.side lvl.price p) book.levels

/-- The level a pointer into the vector points to. -/
def level (book : SideBook) (i : Nat) : Mem PriceLevel :=
  match book.levels[i]? with
  | some lvl => .ok lvl
  | none => .error .danglingPointer

def setLevel (book : SideBook) (i : Nat) (lvl : PriceLevel) : SideBook :=
  { book with levels := book.levels.set i lvl }

def find (book : SideBook) (p : Price) : Option Nat :=
  match book.levels[book.findLevel p]? with
  | some lvl => if lvl.price = p then some (book.findLevel p) else none
  | none => none

def getOrInsert (book : SideBook) (p : Price) : SideBook × Nat :=
  match book.find p with
  | some i => (book, i)
  | none =>
    let i := book.findLevel p
    ({ book with levels := book.levels.insertIdx i { price := p } }, i)

def eraseIfEmpty (book : SideBook) (i : Nat) : Mem SideBook := do
  let lvl ← book.level i
  if lvl.empty then
    match book.find lvl.price with
    | some k => return { book with levels := book.levels.eraseIdx k }
    | none => return book
  else return book

/-- `best`: the last level of the vector; null when there is none. -/
def best (book : SideBook) : Option Nat :=
  if book.levels = [] then none else some (book.levels.length - 1)

/-- What `best_bid` and `best_ask` report: the price of the best level, 0 when there is none. -/
def bestPrice (book : SideBook) : Price :=
  match book.levels.getLast? with
  | some lvl => lvl.price
  | none => 0

end SideBook

end Ob
