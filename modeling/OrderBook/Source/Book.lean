/-
**The matching engine.**

The class `OrderBook` of `order_book.hpp` and `order_book.cpp`. The two nested loops of `match` run
under a bound on their turns; running out of turns is a fault, so a result of `submit` also says
that the loops ended by their own conditions.

A trade callback has a state of its own and may throw. An exception leaves `submit` at the call, so
the result of a call holds the book and the callback's state as they are at that point, and the
return value only if there is one.
-/

import Mathlib.Data.List.AList
import OrderBook.Source.SideBook

namespace Ob

/-- `std::unordered_map<OrderId, Order*>`: one entry for a key. -/
abbrev IdIndex := AList fun _ : OrderId => Ptr

/-- `emplace` keeps the entry that is already there. -/
def IdIndex.emplace (index : IdIndex) (id : OrderId) (o : Ptr) : IdIndex :=
  if id ∈ index then index else index.insert id o

/-- A trade callback: from its state and a trade to its next state, or an exception. -/
abbrev TradeCallback (σ : Type) := σ → Trade → Option σ

structure OrderBook where
  pool : ObjectPool Order
  bids : SideBook
  asks : SideBook
  idIndex : IdIndex
  clock : Timestamp
  deriving DecidableEq

def priceCrosses (taker : Side) (takerPx bookPx : Price) : Bool :=
  match taker with
  | .buy => decide (bookPx ≤ takerPx)
  | .sell => decide (bookPx ≥ takerPx)

namespace OrderBook

def new (poolCapacity : Nat) : OrderBook where
  pool := ObjectPool.new poolCapacity
  bids := { side := .buy }
  asks := { side := .sell }
  idIndex := ∅
  clock := 0

def bestBid (b : OrderBook) : Price := b.bids.bestPrice

def bestAsk (b : OrderBook) : Price := b.asks.bestPrice

def restingOrders (b : OrderBook) : Nat := b.idIndex.entries.length

/-- `(side == Side::Buy) ? bids_ : asks_`. -/
def sideBook (b : OrderBook) : Side → SideBook
  | .buy => b.bids
  | .sell => b.asks

def withSideBook (b : OrderBook) (side : Side) (book : SideBook) : OrderBook :=
  { b with
    bids := match side with
      | .buy => book
      | .sell => b.bids
    asks := match side with
      | .buy => b.asks
      | .sell => book }

/-- `match` in progress: the book, the callback's state, and whether the callback has thrown. -/
structure Run (σ : Type) where
  book : OrderBook
  seen : σ
  threw : Bool := false

variable {σ : Type}

/-- `best->head = maker->next`, with the new head's or the level's back link cleared. -/
def dropHead (pool : ObjectPool Order) (lvl : PriceLevel) (maker : Order) :
    Mem (ObjectPool Order × PriceLevel) :=
  match maker.next with
  | some h => do
    let pool ← pool.modify h fun x => { x with prev := none }
    return (pool, { lvl with head := some h })
  | none => return (pool, { lvl with head := none, tail := none })

/-- The body of the inner loop: the taker trades with the maker at the head of the best level. -/
def fillHead (onTrade : TradeCallback σ) (takerSide : Side) (taker : Ptr) (best : Nat) (maker : Ptr)
    (run : Run σ) : Mem (Run σ) := do
  let opp := run.book.sideBook takerSide.opposite
  let lvl ← opp.level best
  let t ← run.book.pool.deref taker
  let m ← run.book.pool.deref maker
  let fill := min t.qty m.qty
  match onTrade run.seen
      { makerId := m.id, takerId := t.id, price := lvl.price, qty := fill, ts := t.ts } with
  | none => return { run with threw := true }
  | some seen =>
    let pool ← run.book.pool.modify taker fun x => { x with qty := x.qty - fill }
    let pool ← pool.modify maker fun x => { x with qty := x.qty - fill }
    let lvl := { lvl with totalQty := lvl.totalQty - fill }
    let m ← pool.deref maker
    if m.qty = 0 then
      let (pool, lvl) ← dropHead pool lvl m
      let idIndex := run.book.idIndex.erase m.id
      let pool ← pool.release maker
      let book := run.book.withSideBook takerSide.opposite (opp.setLevel best lvl)
      return { run with book := { book with pool, idIndex }, seen }
    else
      let book := run.book.withSideBook takerSide.opposite (opp.setLevel best lvl)
      return { run with book := { book with pool }, seen }

/-- The inner loop: `while (taker.qty > 0 && best->head)`. -/
def fillLoop (onTrade : TradeCallback σ) (takerSide : Side) (taker : Ptr) (best : Nat) :
    Nat → Run σ → Mem (Run σ)
  | 0, _ => .error .loopBound
  | turns + 1, run => do
    let t ← run.book.pool.deref taker
    let lvl ← (run.book.sideBook takerSide.opposite).level best
    if t.qty > 0 then
      match lvl.head with
      | none => return run
      | some maker =>
        let run ← fillHead onTrade takerSide taker best maker run
        if run.threw then return run else fillLoop onTrade takerSide taker best turns run
    else return run

/-- The outer loop, entered with at most `turns` turns to go; each run of the inner loop has at most
`inner`. -/
def matchLoop (onTrade : TradeCallback σ) (takerSide : Side) (taker : Ptr) (inner : Nat) :
    Nat → Run σ → Mem (Run σ)
  | 0, _ => .error .loopBound
  | turns + 1, run => do
    let t ← run.book.pool.deref taker
    if t.qty > 0 then
      match (run.book.sideBook takerSide.opposite).best with
      | none => return run
      | some best =>
        let lvl ← (run.book.sideBook takerSide.opposite).level best
        if t.type ≠ .market ∧ priceCrosses takerSide t.price lvl.price = false then return run
        else
          let run ← fillLoop onTrade takerSide taker best inner run
          if run.threw then return run
          else
            let opp := run.book.sideBook takerSide.opposite
            let lvl ← opp.level best
            let opp ← (if lvl.empty then opp.eraseIfEmpty best else pure opp)
            matchLoop onTrade takerSide taker inner turns
              { run with book := run.book.withSideBook takerSide.opposite opp }
    else return run

/-- `match<TakerSide>`; a queue holds no more orders than the pool has slots. -/
def «match» (b : OrderBook) (takerSide : Side) (taker : Ptr) (onTrade : TradeCallback σ)
    (seen : σ) : Mem (Run σ) :=
  matchLoop onTrade takerSide taker (b.pool.capacity + 1)
    ((b.sideBook takerSide.opposite).levels.length + 1) { book := b, seen }

def rest (b : OrderBook) (o : Ptr) : Mem OrderBook := do
  let x ← b.pool.deref o
  let (book, i) := (b.sideBook x.side).getOrInsert x.price
  let lvl ← book.level i
  let (pool, lvl) ← lvl.pushBack b.pool o
  return { b.withSideBook x.side (book.setLevel i lvl) with
    pool, idIndex := b.idIndex.emplace x.id o }

/-- What the FOK check still needs after the levels, best first. -/
def stillNeeded (side : Side) (price : Price) : List PriceLevel → Quantity → Quantity
  | [], needed => needed
  | lvl :: levels, needed =>
    if needed > 0 then
      if priceCrosses side price lvl.price then
        stillNeeded side price levels (if lvl.totalQty ≥ needed then 0 else needed - lvl.totalQty)
      else needed
    else needed

/-- How a call of `submit` ended. `ret` is the return value; there is none when the callback threw.
`dropped` is the quantity that was left on the order when its slot went back to the pool. -/
structure Submitted (σ : Type) where
  book : OrderBook
  seen : σ
  ret : Option Bool
  dropped : Quantity := 0

/-- `submit` after the FOK check: the order in slot `o` trades, and its remainder rests or its slot
is released. -/
def execute (b : OrderBook) (ticket : Ticket) (o : Ptr) (onTrade : TradeCallback σ) (seen : σ) :
    Mem (Submitted σ) := do
  let run ← b.match ticket.side o onTrade seen
  if run.threw then return { book := run.book, seen := run.seen, ret := none }
  else
    let x ← run.book.pool.deref o
    let remaining := x.qty
    let pool ← run.book.pool.modify o fun x => { x with qty := remaining }
    let b := { run.book with pool }
    if remaining > 0 ∧ ticket.type = .limit then
      let b ← b.rest o
      return { book := b, seen := run.seen, ret := some true }
    else
      let pool ← b.pool.release o
      return { book := { b with pool }, seen := run.seen, ret := some true, dropped := remaining }

def submit (b : OrderBook) (ticket : Ticket) (onTrade : TradeCallback σ) (seen : σ) :
    Mem (Submitted σ) := do
  if ticket.qty = 0 then return { book := b, seen, ret := some true }
  else
    let clock := if ticket.ts = 0 then b.clock + 1 else b.clock
    let ts := if ticket.ts = 0 then clock else ticket.ts
    let (o, pool) ← b.pool.acquire { ticket with ts }
    match o with
    | none => return { book := b, seen, ret := some false }
    | some o =>
      let b := { b with pool, clock }
      if ticket.type = .fok ∧
          stillNeeded ticket.side ticket.price (b.sideBook ticket.side.opposite).levels.reverse
            ticket.qty > 0 then
        let pool ← b.pool.release o
        return { book := { b with pool }, seen, ret := some true, dropped := ticket.qty }
      else b.execute ticket o onTrade seen

def cancel (b : OrderBook) (id : OrderId) : Mem (OrderBook × Bool) :=
  match b.idIndex.lookup id with
  | none => return (b, false)
  | some o => do
    let x ← b.pool.deref o
    let book := b.sideBook x.side
    let (pool, book) ← (match book.find x.price with
      | none => pure (b.pool, book)
      | some i => do
        let lvl ← book.level i
        let (pool, lvl) ← lvl.unlink b.pool o
        let book := book.setLevel i lvl
        let book ← (if lvl.empty then book.eraseIfEmpty i else pure book)
        pure (pool, book))
    let idIndex := b.idIndex.erase id
    let pool ← pool.release o
    return ({ b.withSideBook x.side book with pool, idIndex }, true)

/-! ### Calls -/

/-- A call of the public interface with the callback of its caller. -/
inductive Request
  | submit (ticket : Ticket) (σ : Type) (onTrade : TradeCallback σ) (seen : σ)
  | cancel (id : OrderId)

/-- The callback of the call, if it has one, does not throw. -/
def Request.Returns : Request → Prop
  | .submit _ _ onTrade _ => ∀ seen trade, onTrade seen trade ≠ none
  | .cancel _ => True

/-- A call on the book, with its return value if it returns. -/
def perform (b : OrderBook) : Request → Mem (OrderBook × Option Bool)
  | .submit ticket _ onTrade seen => do
    let done ← b.submit ticket onTrade seen
    return (done.book, done.ret)
  | .cancel id => do
    let (b, ret) ← b.cancel id
    return (b, some ret)

/-- A callback that records every trade and returns. -/
def recorder : TradeCallback (List Trade) := fun trades trade => some (trades ++ [trade])

/-- A call of the public interface. -/
inductive Call
  | submit (ticket : Ticket)
  | cancel (id : OrderId)
  deriving DecidableEq, Repr

/-- What a caller sees of a call: the return value and the trades reported to it. `dropped` is the
remainder of a submitted order that was neither traded nor rested. -/
structure Reply where
  ret : Bool
  trades : List Trade
  dropped : Quantity
  deriving DecidableEq, Repr

def handle (b : OrderBook) : Call → Mem (OrderBook × Reply)
  | .submit ticket => do
    let done ← b.submit ticket recorder []
    return (done.book, { ret := done.ret.getD false, trades := done.seen, dropped := done.dropped })
  | .cancel id => do
    let (b, ret) ← b.cancel id
    return (b, { ret, trades := [], dropped := 0 })

end OrderBook

end Ob
