/-
**The representation is well formed after every call.**

`OrderBook.WellFormed` speaks of the book in memory alone: the order of the two level vectors, the
linked list of each level, its cached total, and the index.

* `run_wellFormed` — it holds after any calls, whatever their ids and callbacks, and `cancel` finds
  a live order and its level.
* `run_uncrossed` — every resting bid is below every resting ask.
-/

import OrderBook.Refine.Runs

namespace Ob

open Links

/-- A level in memory: its pointers spell out a doubly linked list of live orders, each of the
level's side and price and with something left, and the total is theirs modulo `2 ^ 64`. -/
structure OrderBook.LevelWf (b : OrderBook) (side : Side) (lvl : PriceLevel) : Prop where
  linked : Queue b.pool.read lvl.head lvl.tail (b.queue lvl)
  nonempty : lvl.head ≠ none
  sides : ∀ order ∈ b.queue lvl, order.val.side = side
  prices : ∀ order ∈ b.queue lvl, order.val.price = lvl.price
  positive : ∀ order ∈ b.queue lvl, 0 < order.val.qty
  total : lvl.totalQty.toNat = (quantities (b.queue lvl)).sum % 2 ^ 64

structure OrderBook.WellFormed (b : OrderBook) : Prop where
  bids : (b.bids.levels.map PriceLevel.price).Pairwise (· < ·)
  asks : (b.asks.levels.map PriceLevel.price).Pairwise (· > ·)
  levels : ∀ side, ∀ lvl ∈ (b.sideBook side).levels, b.LevelWf side lvl
  /-- No order is linked in two places. -/
  distinct : (b.orders.map Cell.addr).Nodup
  index : ∀ id o, b.idIndex.lookup id = some o →
    ∃ order ∈ b.orders, order.addr = o ∧ order.val.id = id

section Stands

variable {capacity : Nat} {held : List Ptr} {b : OrderBook} {m : Market}

/-- The prices of a vector rise towards the best. -/
theorem Stands.levels_sorted (stands : Stands capacity held b m) (side : Side) :
    ((b.sideBook side).levels.map PriceLevel.price).Pairwise fun p q =>
      rank side p < rank side q := by
  have sorted := (stands.wf.ladders side).sorted
  rw [Ladder.Sorted, ← (stands.rep.ladders side).prices, List.map_reverse, List.pairwise_reverse]
    at sorted
  exact sorted

theorem Stands.levelWf (stands : Stands capacity held b m) {side : Side} {lvl : PriceLevel}
    (member : lvl ∈ (b.sideBook side).levels) : b.LevelWf side lvl := by
  obtain ⟨rung, inLadder, here⟩ := rung_of_level stands.rep member
  have wf := (stands.wf.ladders side).rungs rung inLadder
  have same := queue_eq stands.rep stands.distinct here inLadder
  constructor
  · rw [same]
    exact here.queue
  · exact fun none => wf.nonempty (here.queue.nil_iff.mp none)
  · rw [same]
    exact wf.sides
  · rw [same, here.price]
    exact wf.prices
  · rw [same]
    exact wf.positive
  · rw [same, here.total, wf.total]
    exact UInt64.toNat_ofNat'

theorem Stands.wellFormed (stands : Stands capacity held b m) : b.WellFormed := by
  have orders := orders_eq stands.rep stands.distinct
  refine ⟨?_, ?_, fun side lvl member => stands.levelWf member, ?_, ?_⟩
  · have sorted := stands.levels_sorted .buy
    simp only [rank, ← Int64.lt_iff_toInt_lt] at sorted
    exact sorted
  · have sorted := stands.levels_sorted .sell
    simp only [rank, Int.neg_lt_neg_iff, ← Int64.lt_iff_toInt_lt] at sorted
    exact sorted
  · rw [orders]
    exact Market.linked_nodup stands.distinct
  · rw [orders, stands.rep.index]
    exact stands.wf.index

/-- An index entry points to a live order whose level `cancel` finds. -/
theorem Stands.cancel_finds (stands : Stands capacity held b m) {id : OrderId} {o : Ptr}
    (entry : b.idIndex.lookup id = some o) :
    ∃ x i, b.pool.read o = some x ∧ (b.sideBook x.side).find x.price = some i := by
  rw [stands.rep.index] at entry
  obtain ⟨order, member, rfl, _⟩ := stands.wf.index id o entry
  have inside := Market.mem_own_side stands.wf.ladders member
  have leaves := remove_leaves (stands.wf.ladders _) (side_nodup stands.distinct) inside
  obtain ⟨x, here, (value : x.toTicket = order.val)⟩ := stands.rep.live member
  obtain ⟨i, _, _, _, _, _, found, _⟩ := unrest_spec stands.rep leaves stands.distinct
  have side : x.side = order.val.side := congrArg Ticket.side value
  have price : x.price = order.val.price := congrArg Ticket.price value
  exact ⟨x, i, here, by rw [side, price, found]⟩

end Stands

/-- **After any calls the book is well formed**, and a cancel follows no pointer to a released slot
and finds the level it looks up. -/
theorem run_wellFormed {capacity : Nat} (positive : 0 < capacity)
    (requests : List OrderBook.Request) :
    ∃ b rets, Machine.run OrderBook.perform (OrderBook.new capacity) requests = .ok (b, rets) ∧
      b.WellFormed ∧ ∀ id, (∃ b' ret, b.cancel id = .ok (b', ret)) ∧
        ∀ o, b.idIndex.lookup id = some o →
          ∃ x i, b.pool.read o = some x ∧ (b.sideBook x.side).find x.price = some i := by
  obtain ⟨b, rets, ran, m, held, stands⟩ := run_stands positive requests
  refine ⟨b, rets, ran, stands.wellFormed, fun id => ⟨?_, fun o => stands.cancel_finds⟩⟩
  obtain ⟨b', cancelled, _⟩ := stands.cancel id
  exact ⟨b', _, cancelled⟩

/-- Two orders at two prices share an id, and a cancel takes one of them off. -/
theorem run_wellFormed_shared :
    ∃ b rets, Machine.run OrderBook.perform (OrderBook.new 3)
        [.submit ⟨1, 100, 5, 0, .buy, .limit⟩ (List Trade) OrderBook.recorder [],
          .submit ⟨1, 101, 5, 0, .buy, .limit⟩ (List Trade) OrderBook.recorder [], .cancel 1] =
        .ok (b, rets) ∧ b.WellFormed :=
  have ⟨b, rets, ran, wellFormed, _⟩ := run_wellFormed (by decide) _
  ⟨b, rets, ran, wellFormed⟩

/-- **After any calls the book is neither crossed nor locked.** -/
theorem run_uncrossed {capacity : Nat} (positive : 0 < capacity)
    (requests : List OrderBook.Request) :
    ∃ b rets, Machine.run OrderBook.perform (OrderBook.new capacity) requests = .ok (b, rets) ∧
      ∀ bid ∈ b.linked .buy, ∀ ask ∈ b.linked .sell, bid.val.price < ask.val.price := by
  obtain ⟨b, rets, ran, m, held, stands⟩ := run_stands positive requests
  refine ⟨b, rets, ran, ?_⟩
  rw [linked_eq stands.rep stands.distinct, linked_eq stands.rep stands.distinct]
  intro bid inBids ask inAsks
  obtain ⟨high, inBuy, _, bidPrice⟩ := (stands.wf.ladders .buy).rung_of_mem inBids
  obtain ⟨low, inSell, _, askPrice⟩ := (stands.wf.ladders .sell).rung_of_mem inAsks
  rw [← bidPrice, ← askPrice]
  exact stands.wf.uncrossed high inBuy low inSell

/-- A bid of 5 takes 3 at a lower price and rests with the other 2. -/
theorem run_uncrossed_remainder :
    ∃ b rets, Machine.run OrderBook.perform (OrderBook.new 3)
        [.submit ⟨1, 100, 3, 0, .sell, .limit⟩ (List Trade) OrderBook.recorder [],
          .submit ⟨2, 102, 4, 0, .sell, .limit⟩ (List Trade) OrderBook.recorder [],
          .submit ⟨3, 101, 5, 0, .buy, .limit⟩ (List Trade) OrderBook.recorder []] = .ok (b, rets) ∧
      ∀ bid ∈ b.linked .buy, ∀ ask ∈ b.linked .sell, bid.val.price < ask.val.price :=
  run_uncrossed (by decide) _

end Ob
