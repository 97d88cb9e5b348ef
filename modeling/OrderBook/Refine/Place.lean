/-
**Resting and cancelling in memory.**

The source finds the level of an order by binary search and splices the order into or out of the
level's queue. On a book that represents a market this succeeds and leaves a book that represents
the market with the order inserted or removed:

* `rest_spec` — an order in a slot of its own comes to rest.
* `unrest_spec` — a resting order leaves its level, which is erased when it was the last one.

Both follow the two relations `Joins` and `Leaves`: each says how the vector of levels splits around
the order's price, which is what the binary search finds.
-/

import OrderBook.Market.Place
import OrderBook.Refine.Match

namespace Ob

open Links ObjectPool

section Level

variable {pool : ObjectPool Order} {lvl : PriceLevel} {price : Price} {total : Quantity}

/-- An order in a slot of its own joins the queue of a level. -/
theorem pushBack_rung {queue : List Resting} {o : Ptr} {x : Order}
    (rep : RungRep pool.read lvl ⟨price, total, queue⟩) (here : pool.read o = some x)
    (distinct : (queue.map Cell.addr).Nodup) (fresh : o ∉ queue.map Cell.addr) :
    ∃ pool' lvl', lvl.pushBack pool o = .ok (pool', lvl') ∧
      RungRep pool'.read lvl' ⟨price, total + x.qty, queue ++ [⟨o, x.toTicket⟩]⟩ ∧
      pool'.link = pool.link ∧ pool'.freeHead = pool.freeHead ∧
      ∀ p, p ≠ o → p ∉ queue.map Cell.addr → pool'.read p = pool.read p := by
  have apart : lvl.tail ≠ some o := fun same => fresh (Seg.last_mem rep.queue same)
  have live : ∀ t, lvl.tail = some t → ∃ y, pool.read t = some y := by
    intro t tail
    obtain ⟨order, member, rfl⟩ := List.mem_map.mp (Seg.last_mem rep.queue tail)
    obtain ⟨y, there, _⟩ := Seg.node rep.queue order member
    exact ⟨y, there⟩
  obtain ⟨pool', done, written⟩ := pushBack_spec lvl here apart live
  refine ⟨pool', _, done, ⟨rep.price, ?_, ?_⟩, written.link, written.freeHead, ?_⟩
  · exact congrArg (· + x.qty) rep.total
  · have value : LinkedNode.val ({ x with prev := lvl.tail, next := none } : Order) =
        (⟨o, x.toTicket⟩ : Resting).val := rfl
    have pushed := Queue.pushBack rep.queue distinct fresh value rfl rfl
    rw [← written.read] at pushed
    exact pushed
  · intro p other outside
    rw [written.read, writeNext_of_ne _ fun same => outside (Seg.last_mem rep.queue same),
      Function.update_of_ne other]

/-- An order leaves the queue of its level; its own links are cleared. -/
theorem unlink_rung {order : Resting} {older newer : List Resting}
    (rep : RungRep pool.read lvl ⟨price, total, older ++ order :: newer⟩)
    (distinct : ((older ++ order :: newer).map Cell.addr).Nodup) :
    ∃ pool' lvl' x, lvl.unlink pool order.addr = .ok (pool', lvl') ∧
      RungRep pool'.read lvl' ⟨price, total - order.val.qty, older ++ newer⟩ ∧
      pool'.read order.addr = some x ∧
      pool'.link = pool.link ∧ pool'.freeHead = pool.freeHead ∧
      ∀ p, p ∉ (older ++ order :: newer).map Cell.addr → pool'.read p = pool.read p := by
  obtain ⟨x, here, (value : x.toTicket = order.val), left, right⟩ := Queue.around rep.queue
  have memPrev : ∀ p, x.prev = some p → p ∈ older.map Cell.addr := fun p prev => left.last_mem prev
  have memNext : ∀ n, x.next = some n → n ∈ newer.map Cell.addr :=
    fun n next => right.first_mem next
  have live : ∀ part : List Resting, (∀ other ∈ part, other ∈ older ++ order :: newer) →
      ∀ p ∈ part.map Cell.addr, ∃ y, pool.read p = some y := by
    intro part inside p member
    obtain ⟨other, inPart, rfl⟩ := List.mem_map.mp member
    obtain ⟨y, there, _⟩ := Seg.node rep.queue other (inside other inPart)
    exact ⟨y, there⟩
  have apart := distinct
  rw [List.map_append, List.map_cons, List.nodup_middle, List.nodup_cons, List.mem_append] at apart
  obtain ⟨pool', done, written⟩ := unlink_spec lvl here
    (fun same => apart.1 (.inl (memPrev _ same))) (fun same => apart.1 (.inr (memNext _ same)))
    (fun p prev => live older (fun _ => List.mem_append_left _) p (memPrev p prev))
    (fun n next =>
      live newer (fun _ member => List.mem_append_right _ (List.mem_cons_of_mem _ member)) n
      (memNext n next))
  refine ⟨pool', _, { x with prev := none, next := none }, done, ⟨rep.price, ?_, ?_⟩,
    ?_, written.link,
    written.freeHead, ?_⟩
  · show lvl.totalQty - x.qty = total - order.val.qty
    rw [← value]
    exact congrArg (· - x.qty) rep.total
  · show Queue pool'.read _ _ (older ++ newer)
    rw [written.read]
    have outside : order.addr ∉ (older ++ newer).map Cell.addr := by
      rw [List.map_append, List.mem_append]
      exact apart.1
    exact Seg.update_of_notMem (Queue.unlink rep.queue distinct here) outside _
  · rw [written.read, Function.update_self]
  · intro p outside
    rw [List.map_append, List.map_cons, List.mem_append, List.mem_cons, not_or, not_or] at outside
    rw [written.read, Function.update_of_ne outside.2.1,
      writePrev_of_ne _ fun same => outside.2.2 (memNext p same),
      writeNext_of_ne _ fun same => outside.1 (memPrev p same)]

end Level

/-! ### Coming to rest -/

section Rest

theorem SideBook.getOrInsert_queue {book : SideBook} {lows highs : List PriceLevel}
    {lvl : PriceLevel}
    {p : Price} (levels : book.levels = lows ++ lvl :: highs) (here : lvl.price = p)
    (low : ∀ l ∈ lows, rank book.side l.price < rank book.side p)
    (high : ∀ l ∈ highs, rank book.side p < rank book.side l.price) :
    book.getOrInsert p = (book, lows.length) := by
  rw [getOrInsert, find_append levels here low high]

theorem insertIdx_append {α : Type} (lows highs : List α) (x : α) :
    (lows ++ highs).insertIdx lows.length x = lows ++ x :: highs := by
  induction lows with
  | nil => exact List.insertIdx_zero
  | cons low lows ih => rw [List.cons_append, List.length_cons, List.insertIdx_succ_cons, ih]; rfl

theorem SideBook.getOrInsert_rung {book : SideBook} {lows highs : List PriceLevel} {p : Price}
    (levels : book.levels = lows ++ highs)
    (low : ∀ l ∈ lows, rank book.side l.price < rank book.side p)
    (high : ∀ l ∈ highs, rank book.side p < rank book.side l.price) :
    book.getOrInsert p =
      ({ book with levels := lows ++ { price := p } :: highs }, lows.length) := by
  rw [getOrInsert, find_none levels low high,
    findLevel_append levels low fun l member => Int.le_of_lt (high l member)]
  simp only [levels, insertIdx_append]

variable {side : Side} {order : Resting} {ladder ladder' above below : Ladder}

theorem LadderRep.lower {heap : Ptr → Option Order} {lows : List PriceLevel} {p : Price}
    (around : Around side p above below) (rep : LadderRep heap lows below) :
    ∀ l ∈ lows, rank side l.price < rank side p :=
  @LadderRep.price_mem _ _ _ rep (fun q => rank side q < rank side p) around.lower

theorem LadderRep.higher {heap : Ptr → Option Order} {highs : List PriceLevel} {p : Price}
    (around : Around side p above below) (rep : LadderRep heap highs above) :
    ∀ l ∈ highs, rank side p < rank side l.price :=
  @LadderRep.price_mem _ _ _ rep (fun q => rank side p < rank side q) around.higher

/-- The level an order is pushed on: one that was there, or a new and still empty one. -/
theorem getOrInsert_spec {heap : Ptr → Option Order} {book : SideBook}
    (own : book.side = side) (rep : LadderRep heap book.levels ladder)
    (joins : Joins side order ladder ladder') :
    ∃ book' lows lvl highs above below total queue,
      book.getOrInsert order.val.price = (book', lows.length) ∧ book'.side = side ∧
      book'.levels = lows ++ lvl :: highs ∧ LadderRep heap highs above ∧
      RungRep heap lvl ⟨order.val.price, total, queue⟩ ∧ LadderRep heap lows below ∧
      ladder' = above ++ ⟨order.val.price, total + order.val.qty, queue ++ [order]⟩ :: below ∧
      ladder.orders = above.orders ++ (queue ++ below.orders) := by
  subst own
  cases joins with
  | @queue above below total queue around =>
    obtain ⟨lows, lvl, highs, levels, high, here, low⟩ := rep.middle
    refine ⟨book, lows, lvl, highs, above, below, total, queue, ?_, rfl, levels, high,
      here, low, rfl, ?_⟩
    · exact SideBook.getOrInsert_queue levels here.price (low.lower around) (high.higher around)
    · rw [Ladder.orders_append, Ladder.orders_cons]
  | @rung above below around =>
    obtain ⟨lows, highs, levels, high, low⟩ := rep.split
    refine ⟨_, lows, { price := order.val.price }, highs, above, below, 0, [],
      SideBook.getOrInsert_rung levels (low.lower around) (high.higher around), rfl, rfl, high,
      ⟨rfl, rfl, .nil⟩, low, ?_, Ladder.orders_append _ _⟩
    rw [UInt64.zero_add]
    rfl

/-- **An order comes to rest.** -/
theorem rest_spec {b : OrderBook} {m : Market} {o : Ptr} {x : Order} (rep : Rep b m)
    (sorted : (m.ladder x.side).Sorted x.side) (here : b.pool.read o = some x)
    (distinct : (o :: m.slots).Nodup) :
    ∃ b', b.rest o = .ok b' ∧ Rep b' (m.rest ⟨o, x.toTicket⟩) := by
  obtain ⟨fresh, distinct'⟩ := List.nodup_cons.mp distinct
  have joins : Joins x.side ⟨o, x.toTicket⟩ (m.ladder x.side)
      (Ladder.insert x.side ⟨o, x.toTicket⟩ (m.ladder x.side)) := insert_joins sorted
  obtain ⟨book, lows, lvl, highs, above, below, total, queue, found, own, levels, high, rung, low,
    shape, orders⟩ := getOrInsert_spec (rep.sides x.side) (rep.ladders x.side) joins
  obtain ⟨inQueue, offAbove, offBelow, offOther⟩ := queue_apart distinct' orders
  have freshSide : ∀ other ∈ (m.ladder x.side).orders, other.addr ≠ o := taker_apart distinct
  rw [orders] at freshSide
  have freshQueue : o ∉ queue.map Cell.addr := by
    intro inside
    obtain ⟨cell, member, same⟩ := List.mem_map.mp inside
    exact freshSide cell (List.mem_append_right _ (List.mem_append_left _ member)) same
  obtain ⟨pool, lvl', pushed, rung', link, freeHead, frame⟩ :=
    pushBack_rung rung here inQueue freshQueue
  refine ⟨{ b.withSideBook x.side (book.setLevel lows.length lvl') with
    pool := pool, idIndex := b.idIndex.emplace x.id o }, ?_, ?_⟩
  · unfold OrderBook.rest
    simp only [deref_eq here, Mem.ok_bind, found, SideBook.level_append levels, pushed, Mem.pure_eq]
  · have index : b.idIndex.emplace x.id o = m.index.emplace x.id o := by rw [rep.index]
    rw [index]
    refine rep.update own ?_ (fun other member => ?_) ?_
    · show LadderRep pool.read _ (Ladder.insert x.side ⟨o, x.toTicket⟩ (m.ladder x.side))
      rw [shape, SideBook.setLevel_append levels]
      refine LadderRep.cons (high.congr fun other member => ?_) rung'
        (low.congr fun other member => ?_)
      · exact frame _ (freshSide other (List.mem_append_left _ member)) (offAbove other member)
      · exact frame _ (freshSide other (List.mem_append_right _ (List.mem_append_right _ member)))
          (offBelow other member)
    · exact frame _ (taker_apart distinct other member) (offOther other member)
    · rw [link, freeHead]
      exact rep.free

end Rest

/-! ### Cancelling -/

section Unrest

variable {b : OrderBook} {m : Market} {order : Resting}

/-- The level of a resting order is found and the order leaves its queue. -/
theorem unlinkLevel_spec (rep : Rep b m) {side : Side} {above below : Ladder} {total : Quantity}
    {older newer : List Resting} (around : Around side order.val.price above below)
    (shape : m.ladder side = above ++ ⟨order.val.price, total, older ++ order :: newer⟩ :: below)
    (distinct : m.slots.Nodup) :
    ∃ lows lvl highs pool lvl' x, (b.sideBook side).levels = lows ++ lvl :: highs ∧
      (b.sideBook side).find order.val.price = some lows.length ∧
      lvl.unlink b.pool order.addr = .ok (pool, lvl') ∧ LadderRep pool.read highs above ∧
      RungRep pool.read lvl' ⟨order.val.price, total - order.val.qty, older ++ newer⟩ ∧
      LadderRep pool.read lows below ∧ pool.read order.addr = some x ∧ pool.link = b.pool.link ∧
      pool.freeHead = b.pool.freeHead ∧
      ∀ other ∈ (m.ladder side.opposite).orders, pool.read other.addr = b.pool.read other.addr := by
  have spelled := rep.ladders side
  rw [shape] at spelled
  obtain ⟨lows, lvl, highs, levels, high, here, low⟩ := spelled.middle
  have orders : (m.ladder side).orders =
      above.orders ++ ((older ++ order :: newer) ++ below.orders) := by
    rw [shape, Ladder.orders_append, Ladder.orders_cons]
  obtain ⟨inQueue, offAbove, offBelow, offOther⟩ := queue_apart distinct orders
  obtain ⟨pool, lvl', x, unlinked, here', there, link, freeHead, frame⟩ := unlink_rung here inQueue
  have found : (b.sideBook side).find order.val.price = some lows.length := by
    refine SideBook.find_append levels here.price ?_ ?_
    · rw [rep.sides]
      exact low.lower around
    · rw [rep.sides]
      exact high.higher around
  exact ⟨lows, lvl, highs, pool, lvl', x, levels, found, unlinked,
    high.congr fun other member => frame _ (offAbove other member), here',
    low.congr fun other member => frame _ (offBelow other member), there, link, freeHead,
    fun other member => frame _ (offOther other member)⟩

/-- The level of a resting order is found, the order leaves it, and it is erased if that was its
last order. -/
theorem unrest_spec (rep : Rep b m) {side : Side} {ladder : Ladder}
    (leaves : Leaves side order (m.ladder side) ladder) (distinct : m.slots.Nodup) :
    ∃ i lvl pool lvl' book x, (b.sideBook side).find order.val.price = some i ∧
      (b.sideBook side).level i = .ok lvl ∧ lvl.unlink b.pool order.addr = .ok (pool, lvl') ∧
      (if lvl'.empty = true then ((b.sideBook side).setLevel i lvl').eraseIfEmpty i
        else .ok ((b.sideBook side).setLevel i lvl')) = .ok book ∧
      book.side = side ∧ LadderRep pool.read book.levels ladder ∧
      pool.read order.addr = some x ∧ pool.link = b.pool.link ∧ pool.freeHead = b.pool.freeHead ∧
      ∀ other ∈ (m.ladder side.opposite).orders, pool.read other.addr = b.pool.read other.addr := by
  generalize shape : m.ladder side = before at leaves
  cases leaves with
  | @queue above below total older newer around remains =>
    obtain ⟨lows, lvl, highs, pool, lvl', x, levels, found, unlinked, high, here, low, there, link,
      freeHead, frame⟩ := unlinkLevel_spec rep around shape distinct
    have kept : ¬lvl'.empty = true := fun empty => remains (here.empty_iff.mp empty)
    refine ⟨lows.length, lvl, pool, lvl', _, x, found, SideBook.level_append levels, unlinked,
      if_neg kept, rep.sides side, ?_, there, link, freeHead, frame⟩
    rw [SideBook.setLevel_append levels]
    exact high.cons here low
  | @rung above below total around =>
    have alone :
        m.ladder side = above ++ ⟨order.val.price, total, [] ++ order :: []⟩ :: below := shape
    obtain ⟨lows, lvl, highs, pool, lvl', x, levels, found, unlinked, high, here, low, there, link,
      freeHead, frame⟩ := unlinkLevel_spec rep around alone distinct
    have empty : lvl'.empty = true := here.empty_iff.mpr rfl
    have levels' := SideBook.setLevel_append levels lvl'
    have erased : ((b.sideBook side).setLevel lows.length lvl').eraseIfEmpty lows.length =
        .ok { (b.sideBook side).setLevel lows.length lvl' with levels := lows ++ highs } := by
      refine SideBook.eraseIfEmpty_append levels' empty ?_ ?_
      · show ∀ l ∈ lows, rank (b.sideBook side).side l.price < rank
          (b.sideBook side).side lvl'.price
        rw [rep.sides, here.price]
        exact low.lower around
      · show ∀ l ∈ highs, rank (b.sideBook side).side lvl'.price < rank
          (b.sideBook side).side l.price
        rw [rep.sides, here.price]
        exact high.higher around
    exact ⟨lows.length, lvl, pool, lvl', _, x, found, SideBook.level_append levels, unlinked,
      (if_pos empty).trans erased, rep.sides side, high.append low, there, link, freeHead, frame⟩

end Unrest

end Ob
