/-
**Reading a book back.**

`queue` and `linked` follow the pointers of a book from the heads of its levels, so they are
functions of the book as it is in memory, and with the prices and totals of the levels they give the
`ladder` of a side; `freeSlots` follows the free list. On a book that represents a market these are
the queues, the ladders, the orders and the free slots of the market (`queue_eq`, `ladder_eq`,
`linked_eq`, `freeSlots_eq`), and the prices and counts that the source reports are those of the
market.
-/

import OrderBook.Refine.Submit

namespace Ob

open Links

/-- The queue that starts at a pointer, followed through at most so many nodes. -/
def ObjectPool.walk (pool : ObjectPool Order) : Nat → Option Ptr → List Resting
  | 0, _ => []
  | _ + 1, none => []
  | turns + 1, some p =>
    match pool.read p with
    | none => []
    | some x => ⟨p, x.toTicket⟩ :: pool.walk turns x.next

/-- The free list that starts at a pointer, followed through at most so many slots. -/
def ObjectPool.freeWalk (pool : ObjectPool Order) : Nat → Option Ptr → List Ptr
  | 0, _ => []
  | _ + 1, none => []
  | turns + 1, some p =>
    match pool.link p with
    | none => []
    | some next => p :: pool.freeWalk turns next

namespace OrderBook

/-- The orders linked in a level, oldest first. -/
def queue (b : OrderBook) (lvl : PriceLevel) : List Resting := b.pool.walk b.pool.capacity lvl.head

/-- The levels of a side as they are in memory, best level first. -/
def ladder (b : OrderBook) (side : Side) : Ladder :=
  (b.sideBook side).levels.reverse.map fun lvl => ⟨lvl.price, lvl.totalQty, b.queue lvl⟩

/-- The orders linked on a side, best level first. -/
def linked (b : OrderBook) (side : Side) : List Resting :=
  (b.sideBook side).levels.reverse.flatMap b.queue

/-- The orders linked on both sides. -/
def orders (b : OrderBook) : List Resting := b.linked .buy ++ b.linked .sell

/-- The free slots, the next one to be taken first. -/
def freeSlots (b : OrderBook) : List Ptr := b.pool.freeWalk b.pool.capacity b.pool.freeHead

/-- Two books with the same levels, index and free slots; their clocks may differ. -/
structure Alike (b b' : OrderBook) : Prop where
  ladders : ∀ side, b.ladder side = b'.ladder side
  index : b.idIndex = b'.idIndex
  slots : b.freeSlots = b'.freeSlots

end OrderBook

theorem walk_eq {pool : ObjectPool Order} {cells : List Resting} :
    ∀ {before head tail : Option Ptr} {turns : Nat}, Seg pool.read before head cells tail none →
      cells.length ≤ turns → pool.walk turns head = cells := by
  induction cells with
  | nil =>
    intro before head tail turns seg enough
    cases seg
    cases turns <;> rfl
  | cons cell cells ih =>
    intro before head tail turns seg enough
    obtain ⟨turns, rfl⟩ := Nat.exists_eq_add_of_lt enough
    obtain ⟨node, rfl, here, (value : node.toTicket = cell.val), back, rest⟩ := seg.head
    simp only [ObjectPool.walk, here, value]
    exact congrArg (cell :: ·) (ih rest (Nat.le_add_right _ _))

theorem freeWalk_eq {pool : ObjectPool Order} {free : List Ptr} :
    ∀ {head : Option Ptr} {turns : Nat}, Chain pool.link head free →
      free.length ≤ turns → pool.freeWalk turns head = free := by
  induction free with
  | nil =>
    intro head turns chain enough
    cases chain
    cases turns <;> rfl
  | cons slot free ih =>
    intro head turns chain enough
    obtain ⟨turns, rfl⟩ := Nat.exists_eq_add_of_lt enough
    cases chain with
    | cons here rest =>
      simp only [ObjectPool.freeWalk, here]
      exact congrArg (slot :: ·) (ih rest (Nat.le_add_right _ _))

section View

variable {b : OrderBook} {m : Market}

/-- A level's pointers spell out the queue of its rung. -/
theorem queue_eq (rep : Rep b m) (distinct : m.slots.Nodup) {side : Side} {lvl : PriceLevel}
    {rung : Rung} (here : RungRep b.pool.read lvl rung) (member : rung ∈ m.ladder side) :
    b.queue lvl = rung.queue :=
  walk_eq here.queue (Nat.le_of_lt_succ (queue_short rep distinct side rung member))

theorem ladder_eq (rep : Rep b m) (distinct : m.slots.Nodup) (side : Side) :
    b.ladder side = m.ladder side := by
  have queues : ∀ lvl, ∀ rung ∈ m.ladder side, RungRep b.pool.read lvl rung →
      b.queue lvl = rung.queue := fun lvl rung member here => queue_eq rep distinct here member
  have spelled := rep.ladders side
  unfold LadderRep at spelled
  unfold OrderBook.ladder
  generalize (b.sideBook side).levels.reverse = levels at spelled
  generalize m.ladder side = ladder at queues spelled
  induction spelled with
  | nil => rfl
  | @cons lvl rung levels ladder here _ ih =>
    rw [List.map_cons, queues lvl rung List.mem_cons_self here, here.price, here.total,
      ih fun lvl rung member => queues lvl rung (List.mem_cons_of_mem _ member)]

theorem linked_eq (rep : Rep b m) (distinct : m.slots.Nodup) (side : Side) :
    b.linked side = (m.ladder side).orders := by
  rw [← ladder_eq rep distinct side, OrderBook.linked, OrderBook.ladder, Ladder.orders,
    List.flatMap_map]

theorem orders_eq (rep : Rep b m) (distinct : m.slots.Nodup) : b.orders = m.linked := by
  rw [OrderBook.orders, linked_eq rep distinct, linked_eq rep distinct]
  rfl

/-- The links of the free list spell out the market's. -/
theorem freeSlots_eq (rep : Rep b m) (distinct : m.slots.Nodup) : b.freeSlots = m.free := by
  refine freeWalk_eq rep.free ?_
  have inside : m.free ⊆ List.range b.pool.capacity := by
    intro slot member
    obtain ⟨link, here⟩ := rep.free.link_of_mem slot member
    exact List.mem_range.mpr (ObjectPool.lt_of_link here)
  have short := (List.subperm_of_subset (List.nodup_append.mp distinct).1 inside).length_le
  rwa [List.length_range] at short

theorem bestPrice_eq (rep : Rep b m) (side : Side) :
    (b.sideBook side).bestPrice = (m.ladder side).bestPrice := by
  have spelled := rep.ladders side
  rw [SideBook.bestPrice, List.getLast?_eq_head?_reverse]
  unfold LadderRep at spelled
  generalize (b.sideBook side).levels.reverse = levels at spelled
  generalize m.ladder side = ladder at spelled
  cases spelled with
  | nil => rfl
  | cons here _ => exact here.price

/-- Every level stands for a rung. -/
theorem rung_of_level (rep : Rep b m) {side : Side} {lvl : PriceLevel}
    (member : lvl ∈ (b.sideBook side).levels) :
    ∃ rung ∈ m.ladder side, RungRep b.pool.read lvl rung := by
  have spelled := rep.ladders side
  have member' : lvl ∈ (b.sideBook side).levels.reverse := List.mem_reverse.mpr member
  unfold LadderRep at spelled
  generalize (b.sideBook side).levels.reverse = levels at member' spelled
  generalize m.ladder side = ladder at spelled
  induction spelled with
  | nil => cases member'
  | @cons first rung levels ladder here _ ih =>
    rcases List.mem_cons.mp member' with rfl | below
    · exact ⟨rung, List.mem_cons_self, here⟩
    · obtain ⟨other, inLadder, there⟩ := ih below
      exact ⟨other, List.mem_cons_of_mem _ inLadder, there⟩

/-- Every rung has its level. -/
theorem level_of_rung (rep : Rep b m) {side : Side} {rung : Rung} (member : rung ∈ m.ladder side) :
    ∃ lvl ∈ (b.sideBook side).levels, RungRep b.pool.read lvl rung := by
  obtain ⟨above, below, shape⟩ := List.append_of_mem member
  have spelled := rep.ladders side
  rw [shape] at spelled
  obtain ⟨lows, lvl, highs, levels, _, here, _⟩ := spelled.middle
  refine ⟨lvl, ?_, here⟩
  rw [levels]
  exact List.mem_append_right _ List.mem_cons_self

end View

end Ob
