/-
**Which market a book in memory represents.**

`Rep b m`: the level vectors of `b`, read backwards, are the ladders of `m`, each level's queue
being the linked list its ends point to; the free list of the pool is `m.free`; index and clock are
the same. `Rep.update` is the frame rule: a change to one side needs the queues of that side and the
free list, and that the orders of the other side were not written to.
-/

import OrderBook.Market.Basic
import OrderBook.Refine.Memory

namespace Ob

open Links

/-- A level in memory and the rung it stands for. -/
structure RungRep (heap : Ptr → Option Order) (lvl : PriceLevel) (rung : Rung) : Prop where
  price : lvl.price = rung.price
  total : lvl.totalQty = rung.total
  queue : Queue heap lvl.head lvl.tail rung.queue

/-- A vector of levels, worst first, and the ladder it stands for. -/
def LadderRep (heap : Ptr → Option Order) (levels : List PriceLevel) (ladder : Ladder) : Prop :=
  List.Forall₂ (RungRep heap) levels.reverse ladder

structure Rep (b : OrderBook) (m : Market) : Prop where
  sides : ∀ side, (b.sideBook side).side = side
  ladders : ∀ side, LadderRep b.pool.read (b.sideBook side).levels (m.ladder side)
  free : Chain b.pool.link b.pool.freeHead m.free
  index : b.idIndex = m.index
  clock : b.clock = m.clock

/-! ### Ladders -/

section LadderRep

variable {heap heap' : Ptr → Option Order} {levels : List PriceLevel} {ladder : Ladder}

theorem RungRep.congr {lvl : PriceLevel} {rung : Rung} (rep : RungRep heap lvl rung)
    (same : ∀ order ∈ rung.queue, heap' order.addr = heap order.addr) : RungRep heap' lvl rung :=
  ⟨rep.price, rep.total, Seg.congr rep.queue same⟩

/-- A level without a head is a rung without orders. -/
theorem RungRep.empty_iff {lvl : PriceLevel} {rung : Rung} (rep : RungRep heap lvl rung) :
    lvl.empty = true ↔ rung.queue = [] :=
  Option.isNone_iff_eq_none.trans (Queue.nil_iff rep.queue)

theorem LadderRep.congr (rep : LadderRep heap levels ladder)
    (same : ∀ order ∈ ladder.orders, heap' order.addr = heap order.addr) :
    LadderRep heap' levels ladder := by
  unfold LadderRep at rep ⊢
  generalize levels.reverse = reversed at rep ⊢
  induction rep with
  | nil => exact .nil
  | cons here _ ih =>
    refine .cons (here.congr fun order member => same order ?_)
      (ih fun order member => same order ?_)
    · exact List.mem_append_left _ member
    · exact List.mem_append_right _ member

theorem LadderRep.nil : LadderRep heap [] [] := List.Forall₂.nil

/-- The pieces of a ladder are represented by the pieces of the vector, the other way round. -/
theorem LadderRep.append {lows highs : List PriceLevel} {above below : Ladder}
    (high : LadderRep heap highs above) (low : LadderRep heap lows below) :
    LadderRep heap (lows ++ highs) (above ++ below) := by
  unfold LadderRep
  rw [List.reverse_append]
  exact List.rel_append high low

theorem LadderRep.single {lvl : PriceLevel} {rung : Rung} (rep : RungRep heap lvl rung) :
    LadderRep heap [lvl] [rung] := .cons rep .nil

theorem LadderRep.cons {lows highs : List PriceLevel} {above below : Ladder} {lvl : PriceLevel}
    {rung : Rung} (high : LadderRep heap highs above) (here : RungRep heap lvl rung)
    (low : LadderRep heap lows below) :
    LadderRep heap (lows ++ lvl :: highs) (above ++ rung :: below) := by
  have joint := high.append ((LadderRep.single here).append low)
  rwa [List.append_assoc] at joint

theorem LadderRep.split {above below : Ladder} (rep : LadderRep heap levels (above ++ below)) :
    ∃ lows highs, levels = lows ++ highs ∧ LadderRep heap highs above ∧
      LadderRep heap lows below := by
  refine ⟨(levels.reverse.drop above.length).reverse, (levels.reverse.take above.length).reverse,
    ?_, ?_, ?_⟩
  · rw [← List.reverse_append, List.take_append_drop, List.reverse_reverse]
  · unfold LadderRep
    rw [List.reverse_reverse]
    exact List.forall₂_take_append _ _ _ rep
  · unfold LadderRep
    rw [List.reverse_reverse]
    exact List.forall₂_drop_append _ _ _ rep

theorem LadderRep.uncons {rung : Rung} (rep : LadderRep heap levels (rung :: ladder)) :
    ∃ lows lvl, levels = lows ++ [lvl] ∧ RungRep heap lvl rung ∧ LadderRep heap lows ladder := by
  have joint : LadderRep heap levels ([rung] ++ ladder) := rep
  obtain ⟨lows, highs, rfl, high, low⟩ := joint.split
  unfold LadderRep at high
  obtain ⟨lvl, rest, here, none, same⟩ := List.forall₂_cons_right_iff.mp high
  obtain rfl := List.forall₂_nil_right_iff.mp none
  rw [List.reverse_eq_cons_iff] at same
  rw [same]
  exact ⟨lows, lvl, rfl, here, low⟩

theorem LadderRep.middle {above below : Ladder} {rung : Rung}
    (rep : LadderRep heap levels (above ++ rung :: below)) :
    ∃ lows lvl highs, levels = lows ++ lvl :: highs ∧ LadderRep heap highs above ∧
      RungRep heap lvl rung ∧ LadderRep heap lows below := by
  obtain ⟨lows, highs, rfl, high, low⟩ := rep.split
  obtain ⟨lows', lvl, rfl, here, low'⟩ := low.uncons
  exact ⟨lows', lvl, highs, by rw [List.append_assoc]; rfl, high, here, low'⟩

theorem LadderRep.nil_iff (rep : LadderRep heap levels ladder) : levels = [] ↔ ladder = [] := by
  have lengths := rep.length_eq
  rw [List.length_reverse] at lengths
  rw [← List.length_eq_zero_iff, lengths, List.length_eq_zero_iff]

/-- The prices of the vector are those of the ladder. -/
theorem LadderRep.prices (rep : LadderRep heap levels ladder) :
    levels.reverse.map PriceLevel.price = ladder.map Rung.price := by
  have same : List.Forall₂ (fun lvl rung => lvl.price = Rung.price rung) levels.reverse ladder :=
    List.Forall₂.imp (fun _ _ here => here.price) rep
  rwa [← List.forall₂_eq_eq_eq, List.forall₂_map_left_iff, List.forall₂_map_right_iff]

theorem LadderRep.price_mem (rep : LadderRep heap levels ladder) {P : Price → Prop}
    (holds : ∀ rung ∈ ladder, P rung.price) : ∀ lvl ∈ levels, P lvl.price := by
  intro lvl member
  have inside : lvl.price ∈ levels.reverse.map PriceLevel.price :=
    List.mem_map_of_mem (List.mem_reverse.mpr member)
  rw [rep.prices] at inside
  obtain ⟨rung, inLadder, same⟩ := List.mem_map.mp inside
  exact same ▸ holds rung inLadder

/-- The queue of every rung spells out live orders. -/
theorem LadderRep.live (rep : LadderRep heap levels ladder) :
    ∀ order ∈ ladder.orders, ∃ x, heap order.addr = some x ∧ x.toTicket = order.val := by
  intro order member
  obtain ⟨rung, inLadder, inQueue⟩ := Ladder.mem_orders.mp member
  obtain ⟨above, below, rfl⟩ := List.append_of_mem inLadder
  obtain ⟨_, _, _, _, _, here, _⟩ := rep.middle
  exact Seg.node here.queue order inQueue

end LadderRep

/-! ### The selected side of a book -/

@[simp] theorem OrderBook.sideBook_withSideBook (b : OrderBook) (side : Side) (book : SideBook) :
    (b.withSideBook side book).sideBook side = book := by
  cases side <;> rfl

theorem OrderBook.sideBook_withSideBook_ne (b : OrderBook) {side other : Side} (book : SideBook)
    (different : other ≠ side) : (b.withSideBook side book).sideBook other = b.sideBook other := by
  cases side <;> cases other <;> first | rfl | exact absurd rfl different

theorem OrderBook.withSideBook_self (b : OrderBook) (side : Side) :
    b.withSideBook side (b.sideBook side) = b := by
  cases side <;> rfl

/-! ### The frame rules -/

/-- One side changes, and with it the free list and the index; the orders of the other side are
not written to. -/
theorem Rep.change {b b' : OrderBook} {m m' : Market} (rep : Rep b m) (side : Side)
    (sameSide : (b'.sideBook side).side = side)
    (here : LadderRep b'.pool.read (b'.sideBook side).levels (m'.ladder side))
    (sameBook : b'.sideBook side.opposite = b.sideBook side.opposite)
    (sameLadder : m'.ladder side.opposite = m.ladder side.opposite)
    (there : ∀ order ∈ (m.ladder side.opposite).orders,
      b'.pool.read order.addr = b.pool.read order.addr)
    (free : Chain b'.pool.link b'.pool.freeHead m'.free) (index : b'.idIndex = m'.index)
    (clock : b'.clock = m'.clock) : Rep b' m' where
  sides other := by
    rcases Side.eq_or_opposite side other with rfl | rfl
    · exact sameSide
    · rw [sameBook, rep.sides]
  ladders other := by
    rcases Side.eq_or_opposite side other with rfl | rfl
    · exact here
    · rw [sameBook, sameLadder]
      exact (rep.ladders side.opposite).congr there
  free := free
  index := index
  clock := clock

/-- `Rep.change`, for a side that is replaced as a whole. -/
theorem Rep.update {b : OrderBook} {m : Market} (rep : Rep b m) {side : Side} {book : SideBook}
    {ladder : Ladder} {pool : ObjectPool Order} {free : List Ptr} {index : IdIndex}
    (sameSide : book.side = side) (here : LadderRep pool.read book.levels ladder)
    (there : ∀ order ∈ (m.ladder side.opposite).orders,
      pool.read order.addr = b.pool.read order.addr)
    (chain : Chain pool.link pool.freeHead free) :
    Rep { b.withSideBook side book with pool := pool, idIndex := index }
      { m.withLadder side ladder with free := free, index := index } := by
  have other := Side.opposite_ne side
  refine rep.change side ?_ ?_ ?_ ?_ there chain rfl rep.clock
  · show ((b.withSideBook side book).sideBook side).side = side
    rw [OrderBook.sideBook_withSideBook, sameSide]
  · show LadderRep pool.read ((b.withSideBook side book).sideBook side).levels
      ((m.withLadder side ladder).ladder side)
    rw [OrderBook.sideBook_withSideBook, Market.withLadder_same]
    exact here
  · exact OrderBook.sideBook_withSideBook_ne _ _ other
  · exact Market.withLadder_ne _ _ other

/-- Every resting order is a live object carrying its ticket. -/
theorem Rep.live {b : OrderBook} {m : Market} (rep : Rep b m) {order : Resting}
    (member : order ∈ m.linked) :
    ∃ x, b.pool.read order.addr = some x ∧ x.toTicket = order.val := by
  obtain ⟨side, inside⟩ := Market.mem_linked.mp member
  exact (rep.ladders side).live order inside

/-- A new book represents the empty market. -/
theorem Rep.new {capacity : Nat} (positive : 0 < capacity) :
    Rep (OrderBook.new capacity) (Market.new capacity) where
  sides side := by cases side <;> rfl
  ladders side := by cases side <;> exact LadderRep.nil
  free := ObjectPool.new_chain positive
  index := rfl
  clock := rfl

/-! ### Positions in a sorted vector -/

namespace SideBook

variable {book : SideBook} {lows highs : List PriceLevel} {lvl : PriceLevel} {p : Price}

theorem level_append (levels : book.levels = lows ++ lvl :: highs) :
    book.level lows.length = .ok lvl := by
  rw [level, levels, List.getElem?_append_right (Nat.le_refl _), Nat.sub_self]
  rfl

theorem setLevel_append (levels : book.levels = lows ++ lvl :: highs) (lvl' : PriceLevel) :
    (book.setLevel lows.length lvl').levels = lows ++ lvl' :: highs := by
  rw [setLevel, levels, List.set_append_right _ _ (Nat.le_refl _), Nat.sub_self]
  rfl

/-- The binary search finds where a price belongs. -/
theorem findLevel_append (levels : book.levels = lows ++ highs)
    (low : ∀ l ∈ lows, rank book.side l.price < rank book.side p)
    (high : ∀ l ∈ highs, rank book.side p ≤ rank book.side l.price) :
    book.findLevel p = lows.length := by
  rw [findLevel, levels]
  refine Search.lowerBound_append (fun l member => lessForSide_iff.mpr (low l member))
    fun l member => ?_
  rw [← Bool.not_eq_true, lessForSide_iff]
  exact Int.not_lt.mpr (high l member)

theorem find_append (levels : book.levels = lows ++ lvl :: highs) (here : lvl.price = p)
    (low : ∀ l ∈ lows, rank book.side l.price < rank book.side p)
    (high : ∀ l ∈ highs, rank book.side p < rank book.side l.price) :
    book.find p = some lows.length := by
  have position : book.findLevel p = lows.length := findLevel_append levels low fun l member => by
    rcases List.mem_cons.mp member with rfl | member
    · exact Int.le_of_eq (by rw [here])
    · exact Int.le_of_lt (high l member)
  rw [find, position, levels, List.getElem?_append_right (Nat.le_refl _), Nat.sub_self]
  simp only [List.getElem?_cons_zero, here, if_true]

theorem find_none (levels : book.levels = lows ++ highs)
    (low : ∀ l ∈ lows, rank book.side l.price < rank book.side p)
    (high : ∀ l ∈ highs, rank book.side p < rank book.side l.price) : book.find p = none := by
  have position : book.findLevel p = lows.length :=
    findLevel_append levels low fun l member => Int.le_of_lt (high l member)
  rw [find, position, levels, List.getElem?_append_right (Nat.le_refl _), Nat.sub_self]
  cases highs with
  | nil => rfl
  | cons l highs =>
    have different : l.price ≠ p := fun same => by
      have above := high l List.mem_cons_self
      rw [same] at above
      exact Int.lt_irrefl _ above
    simp only [List.getElem?_cons_zero, different, if_false]

/-- An emptied level is found by its price and erased. -/
theorem eraseIfEmpty_append (levels : book.levels = lows ++ lvl :: highs) (empty : lvl.empty = true)
    (low : ∀ l ∈ lows, rank book.side l.price < rank book.side lvl.price)
    (high : ∀ l ∈ highs, rank book.side lvl.price < rank book.side l.price) :
    book.eraseIfEmpty lows.length = .ok { book with levels := lows ++ highs } := by
  rw [eraseIfEmpty, level_append levels, Mem.ok_bind, if_pos empty, find_append levels rfl low high]
  simp only [Mem.pure_eq, levels, List.eraseIdx_append_of_length_le (Nat.le_refl lows.length),
    Nat.sub_self, List.eraseIdx_cons_zero]

theorem best_append (levels : book.levels = lows ++ [lvl]) : book.best = some lows.length := by
  rw [best, levels, if_neg (by simp), List.length_append]
  rfl

end SideBook

/-- `Rep.update`, for the best level of a side; the orders below it are not written to. -/
theorem Rep.setBest {b : OrderBook} {m : Market} (rep : Rep b m) {side : Side}
    {lows : List PriceLevel} {lvl lvl' : PriceLevel} {rung' : Rung} {ladder : Ladder}
    {pool : ObjectPool Order} {free : List Ptr} {index : IdIndex}
    (levels : (b.sideBook side).levels = lows ++ [lvl]) (low : LadderRep b.pool.read lows ladder)
    (here : RungRep pool.read lvl' rung')
    (below : ∀ order ∈ Ladder.orders ladder, pool.read order.addr = b.pool.read order.addr)
    (there : ∀ order ∈ (m.ladder side.opposite).orders,
      pool.read order.addr = b.pool.read order.addr)
    (chain : Chain pool.link pool.freeHead free) :
    Rep { b.withSideBook side ((b.sideBook side).setLevel lows.length lvl') with
        pool := pool, idIndex := index }
      { m.withLadder side (rung' :: ladder) with free := free, index := index } := by
  refine rep.update (rep.sides side) ?_ there chain
  rw [SideBook.setLevel_append levels]
  exact LadderRep.append (.single here) (low.congr below)

end Ob
