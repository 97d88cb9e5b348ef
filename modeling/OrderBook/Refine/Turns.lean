/-
**The turns of the matching loops.**

What the loops of `match` do with the memory they find, whatever the rest of the book holds: when
they stop at once, what a turn is otherwise, and what its parts write.

* `reduce_pair`, `dropHead_apart` — the two quantities of a fill, and the unlinking of a maker.
* `fillLoop_done`, `fillLoop_goes` — the inner loop.
* `matchLoop_done`, `matchLoop_goes` — the outer loop, and `eraseIfEmpty_best` — the emptied level
  between two of its turns.
-/

import OrderBook.Refine.Rep

namespace Ob

open Links ObjectPool

/-! ### Parts of a turn -/

/-- What is traded leaves the quantities of the taker and of the maker. -/
theorem reduce_pair {pool : ObjectPool Order} {taker maker : Ptr} {t mk : Order}
    (here : pool.read taker = some t) (there : pool.read maker = some mk) (apart : taker ≠ maker)
    (fill : Quantity) :
    ∃ pool₁ pool₂, pool.modify taker (fun x => { x with qty := x.qty - fill }) = .ok pool₁ ∧
      pool₁.modify maker (fun x => { x with qty := x.qty - fill }) = .ok pool₂ ∧
      Rewritten pool pool₂ (Function.update
        (Function.update pool.read taker (some { t with qty := t.qty - fill })) maker
        (some { mk with qty := mk.qty - fill })) ∧
      pool₂.read taker = some { t with qty := t.qty - fill } ∧
      pool₂.read maker = some { mk with qty := mk.qty - fill } := by
  obtain ⟨pool₁, done₁, written₁⟩ := modify_spec here fun x => { x with qty := x.qty - fill }
  have there₁ : pool₁.read maker = some mk := by
    rw [written₁.read, Function.update_of_ne apart.symm, there]
  obtain ⟨pool₂, done₂, written₂⟩ := modify_spec there₁ fun x => { x with qty := x.qty - fill }
  rw [written₁.read] at written₂
  refine ⟨pool₁, pool₂, done₁, done₂, written₁.trans written₂, ?_, ?_⟩
  · rw [written₂.read, Function.update_of_ne apart, Function.update_self]
  · rw [written₂.read, Function.update_self]

/-- The maker at the head of a level is unlinked, and stays as it is in its slot. -/
theorem dropHead_apart {pool : ObjectPool Order} {maker : Ptr} {mk : Order} (lvl : PriceLevel)
    (there : pool.read maker = some mk) (behind : mk.next ≠ some maker)
    (live : ∀ h, mk.next = some h → ∃ x, pool.read h = some x) :
    ∃ pool', OrderBook.dropHead pool lvl mk = .ok (pool',
        { lvl with head := mk.next, tail := if mk.next = none then none else lvl.tail }) ∧
      Rewritten pool pool' (writePrev pool.read mk.next none) ∧
      pool'.read maker = some mk := by
  obtain ⟨pool', done, written⟩ := dropHead_spec lvl live
  refine ⟨pool', done, written, ?_⟩
  rw [written.read, writePrev_of_ne _ behind, there]

section Loops

variable {σ : Type} {onTrade : TradeCallback σ} {b : OrderBook} {side : Side} {taker : Ptr}
  {t : Order} {best : Nat} {lvl : PriceLevel}

/-! ### The inner loop -/

/-- It stops at once when nothing is left of the taker or of the queue. -/
theorem fillLoop_done (reached : (b.sideBook side.opposite).level best = .ok lvl)
    (here : b.pool.read taker = some t) (done : lvl.head = none ∨ t.qty = 0) (turns : Nat)
    (seen : σ) :
    OrderBook.fillLoop onTrade side taker best (turns + 1) ⟨b, seen, false⟩ =
      .ok ⟨b, seen, false⟩ := by
  unfold OrderBook.fillLoop
  simp only [deref_eq here, reached, Mem.ok_bind, Mem.pure_eq]
  rcases done with none | spent
  · simp only [none, ite_self]
  · simp only [spent, gt_iff_lt, UInt64.lt_irrefl, if_false]

/-- Otherwise it takes a turn. -/
theorem fillLoop_goes {maker : Ptr} (reached : (b.sideBook side.opposite).level best = .ok lvl)
    (here : b.pool.read taker = some t) (head : lvl.head = some maker) (positive : t.qty ≠ 0)
    (turns : Nat) (seen : σ) :
    OrderBook.fillLoop onTrade side taker best (turns + 1) ⟨b, seen, false⟩ =
      (OrderBook.fillHead onTrade side taker best maker ⟨b, seen, false⟩ >>= fun run =>
        if run.threw then return run
        else OrderBook.fillLoop onTrade side taker best turns run) := by
  have more : t.qty > 0 := UInt64.pos_iff_ne_zero.mpr positive
  rw [OrderBook.fillLoop]
  simp only [deref_eq here, reached, Mem.ok_bind, more, if_true, head]

/-! ### The outer loop -/

/-- It stops at once when nothing is left of the taker or of the levels. -/
theorem matchLoop_done (here : b.pool.read taker = some t)
    (done : t.qty = 0 ∨ (b.sideBook side.opposite).levels = []) (inner turns : Nat) (seen : σ) :
    OrderBook.matchLoop onTrade side taker inner (turns + 1) ⟨b, seen, false⟩ =
      .ok ⟨b, seen, false⟩ := by
  unfold OrderBook.matchLoop
  simp only [deref_eq here, Mem.ok_bind, Mem.pure_eq]
  rcases done with spent | none
  · simp only [spent, gt_iff_lt, UInt64.lt_irrefl, if_false]
  · simp only [SideBook.best, none, if_true, ite_self]

/-- Otherwise it takes a turn, unless the best price is out of the taker's reach. -/
theorem matchLoop_goes (found : (b.sideBook side.opposite).best = some best)
    (reached : (b.sideBook side.opposite).level best = .ok lvl)
    (here : b.pool.read taker = some t) (positive : t.qty ≠ 0) (inner turns : Nat) (seen : σ) :
    OrderBook.matchLoop onTrade side taker inner (turns + 1) ⟨b, seen, false⟩ =
      if t.type ≠ .market ∧ priceCrosses side t.price lvl.price = false then
        .ok ⟨b, seen, false⟩
      else (OrderBook.fillLoop onTrade side taker best inner ⟨b, seen, false⟩ >>= fun run =>
        if run.threw then return run
        else do
          let opp := run.book.sideBook side.opposite
          let lvl ← opp.level best
          let opp ← (if lvl.empty then opp.eraseIfEmpty best else pure opp)
          OrderBook.matchLoop onTrade side taker inner turns
            { run with book := run.book.withSideBook side.opposite opp }) := by
  have more : t.qty > 0 := UInt64.pos_iff_ne_zero.mpr positive
  rw [OrderBook.matchLoop]
  simp only [deref_eq here, Mem.ok_bind, more, if_true, found, reached]
  rfl

/-- The emptied best level is erased: the search by its price finds it. -/
theorem eraseIfEmpty_best {book : SideBook} {lows : List PriceLevel}
    (levels : book.levels = lows ++ [lvl]) (empty : lvl.empty = true)
    (low : ∀ l ∈ lows, rank book.side l.price < rank book.side lvl.price) :
    book.eraseIfEmpty lows.length = .ok { book with levels := lows } := by
  rw [SideBook.eraseIfEmpty_append levels empty low (fun l member => by cases member),
    List.append_nil]

end Loops

end Ob
