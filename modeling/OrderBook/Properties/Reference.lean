/-
**The order book is the reference book.**

In a run in which no id is submitted while it is at rest and no level ever holds `2 ^ 64` or more
(`Plain`), the order book shows its callers what the flat list shows them: the same deals, return
values, best prices and number of resting orders, call after call (`run_agrees`). The one exception
is an order of quantity 0 at a full book, which the order book accepts (`empty_order_accepted`).
-/

import OrderBook.Properties.Index
import OrderBook.Properties.Totals
import OrderBook.Reference.Simulation

namespace Ob

open Reference

/-- No level holds `2 ^ 64` or more. -/
def OrderBook.Fits (b : OrderBook) : Prop :=
  ∀ lvl ∈ b.bids.levels ++ b.asks.levels, (quantities (b.queue lvl)).sum < 2 ^ 64

instance (b : OrderBook) : Decidable b.Fits := inferInstanceAs (Decidable (∀ lvl ∈ _, _))

/-- A call does not submit an id that is at rest. -/
def OrderBook.Unused (b : OrderBook) : OrderBook.Call → Prop
  | .submit ticket => ∀ order ∈ b.orders, order.val.id ≠ ticket.id
  | .cancel _ => True

instance (b : OrderBook) : ∀ call, Decidable (b.Unused call)
  | .submit _ => inferInstanceAs (Decidable (∀ order ∈ _, _))
  | .cancel _ => inferInstanceAs (Decidable True)

/-- A call with an unused id, after which every level holds less than `2 ^ 64`. -/
def OrderBook.Plain (b : OrderBook) (call : OrderBook.Call) : Prop :=
  b.Unused call ∧
    match b.handle call with
    | .ok (next, _) => next.Fits
    | .error _ => True

instance (b : OrderBook) (call : OrderBook.Call) : Decidable (b.Plain call) :=
  have : Decidable (match b.handle call with
      | .ok (next, _) => next.Fits
      | .error _ => True) :=
    match b.handle call with
    | .ok (next, _) => inferInstanceAs (Decidable next.Fits)
    | .error _ => inferInstanceAs (Decidable True)
  inferInstanceAs (Decidable (_ ∧ _))

/-- An order book and a reference book that have the same orders. -/
def Agrees (capacity : Nat) (b : OrderBook) (book : Book) : Prop :=
  ∃ m orders, Stands capacity [] b m ∧ m.Complete ∧ m.Exact ∧ m.Reflects orders ∧
    book = ⟨capacity, orders⟩

section Stands

variable {capacity : Nat} {b : OrderBook} {m : Market}

theorem Stands.exact_of_fits (stands : Stands capacity [] b m) (fits : b.Fits) : m.Exact := by
  intro side
  refine stands.exact fun lvl member => fits lvl ?_
  cases side
  · exact List.mem_append_left _ member
  · exact List.mem_append_right _ member

/-- What is shown after a call is what the reference book would show. -/
theorem Stands.shows (stands : Stands capacity [] b m)
    (complete : m.Complete) {orders : List Listed}
    (reflects : m.Reflects orders) {before : OrderBook} {call : OrderBook.Call}
      {reply : OrderBook.Reply}
    (did : before.handle call = .ok (b, reply)) :
    before.view call =
      .ok (b, (⟨capacity, orders⟩ : Book).shown reply.ret (reply.trades.map Trade.deal)) := by
  have bid : b.bestBid = (m.ladder .buy).bestPrice := bestPrice_eq stands.rep .buy
  have ask : b.bestAsk = (m.ladder .sell).bestPrice := bestPrice_eq stands.rep .sell
  have resting : b.restingOrders = orders.length := by
    rw [OrderBook.restingOrders, stands.rep.index, complete.count stands.wf, reflects.length_eq]
  simp only [OrderBook.view, did, Mem.ok_bind, Mem.pure_eq, Book.shown, bid, ask, resting,
    reflects.bestPrice .buy (stands.wf.ladders _), reflects.bestPrice .sell (stands.wf.ladders _)]

/-- **One call.** -/
theorem agrees_call {book : Book} (agrees : Agrees capacity b book) {call : OrderBook.Call}
    (plain : b.Plain call) : ∃ b' book' view, b.view call = .ok (b', view) ∧
      book.view Book.accept call = .ok (book', view) ∧ Agrees capacity b' book' := by
  obtain ⟨m, orders, stands, complete, exact, reflects, rfl⟩ := agrees
  obtain ⟨b', did, rep⟩ := handle_spec stands.rep stands.wf call
  have stands' : Stands capacity [] b' (m.handle call).1 := ⟨rep, Market.handle_wf stands.wf call⟩
  obtain ⟨unused, fits⟩ := plain
  rw [did] at fits
  have exact' := stands'.exact_of_fits fits
  cases call with
  | submit ticket =>
    rw [OrderBook.Unused, orders_eq stands.rep stands.distinct] at unused
    have fresh : ∀ order ∈ orders, order.id ≠ ticket.id := by
      intro order member
      obtain ⟨resting, inside, rfl⟩ := List.mem_map.mp (reflects.perm.mem_iff.mpr member)
      exact unused resting inside
    have complete' : (m.handle (.submit ticket)).1.Complete :=
      Market.submit_complete stands.wf complete OrderBook.recorder [] fun _ order member same =>
        absurd same (unused order member)
    obtain ⟨orders', accepted, reflects'⟩ :=
      Market.submit_refines stands.wf (exact ticket.side.opposite) reflects fresh rfl
    refine ⟨b', _, _, stands'.shows complete' reflects' did, ?_, _, orders', stands',
      complete', exact',
      reflects', rfl⟩
    simp only [Book.view, accepted, Mem.ok_bind, Mem.pure_eq]
    rfl
  | cancel id =>
    have complete' : (m.handle (.cancel id)).1.Complete :=
      Market.cancel_complete stands.wf complete id
    obtain ⟨ret, reflects'⟩ := Market.cancel_refines stands.wf complete reflects id
    refine ⟨b', _, _, stands'.shows complete' reflects' did, ?_, _, _, stands', complete', exact',
      reflects', rfl⟩
    simp only [Book.view, Mem.pure_eq, ret]
    rfl

end Stands

/-- **Call after call both books show the same.** -/
theorem run_agrees {capacity : Nat} (positive : 0 < capacity) {calls : List OrderBook.Call}
    (plain : Machine.Along OrderBook.Plain OrderBook.view (OrderBook.new capacity) calls) :
    ∃ b book views, Machine.run OrderBook.view (OrderBook.new capacity) calls = .ok (b, views) ∧
      Machine.run (Book.view Book.accept) (Book.new capacity) calls = .ok (book, views) := by
  have start : Agrees capacity (OrderBook.new capacity) (Book.new capacity) := by
    refine ⟨_, [], Stands.new positive, List.forall_mem_nil _, fun _ =>
      List.forall_mem_nil _, ?_, rfl⟩
    exact ⟨fun _ => rfl, fun _ => rfl, List.nodup_nil⟩
  have together : ∀ b book call, Agrees capacity b book → b.Plain call → ∃ b' book' view,
      b.view call = .ok (b', view) ∧ book.view Book.accept call = .ok (book', view) ∧
        Agrees capacity b' book' := fun _ _ _ agrees plain => agrees_call agrees plain
  obtain ⟨b, book, views, ran, ran', _⟩ := Machine.run_together together start plain
  exact ⟨b, book, views, ran, ran'⟩

set_option maxRecDepth 4000 in
/-- A taker goes through two levels and rests, one fill-or-kill order is killed, and a cancel
follows. -/
theorem run_agrees_levels :
    ∃ b book views, Machine.run OrderBook.view (OrderBook.new 4)
        [.submit ⟨1, 100, 5, 0, .sell, .limit⟩, .submit ⟨2, 101, 5, 0, .sell, .limit⟩,
          .submit ⟨3, 101, 12, 0, .buy, .limit⟩, .submit ⟨4, 101, 3, 0, .sell, .fok⟩, .cancel 3] =
        .ok (b, views) ∧
      Machine.run (Book.view Book.accept) (Book.new 4)
        [.submit ⟨1, 100, 5, 0, .sell, .limit⟩, .submit ⟨2, 101, 5, 0, .sell, .limit⟩,
          .submit ⟨3, 101, 12, 0, .buy, .limit⟩, .submit ⟨4, 101, 3, 0, .sell, .fok⟩, .cancel 3] =
        .ok (book, views) := run_agrees (by decide) (by decide)

set_option maxRecDepth 4000 in
/-- **An order of quantity 0 at a full book** is accepted, where the reference book rejects. -/
theorem empty_order_accepted :
    Machine.Along OrderBook.Plain OrderBook.view (OrderBook.new 1)
        [.submit ⟨1, 100, 5, 0, .sell, .limit⟩, .submit ⟨2, 100, 0, 0, .sell, .limit⟩] ∧
      (∃ b views, Machine.run OrderBook.view (OrderBook.new 1)
          [.submit ⟨1, 100, 5, 0, .sell, .limit⟩, .submit ⟨2, 100, 0, 0, .sell, .limit⟩] =
          .ok (b, views) ∧ views.map View.ret = [true, true]) ∧
      ∃ book views, Machine.run (Book.view Book.submit) (Book.new 1)
          [.submit ⟨1, 100, 5, 0, .sell, .limit⟩, .submit ⟨2, 100, 0, 0, .sell, .limit⟩] =
          .ok (book, views) ∧ views.map View.ret = [true, false] :=
  ⟨by decide, ⟨_, _, rfl, rfl⟩, _, _, rfl, rfl⟩

end Ob
