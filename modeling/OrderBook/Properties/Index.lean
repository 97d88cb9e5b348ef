/-
**Orders that can be cancelled.**

A resting order can be cancelled, and is counted, as long as the index holds it for its id
(`Indexed`). An order that comes to rest while another one of its id does hides one of the two
(`shared_id_uncancellable`). A call without that (`FreshId`), and no other, keeps the index complete
(`Stands.complete_iff`), so in a run of such calls it is complete: `run_indexed`.
-/

import OrderBook.Market.Index
import OrderBook.Properties.Waterfall

namespace Ob

open Links

/-- Every linked order is the one that the index holds for its id, so that it is counted and a
cancel of its id takes it, and no other, off the book. -/
structure OrderBook.Indexed (b : OrderBook) : Prop where
  entries : ∀ order ∈ b.orders, b.idIndex.lookup order.val.id = some order.addr
  count : b.restingOrders = b.orders.length
  cancels : ∀ order ∈ b.orders, ∃ b', b.cancel order.val.id = .ok (b', true) ∧
    b.orders.Perm (order :: b'.orders)

/-- A call after which no two orders of one id rest: an order of which a remainder comes to rest has
an id that, of the orders in the book, only some it crosses have. -/
def OrderBook.FreshId (b : OrderBook) : OrderBook.Request → Prop
  | .submit ticket _ onTrade seen => b.Rests ticket onTrade seen →
      ∀ order ∈ b.orders, order.val.id = ticket.id → order.val.side = ticket.side.opposite ∧
        priceCrosses ticket.side ticket.price order.val.price = true
  | .cancel _ => True

instance (b : OrderBook) : ∀ request, Decidable (b.FreshId request)
  | .submit _ _ _ _ => inferInstanceAs (Decidable (_ → _))
  | .cancel _ => inferInstanceAs (Decidable True)

section Stands

variable {capacity : Nat} {held : List Ptr} {b : OrderBook} {m : Market}

theorem entries_iff (stands : Stands capacity held b m) :
    (∀ order ∈ b.orders, b.idIndex.lookup order.val.id = some order.addr) ↔ m.Complete := by
  rw [orders_eq stands.rep stands.distinct, stands.rep.index]
  rfl

/-- A complete index counts and cancels every order. -/
theorem Stands.indexed (stands : Stands capacity held b m) (complete : m.Complete) : b.Indexed where
  entries := (entries_iff stands).mpr complete
  count := by
    rw [OrderBook.restingOrders, stands.rep.index, orders_eq stands.rep stands.distinct]
    exact complete.count stands.wf
  cancels := by
    rw [orders_eq stands.rep stands.distinct]
    intro order member
    have entry := complete order member
    obtain ⟨b', cancelled, stands'⟩ := stands.cancel order.val.id
    have leaves := remove_leaves (stands.wf.ladders order.val.side) (side_nodup stands.distinct)
      (Market.mem_own_side stands.wf.ladders member)
    refine ⟨b', ?_, ?_⟩
    · rw [cancelled, Market.cancel_resting stands.distinct member entry]
    · rw [orders_eq stands'.rep stands'.distinct,
        Market.cancel_resting stands.distinct member entry]
      exact Market.cancel_linked leaves

theorem freshId_iff (stands : Stands capacity held b m) {ticket : Ticket} {σ : Type}
    {onTrade : TradeCallback σ} {seen : σ} :
    b.FreshId (.submit ticket σ onTrade seen) ↔
      (m.Rests ticket onTrade seen → m.Fresh ticket) := by
  rw [OrderBook.FreshId, stands.rests_iff, orders_eq stands.rep stands.distinct]
  refine imp_congr_right fun rests => ?_
  simp only [Market.Fresh, Ticket.accepts_limited (show ticket.type ≠ .market by simp [rests.1])]

/-- **One call** keeps the index complete if and only if it meets the condition. -/
theorem Stands.complete_iff (stands : Stands capacity held b m) (complete : m.Complete)
    (request : OrderBook.Request) :
    ∃ b' ret, b.perform request = .ok (b', ret) ∧
      ∃ m' held', Stands capacity held' b' m' ∧ (m'.Complete ↔ b.FreshId request) := by
  obtain ⟨b', did, rep⟩ := perform_spec stands request
  obtain ⟨held', wf⟩ := perform_wf stands.wf request
  refine ⟨b', _, did, _, held', ⟨rep, wf⟩, ?_⟩
  cases request with
  | cancel id => exact iff_of_true (Market.cancel_complete stands.wf complete id) trivial
  | submit ticket σ onTrade seen =>
    rw [freshId_iff stands]
    refine ⟨fun after rests => ?_, Market.submit_complete stands.wf complete onTrade seen⟩
    by_contra stale
    exact Market.submit_incomplete stands.wf rests stale after

end Stands

/-- **The index is complete** after any calls that each bring no second order of an id to rest. -/
theorem run_indexed {capacity : Nat} (positive : 0 < capacity) {requests : List OrderBook.Request}
    (fresh : Machine.Along OrderBook.FreshId OrderBook.perform (OrderBook.new capacity) requests) :
    ∃ b rets, Machine.run OrderBook.perform (OrderBook.new capacity) requests = .ok (b, rets) ∧
      b.Indexed := by
  have kept : ∀ (b : OrderBook) request,
      (∃ m held, Stands capacity held b m ∧ m.Complete) → b.FreshId request →
      ∃ b' ret, b.perform request = .ok (b', ret) ∧ ∃ m held,
        Stands capacity held b' m ∧ m.Complete := by
    rintro b request ⟨m, held, stands, complete⟩ fresh
    obtain ⟨b', ret, did, m', held', stands', kept⟩ := stands.complete_iff complete request
    exact ⟨b', ret, did, m', held', stands', kept.mpr fresh⟩
  have empty : (Market.new capacity).Complete := List.forall_mem_nil _
  obtain ⟨b, rets, ran, m, held, stands, complete⟩ :=
    Machine.run_along kept ⟨_, _, Stands.new positive, empty⟩ fresh
  exact ⟨b, rets, ran, stands.indexed complete⟩

set_option maxRecDepth 4000 in
/-- The second order has the id of a resting one, which it trades with before it rests. So has the last
one, whose callback throws. -/
theorem run_indexed_replaced :
    ∃ b rets, Machine.run OrderBook.perform (OrderBook.new 4)
        [.submit ⟨1, 100, 5, 0, .buy, .limit⟩ (List Trade) OrderBook.recorder [],
          .submit ⟨1, 99, 7, 0, .sell, .limit⟩ (List Trade) OrderBook.recorder [],
          .submit ⟨2, 98, 1, 0, .buy, .limit⟩ (List Trade) OrderBook.recorder [],
          .submit ⟨1, 98, 9, 0, .sell, .limit⟩ Unit (fun _ _ => none) ()] = .ok (b, rets) ∧
      b.Indexed := run_indexed (by decide) (by decide)

set_option maxRecDepth 4000 in
/-- **Two orders of one id.** The cancel takes the first off. The second stays, is not counted, and
a cancel of its id fails. -/
theorem shared_id_uncancellable :
    ∃ b rets, Machine.run OrderBook.perform (OrderBook.new 4)
        [.submit ⟨1, 100, 5, 0, .buy, .limit⟩ (List Trade) OrderBook.recorder [],
          .submit ⟨1, 101, 7, 0, .buy, .limit⟩ (List Trade) OrderBook.recorder [], .cancel 1] =
        .ok (b, rets) ∧
      b.orders.map (fun order => order.val.id) = [1] ∧ b.restingOrders = 0 ∧
      b.cancel 1 = .ok (b, false) ∧ ¬b.Indexed := by
  refine ⟨_, _, rfl, by decide, rfl, rfl, fun indexed => ?_⟩
  have counted := indexed.count
  revert counted
  decide

end Ob
