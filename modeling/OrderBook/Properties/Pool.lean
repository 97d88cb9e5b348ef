/-
**No slot is lost, and a rejection changes nothing.**

* `run_conserves` — after any calls whose callbacks return, the free list is a chain of distinct
  slots that hold no linked order, free slots and linked orders together are as many as the
  capacity, and `submit` rejects exactly an order of positive quantity at a book without a free
  slot, which leaves the book and the callback's state as they were.
-/

import OrderBook.Properties.WellFormed

namespace Ob

open Links

/-- The free list of a book, and what it has to do with the orders. -/
structure OrderBook.Conserves (b : OrderBook) (capacity : Nat) (free : List Ptr) : Prop where
  /-- Following the links from the head gives these slots and ends. -/
  chain : Chain b.pool.link b.pool.freeHead free
  distinct : free.Nodup
  apart : ∀ order ∈ b.orders, order.addr ∉ free
  linked : (b.orders.map Cell.addr).Nodup
  total : free.length + b.orders.length = capacity

theorem Stands.conserves {capacity : Nat} {b : OrderBook} {m : Market}
    (stands : Stands capacity [] b m) :
    b.Conserves capacity m.free := by
  have orders := orders_eq stands.rep stands.distinct
  obtain ⟨free, linked, apart⟩ := List.nodup_append.mp stands.distinct
  refine ⟨stands.rep.free, free, ?_, ?_, ?_⟩
  · rw [orders]
    exact fun order member inside => apart _ inside _ (List.mem_map_of_mem member) rfl
  · rw [orders]
    exact linked
  · have count := stands.wf.slots.length_eq
    rw [List.nil_append, Market.slots, List.length_append, List.length_map,
      List.length_range] at count
    rw [orders, count]

/-- A submit whose callback returns is rejected exactly for want of a slot, and then at no
effect. -/
theorem Stands.rejects {capacity : Nat} {b : OrderBook} {m : Market}
    (stands : Stands capacity [] b m)
    {σ : Type} {onTrade : TradeCallback σ} (returns : ∀ seen trade, onTrade seen trade ≠ none)
    (ticket : Ticket) (seen : σ) :
    ∃ done, b.submit ticket onTrade seen = .ok done ∧
      (done.ret = some false ↔ 0 < ticket.qty ∧ b.orders.length = capacity) ∧
      (done.ret = some false → done.book = b ∧ done.seen = seen) := by
  obtain ⟨done, submitted, said⟩ := stands.submitted onTrade ticket seen
  have ret := said.ret
  rw [m.submit_ret returns] at ret
  have free : b.orders.length = capacity ↔ m.free = [] := by
    have total := stands.conserves.total
    rw [← List.length_eq_zero_iff]
    omega
  have rejected : done.ret = some false ↔ 0 < ticket.qty ∧ b.orders.length = capacity := by
    rw [ret, free, Option.some_inj, decide_eq_false_iff_not, not_or, not_not,
      UInt64.pos_iff_ne_zero]
  refine ⟨done, submitted, rejected, fun said_no => ?_⟩
  obtain ⟨positive, full⟩ := rejected.mp said_no
  have head : b.pool.freeHead = none := stands.rep.free.nil_iff.mpr (free.mp full)
  rw [submit_full (UInt64.pos_iff_ne_zero.mp positive) head] at submitted
  cases submitted
  exact ⟨rfl, rfl⟩

/-- **Conservation and atomic rejection**, after any calls whose callbacks return. -/
theorem run_conserves {capacity : Nat} (positive : 0 < capacity) (requests : List OrderBook.Request)
    (returns : ∀ request ∈ requests, request.Returns) :
    ∃ b rets, Machine.run OrderBook.perform (OrderBook.new capacity) requests = .ok (b, rets) ∧
      (∃ free, b.Conserves capacity free) ∧
      ∀ (ticket : Ticket) (σ : Type) (onTrade : TradeCallback σ) (seen : σ),
        (∀ seen trade, onTrade seen trade ≠ none) →
        ∃ done, b.submit ticket onTrade seen = .ok done ∧
          (done.ret = some false ↔ 0 < ticket.qty ∧ b.orders.length = capacity) ∧
          (done.ret = some false → done.book = b ∧ done.seen = seen) := by
  obtain ⟨b, rets, ran, m, stands⟩ := run_returns positive returns
  exact ⟨b, rets, ran, ⟨_, stands.conserves⟩,
    fun ticket σ onTrade seen returns => stands.rejects returns ticket seen⟩

/-- One slot, taken by a resting order, given back, and taken again. -/
theorem run_conserves_one :
    ∃ b rets, Machine.run OrderBook.perform (OrderBook.new 1)
        [.submit ⟨1, 100, 3, 0, .sell, .limit⟩ (List Trade) OrderBook.recorder [], .cancel 1,
          .submit ⟨1, 100, 4, 0, .sell, .limit⟩ (List Trade) OrderBook.recorder []] =
            .ok (b, rets) ∧
      ∃ free, b.Conserves 1 free :=
  have ⟨b, rets, ran, conserves, _⟩ := run_conserves (by decide) _ <| by
    simp [OrderBook.Request.Returns, recorder_returns]
  ⟨b, rets, ran, conserves⟩

end Ob
