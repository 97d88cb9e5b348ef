/-
**A limit order that is cancelled at once.**

* `run_undone` — after any calls, a limit order with a new id followed by a cancel of it reports the
  trades of an IOC order and leaves the levels, the index and the free slots that it leaves; the
  cancel returns true exactly if the IOC order is not filled. If the order crosses nothing, they are
  those of before.
-/

import OrderBook.Market.Undo
import OrderBook.Properties.Waterfall

namespace Ob

section Stands

variable {capacity : Nat} {held : List Ptr} {b : OrderBook} {m : Market} {ticket : Ticket}
  {σ : Type}

/-- How a limit order and a cancel of it end, beside an IOC order. -/
structure OrderBook.Undone (b : OrderBook) (ticket : Ticket) (limit : OrderBook.Submitted σ)
    (cancelled : OrderBook × Bool) (ioc : OrderBook.Submitted σ) : Prop where
  seen : limit.seen = ioc.seen
  ret : limit.ret = ioc.ret
  alike : cancelled.1.Alike ioc.book
  clock : cancelled.1.clock = ioc.book.clock
  found : cancelled.2 = true ↔ 0 < ioc.dropped
  restored : b.crossed (ticket.as .limit) = [] → cancelled.1.Alike b

/-- **One order.** -/
theorem Stands.undone (stands : Stands capacity held b m)
    (fresh : ∀ order ∈ b.orders, order.val.id ≠ ticket.id) (onTrade : TradeCallback σ) (seen : σ) :
    ∃ limit cancelled ioc, b.submit (ticket.as .limit) onTrade seen = .ok limit ∧
      limit.book.cancel ticket.id = .ok cancelled ∧
      b.submit (ticket.as .ioc) onTrade seen = .ok ioc ∧ b.Undone ticket limit cancelled ioc := by
  rw [orders_eq stands.rep stands.distinct] at fresh
  obtain ⟨limit, _, submitted, said, stands₁⟩ := stands.submit_any onTrade (ticket.as .limit) seen
  obtain ⟨b', cancelled, stands₂⟩ := stands₁.cancel ticket.id
  obtain ⟨ioc, _, submitted', said', stands'⟩ := stands.submit_any onTrade (ticket.as .ioc) seen
  obtain ⟨sameSeen, sameRet, same⟩ := Market.limit_cancel stands.wf fresh onTrade seen
  rw [same] at cancelled stands₂
  refine ⟨limit, (b', _), ioc, submitted, cancelled, submitted', ?_⟩
  refine ⟨?_, ?_, stands₂.alike stands' (fun _ => rfl) rfl rfl, ?_, ?_, fun nothing => ?_⟩
  · rw [said.seen, said'.seen, sameSeen]
  · rw [said.ret, said'.ret, sameRet]
  · rw [stands₂.rep.clock, stands'.rep.clock]
  · rw [said'.dropped]
    exact decide_eq_true_iff
  · have linked := linked_eq stands.rep stands.distinct ticket.side.opposite
    have spared : crossed (ticket.as .ioc) (m.ladder ticket.side.opposite).orders = [] := by
      rw [← linked]
      exact nothing
    obtain ⟨clock, market⟩ := Market.ioc_spared stands.wf onTrade seen spared
    rw [market] at stands₂
    exact stands₂.alike stands (fun _ => rfl) rfl rfl

end Stands

/-- **Limit and cancel is IOC**, after any calls. -/
theorem run_undone {capacity : Nat} (positive : 0 < capacity)
    (requests : List OrderBook.Request) :
    ∃ b rets, Machine.run OrderBook.perform (OrderBook.new capacity) requests = .ok (b, rets) ∧
      ∀ (σ : Type) (onTrade : TradeCallback σ) (seen : σ) (ticket : Ticket),
        (∀ order ∈ b.orders, order.val.id ≠ ticket.id) →
        ∃ limit cancelled ioc, b.submit (ticket.as .limit) onTrade seen = .ok limit ∧
          limit.book.cancel ticket.id = .ok cancelled ∧
          b.submit (ticket.as .ioc) onTrade seen = .ok ioc ∧
          b.Undone ticket limit cancelled ioc := by
  obtain ⟨b, rets, ran, m, held, stands⟩ := run_stands positive requests
  exact ⟨b, rets, ran, fun σ onTrade seen ticket fresh => stands.undone fresh onTrade seen⟩

set_option maxRecDepth 4000 in
/-- Seven against an offer of five: two would rest. -/
theorem run_undone_remainder :
    ∃ b rets, Machine.run OrderBook.perform (OrderBook.new 3)
        [.submit ⟨1, 100, 5, 0, .sell, .limit⟩ (List Trade) OrderBook.recorder []] =
          .ok (b, rets) ∧
      ∃ limit cancelled ioc,
        b.submit ⟨2, 101, 7, 0, .buy, .limit⟩ OrderBook.recorder [] = .ok limit ∧
        limit.book.cancel 2 = .ok cancelled ∧
        b.submit ⟨2, 101, 7, 0, .buy, .ioc⟩ OrderBook.recorder [] = .ok ioc ∧
        b.Undone ⟨2, 101, 7, 0, .buy, .limit⟩ limit cancelled ioc := by
  obtain ⟨b, rets, ran, each⟩ := @run_undone 3 (by decide)
    [.submit ⟨1, 100, 5, 0, .sell, .limit⟩ (List Trade) OrderBook.recorder []]
  have fresh : ∀ order ∈ b.orders, order.val.id ≠ 2 := by
    obtain rfl : _ = b := (Prod.mk.inj (Except.ok.inj ran)).1
    decide
  exact ⟨b, rets, ran, each _ OrderBook.recorder [] ⟨2, 101, 7, 0, .buy, .limit⟩ fresh⟩

end Ob
