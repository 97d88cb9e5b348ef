/-
**A callback that throws.**

* `run_interrupted` — after any calls, a submit whose callback throws leaves a consistent book with
  exactly the trades whose callback returned, but one slot less: the taker's slot is then neither
  free nor linked.
* `interrupted_leaks` — a book with two slots and one order.
-/

import OrderBook.Market.Exception
import OrderBook.Properties.Waterfall

namespace Ob

open Links

section Submitted

variable {σ : Type} (b : OrderBook) (ticket : Ticket) (onTrade : TradeCallback σ) (seen : σ)
  (done : OrderBook.Submitted σ)

/-- The makers in `gone` were used up in trades whose callback returned, and the next call threw. -/
structure OrderBook.Interrupted (gone kept : List Resting) : Prop where
  before : b.linked ticket.side.opposite = gone ++ kept
  returned : (filled (b.stamped ticket) gone).foldlM onTrade seen = some done.seen
  threw : ∃ maker behind, kept = maker :: behind ∧
    onTrade done.seen (tradeOf (b.stamped ticket) maker maker.val.price (UInt64.ofNat
      (min maker.val.qty.toNat (ticket.qty.toNat - (quantities gone).sum)))) = none
  after : done.book.linked ticket.side.opposite = kept
  own : done.book.ladder ticket.side = b.ladder ticket.side
  index : done.book.idIndex = gone.foldl (fun index maker => index.erase maker.val.id) b.idIndex

/-- What an exception should leave: a consistent book that reflects the trades whose callback
returned, and every slot free or linked. -/
structure OrderBook.Undamaged (capacity : Nat) : Prop where
  wellFormed : done.book.WellFormed
  trades : ∃ gone kept, b.Interrupted ticket onTrade seen done gone kept
  slots : done.book.freeSlots.length + done.book.orders.length = capacity

end Submitted

section Stands

variable {capacity : Nat} {held : List Ptr} {b : OrderBook} {m : Market}

/-- Every slot is free, linked or held. -/
theorem Stands.slots_total (stands : Stands capacity held b m) :
    held.length + (b.freeSlots.length + b.orders.length) = capacity := by
  have count := stands.wf.slots.length_eq
  rw [List.length_append, Market.slots, List.length_append, List.length_map,
    List.length_range] at count
  rw [freeSlots_eq stands.rep stands.distinct, orders_eq stands.rep stands.distinct, count]

variable {σ : Type} (onTrade : TradeCallback σ) (ticket : Ticket) (seen : σ)

/-- **One order** whose callback throws. -/
theorem Stands.interrupted (stands : Stands capacity held b m) :
    ∃ done, b.submit ticket onTrade seen = .ok done ∧ (done.ret = none →
      (∃ o m', Stands capacity (o :: held) done.book m') ∧
        ∃ gone kept, b.Interrupted ticket onTrade seen done gone kept) := by
  obtain ⟨done, submitted, said⟩ := stands.submitted onTrade ticket seen
  refine ⟨done, submitted, fun threw => ?_⟩
  rw [said.ret] at threw
  obtain ⟨o, lost⟩ := (m.submit_wf onTrade seen stands.wf ticket).2 threw
  have stands' : Stands capacity (o :: held) done.book _ := ⟨said.book, lost⟩
  refine ⟨⟨o, _, stands'⟩, ?_⟩
  have linked' := linked_eq stands'.rep stands'.distinct ticket.side.opposite
  have ladder' := ladder_eq stands'.rep stands'.distinct ticket.side
  have index' := stands'.rep.index
  have seen' := said.seen
  have ends := m.submit_outcome onTrade ticket seen
  clear said lost stands'
  generalize m.submit ticket onTrade seen = result at threw ends linked' ladder' index' seen'
  cases ends with
  | nothing | full | killed | rests | leaves => cases threw
  | @throws _ free s _ _ _ swept thrown =>
    subst swept
    obtain ⟨split, returned, throws, _⟩ :=
      sweep_throws onTrade (m.stamp ticket) (stands.wf.ladders ticket.side.opposite) thrown
    generalize sweep onTrade (m.stamp ticket) (m.ladder ticket.side.opposite) ticket.qty seen = s
      at *
    refine ⟨s.consumed, s.ladder.orders, ?_, ?_, ?_, ?_, ?_, ?_⟩
    · rw [linked_eq stands.rep stands.distinct]
      exact split
    · rw [stamped_eq stands.rep, seen']
      exact returned
    · rw [stamped_eq stands.rep, seen']
      exact throws
    · exact linked'.trans (congrArg Ladder.orders (Market.swept_same _ _ _))
    · rw [ladder', ladder_eq stands.rep stands.distinct]
      exact Market.swept_ne (m.taken ticket free) s (Side.opposite_ne _).symm
    · rw [index', stands.rep.index]
      rfl

end Stands

/-- **One slot is lost**, after any calls, by every submit whose callback throws, and nothing
else. -/
theorem run_interrupted {capacity : Nat} (positive : 0 < capacity)
    (requests : List OrderBook.Request) :
    ∃ b rets, Machine.run OrderBook.perform (OrderBook.new capacity) requests = .ok (b, rets) ∧
      ∀ (σ : Type) (onTrade : TradeCallback σ) (ticket : Ticket) (seen : σ),
        ∃ done, b.submit ticket onTrade seen = .ok done ∧ (done.ret = none →
          ¬b.Undamaged ticket onTrade seen done capacity ∧ done.book.WellFormed ∧
          (∃ gone kept, b.Interrupted ticket onTrade seen done gone kept) ∧
          done.book.freeSlots.length + done.book.orders.length + 1 =
            b.freeSlots.length + b.orders.length) := by
  obtain ⟨b, rets, ran, m, held, stands⟩ := run_stands positive requests
  refine ⟨b, rets, ran, fun σ onTrade ticket seen => ?_⟩
  obtain ⟨done, submitted, left⟩ := stands.interrupted onTrade ticket seen
  refine ⟨done, submitted, fun threw => ?_⟩
  obtain ⟨⟨o, m', stands'⟩, traded⟩ := left threw
  have before := stands.slots_total
  have after := stands'.slots_total
  rw [List.length_cons] at after
  refine ⟨fun undamaged => ?_, stands'.wellFormed, traded, ?_⟩
  · have all := undamaged.slots
    omega
  · omega

set_option maxRecDepth 4000 in
/-- A callback that throws at its first call. -/
theorem run_interrupted_first :
    ∃ b rets done, Machine.run OrderBook.perform (OrderBook.new 2)
        [.submit ⟨1, 100, 5, 0, .sell, .limit⟩ (List Trade) OrderBook.recorder []] =
          .ok (b, rets) ∧
      b.submit ⟨2, 100, 5, 0, .buy, .limit⟩ (fun _ _ => none) () = .ok done ∧
      done.book.freeSlots.length + done.book.orders.length + 1 =
        b.freeSlots.length + b.orders.length := by
  obtain ⟨b, rets, ran, each⟩ := @run_interrupted 2 (by decide)
    [.submit ⟨1, 100, 5, 0, .sell, .limit⟩ (List Trade) OrderBook.recorder []]
  obtain ⟨done, submitted, lost⟩ :=
    each Unit (fun _ _ => none) ⟨2, 100, 5, 0, .buy, .limit⟩ ()
  have threw : done.ret = none := by
    obtain rfl : _ = b := (Prod.mk.inj (Except.ok.inj ran)).1
    obtain rfl : _ = done := Except.ok.inj submitted
    rfl
  exact ⟨b, rets, done, ran, submitted, (lost threw).2.2.2⟩

set_option maxRecDepth 4000 in
/-- **The leak.** Two slots, one order; the second order's callback throws, and one slot is left. -/
theorem interrupted_leaks :
    ∃ b rets done, Machine.run OrderBook.perform (OrderBook.new 2)
        [.submit ⟨1, 100, 5, 0, .sell, .limit⟩ (List Trade) OrderBook.recorder []] =
          .ok (b, rets) ∧
      b.submit ⟨2, 100, 5, 0, .buy, .limit⟩ (fun _ _ => none) () = .ok done ∧ done.ret = none ∧
      done.book.freeSlots = [] ∧ done.book.orders.length = 1 ∧
      ¬b.Undamaged ⟨2, 100, 5, 0, .buy, .limit⟩ (fun _ _ => none) () done 2 := by
  refine ⟨_, _, _, rfl, rfl, rfl, by decide, by decide, fun undamaged => ?_⟩
  have all := undamaged.slots
  revert all
  decide

end Ob
