/-
**Independent calls commute.**

* `run_commutes` — after any calls, two cancels of different ids, a cancel and a limit order of
  another id that crosses nothing, and two limit orders that cross nothing, nor each other, and join
  different queues: in either order the replies are the same, nothing trades, and the levels and the
  resting ids are the same, up to slots and times.
-/

import OrderBook.Market.Commute
import OrderBook.Properties.Waterfall

namespace Ob

open OrderBook

/-- Two books that show the same levels, up to the slots and times of the orders, and whose indexes
know the same ids. -/
structure OrderBook.LooksAlike (b b' : OrderBook) : Prop where
  levels : ∀ side, (b.ladder side).map (Rung.shown Resting.untimed) =
    (b'.ladder side).map (Rung.shown Resting.untimed)
  ids : ∀ id, id ∈ b.idIndex ↔ id ∈ b'.idIndex

/-- Two calls that reply the same in either order, without a trade, and lead to books that look
alike. -/
def OrderBook.Commute (b : OrderBook) (first second : Call) : Prop :=
  ∃ one two both both' reply reply', b.handle first = .ok (one, reply) ∧
    one.handle second = .ok (both, reply') ∧ b.handle second = .ok (two, reply') ∧
    two.handle first = .ok (both', reply) ∧ reply.trades = [] ∧ reply'.trades = [] ∧
    both.LooksAlike both'

section Stands

variable {capacity : Nat} {held : List Ptr} {b : OrderBook} {m : Market}

theorem Stands.looksAlike {b' : OrderBook} {m' : Market} (stands : Stands capacity held b m)
    (stands' : Stands capacity held b' m') (alike : m.LooksAlike m') : b.LooksAlike b' where
  levels side := by
    rw [ladder_eq stands.rep stands.distinct, ladder_eq stands'.rep stands'.distinct]
    exact (stands.wf.ladders side).shown_ext (fun ticket => ticket.qty.toNat)
      (fun _ => rfl) (stands'.wf.ladders side) (alike.queues side)
  ids id := by
    rw [stands.rep.index, stands'.rep.index]
    exact alike.ids id

/-- Calls that commute on the market commute on the book. -/
theorem Stands.commute (stands : Stands capacity held b m) {first second : Call}
    (commute : m.Commute first second) : b.Commute first second := by
  obtain ⟨one, did, stands₁⟩ := stands.handle first
  obtain ⟨both, did', stands₁₂⟩ := stands₁.handle second
  obtain ⟨two, did₂, stands₂⟩ := stands.handle second
  obtain ⟨both', did₂', stands₂₁⟩ := stands₂.handle first
  rw [commute.second_reply] at did'
  rw [commute.first_reply] at did₂'
  exact ⟨one, two, both, both', _, _, did, did', did₂, did₂', commute.trades.1, commute.trades.2,
    stands₁₂.looksAlike stands₂₁ commute.alike⟩

end Stands

/-- **Independent calls commute**, after any calls. -/
theorem run_commutes {capacity : Nat} (positive : 0 < capacity)
    (requests : List OrderBook.Request) :
    ∃ b rets, Machine.run OrderBook.perform (OrderBook.new capacity) requests = .ok (b, rets) ∧
      (∀ id id', id ≠ id' → b.Commute (.cancel id) (.cancel id')) ∧
      (∀ (id : OrderId) (ticket : Ticket), ticket.type = .limit → ticket.id ≠ id →
        b.crossed ticket = [] → b.freeSlots ≠ [] → b.Commute (.cancel id) (.submit ticket)) ∧
      ∀ first second : Ticket, first.type = .limit → second.type = .limit →
        b.crossed first = [] → b.crossed second = [] →
        (first.side = second.side.opposite →
          priceCrosses first.side first.price second.price = false) →
        ¬(first.side = second.side ∧ first.price = second.price) → 2 ≤ b.freeSlots.length →
        b.Commute (.submit first) (.submit second) := by
  obtain ⟨b, rets, ran, m, held, stands⟩ := run_stands positive requests
  have crossed_eq : ∀ ticket, b.crossed ticket =
      Ob.crossed ticket (m.ladder ticket.side.opposite).orders := fun ticket => by
    rw [OrderBook.crossed, linked_eq stands.rep stands.distinct]
  have slots := freeSlots_eq stands.rep stands.distinct
  refine ⟨b, rets, ran, fun id id' different => ?_, ?_, ?_⟩
  · exact stands.commute (Market.cancel_cancel stands.wf different)
  · intro id ticket limit different nothing some_free
    rw [crossed_eq] at nothing
    exact stands.commute
      (Market.cancel_submit stands.wf limit different nothing (slots ▸ some_free))
  · intro first second limit limit' nothing nothing' apart different room
    rw [crossed_eq] at nothing nothing'
    exact stands.commute
      (Market.submit_submit stands.wf limit limit' nothing nothing' apart different (slots ▸ room))

set_option maxRecDepth 4000 in
/-- A cancel empties the level next to the one at which another order comes to rest. -/
theorem run_commutes_levels :
    ∃ b rets, Machine.run OrderBook.perform (OrderBook.new 4)
        [.submit ⟨1, 100, 5, 0, .buy, .limit⟩ (List Trade) OrderBook.recorder [],
          .submit ⟨2, 99, 4, 0, .buy, .limit⟩ (List Trade) OrderBook.recorder []] =
            .ok (b, rets) ∧
      b.Commute (.cancel 1) (.cancel 2) ∧
      b.Commute (.cancel 2) (.submit ⟨3, 98, 7, 0, .buy, .limit⟩) ∧
      b.Commute (.submit ⟨3, 101, 7, 0, .sell, .limit⟩) (.submit ⟨4, 100, 7, 0, .buy, .limit⟩) := by
  obtain ⟨b, rets, ran, cancels, either, submits⟩ := @run_commutes 4 (by decide)
    [.submit ⟨1, 100, 5, 0, .buy, .limit⟩ (List Trade) OrderBook.recorder [],
      .submit ⟨2, 99, 4, 0, .buy, .limit⟩ (List Trade) OrderBook.recorder []]
  refine ⟨b, rets, ran, cancels 1 2 (by decide), ?_, ?_⟩
  · refine either 2 ⟨3, 98, 7, 0, .buy, .limit⟩ rfl (by decide) ?_ ?_
    · obtain rfl : _ = b := (Prod.mk.inj (Except.ok.inj ran)).1
      rfl
    · obtain rfl : _ = b := (Prod.mk.inj (Except.ok.inj ran)).1
      decide
  · refine submits ⟨3, 101, 7, 0, .sell, .limit⟩ ⟨4, 100, 7, 0, .buy, .limit⟩ rfl rfl ?_ ?_
      (by decide) (by decide) ?_
    · obtain rfl : _ = b := (Prod.mk.inj (Except.ok.inj ran)).1
      decide
    · obtain rfl : _ = b := (Prod.mk.inj (Except.ok.inj ran)).1
      rfl
    · obtain rfl : _ = b := (Prod.mk.inj (Except.ok.inj ran)).1
      decide

end Ob
