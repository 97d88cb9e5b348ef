/-
**Buying and selling are the same.**

Calls with the sides exchanged and the prices negated run like the calls themselves: the replies
have the same results and trades at the negated prices, and the two sides of the book are those of
the other book, exchanged and with negated prices (`OrderBook.Flips`). `run_flips` holds for calls
with prices that have a negation, that is above the least one.
-/

import OrderBook.Market.Flip
import OrderBook.Refine.Runs

namespace Ob

/-- The sides of the second book are those of the first, exchanged: levels at the negated prices,
best level first in both, with the same totals and the same orders in the same places of their
queues. The ids name the same slots and the clocks agree. -/
structure OrderBook.Flips (b b' : OrderBook) : Prop where
  ladder : ∀ side : Side, b'.ladder side.opposite = (b.ladder side).flip
  index : b'.idIndex = b.idIndex
  clock : b'.clock = b.clock

theorem Stands.flips {capacity : Nat} {held : List Ptr} {b b' : OrderBook} {m : Market}
    (stands : Stands capacity held b m) (stands' : Stands capacity held b' m.flip) :
    b.Flips b' where
  ladder side := by
    rw [ladder_eq stands.rep stands.distinct, ladder_eq stands'.rep stands'.distinct,
      Market.flip_ladder]
  index := stands'.rep.index.trans stands.rep.index.symm
  clock := stands'.rep.clock.trans stands.rep.clock.symm

/-- The market after the exchanged calls is the exchanged market. -/
theorem answers_flip {capacity : Nat} (positive : 0 < capacity) {calls : List OrderBook.Call}
    (negatable : ∀ call ∈ calls, call.Negatable) :
    Machine.answers Market.handle (Market.new capacity) (calls.map OrderBook.Call.flip) =
      ((Machine.answers Market.handle (Market.new capacity) calls).1.flip,
        (Machine.answers Market.handle (Market.new capacity) calls).2.map
          OrderBook.Reply.flip) := by
  have maps : ∀ (m : Market) (call : OrderBook.Call), m.Wf capacity [] ∧ m.Negatable →
      call.Negatable →
      m.flip.handle call.flip = ((m.handle call).1.flip, (m.handle call).2.flip) ∧
        (m.handle call).1.Wf capacity [] ∧ (m.handle call).1.Negatable := by
    rintro m call ⟨wf, inside⟩ price
    exact ⟨Market.handle_flip wf inside price, Market.handle_wf wf call,
      Market.handle_negatable wf inside price⟩
  have new : (Market.new capacity).Wf capacity [] ∧ (Market.new capacity).Negatable :=
    ⟨(Stands.new positive).wf, fun _ => List.forall_mem_nil _⟩
  exact Machine.answers_map maps new negatable

/-- **The mirrored run.** -/
theorem run_flips {capacity : Nat} (positive : 0 < capacity) {calls : List OrderBook.Call}
    (negatable : ∀ call ∈ calls, call.Negatable) :
    ∃ b b' replies, Machine.run OrderBook.handle (OrderBook.new capacity) calls = .ok (b, replies) ∧
      Machine.run OrderBook.handle (OrderBook.new capacity) (calls.map OrderBook.Call.flip) =
        .ok (b', replies.map OrderBook.Reply.flip) ∧
      b.Flips b' := by
  obtain ⟨b, ran, stands⟩ := run_handles positive calls
  obtain ⟨b', ran', stands'⟩ := run_handles positive (calls.map OrderBook.Call.flip)
  rw [answers_flip positive negatable] at ran' stands'
  exact ⟨b, b', _, ran, ran', stands.flips stands'⟩

/-- A buy that crosses the two sells that are left after a cancel of the oldest. -/
theorem run_flips_crossed :
    ∃ b b' replies, Machine.run OrderBook.handle (OrderBook.new 4)
        [.submit ⟨1, 100, 5, 0, .sell, .limit⟩, .submit ⟨2, 100, 7, 0, .sell, .limit⟩,
          .submit ⟨3, 101, 2, 0, .sell, .limit⟩, .cancel 1,
          .submit ⟨4, 101, 8, 0, .buy, .limit⟩] = .ok (b, replies) ∧
      Machine.run OrderBook.handle (OrderBook.new 4)
        [.submit ⟨1, -100, 5, 0, .buy, .limit⟩, .submit ⟨2, -100, 7, 0, .buy, .limit⟩,
          .submit ⟨3, -101, 2, 0, .buy, .limit⟩, .cancel 1,
          .submit ⟨4, -101, 8, 0, .sell, .limit⟩] = .ok (b', replies.map OrderBook.Reply.flip) ∧
      b.Flips b' := run_flips (by decide) (by decide)

end Ob
