/-
**Splitting an IOC order.**

* `run_split` — after any calls, two IOC orders one after the other leave the same levels, index and
  free slots as one of both quantities, and what the orders of an id trade at a price is the same.
-/

import OrderBook.Market.Split
import OrderBook.Refine.Runs

namespace Ob

section Stands

variable {capacity : Nat} {held : List Ptr} {b : OrderBook} {m : Market}
  {first second whole : Ticket}

/-- **One order and its two parts.** -/
theorem Stands.split (stands : Stands capacity held b m) (head : b.pool.freeHead ≠ none)
    (halves : Ticket.Halves first second whole) :
    ∃ once twice all, b.submit first OrderBook.recorder [] = .ok once ∧
      once.book.submit second OrderBook.recorder [] = .ok twice ∧
      b.submit whole OrderBook.recorder [] = .ok all ∧
      twice.book.Alike all.book ∧
      ∀ id p, soldAt id p (once.seen ++ twice.seen) = soldAt id p all.seen := by
  obtain ⟨once, submitted, seen, _, stands₁⟩ := stands.submit recorder_returns first []
  obtain ⟨twice, submitted', seen', _, stands₂⟩ := stands₁.submit recorder_returns second []
  obtain ⟨all, submittedAll, seenAll, _, standsAll⟩ := stands.submit recorder_returns whole []
  refine ⟨once, twice, all, submitted, submitted', submittedAll, ?_⟩
  have some_free : m.free ≠ [] := mt stands.rep.free.nil_iff.mpr head
  have pos := halves.some_qty
  rw [UInt64.pos_iff_ne_zero, UInt64.pos_iff_ne_zero] at pos
  have some_qty : whole.qty ≠ 0 := fun none => by
    have sizes := halves.sizes
    rw [none, UInt64.toNat_zero] at sizes
    exact pos.1 (UInt64.toNat_inj.mp (Nat.eq_zero_of_add_eq_zero_right sizes))
  obtain ⟨gone, took⟩ :=
    Market.ioc_takes (stands.wf.ladders _) some_free pos.1 halves.types.1
  obtain ⟨o, free, _, left⟩ := took.free
  obtain ⟨gone', took'⟩ := Market.ioc_takes (stands₁.wf.ladders _)
    (left ▸ List.cons_ne_nil _ _) pos.2 halves.types.2.1
  obtain ⟨goneAll, tookAll⟩ :=
    Market.ioc_takes (stands.wf.ladders _) some_free some_qty halves.types.2.2
  obtain ⟨own, across, slots, index, accounts⟩ :=
    Market.ioc_twice (stands.wf.ladders _) halves took took' tookAll
  refine ⟨stands₂.alike standsAll (fun side => ?_) index slots, ?_⟩
  · rcases Side.eq_or_opposite whole.side side with rfl | rfl
    · exact own
    · exact (stands₂.wf.ladders _).ext_orders (standsAll.wf.ladders _) across
  · rw [seen, seen', seenAll]
    exact accounts

end Stands

/-- **Splitting does not matter**, after any calls. -/
theorem run_split {capacity : Nat} (positive : 0 < capacity)
    (requests : List OrderBook.Request) :
    ∃ b rets, Machine.run OrderBook.perform (OrderBook.new capacity) requests = .ok (b, rets) ∧
      ∀ first second whole : Ticket, Ticket.Halves first second whole → b.pool.freeHead ≠ none →
        ∃ once twice all, b.submit first OrderBook.recorder [] = .ok once ∧
          once.book.submit second OrderBook.recorder [] = .ok twice ∧
          b.submit whole OrderBook.recorder [] = .ok all ∧
          twice.book.Alike all.book ∧
          ∀ id p, soldAt id p (once.seen ++ twice.seen) = soldAt id p all.seen := by
  obtain ⟨b, rets, ran, m, held, stands⟩ := run_stands positive requests
  exact ⟨b, rets, ran, fun first second whole halves head => stands.split head halves⟩

set_option maxRecDepth 4000 in
/-- Seven in two parts against a level of five and one of four: the first part stops at the end of
the level. -/
theorem run_split_level :
    ∃ b rets, Machine.run OrderBook.perform (OrderBook.new 4)
        [.submit ⟨1, 101, 4, 0, .sell, .limit⟩ (List Trade) OrderBook.recorder [],
          .submit ⟨2, 100, 5, 0, .sell, .limit⟩ (List Trade) OrderBook.recorder []] =
            .ok (b, rets) ∧
      ∃ once twice all, b.submit ⟨3, 101, 5, 0, .buy, .ioc⟩ OrderBook.recorder [] = .ok once ∧
        once.book.submit ⟨4, 101, 2, 0, .buy, .ioc⟩ OrderBook.recorder [] = .ok twice ∧
        b.submit ⟨5, 101, 7, 0, .buy, .ioc⟩ OrderBook.recorder [] = .ok all ∧
        twice.book.Alike all.book := by
  obtain ⟨b, rets, ran, each⟩ := @run_split 4 (by decide)
    [.submit ⟨1, 101, 4, 0, .sell, .limit⟩ (List Trade) OrderBook.recorder [],
      .submit ⟨2, 100, 5, 0, .sell, .limit⟩ (List Trade) OrderBook.recorder []]
  have head : b.pool.freeHead ≠ none := by
    obtain rfl : _ = b := (Prod.mk.inj (Except.ok.inj ran)).1
    decide
  obtain ⟨once, twice, all, submitted, submitted', submittedAll, alike, _⟩ :=
    each ⟨3, 101, 5, 0, .buy, .ioc⟩ ⟨4, 101, 2, 0, .buy, .ioc⟩ ⟨5, 101, 7, 0, .buy, .ioc⟩
      ⟨by decide, by decide, by decide, by decide, by decide⟩ head
  exact ⟨b, rets, ran, once, twice, all, submitted, submitted', submittedAll, alike⟩

end Ob
