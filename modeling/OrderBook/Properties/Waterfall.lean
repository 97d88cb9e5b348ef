/-
**Waterfall allocation.**

* `run_waterfall` — after any calls, a limit, IOC or market order that finds a slot is shared out
  among the orders it crosses, best price first and oldest order first: each trades once, for the
  smaller of its quantity and what those before it have left, or not at all. What remains of a limit
  order joins its own side, which is otherwise as before.
* `Stands.rests_iff` — when something remains, for any callback (`OrderBook.Rests`).
-/

import OrderBook.Market.Exception
import OrderBook.Properties.FillOrKill

namespace Ob

open Links

/-- The orders that an order crosses, best price first and oldest first. -/
def OrderBook.crossed (b : OrderBook) (ticket : Ticket) : List Resting :=
  Ob.crossed ticket (b.linked ticket.side.opposite)

/-- An order with the time stamp it gets. -/
def OrderBook.stamped (b : OrderBook) (ticket : Ticket) : Ticket :=
  { ticket with ts := if ticket.ts = 0 then b.clock + 1 else ticket.ts }

/-- What it gets from each of the orders it crosses. -/
def OrderBook.shares (b : OrderBook) (ticket : Ticket) : List Share :=
  Ob.shares ticket.qty.toNat (b.crossed ticket)

/-- A remainder of an order comes to rest: it is a limit order, there is a slot, the orders it crosses
do not use it up, and the callback returns at the trades with all of them. -/
def OrderBook.Rests {σ : Type} (b : OrderBook) (ticket : Ticket) (onTrade : TradeCallback σ)
    (seen : σ) : Prop :=
  ticket.type = .limit ∧ b.pool.freeHead ≠ none ∧ b.crossing ticket < ticket.qty.toNat ∧
    ((filled (b.stamped ticket) (b.crossed ticket)).foldlM onTrade seen).isSome

instance {σ : Type} (b : OrderBook) (ticket : Ticket) (onTrade : TradeCallback σ) (seen : σ) :
    Decidable (b.Rests ticket onTrade seen) :=
  inferInstanceAs (Decidable (_ ∧ _ ∧ _ ∧ _))

structure OrderBook.Waterfall (b : OrderBook) (ticket : Ticket)
    (done : OrderBook.Submitted (List Trade)) : Prop where
  ret : done.ret = some true
  /-- The trades are the shares that are not 0, in their order, each at the price of its maker. -/
  trades : done.seen = reported (b.stamped ticket) (b.shares ticket)
  opposite : done.book.linked ticket.side.opposite =
    remainders (b.shares ticket) ++ spared ticket (b.linked ticket.side.opposite)
  /-- At most the first of the orders that stay has traded. -/
  survivor : ∃ gone rest, b.linked ticket.side.opposite = gone ++ rest ∧
    Trimmed rest (done.book.linked ticket.side.opposite)
  own : ¬(ticket.type = .limit ∧ (quantities (b.crossed ticket)).sum < ticket.qty.toNat) →
    done.book.ladder ticket.side = b.ladder ticket.side
  rests : ticket.type = .limit → (quantities (b.crossed ticket)).sum < ticket.qty.toNat →
    ∃ o, b.pool.freeHead = some o ∧ Joins ticket.side
      ⟨o, { b.stamped ticket with
        qty := UInt64.ofNat (ticket.qty.toNat - (quantities (b.crossed ticket)).sum) }⟩
      (b.ladder ticket.side) (done.book.ladder ticket.side)
  wellFormed : done.book.WellFormed

section Stands

variable {capacity : Nat} {held : List Ptr} {b : OrderBook} {m : Market} {ticket : Ticket}

theorem stamped_eq (rep : Rep b m) : b.stamped ticket = m.stamp ticket := by
  unfold OrderBook.stamped Market.stamp Market.tick
  rw [rep.clock]
  by_cases unstamped : ticket.ts = 0
  · rw [if_pos unstamped, if_pos unstamped, if_pos unstamped]
  · rw [if_neg unstamped, if_neg unstamped]

theorem Stands.crossed_eq (stands : Stands capacity held b m) : b.crossed ticket =
    Ob.crossed (m.stamp ticket) (m.ladder ticket.side.opposite).orders := by
  rw [OrderBook.crossed, linked_eq stands.rep stands.distinct]
  rfl

theorem Stands.rests_iff (stands : Stands capacity held b m) {σ : Type}
    {onTrade : TradeCallback σ} {seen : σ} :
    b.Rests ticket onTrade seen ↔ m.Rests ticket onTrade seen := by
  refine and_congr_right fun limit => and_congr (not_congr stands.rep.free.nil_iff) ?_
  rw [crossing_eq stands (by simp [limit]), stamped_eq stands.rep, stands.crossed_eq]
  rfl

/-- What the sweep does, in the words of the book. -/
theorem Stands.swept (stands : Stands capacity held b m) {s : Sweep (List Trade)}
    (swept : sweep OrderBook.recorder (m.stamp ticket) (m.ladder ticket.side.opposite) ticket.qty
      [] = s) :
    s.seen = reported (b.stamped ticket) (b.shares ticket) ∧
      s.ladder.orders =
        remainders (b.shares ticket) ++ spared ticket (b.linked ticket.side.opposite) ∧
      (∃ gone rest, b.linked ticket.side.opposite = gone ++ rest ∧
        Trimmed rest s.ladder.orders) ∧
      (s.threw = false →
        s.left.toNat = ticket.qty.toNat - (quantities (b.crossed ticket)).sum) := by
  subst swept
  have opposite := stands.wf.ladders ticket.side.opposite
  have shared := sweep_shares (m.stamp ticket) _ ticket.qty [] opposite
  obtain ⟨rest, split, trimmed⟩ := sweep_trimmed OrderBook.recorder (m.stamp ticket)
    (m.ladder ticket.side.opposite) ticket.qty []
  have remains := sweep_left OrderBook.recorder (m.stamp ticket) _ opposite ticket.qty []
  rw [stamped_eq stands.rep, OrderBook.shares, stands.crossed_eq,
    linked_eq stands.rep stands.distinct]
  exact ⟨shared.1, shared.2, ⟨_, rest, split, trimmed⟩, remains⟩

/-- **One order.** -/
theorem Stands.waterfall (stands : Stands capacity held b m) (lives : ticket.type ≠ .fok)
    (some_qty : ticket.qty ≠ 0) (head : b.pool.freeHead ≠ none) :
    ∃ done, b.submit ticket OrderBook.recorder [] = .ok done ∧ b.Waterfall ticket done := by
  obtain ⟨done, submitted, seen, ret, stands'⟩ := stands.submit recorder_returns ticket []
  have ladder := ladder_eq stands.rep stands.distinct ticket.side
  have linked' := linked_eq stands'.rep stands'.distinct ticket.side.opposite
  have ladder' := ladder_eq stands'.rep stands'.distinct ticket.side
  have some_free : m.free ≠ [] := mt stands.rep.free.nil_iff.mpr head
  rw [m.submit_ret recorder_returns, decide_eq_true (.inr some_free)] at ret
  have ends := m.submit_outcome OrderBook.recorder ticket []
  generalize m.submit ticket OrderBook.recorder [] = result at seen ends linked' ladder'
  refine ⟨done, submitted, ?_⟩
  cases ends with
  | nothing none => exact absurd none some_qty
  | full _ full => exact absurd full some_free
  | killed _ _ killed => exact absurd killed.1 lives
  | throws _ _ _ swept threw =>
    rw [← swept, sweep_quiet recorder_returns] at threw
    cases threw
  | @leaves o free s _ _ _ swept quiet rests =>
    have own : ((m.taken ticket free).swept ticket.side.opposite s).ladder ticket.side =
        m.ladder ticket.side := Market.swept_ne _ s (Side.opposite_ne ticket.side).symm
    have other : done.book.linked ticket.side.opposite = s.ladder.orders :=
      linked'.trans (congrArg Ladder.orders (Market.swept_same _ _ s))
    obtain ⟨trades, opposite, survivor, remains⟩ := stands.swept swept
    rw [← other] at opposite survivor
    refine ⟨ret, seen.trans trades, opposite, survivor, fun _ => ?_, fun limit short => ?_,
      stands'.wellFormed⟩
    · exact ladder'.trans (own.trans ladder.symm)
    · -- a remainder of a limit order would rest
      refine absurd ⟨fun none => ?_, limit⟩ rests
      have spent := remains quiet
      rw [none, UInt64.toNat_zero] at spent
      exact Nat.not_le.mpr short (Nat.le_of_sub_eq_zero spent.symm)
  | @rests o free s _ shape _ swept quiet left limit =>
    have own : ((m.taken ticket free).swept ticket.side.opposite s).ladder ticket.side =
        m.ladder ticket.side := Market.swept_ne _ s (Side.opposite_ne ticket.side).symm
    have joined : (((m.taken ticket free).swept ticket.side.opposite s).rest
        ⟨o, { m.stamp ticket with qty := s.left }⟩).ladder ticket.side =
        Ladder.insert ticket.side ⟨o, { m.stamp ticket with qty := s.left }⟩
          (m.ladder ticket.side) :=
      (Market.rest_same _ _).trans (congrArg (Ladder.insert _ _) own)
    have other : done.book.linked ticket.side.opposite = s.ladder.orders := by
      refine linked'.trans (congrArg Ladder.orders ?_)
      exact (Market.rest_ne _ (Side.opposite_ne _)).trans (Market.swept_same _ _ s)
    obtain ⟨trades, opposite, survivor, remains⟩ := stands.swept swept
    rw [← other] at opposite survivor
    have left_eq := remains quiet
    refine ⟨ret, seen.trans trades, opposite, survivor, fun spent => ?_, fun _ _ => ⟨o, ?_, ?_⟩,
      stands'.wellFormed⟩
    · refine absurd ⟨limit, ?_⟩ spent
      have some_left := UInt64.lt_iff_toNat_lt.mp (UInt64.pos_iff_ne_zero.mpr left)
      rw [left_eq] at some_left
      exact Nat.lt_of_sub_pos some_left
    · have chain := stands.rep.free
      rw [shape] at chain
      exact chain.head_eq
    · rw [ladder', joined, ladder, stamped_eq stands.rep, ← left_eq, UInt64.ofNat_toNat]
      exact insert_joins (stands.wf.ladders ticket.side).sorted

end Stands

/-- **Waterfall allocation**, after any calls. -/
theorem run_waterfall {capacity : Nat} (positive : 0 < capacity)
    (requests : List OrderBook.Request) :
    ∃ b rets, Machine.run OrderBook.perform (OrderBook.new capacity) requests = .ok (b, rets) ∧
      ∀ ticket : Ticket, ticket.type ≠ .fok → 0 < ticket.qty → b.pool.freeHead ≠ none →
        ∃ done, b.submit ticket OrderBook.recorder [] = .ok done ∧ b.Waterfall ticket done := by
  obtain ⟨b, rets, ran, m, held, stands⟩ := run_stands positive requests
  exact ⟨b, rets, ran, fun ticket lives some_qty head =>
    stands.waterfall lives (UInt64.pos_iff_ne_zero.mp some_qty) head⟩

set_option maxRecDepth 4000 in
/-- Seven against two levels: five at the better price, two of four at the next. -/
theorem run_waterfall_levels :
    ∃ b rets, Machine.run OrderBook.perform (OrderBook.new 4)
        [.submit ⟨1, 101, 4, 0, .sell, .limit⟩ (List Trade) OrderBook.recorder [],
          .submit ⟨2, 100, 5, 0, .sell, .limit⟩ (List Trade) OrderBook.recorder []] =
            .ok (b, rets) ∧
      ∃ done, b.submit ⟨3, 101, 7, 0, .buy, .limit⟩ OrderBook.recorder [] = .ok done ∧
        b.Waterfall ⟨3, 101, 7, 0, .buy, .limit⟩ done := by
  obtain ⟨b, rets, ran, each⟩ := @run_waterfall 4 (by decide)
    [.submit ⟨1, 101, 4, 0, .sell, .limit⟩ (List Trade) OrderBook.recorder [],
      .submit ⟨2, 100, 5, 0, .sell, .limit⟩ (List Trade) OrderBook.recorder []]
  refine ⟨b, rets, ran, each _ (by decide) (by decide) ?_⟩
  obtain rfl : _ = b := (Prod.mk.inj (Except.ok.inj ran)).1
  decide

end Ob
