/-
**Fill or kill.**

The check in `submit` walks the cached totals, the execution walks the orders. The totals never
promise more than the orders hold, so an order that passes the check is filled:

* `run_fillOrKill` — after any calls, a fill-or-kill order at a book with a free slot is filled as a
  whole within its limit or changes nothing; where no level holds `2 ^ 64` or more, it is filled
  exactly if the orders it crosses hold enough.
-/

import OrderBook.Market.Trades
import OrderBook.Properties.WellFormed

namespace Ob

open Links

/-- The quantity that orders of the other side hold at prices an order crosses. -/
def OrderBook.crossing (b : OrderBook) (ticket : Ticket) : Nat :=
  (quantities ((b.linked ticket.side.opposite).filter fun order =>
    priceCrosses ticket.side ticket.price order.val.price)).sum

/-- A fill-or-kill order that is filled: its trades make up its quantity within its limit, and no
part of it comes to rest. -/
structure OrderBook.Filled (b : OrderBook) (ticket : Ticket)
    (done : OrderBook.Submitted (List Trade)) :
    Prop where
  traded : traded done.seen = ticket.qty.toNat
  within : ∀ trade ∈ done.seen, priceCrosses ticket.side ticket.price trade.price = true
  rests : ∀ order ∈ done.book.orders, order.addr ∈ b.orders.map Cell.addr

/-- One that is killed: no trade is reported, and sides, orders, index and free slots are as
before. -/
structure OrderBook.Killed (b : OrderBook) (done : OrderBook.Submitted (List Trade)) : Prop where
  trades : done.seen = []
  bids : done.book.bids = b.bids
  asks : done.book.asks = b.asks
  orders : done.book.orders = b.orders
  index : done.book.idIndex = b.idIndex
  free : ∃ free, Chain b.pool.link b.pool.freeHead free ∧
    Chain done.book.pool.link done.book.pool.freeHead free

section Stands

variable {capacity : Nat} {held : List Ptr} {b : OrderBook} {m : Market} {ticket : Ticket}

theorem crossing_eq (stands : Stands capacity held b m) (limited : ticket.type ≠ .market) :
    b.crossing ticket = depth ticket (m.ladder ticket.side.opposite).orders := by
  rw [OrderBook.crossing, linked_eq stands.rep stands.distinct, depth]
  simp only [Ticket.accepts_limited limited]

/-- **Killed.** -/
theorem Stands.killed (stands : Stands capacity held b m) (some_qty : ticket.qty ≠ 0)
    (some_free : m.free ≠ []) (killed : m.kills ticket) :
    ∃ done, b.submit ticket OrderBook.recorder [] = .ok done ∧ b.Killed done := by
  obtain ⟨pool, submitted, rep⟩ :=
    submit_killed stands.rep stands.distinct some_qty some_free killed OrderBook.recorder []
  refine ⟨_, submitted, rfl, rfl, rfl, ?_, rfl, m.free, stands.rep.free, rep.free⟩
  rw [orders_eq rep stands.distinct, orders_eq stands.rep stands.distinct]
  rfl

/-- A fill-or-kill order that passes the check trades as a whole, as the orders hold what the cached
totals promise. -/
theorem Market.submit_fills (wf : m.Wf capacity held) (fok : ticket.type = .fok)
    (some_qty : ticket.qty ≠ 0) (some_free : m.free ≠ []) (lives : ¬m.kills ticket)
    {done : Market.Submitted (List Trade)}
      (submitted : m.submit ticket OrderBook.recorder [] = done) :
    traded done.seen = ticket.qty.toNat ∧
      (∀ trade ∈ done.seen, priceCrosses ticket.side ticket.price trade.price = true) ∧
      ∀ order ∈ done.market.linked, order.addr ∈ m.linked.map Cell.addr := by
  have opposite := wf.ladders ticket.side.opposite
  have ends := m.submit_outcome OrderBook.recorder ticket []
  rw [submitted] at ends
  cases ends with
  | nothing none => exact absurd none some_qty
  | full _ full => exact absurd full some_free
  | killed _ _ killed => exact absurd killed lives
  | rests _ _ _ _ _ _ limit =>
    rw [fok] at limit
    cases limit
  | throws _ _ _ swept threw =>
    rw [← swept, sweep_quiet recorder_returns] at threw
    cases threw
  | @leaves o free s _ shape _ swept quiet _ =>
    have remains := sweep_left OrderBook.recorder (m.stamp ticket) _ opposite ticket.qty []
    have account := sweep_traded (m.stamp ticket) (m.ladder ticket.side.opposite) ticket.qty []
    have addrs := sweep_addrs OrderBook.recorder (m.stamp ticket) (m.ladder ticket.side.opposite)
      ticket.qty []
    have reports := sweep_reports (m.stamp ticket) (m.ladder ticket.side.opposite) ticket.qty []
      (P := fun trade => priceCrosses ticket.side ticket.price trade.price = true) opposite
      (List.forall_mem_nil _)
    rw [swept] at remains account addrs reports
    refine ⟨?_, reports fun maker price fill accepted _ => ?_, fun order member => ?_⟩
    · have enough : ticket.qty.toNat ≤ depth (m.stamp ticket)
        (m.ladder ticket.side.opposite).orders := by
        rw [Market.kills_iff wf fok] at lives
        exact Nat.le_trans (Nat.not_lt.mp lives) (cachedDepth_le _ opposite)
      have spent := remains quiet
      have start : traded [] = 0 := rfl
      show traded s.seen = _
      omega
    · have limited : (m.stamp ticket).type ≠ .market := by simp [Market.stamp, fok]
      rw [← accepted, Ticket.accepts_limited limited]
      rfl
    · have places := (m.linked_perm ticket.side.opposite).map Cell.addr
      have member' := (Market.linked_with (m.taken ticket free) _ s.ladder).mem_iff.mp member
      rw [places.mem_iff, List.map_append, ← addrs]
      rcases List.mem_append.mp member' with stays | other
      · refine List.mem_append_left _ ?_
        rw [List.map_append]
        exact List.mem_append_right _ (List.mem_map_of_mem stays)
      · exact List.mem_append_right _ (List.mem_map_of_mem other)

/-- **Filled.** -/
theorem Stands.filled (stands : Stands capacity held b m) (fok : ticket.type = .fok)
    (some_qty : ticket.qty ≠ 0) (some_free : m.free ≠ []) (lives : ¬m.kills ticket) :
    ∃ done, b.submit ticket OrderBook.recorder [] = .ok done ∧ b.Filled ticket done := by
  obtain ⟨done, submitted, said⟩ := stands.submitted OrderBook.recorder ticket []
  obtain ⟨all, within, rests⟩ := Market.submit_fills stands.wf fok some_qty some_free lives rfl
  refine ⟨done, submitted, ?_, ?_, ?_⟩
  · rw [said.seen, all]
  · rw [said.seen]
    exact within
  · have wf' := Market.submit_wf_returns stands.wf recorder_returns ticket []
    have stands' : Stands capacity held done.book (m.submit ticket OrderBook.recorder []).market :=
      ⟨said.book, wf'⟩
    rw [orders_eq stands'.rep stands'.distinct, orders_eq stands.rep stands.distinct]
    exact rests

/-- A side whose levels hold less than `2 ^ 64` each is exact. -/
theorem Stands.exact (stands : Stands capacity held b m) {side : Side}
    (fits : ∀ lvl ∈ (b.sideBook side).levels, (quantities (b.queue lvl)).sum < 2 ^ 64) :
    (m.ladder side).Exact := by
  intro rung member
  obtain ⟨lvl, inLevels, here⟩ := level_of_rung stands.rep member
  rw [← queue_eq stands.rep stands.distinct here member]
  exact fits lvl inLevels

/-- **All or nothing** for one order. -/
theorem Stands.all_or_nothing (stands : Stands capacity held b m) (fok : ticket.type = .fok)
    (some_qty : 0 < ticket.qty) (head : b.pool.freeHead ≠ none) :
    ∃ done, b.submit ticket OrderBook.recorder [] = .ok done ∧
      (b.Filled ticket done ∨ b.Killed done) ∧
      ((m.ladder ticket.side.opposite).Exact →
        (b.Filled ticket done ↔ ticket.qty.toNat ≤ b.crossing ticket)) := by
  have some_qty' := UInt64.pos_iff_ne_zero.mp some_qty
  have some_free : m.free ≠ [] := mt stands.rep.free.nil_iff.mpr head
  have limited : ticket.type ≠ .market := by simp [fok]
  have kills := Market.kills_iff stands.wf fok
  have opposite := stands.wf.ladders ticket.side.opposite
  by_cases killed : m.kills ticket
  · obtain ⟨done, submitted, same⟩ := stands.killed some_qty' some_free killed
    refine ⟨done, submitted, .inr same, fun exact => ?_⟩
    rw [crossing_eq stands limited, ← cachedDepth_eq _ opposite exact]
    refine iff_of_false (fun filled => ?_) (Nat.not_le.mpr (kills.mp killed))
    have none := filled.traded
    rw [same.trades] at none
    exact some_qty' (UInt64.toNat_inj.mp none.symm)
  · obtain ⟨done, submitted, filled⟩ := stands.filled fok some_qty' some_free killed
    refine ⟨done, submitted, .inl filled, fun exact => ?_⟩
    rw [crossing_eq stands limited, ← cachedDepth_eq _ opposite exact]
    exact iff_of_true filled (Nat.not_lt.mp (mt kills.mpr killed))

end Stands

/-- **All or nothing**, after any calls, whatever has happened to the cached totals. Where the
levels of the other side hold less than `2 ^ 64` each, the order is filled exactly if they hold
enough. -/
theorem run_fillOrKill {capacity : Nat} (positive : 0 < capacity)
    (requests : List OrderBook.Request) :
    ∃ b rets, Machine.run OrderBook.perform (OrderBook.new capacity) requests = .ok (b, rets) ∧
      ∀ ticket : Ticket, ticket.type = .fok → 0 < ticket.qty → b.pool.freeHead ≠ none →
        ∃ done, b.submit ticket OrderBook.recorder [] = .ok done ∧
          (b.Filled ticket done ∨ b.Killed done) ∧
          ((∀ lvl ∈ (b.sideBook ticket.side.opposite).levels,
              (quantities (b.queue lvl)).sum < 2 ^ 64) →
            (b.Filled ticket done ↔ ticket.qty.toNat ≤ b.crossing ticket)) := by
  obtain ⟨b, rets, ran, m, held, stands⟩ := run_stands positive requests
  refine ⟨b, rets, ran, fun ticket fok some_qty head => ?_⟩
  obtain ⟨done, submitted, either, exactly⟩ := stands.all_or_nothing fok some_qty head
  exact ⟨done, submitted, either, fun fits => exactly (stands.exact fits)⟩

/-- Two orders of `2 ^ 63` at one price, whose cached total has wrapped to 0. -/
theorem run_fillOrKill_wrapped :
    ∃ b rets, Machine.run OrderBook.perform (OrderBook.new 4)
        [.submit ⟨1, 100, 0x8000000000000000, 0, .buy, .limit⟩ (List Trade) OrderBook.recorder [],
          .submit ⟨2, 100, 0x8000000000000000, 0, .buy, .limit⟩ (List Trade) OrderBook.recorder []]
        = .ok (b, rets) ∧
      ∀ ticket : Ticket, ticket.type = .fok → 0 < ticket.qty → b.pool.freeHead ≠ none →
        ∃ done, b.submit ticket OrderBook.recorder [] = .ok done ∧
          (b.Filled ticket done ∨ b.Killed done) :=
  have ⟨b, rets, ran, ends⟩ := run_fillOrKill (by decide) _
  ⟨b, rets, ran, fun ticket fok some_qty head =>
    have ⟨done, submitted, either, _⟩ := ends ticket fok some_qty head
    ⟨done, submitted, either⟩⟩

end Ob
