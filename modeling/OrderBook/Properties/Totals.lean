/-
**Cached totals and their wrap-around.**

A cached total is the sum of its queue modulo `2 ^ 64`, and nothing in the source keeps the sum
below that. A total goes wrong exactly where the remainder of a limit order comes to rest at a price
whose queue then holds `2 ^ 64` or more, and the fill-or-kill check then kills an order that could
be filled (`totals_wrap`). A call without that (`FitsTotal`), and no other, keeps the totals exact
(`Stands.exact_iff`), so in a run of such calls every total is exact, and the check kills nothing
that the orders could fill: `run_exact`.
-/

import OrderBook.Properties.Waterfall

namespace Ob

open Links

/-- Every cached total is the sum of its queue. -/
def OrderBook.ExactTotals (b : OrderBook) : Prop :=
  ∀ side, ∀ lvl ∈ (b.sideBook side).levels, lvl.totalQty.toNat = (quantities (b.queue lvl)).sum

/-- What the orders of a side hold at a price. -/
def OrderBook.held (b : OrderBook) (side : Side) (price : Price) : Nat :=
  (quantities ((b.linked side).filter fun order => order.val.price = price)).sum

/-- A call that does not bring the quantity at a price to `2 ^ 64`: an order of which a remainder comes
to rest has room for it, which is what the orders it crosses leave of it. -/
def OrderBook.FitsTotal (b : OrderBook) : OrderBook.Request → Prop
  | .submit ticket _ onTrade seen => b.Rests ticket onTrade seen →
      b.held ticket.side ticket.price + (ticket.qty.toNat - b.crossing ticket) < 2 ^ 64
  | .cancel _ => True

instance (b : OrderBook) : ∀ request, Decidable (b.FitsTotal request)
  | .submit _ _ _ _ => inferInstanceAs (Decidable (_ → _))
  | .cancel _ => inferInstanceAs (Decidable True)

/-! ### Sides whose totals have not wrapped -/

section Exact

variable {side : Side} {order : Resting} {ladder ladder' : Ladder}

theorem sweep_exact {σ : Type} (onTrade : TradeCallback σ) (taker : Ticket) (ladder : Ladder)
    (left : Quantity) (seen : σ) (exact : ladder.Exact) :
    (sweep onTrade taker ladder left seen).ladder.Exact := by
  have head : ∀ (rung : Rung) (left : Quantity) (seen : σ), (quantities rung.queue).sum < 2 ^ 64 →
      (quantities (sweepQueue onTrade taker rung.price rung.queue rung.total left seen).queue).sum <
        2 ^ 64 := by
    intro rung left seen fits
    obtain ⟨rest, split, trimmed⟩ :=
      sweepQueue_trimmed onTrade taker rung.price rung.queue rung.total left seen
    rw [split, quantities_append] at fits
    exact Nat.lt_of_le_of_lt trimmed.quantities_le (Nat.lt_of_le_of_lt (Nat.le_add_left _ _) fits)
  fun_induction sweep onTrade taker ladder left seen with
  | case1 | case2 => exact exact
  | case3 rung ladder left seen goes here rung' threw =>
    obtain ⟨first, below⟩ := List.forall_mem_cons.mp exact
    exact List.forall_mem_cons.mpr ⟨head rung left seen first, below⟩
  | case4 rung ladder left seen goes here quiet emptied s ih =>
    exact ih (List.forall_mem_cons.mp exact).2
  | case5 rung ladder left seen goes here rung' quiet kept =>
    obtain ⟨first, below⟩ := List.forall_mem_cons.mp exact
    exact List.forall_mem_cons.mpr ⟨head rung left seen first, below⟩

theorem Leaves.exact (leaves : Leaves side order ladder ladder') (exact : ladder.Exact) :
    ladder'.Exact := by
  cases leaves with
  | @queue above below total older newer around remains =>
    obtain ⟨high, low⟩ := List.forall_mem_append.mp exact
    obtain ⟨here, low⟩ := List.forall_mem_cons.mp low
    refine List.forall_mem_append.mpr ⟨high, List.forall_mem_cons.mpr ⟨?_, low⟩⟩
    refine Nat.lt_of_le_of_lt ?_ here
    rw [quantities_append, quantities_append, quantities_cons]
    omega
  | @rung above below total around =>
    obtain ⟨high, low⟩ := List.forall_mem_append.mp exact
    exact List.forall_mem_append.mpr ⟨high, (List.forall_mem_cons.mp low).2⟩

/-- An order comes to rest on a side whose totals have not wrapped: they still have not if and only
if the queue it joins has room. -/
theorem Joins.exact_iff (joins : Joins side order ladder ladder') (wf : ladder.Wf side)
    (exact : ladder.Exact) :
    ladder'.Exact ↔
      (quantities (ladder.queueAt order.val.price)).sum + order.val.qty.toNat < 2 ^ 64 := by
  cases joins with
  | @queue above below total queue around =>
    obtain ⟨high, low⟩ := List.forall_mem_append.mp exact
    have low' := (List.forall_mem_cons.mp low).2
    rw [around.queueAt_rung wf.rungs, Ladder.Exact, List.forall_mem_append, List.forall_mem_cons,
      and_iff_right high, and_iff_left low', quantities_append]
    rfl
  | @rung above below around =>
    obtain ⟨high, low⟩ := List.forall_mem_append.mp exact
    obtain ⟨wfHigh, wfLow⟩ := List.forall_mem_append.mp wf.rungs
    rw [queueAt_append, around.queueAt_above wfHigh, around.queueAt_below wfLow, Ladder.Exact,
      List.forall_mem_append, List.forall_mem_cons, and_iff_right high, and_iff_left low]
    rw [Nat.add_comm]
    rfl

end Exact

/-! ### Markets -/

namespace Market

variable {capacity : Nat} {held : List Ptr} {m : Market} {ticket : Ticket}

def Exact (m : Market) : Prop := ∀ side, (m.ladder side).Exact

theorem exact_with {side : Side} {ladder : Ladder} (exact : m.Exact) (here : ladder.Exact) :
    (m.withLadder side ladder).Exact := forall_with (fun _ => Ladder.Exact) exact here

/-- A remainder at rest: the totals are exact if and only if the queue it joins has room for it. -/
theorem rests_exact (wf : m.Wf capacity held) (exact : m.Exact) {free : List Ptr}
    {o : Ptr} {σ : Type}
    {s : Sweep σ} (swept : s.ladder.Exact) :
    (((m.taken ticket free).swept ticket.side.opposite s).rest
        ⟨o, { m.stamp ticket with qty := s.left }⟩).Exact ↔
      (quantities ((m.ladder ticket.side).queueAt ticket.price)).sum + s.left.toNat < 2 ^ 64 := by
  have own : ((m.taken ticket free).swept ticket.side.opposite s).ladder ticket.side =
      m.ladder ticket.side := swept_ne _ s (Side.opposite_ne ticket.side).symm
  have joins :
    Joins ticket.side ⟨o, { m.stamp ticket with qty := s.left }⟩ (m.ladder ticket.side) _ :=
    insert_joins (wf.ladders ticket.side).sorted
  refine .trans ?_ (joins.exact_iff (wf.ladders ticket.side) (exact ticket.side))
  rw [← own]
  constructor
  · intro after
    have here : ((withLadder _ ticket.side _).ladder ticket.side).Exact := after ticket.side
    rw [withLadder_same] at here
    exact here
  · exact fun here => exact_with (exact_with exact swept) here

/-- **A submit keeps the totals exact** if its remainder has room at its price. -/
theorem submit_exact {σ : Type} (wf : m.Wf capacity held) (exact : m.Exact)
    (onTrade : TradeCallback σ) (seen : σ)
    (fits : m.Rests ticket onTrade seen →
      (quantities ((m.ladder ticket.side).queueAt ticket.price)).sum +
        (ticket.qty.toNat - depth ticket (m.ladder ticket.side.opposite).orders) < 2 ^ 64) :
    (m.submit ticket onTrade seen).market.Exact := by
  have opposite := wf.ladders ticket.side.opposite
  have swept_exact :=
    sweep_exact onTrade (m.stamp ticket) (m.ladder ticket.side.opposite) ticket.qty
    seen (exact _)
  have remains := sweep_left onTrade (m.stamp ticket) _ opposite ticket.qty seen
  have ends := m.submit_outcome onTrade ticket seen
  generalize m.submit ticket onTrade seen = done at ends
  cases ends with
  | nothing | full | killed => exact exact
  | leaves _ _ _ swept | throws _ _ _ swept =>
    rw [swept] at swept_exact
    exact exact_with exact swept_exact
  | @rests o free s _ shape _ swept quiet left limit =>
    have rests := rests_of_left opposite limit (shape ▸ List.cons_ne_nil o free) swept quiet left
    rw [swept] at swept_exact remains
    rw [rests_exact wf exact swept_exact, remains quiet]
    exact fits rests

/-- **And only then**: a remainder without room leaves a total that has wrapped. -/
theorem submit_inexact {σ : Type} (wf : m.Wf capacity held) (exact : m.Exact)
    {onTrade : TradeCallback σ} {seen : σ} (rests : m.Rests ticket onTrade seen)
    (full : ¬(quantities ((m.ladder ticket.side).queueAt ticket.price)).sum +
      (ticket.qty.toNat - depth ticket (m.ladder ticket.side.opposite).orders) < 2 ^ 64) :
    ¬(m.submit ticket onTrade seen).market.Exact := by
  have swept_exact :=
    sweep_exact onTrade (m.stamp ticket) (m.ladder ticket.side.opposite) ticket.qty
    seen (exact _)
  obtain ⟨o, free, s, _, swept, left, ends⟩ := rests.submit (wf.ladders ticket.side.opposite)
  rw [swept] at swept_exact
  rw [ends, rests_exact wf exact swept_exact, left]
  exact full

theorem cancel_exact (wf : m.Wf capacity held) (exact : m.Exact) (id : OrderId) :
    (m.cancel id).1.Exact := by
  have ends := cancel_outcome wf id
  generalize m.cancel id = done at ends ⊢
  cases ends with
  | absent => exact exact
  | leaves _ _ _ leaves => exact exact_with exact (leaves.exact (exact _))

end Market

/-! ### Books -/

section Stands

variable {capacity : Nat} {held : List Ptr} {b : OrderBook} {m : Market}

theorem exactTotals_iff (stands : Stands capacity held b m) : b.ExactTotals ↔ m.Exact := by
  have total : ∀ {side : Side} {lvl : PriceLevel} {rung : Rung}, RungRep b.pool.read lvl rung →
      rung ∈ m.ladder side →
      (lvl.totalQty.toNat = (quantities (b.queue lvl)).sum ↔
        (quantities rung.queue).sum < 2 ^ 64) := by
    intro side lvl rung here member
    rw [queue_eq stands.rep stands.distinct here member, here.total,
      ((stands.wf.ladders side).rungs rung member).total, UInt64.toNat_ofNat']
    exact ⟨fun same => same ▸ Nat.mod_lt _ (Nat.two_pow_pos 64), Nat.mod_eq_of_lt⟩
  constructor
  · intro exact side rung member
    obtain ⟨lvl, inLevels, here⟩ := level_of_rung stands.rep member
    exact (total here member).mp (exact side lvl inLevels)
  · intro exact side lvl member
    obtain ⟨rung, inLadder, here⟩ := rung_of_level stands.rep member
    exact (total here inLadder).mpr (exact side rung inLadder)

theorem fitsTotal_iff (stands : Stands capacity held b m) {ticket : Ticket} {σ : Type}
    {onTrade : TradeCallback σ} {seen : σ} :
    b.FitsTotal (.submit ticket σ onTrade seen) ↔ (m.Rests ticket onTrade seen →
      (quantities ((m.ladder ticket.side).queueAt ticket.price)).sum +
        (ticket.qty.toNat - depth ticket (m.ladder ticket.side.opposite).orders) < 2 ^ 64) := by
  rw [OrderBook.FitsTotal, stands.rests_iff]
  refine imp_congr_right fun rests => ?_
  rw [OrderBook.held, linked_eq stands.rep stands.distinct,
    crossing_eq stands (by simp [rests.1])]
  rfl

/-- **One call** keeps the totals exact if and only if it meets the condition. -/
theorem Stands.exact_iff (stands : Stands capacity held b m) (exact : b.ExactTotals)
    (request : OrderBook.Request) :
    ∃ b' ret, b.perform request = .ok (b', ret) ∧ (b'.ExactTotals ↔ b.FitsTotal request) ∧
      ∃ m' held', Stands capacity held' b' m' := by
  obtain ⟨b', did, rep⟩ := perform_spec stands request
  obtain ⟨held', wf⟩ := perform_wf stands.wf request
  have stands' : Stands capacity held' b' (m.perform request).1 := ⟨rep, wf⟩
  refine ⟨b', _, did, (exactTotals_iff stands').trans ?_, _, _, stands'⟩
  have before := (exactTotals_iff stands).mp exact
  cases request with
  | cancel id => exact iff_of_true (Market.cancel_exact stands.wf before id) trivial
  | submit ticket σ onTrade seen =>
    rw [fitsTotal_iff stands]
    refine ⟨fun after rests => ?_, Market.submit_exact stands.wf before onTrade seen⟩
    by_contra full
    exact Market.submit_inexact stands.wf before rests full after

/-- In a book with exact totals the check kills no order that the resting orders could fill. -/
theorem Stands.fills_of_exact (stands : Stands capacity held b m) (exact : b.ExactTotals)
    {ticket : Ticket} (fok : ticket.type = .fok) (some_qty : 0 < ticket.qty)
    (some_free : b.pool.freeHead ≠ none) (enough : ticket.qty.toNat ≤ b.crossing ticket) :
    ∃ done, b.submit ticket OrderBook.recorder [] = .ok done ∧ b.Filled ticket done := by
  obtain ⟨done, submitted, _, exactly⟩ := stands.all_or_nothing fok some_qty some_free
  exact ⟨done, submitted, (exactly ((exactTotals_iff stands).mp exact _)).mpr enough⟩

end Stands

/-- **Every total is exact, and no order that could be filled is killed**, after any calls that each
find room at their price. -/
theorem run_exact {capacity : Nat} (positive : 0 < capacity) {requests : List OrderBook.Request}
    (fits : Machine.Along OrderBook.FitsTotal OrderBook.perform (OrderBook.new capacity) requests) :
    ∃ b rets, Machine.run OrderBook.perform (OrderBook.new capacity) requests = .ok (b, rets) ∧
      b.ExactTotals ∧
      ∀ ticket : Ticket, ticket.type = .fok → 0 < ticket.qty → b.pool.freeHead ≠ none →
        ticket.qty.toNat ≤ b.crossing ticket →
        ∃ done, b.submit ticket OrderBook.recorder [] = .ok done ∧ b.Filled ticket done := by
  have kept : ∀ (b : OrderBook) request,
      (b.ExactTotals ∧ ∃ m held, Stands capacity held b m) → b.FitsTotal request →
      ∃ b' ret, b.perform request = .ok (b', ret) ∧ b'.ExactTotals ∧
        ∃ m held, Stands capacity held b' m := by
    rintro b request ⟨exact, m, held, stands⟩ fits
    obtain ⟨b', ret, did, kept, stands'⟩ := stands.exact_iff exact request
    exact ⟨b', ret, did, kept.mpr fits, stands'⟩
  have empty : (OrderBook.new capacity).ExactTotals := by
    intro side lvl member
    cases side
    · cases member
    · cases member
  obtain ⟨b, rets, ran, exact, m, held, stands⟩ :=
    Machine.run_along kept ⟨empty, _, _, Stands.new positive⟩ fits
  exact ⟨b, rets, ran, exact, fun ticket fok some_qty some_free enough =>
    stands.fills_of_exact exact fok some_qty some_free enough⟩

set_option maxRecDepth 4000 in
/-- Two resting orders and a third that takes part of them. -/
theorem run_exact_partial :
    ∃ b rets, Machine.run OrderBook.perform (OrderBook.new 4)
        [.submit ⟨1, 100, 5, 0, .buy, .limit⟩ (List Trade) OrderBook.recorder [],
          .submit ⟨2, 100, 0x8000000000000000, 0, .buy, .limit⟩ (List Trade) OrderBook.recorder [],
          .submit ⟨3, 99, 7, 0, .sell, .limit⟩ (List Trade) OrderBook.recorder []] = .ok (b, rets) ∧
      b.ExactTotals ∧
      ∀ ticket : Ticket, ticket.type = .fok → 0 < ticket.qty → b.pool.freeHead ≠ none →
        ticket.qty.toNat ≤ b.crossing ticket →
        ∃ done, b.submit ticket OrderBook.recorder [] = .ok done ∧ b.Filled ticket done :=
  run_exact (by decide) (by decide)

set_option maxRecDepth 4000 in
/-- **The wrap-around.** After two orders of `2 ^ 63` at one price the cached total is 0, and a
fill-or-kill order of quantity 1 against them is killed. -/
theorem totals_wrap :
    ∃ b rets, Machine.run OrderBook.perform (OrderBook.new 4)
        [.submit ⟨1, 100, 0x8000000000000000, 0, .buy, .limit⟩ (List Trade) OrderBook.recorder [],
          .submit ⟨2, 100, 0x8000000000000000, 0, .buy, .limit⟩ (List Trade) OrderBook.recorder []]
        = .ok (b, rets) ∧
      ¬b.ExactTotals ∧ b.crossing ⟨3, 100, 1, 0, .sell, .fok⟩ = 2 ^ 64 ∧
      ∃ done, b.submit ⟨3, 100, 1, 0, .sell, .fok⟩ OrderBook.recorder [] = .ok done ∧
        done.seen = [] := by
  refine ⟨_, _, rfl, fun exact => ?_, by decide, _, rfl, rfl⟩
  have wrapped := exact .buy _ List.mem_cons_self
  revert wrapped
  decide

end Ob
