/-
**The market behaves like the reference book.**

A market and a list reflect each other when both sides do (`Market.Reflects`). Every call keeps this
and gives the same deals and the same return value:

* `submit_refines` — as long as the index is complete, the cached totals are exact and the id is not
  at rest.
* `cancel_refines` — always.
-/

import OrderBook.Market.Index
import OrderBook.Market.Queues
import OrderBook.Reference.Mirror

namespace Ob

open Links Reference OrderBook

/-! ### Coming to rest, and leaving -/

section Place

variable {side : Side} {order : Resting} {ladder ladder' : Ladder} {orders : List Listed}

theorem Mirrors.joins (mirrors : Mirrors side ladder.orders orders)
    (joins : Joins side order ladder ladder') (wf : ∀ rung ∈ ladder, rung.Wf side)
    (own : order.val.side = side) : Mirrors side ladder'.orders (orders ++ [order.listed]) := by
  intro p
  have queued := joins.queueAt wf p
  unfold Ladder.queueAt at queued
  rw [queued, List.map_append, mirrors p, List.filter_append]
  congr 1
  by_cases here : order.val.price = p <;> simp [here, Resting.listed, own]

/-- An order of one side is not among those of the other. -/
theorem Mirrors.other (mirrors : Mirrors side ladder.orders orders) (own : order.val.side ≠ side) :
    Mirrors side ladder.orders (orders ++ [order.listed]) := by
  intro p
  rw [mirrors p, List.filter_append]
  simp [Resting.listed, own]

/-- The orders without those of an id, on a ladder and in a list. -/
theorem Mirrors.without {resting : List Resting} (mirrors : Mirrors side resting orders)
    (id : OrderId) :
    Mirrors side (resting.filter fun order => order.val.id ≠ id)
      (orders.filter fun order => order.id ≠ id) := by
  intro p
  rw [List.filter_comm _ _ resting, List.filter_comm _ _ orders, ← mirrors p, List.filter_map]
  rfl

end Place

namespace Market

variable {capacity : Nat} {m : Market} {orders : List Listed} {ticket : Ticket}

/-- Both sides of a market are listed as they queue, and no id is listed twice. -/
def Reflects (m : Market) (orders : List Listed) : Prop :=
  Ob.Reflects .buy (m.ladder .buy).orders (m.ladder .sell).orders orders

namespace Reflects

/-- Seen from either side. -/
theorem iff_side (side : Side) :
    m.Reflects orders ↔
      Ob.Reflects side (m.ladder side).orders (m.ladder side.opposite).orders orders := by
  cases side
  · exact Iff.rfl
  · exact ⟨Ob.Reflects.flip, Ob.Reflects.flip⟩

theorem mirrors (reflects : m.Reflects orders) (side : Side) :
    Mirrors side (m.ladder side).orders orders := ((iff_side side).mp reflects).here

/-- The list has the orders of the market. -/
theorem perm (reflects : m.Reflects orders) : (m.linked.map Resting.listed).Perm orders := by
  have bids := reflects.here.perm
  have asks := reflects.there.perm
  have sides : orders.filter (fun order => order.side = Side.buy.opposite) =
      orders.filter fun order => !decide (order.side = .buy) := by
    refine List.filter_congr fun order _ => ?_
    cases order.side <;> rfl
  rw [sides] at asks
  rw [linked, List.map_append]
  exact (bids.append asks).trans (List.filter_append_perm _ _)

theorem length_eq (reflects : m.Reflects orders) : orders.length = m.linked.length := by
  rw [← reflects.perm.length_eq, List.length_map]

/-- Both books stop taking orders at the same point. -/
theorem full_iff (reflects : m.Reflects orders) (wf : m.Wf capacity []) :
    orders.length = capacity ↔ m.free = [] := by
  have count := wf.slots.length_eq
  rw [List.nil_append, slots, List.length_append, List.length_map, List.length_range] at count
  rw [reflects.length_eq, ← List.length_eq_zero_iff]
  omega

/-- Both books show the same best prices. -/
theorem bestPrice (reflects : m.Reflects orders) (side : Side) (wf : (m.ladder side).Wf side) :
    (⟨capacity, orders⟩ : Book).bestPrice side = (m.ladder side).bestPrice := by
  have mirrors := reflects.mirrors side
  unfold Book.bestPrice
  cases shape : m.ladder side with
  | nil =>
    rw [shape] at mirrors
    rw [mirrors.best_nil]
    rfl
  | cons rung below =>
    rw [shape] at mirrors wf
    obtain ⟨first, queue, head⟩ :=
      List.exists_cons_of_ne_nil (wf.rungs rung List.mem_cons_self).nonempty
    rw [Ladder.orders_cons, head, List.cons_append] at mirrors
    have prices := (wf.rungs rung List.mem_cons_self).prices
    rw [head] at prices
    obtain ⟨here, later⟩ := List.forall_mem_cons.mp prices
    rw [mirrors.best_cons
      (List.forall_mem_append.mpr ⟨fun order member => ?_, fun order member => ?_⟩)]
    · exact here
    · exact Int.le_of_eq (congrArg (rank side) ((later order member).trans here.symm))
    · obtain ⟨other, inLadder, _, price⟩ := wf.tail.rung_of_mem member
      rw [here, ← price]
      exact Int.le_of_lt ((Ladder.sorted_cons.mp wf.sorted).1 other inLadder)

/-- Both books see the same quantity in reach of an order. -/
theorem crossing (reflects : m.Reflects orders) :
    Reference.crossing ticket orders = depth ticket (m.ladder ticket.side.opposite).orders := by
  have same := ((reflects.mirrors ticket.side.opposite).perm.filter
    fun order => Crosses ticket order.price).map fun order => order.qty.toNat
  rw [List.filter_map, List.map_map, List.filter_filter] at same
  rw [Reference.crossing, depth, quantities]
  have listed := same.sum_nat
  simp only [Function.comp_def, crosses_iff, Bool.decide_and, Resting.listed, Bool.and_comm,
    Bool.decide_eq_true] at listed ⊢
  exact listed.symm

/-- An order comes to rest in both books. -/
theorem rest (reflects : m.Reflects orders) {order : Resting}
    (wf : (m.ladder order.val.side).Wf order.val.side)
    (fresh : ∀ other ∈ orders, other.id ≠ order.val.id) :
    (m.rest order).Reflects (orders ++ [order.listed]) := by
  have before := (iff_side order.val.side).mp reflects
  have joins : Joins order.val.side order _ _ := insert_joins wf.sorted
  rw [iff_side order.val.side, rest_same, rest_ne _ (Side.opposite_ne _)]
  refine ⟨before.here.joins joins wf.rungs rfl, ?_, ?_⟩
  · exact before.there.other (Side.opposite_ne _).symm
  · rw [List.map_append, List.nodup_append]
    refine ⟨before.ids, List.nodup_singleton _, ?_⟩
    intro id member id' member' same
    obtain ⟨other, inside, rfl⟩ := List.mem_map.mp member
    exact fresh other inside (same.trans (List.mem_singleton.mp member'))

end Reflects

/-- A cancelled order leaves on both sides the orders of other ids. -/
theorem gone_orders {order : Resting} {ladder : Ladder}
    (leaves : Leaves order.val.side order (m.ladder order.val.side) ladder)
    (apart : ∀ other ∈ (m.withLadder order.val.side ladder).linked,
      other.val.id ≠ order.val.id) (side : Side) :
    ((m.withLadder order.val.side ladder).ladder side).orders =
      (m.ladder side).orders.filter fun other => other.val.id ≠ order.val.id := by
  have here : ∀ other ∈ ((m.withLadder order.val.side ladder).ladder side).orders,
      other.val.id ≠ order.val.id :=
    fun other inside => apart other (mem_linked.mpr ⟨side, inside⟩)
  by_cases own : side = order.val.side
  · subst own
    obtain ⟨before, after, split, left⟩ := leaves.gap
    rw [withLadder_same, left] at here ⊢
    obtain ⟨apartBefore, apartAfter⟩ := List.forall_mem_append.mp here
    rw [split, List.filter_append, List.filter_cons_of_neg (by simp),
      List.filter_eq_self.mpr fun other inside => decide_eq_true (apartBefore other inside),
      List.filter_eq_self.mpr fun other inside => decide_eq_true (apartAfter other inside)]
  · rw [withLadder_ne _ _ own] at here ⊢
    exact (List.filter_eq_self.mpr fun other inside => decide_eq_true (here other inside)).symm

/-- **Both books cancel alike.** -/
theorem cancel_refines (wf : m.Wf capacity []) (complete : m.Complete)
    (reflects : m.Reflects orders)
    (id : OrderId) :
    ((⟨capacity, orders⟩ : Book).cancel id).2 = (m.cancel id).2 ∧
      (m.cancel id).1.Reflects (orders.filter fun order => order.id ≠ id) := by
  have listed : ∀ order ∈ orders, ∃ resting ∈ m.linked, resting.listed = order :=
    fun order member =>
    List.mem_map.mp (reflects.perm.mem_iff.mpr member)
  have ends := cancel_outcome wf id
  generalize m.cancel id = done at ends ⊢
  cases ends with
  | absent entry =>
    have absent : ∀ order ∈ orders, order.id ≠ id := by
      rintro order member rfl
      obtain ⟨resting, inside, rfl⟩ := listed order member
      have found := complete resting inside
      rw [show resting.val.id = resting.listed.id from rfl, entry] at found
      cases found
    rw [List.filter_eq_self.mpr fun order member => by simp [absent order member]]
    exact ⟨List.any_eq_false.mpr fun order member => by simp [absent order member], reflects⟩
  | @leaves order ladder member _ name leaves =>
    subst name
    have linked := cancel_linked leaves
    have ids := (linked.map fun order => order.val.id).nodup_iff.mp (complete.ids wf.distinct)
    have apart : ∀ other ∈ (m.withLadder order.val.side ladder).linked,
      other.val.id ≠ order.val.id :=
      fun other stays same => (List.nodup_cons.mp ids).1 (List.mem_map.mpr ⟨other, stays, same⟩)
    have gone := gone_orders leaves apart
    refine ⟨List.any_eq_true.mpr ⟨order.listed, ?_, by simp [Resting.listed]⟩, ?_, ?_, ?_⟩
    · exact reflects.perm.mem_iff.mp (List.mem_map_of_mem member)
    · exact (gone .buy).symm ▸ reflects.here.without order.val.id
    · exact (gone .sell).symm ▸ reflects.there.without order.val.id
    · exact reflects.ids.sublist (List.filter_sublist.map _)

/-- The deals do not depend on the taker's time. -/
theorem trades_of_stamp {left left' : Quantity} {deals : List Deal} {orders orders' : List Listed}
    (trades : Trades (m.stamp ticket) orders left deals orders' left') :
    Trades ticket orders left deals orders' left' := by
  induction trades with
  | done => exact .done _ _
  | deal goes first crosses _ ih => exact .deal goes first crosses ih

/-- **The list trades like the sweep.** It allows the deals of the sweep, and then no more. -/
theorem swept_refines
    (opposite : (m.ladder ticket.side.opposite).Wf ticket.side.opposite)
    (reflects : m.Reflects orders) (fresh : ∀ order ∈ orders, order.id ≠ ticket.id)
    {s : Sweep (List Trade)}
    (swept : sweep recorder (m.stamp ticket) (m.ladder ticket.side.opposite) ticket.qty [] = s) :
    ∃ orders', trade ticket (orders.length + 1) orders ticket.qty =
        .ok (orders', s.seen.map Trade.deal, s.left) ∧
      (m.swept ticket.side.opposite s).Reflects orders' ∧
      ∀ order ∈ orders', order.id ≠ ticket.id := by
  have follows :=
    sweep_follows (m.stamp ticket) (m.ladder ticket.side).orders _ opposite ticket.qty []
  have before := ((Reflects.iff_side ticket.side).mp reflects).flip
  obtain ⟨deals, orders', trades, after, told⟩ := follows orders before
  have stops := sweep_stops (m.stamp ticket) _ _ opposite ticket.qty [] after
  rw [swept] at trades after told stops
  have all := trade_of_trades (trades_of_stamp trades) stops (Nat.lt_succ_of_le trades.length_le)
  refine ⟨orders', told ▸ all, (Reflects.iff_side ticket.side.opposite).mpr ?_,
    fun order member => ?_⟩
  · rw [swept_same, swept_ne _ _ (Side.opposite_ne _), Side.opposite_opposite]
    exact after
  · obtain ⟨old, inside, same⟩ := List.mem_map.mp (trades.ids.mem (List.mem_map_of_mem member))
    exact same ▸ fresh old inside

/-- **Both books take an order alike**, if the index is complete, the totals are exact and the
order's id is not at rest. -/
theorem submit_refines (wf : m.Wf capacity []) (exact : (m.ladder ticket.side.opposite).Exact)
    (reflects : m.Reflects orders) (fresh : ∀ order ∈ orders, order.id ≠ ticket.id)
    {done : Submitted (List Trade)} (submitted : m.submit ticket recorder [] = done) :
    ∃ orders', (⟨capacity, orders⟩ : Book).accept ticket =
        .ok (⟨capacity, orders'⟩, done.seen.map Trade.deal, done.ret.getD false) ∧
      done.market.Reflects orders' := by
  have opposite := wf.ladders ticket.side.opposite
  have room := reflects.full_iff wf
  have lives : ¬m.kills ticket →
    ¬(ticket.type = .fok ∧ Reference.crossing ticket orders < ticket.qty.toNat) := by
    rintro lives ⟨fok, short⟩
    rw [reflects.crossing, ← cachedDepth_eq _ opposite exact] at short
    exact lives ((kills_iff wf fok).mpr short)
  have ends := m.submit_outcome recorder ticket []
  rw [submitted] at ends
  unfold Book.accept
  cases ends with
  | nothing none => exact ⟨orders, if_pos none, reflects⟩
  | full some_qty full =>
    rw [if_neg some_qty, Book.submit, if_pos (room.mpr full)]
    exact ⟨orders, rfl, reflects⟩
  | killed some_qty some_free killed =>
    have short := (kills_iff wf killed.1).mp killed
    rw [cachedDepth_eq _ opposite exact, ← reflects.crossing] at short
    rw [if_neg some_qty, Book.submit, if_neg (mt room.mp some_free), if_pos ⟨killed.1, short⟩]
    exact ⟨orders, rfl, reflects⟩
  | throws _ _ _ swept threw =>
    rw [← swept, sweep_quiet recorder_returns] at threw
    cases threw
  | @leaves o free s some_qty shape alive swept quiet rests =>
    obtain ⟨orders', all, after, _⟩ := swept_refines opposite reflects fresh swept
    have some_free : m.free ≠ [] := shape ▸ List.cons_ne_nil o free
    rw [if_neg some_qty, Book.submit, if_neg (mt room.mp some_free), if_neg (lives alive)]
    refine ⟨orders', ?_, after⟩
    simp only [all, Mem.ok_bind, if_neg rests, Mem.pure_eq, Option.getD_some]
  | @rests o free s some_qty shape alive swept quiet left limit =>
    obtain ⟨orders', all, after, fresh'⟩ := swept_refines opposite reflects fresh swept
    have some_free : m.free ≠ [] := shape ▸ List.cons_ne_nil o free
    have wf' := wf.swept ticket.side.opposite recorder (m.stamp ticket) ticket.qty []
    rw [swept] at wf'
    rw [if_neg some_qty, Book.submit, if_neg (mt room.mp some_free), if_neg (lives alive)]
    refine ⟨orders' ++ [⟨ticket.id, ticket.side, ticket.price, s.left⟩], ?_, ?_⟩
    · simp only [all, Mem.ok_bind, if_pos (And.intro left limit), Mem.pure_eq, Option.getD_some]
    · have rested : ((m.swept ticket.side.opposite s).rest
          ⟨o, { m.stamp ticket with qty := s.left }⟩).Reflects _ :=
            after.rest (wf'.ladders ticket.side) fresh'
      exact rested

end Market

end Ob
