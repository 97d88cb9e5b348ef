/-
**A limit order that is cancelled at once.**

* `Ladder.remove_insert` — an order that comes to rest and leaves again leaves no trace on its side.
* `Market.limit_cancel` — a limit order followed by a cancel of its id does what an IOC order does,
  if no resting order has the id.
-/

import OrderBook.Market.Queues
import OrderBook.Market.Waterfall

namespace Ob

open Links

/-! ### Coming to rest and leaving -/

section Place

variable {side : Side} {order : Resting} {ladder : Ladder}

/-- **No trace on the side**, whether or not there was a rung at the order's price. -/
theorem Ladder.remove_insert (wf : ladder.Wf side) (own : order.val.side = side)
    (positive : 0 < order.val.qty)
    (distinct : ((order :: ladder.orders).map Cell.addr).Nodup) :
    Ladder.remove order (Ladder.insert side order ladder) = ladder := by
  have joins : Joins side order ladder (Ladder.insert side order ladder) := insert_joins wf.sorted
  have distinct' := (joins.orders.map Cell.addr).nodup_iff.mpr distinct
  have joined := joins.wf wf own positive
  have leaves := remove_leaves joined distinct' (joins.orders.mem_iff.mpr List.mem_cons_self)
  refine (leaves.wf joined).ext wf fun p => ?_
  rw [leaves.queueAt distinct', joins.queueAt wf.rungs, List.filter_append]
  have fresh : ∀ other ∈ ladder.orders, other.addr ≠ order.addr := fun other member same =>
    (List.nodup_cons.mp distinct).1 (same ▸ List.mem_map_of_mem member)
  have gone : (if order.val.price = p then [order] else []).filter
      (fun other => other.addr ≠ order.addr) = [] := by
    split <;> simp
  rw [gone, List.append_nil]
  exact List.filter_eq_self.mpr fun other member =>
    decide_eq_true (fresh other (List.mem_filter.mp member).1)

end Place

/-- An entry under a new id, and then none. -/
theorem IdIndex.erase_emplace {index : IdIndex} {id : OrderId} (absent : index.lookup id = none)
    (o : Ptr) : (index.emplace id o).erase id = index := by
  have fresh : id ∉ index := AList.lookup_eq_none.mp absent
  rw [IdIndex.emplace, if_neg fresh]
  refine AList.ext ?_
  show List.kerase id (index.insert id o).entries = index.entries
  rw [AList.entries_insert_of_notMem fresh]
  exact List.kerase_cons_eq rfl

/-! ### Takers alike -/

/-- An order as one of another type. -/
def Ticket.as (ticket : Ticket) (type : OrderType) : Ticket := { ticket with type }

section Alike

variable {σ : Type} (onTrade : TradeCallback σ) (taker taker' : Ticket)
  (names : taker.id = taker'.id) (times : taker.ts = taker'.ts)
  (reach : ∀ p, taker.accepts p = taker'.accepts p)

include names times

theorem sweepQueue_alike (price : Price) (queue : List Resting) (total left : Quantity) (seen : σ) :
    sweepQueue onTrade taker price queue total left seen =
      sweepQueue onTrade taker' price queue total left seen := by
  have trades : ∀ maker fill, tradeOf taker maker price fill = tradeOf taker' maker price fill :=
    fun maker fill => by rw [tradeOf, tradeOf, names, times]
  induction queue generalizing total left seen with
  | nil => rfl
  | cons maker queue ih => simp only [sweepQueue, trades, ih]

include reach

/-- A sweep depends on the taker's id, time and reach only. -/
theorem sweep_alike (ladder : Ladder) (left : Quantity) (seen : σ) :
    sweep onTrade taker ladder left seen = sweep onTrade taker' ladder left seen := by
  induction ladder generalizing left seen with
  | nil => rfl
  | cons rung ladder ih =>
    simp only [sweep, reach, sweepQueue_alike onTrade taker taker' names times, ih]

end Alike

namespace Market

variable {capacity : Nat} {held : List Ptr} {m : Market} {order : Resting} {ticket : Ticket}

/-- The index has no entry under an id that no resting order has. -/
theorem Wf.lookup_none (wf : m.Wf capacity held) {id : OrderId}
    (fresh : ∀ order ∈ m.linked, order.val.id ≠ id) : m.index.lookup id = none := by
  by_contra known
  obtain ⟨o, entry⟩ := Option.ne_none_iff_exists'.mp known
  obtain ⟨order, member, _, name⟩ := wf.index id o entry
  exact fresh order member name

/-- A sweep brings no id into the index. -/
theorem swept_lookup_none {σ : Type} {id : OrderId} {side : Side} {s : Sweep σ}
    (absent : m.index.lookup id = none) : (m.swept side s).index.lookup id = none :=
  Option.eq_none_iff_forall_ne_some.mpr fun o entry =>
    Option.some_ne_none o ((IdIndex.lookup_release.mp entry).2.symm.trans absent)

/-- **A cancel undoes a rest**, but for the slot. -/
theorem rest_cancel (wf : m.Wf capacity (order.addr :: held)) (positive : 0 < order.val.qty)
    (absent : m.index.lookup order.val.id = none) :
    (m.rest order).cancel order.val.id = ({ m with free := order.addr :: m.free }, true) := by
  have sorted := (wf.ladders order.val.side).sorted
  have distinct : (order.addr :: m.slots).Nodup :=
    (List.nodup_append.mp (List.perm_middle.nodup_iff.mpr wf.nodup)).2.1
  have distinct' := (rest_slots sorted).nodup_iff.mpr distinct
  have member := (rest_linked sorted).mem_iff.mpr List.mem_cons_self
  have entry : (m.rest order).index.lookup order.val.id = some order.addr := by
    show (m.index.emplace order.val.id order.addr).lookup order.val.id = some order.addr
    rw [IdIndex.emplace, if_neg (AList.lookup_eq_none.mp absent), AList.lookup_insert]
  have alone : ((order :: (m.ladder order.val.side).orders).map Cell.addr).Nodup :=
    List.nodup_cons.mpr ⟨fun inside => by
      obtain ⟨other, member, same⟩ := List.mem_map.mp inside
      exact taker_apart distinct other member same, side_nodup (List.nodup_cons.mp distinct).2⟩
  have ladders : ((m.rest order).withLadder order.val.side
      (Ladder.remove order ((m.rest order).ladder order.val.side))).ladder = m.ladder := by
    rw [rest_same, Ladder.remove_insert (wf.ladders _) rfl positive alone]
    show Function.update (Function.update m.ladder order.val.side _) order.val.side _ = m.ladder
    rw [Function.update_idem, Function.update_eq_self]
  rw [cancel_resting distinct' member entry]
  exact Prod.ext (Market.ext ladders rfl (IdIndex.erase_emplace absent order.addr) rfl) rfl

/-- **Limit and cancel is IOC**, whatever the callback does. -/
theorem limit_cancel {σ : Type} (wf : m.Wf capacity held)
    (fresh : ∀ order ∈ m.linked, order.val.id ≠ ticket.id) (onTrade : TradeCallback σ) (seen : σ) :
    (m.submit (ticket.as .limit) onTrade seen).seen =
        (m.submit (ticket.as .ioc) onTrade seen).seen ∧
      (m.submit (ticket.as .limit) onTrade seen).ret =
        (m.submit (ticket.as .ioc) onTrade seen).ret ∧
      (m.submit (ticket.as .limit) onTrade seen).market.cancel ticket.id =
        ((m.submit (ticket.as .ioc) onTrade seen).market,
          decide (0 < (m.submit (ticket.as .ioc) onTrade seen).dropped)) := by
  have absent := wf.lookup_none fresh
  by_cases nothing : ticket.qty = 0
  · have done : ∀ type, m.submit (ticket.as type) onTrade seen = ⟨m, seen, some true, 0⟩ :=
      fun _ => submit_nothing onTrade m seen nothing
    rw [done, done]
    exact ⟨rfl, rfl, cancel_absent absent⟩
  cases shape : m.free with
  | nil =>
    have done : ∀ type, m.submit (ticket.as type) onTrade seen = ⟨m, seen, some false, 0⟩ :=
      fun _ => submit_full onTrade seen nothing shape
    rw [done, done]
    exact ⟨rfl, rfl, cancel_absent absent⟩
  | cons o free =>
    generalize swept : sweep onTrade (m.stamp (ticket.as .ioc)) (m.ladder ticket.side.opposite)
      ticket.qty seen = s
    have swept' : sweep onTrade (m.stamp (ticket.as .limit)) (m.ladder ticket.side.opposite)
        ticket.qty seen = s := by
      rw [← swept]
      exact sweep_alike onTrade (m.stamp (ticket.as .limit)) (m.stamp (ticket.as .ioc)) rfl rfl
        (fun _ => rfl) _ _ _
    have after : ((m.taken ticket free).swept ticket.side.opposite s).Wf capacity (o :: held) :=
      swept ▸ (wf.take shape _).swept _ _ _ _ _
    have absent' : ((m.taken ticket free).swept ticket.side.opposite s).index.lookup ticket.id =
        none := swept_lookup_none absent
    have lives : ∀ {type}, type ≠ .fok → ¬m.kills (ticket.as type) :=
      fun different killed => different killed.1
    have limit : m.submit (ticket.as .limit) onTrade seen = _ :=
      submit_swept onTrade nothing shape (lives (by decide)) swept'
    have ioc : m.submit (ticket.as .ioc) onTrade seen = _ :=
      submit_swept onTrade nothing shape (lives (by decide)) swept
    cases threw : s.threw with
    | true =>
      rw [threw, if_pos rfl] at limit ioc
      rw [limit, ioc]
      exact ⟨rfl, rfl, cancel_absent absent'⟩
    | false =>
      rw [threw, if_neg Bool.false_ne_true] at limit ioc
      rw [if_neg fun rests => by cases rests.2] at ioc
      by_cases left : s.left > 0
      · rw [if_pos ⟨left, rfl⟩] at limit
        rw [limit, ioc, decide_eq_true left]
        exact ⟨rfl, rfl, rest_cancel after left absent'⟩
      · rw [if_neg fun rests => left rests.1] at limit
        rw [limit, ioc, decide_eq_false left]
        exact ⟨rfl, rfl, cancel_absent absent'⟩

/-- An IOC order that crosses nothing changes nothing but the clock. -/
theorem ioc_spared {σ : Type} (wf : m.Wf capacity held) (onTrade : TradeCallback σ) (seen : σ)
    (nothing : crossed (ticket.as .ioc) (m.ladder ticket.side.opposite).orders = []) :
    ∃ clock, (m.submit (ticket.as .ioc) onTrade seen).market = { m with clock := clock } := by
  by_cases none : ticket.qty = 0
  · have done : m.submit (ticket.as .ioc) onTrade seen = _ := submit_nothing onTrade m seen none
    rw [done]
    exact ⟨m.clock, rfl⟩
  cases shape : m.free with
  | nil =>
    have full : m.submit (ticket.as .ioc) onTrade seen = _ :=
      submit_full onTrade seen none shape
    rw [full, ← shape]
    exact ⟨m.clock, rfl⟩
  | cons o free =>
    have opposite := wf.ladders ticket.side.opposite
    have done : m.submit (ticket.as .ioc) onTrade seen = _ :=
      submit_spared onTrade seen opposite nothing none shape OrderType.noConfusion
    rw [done, ← shape]
    exact ⟨m.tick ticket, rfl⟩

end Market

end Ob
