/-
**A side that holds one order.**

What the two calls that the paper engine makes of its book do to a side with at most one order:

* `cancel_lone` — cancelling the order empties the side.
* `submit_lone` — a limit order that crosses nothing stands alone on its empty side.
* `submit_takes` — an immediate-or-cancel order trades once with the order across, which stays with
  what is left of it or is gone.

The other side is as before each time.
-/

import OrderBook.Market.Index

namespace Ob

open Links

section Sweep

variable {σ : Type} {onTrade : TradeCallback σ} {taker : Ticket}

/-- A taker that accepts no price of a side leaves it alone. -/
theorem sweep_refused {ladder : Ladder}
    (refused : ∀ rung ∈ ladder, taker.accepts rung.price = false) (left : Quantity) (seen : σ) :
    sweep onTrade taker ladder left seen = ⟨ladder, [], left, seen, false⟩ := by
  cases ladder with
  | nil => rfl
  | cons rung ladder =>
    have first := refused rung List.mem_cons_self
    rw [sweep, if_pos (.inr first)]

/-- What is left of a side whose only order has traded. -/
def Ladder.lone (maker : Resting) (fill : Quantity) : Ladder :=
  if maker.val.qty - fill = 0 then [] else [Rung.single (maker.reduce fill)]

theorem sweep_lone {maker : Resting} (accepts : taker.accepts maker.val.price = true)
    {left : Quantity} (some_left : left ≠ 0) {seen seen' : σ}
    (returned : onTrade seen (tradeOf taker maker maker.val.price (min left maker.val.qty)) =
      some seen') :
    ∃ consumed, sweep onTrade taker [Rung.single maker] left seen =
      ⟨Ladder.lone maker (min left maker.val.qty), consumed, left - min left maker.val.qty,
        seen', false⟩ := by
  have goes : ¬(left = 0 ∨ taker.accepts (Rung.single maker).price = false) := by
    simp [some_left, accepts, Rung.single]
  unfold Ladder.lone
  by_cases gone : maker.val.qty - min left maker.val.qty = 0
  · refine ⟨[maker], ?_⟩
    rw [sweep, if_neg goes]
    simp [Rung.single, sweepQueue, sweep, some_left, returned, gone]
  · refine ⟨[], ?_⟩
    rw [sweep, if_neg goes]
    simp [Rung.single, sweepQueue, some_left, returned, gone, Resting.reduce]

end Sweep

namespace Market

variable {capacity : Nat} {m : Market}

/-- There is a free slot as long as fewer orders rest than there are slots. -/
theorem Wf.some_free (wf : m.Wf capacity []) (few : m.linked.length < capacity) :
    ∃ o free, m.free = o :: free := by
  have count := wf.slots.length_eq
  rw [List.nil_append, Market.slots, List.length_append, List.length_map,
    List.length_range] at count
  refine List.exists_cons_of_length_pos ?_
  omega

theorem cancel_lone (wf : m.Wf capacity []) (complete : m.Complete) {side : Side} {order : Resting}
    (lone : m.ladder side = [Rung.single order]) :
    (m.cancel order.val.id).1.ladder side = [] ∧
      (m.cancel order.val.id).1.ladder side.opposite = m.ladder side.opposite := by
  have inside : order ∈ (m.ladder side).orders := by simp [lone, Ladder.orders, Rung.single]
  have own := side_of_mem (wf.ladders side) inside
  have member := mem_linked.mpr ⟨side, inside⟩
  rw [cancel_resting wf.nodup member (complete order member), own]
  constructor
  · rw [lone]
    show (m.withLadder side _).ladder side = []
    rw [withLadder_same]
    simp [Ladder.remove, Rung.single, Rung.drop]
  · exact withLadder_ne m _ (Side.opposite_ne side)

section Submit

variable {σ : Type} (onTrade : TradeCallback σ) (ticket : Ticket)

theorem submit_lone (wf : m.Wf capacity []) (few : m.linked.length < capacity)
    (some_qty : ticket.qty ≠ 0) (limit : ticket.type = .limit) (alone : m.ladder ticket.side = [])
    (refused : ∀ rung ∈ m.ladder ticket.side.opposite, ticket.accepts rung.price = false)
      (seen : σ) :
    (m.submit ticket onTrade seen).seen = seen ∧ (m.submit ticket onTrade seen).ret = some true ∧
      (∃ o, (m.submit ticket onTrade seen).market.ladder ticket.side =
        [Rung.single ⟨o, m.stamp ticket⟩]) ∧
      (m.submit ticket onTrade seen).market.ladder ticket.side.opposite =
        m.ladder ticket.side.opposite := by
  obtain ⟨o, free, shape⟩ := wf.some_free few
  have stamped : ∀ rung ∈ m.ladder ticket.side.opposite,
      (m.stamp ticket).accepts rung.price = false := refused
  have untouched : sweep onTrade (m.stamp ticket) (m.ladder ticket.side.opposite) ticket.qty seen =
      ⟨m.ladder ticket.side.opposite, [], ticket.qty, seen, false⟩ := sweep_refused stamped _ _
  have ends := m.submit_outcome onTrade ticket seen
  generalize m.submit ticket onTrade seen = done at ends ⊢
  cases ends with
  | nothing none => exact absurd none some_qty
  | full _ full => simp [full] at shape
  | killed _ _ killed => simp [kills, limit] at killed
  | throws _ _ _ swept threw => simp [← swept, untouched] at threw
  | leaves _ _ _ swept _ rests => simp [← swept, untouched, some_qty, limit] at rests
  | @rests o free s _ _ _ swept _ left _ =>
    rw [untouched] at swept
    subst swept
    have own : ((m.taken ticket free).swept ticket.side.opposite
        ⟨m.ladder ticket.side.opposite, [], ticket.qty, seen, false⟩).ladder ticket.side = [] :=
      (swept_ne _ _ (Side.opposite_ne ticket.side).symm).trans alone
    refine ⟨rfl, rfl, ⟨o, ?_⟩, ?_⟩
    · exact (rest_same _ _).trans (congrArg (Ladder.insert _ _) own)
    · exact (rest_ne _ (Side.opposite_ne ticket.side)).trans (swept_same _ _ _)

theorem submit_takes (wf : m.Wf capacity []) (few : m.linked.length < capacity)
    (some_qty : ticket.qty ≠ 0) (ioc : ticket.type = .ioc) {maker : Resting}
    (lone : m.ladder ticket.side.opposite = [Rung.single maker])
    (accepts : ticket.accepts maker.val.price = true) {seen seen' : σ}
    (returned : onTrade seen (tradeOf (m.stamp ticket) maker maker.val.price
      (min ticket.qty maker.val.qty)) = some seen') :
    (m.submit ticket onTrade seen).seen = seen' ∧ (m.submit ticket onTrade seen).ret = some true ∧
      (m.submit ticket onTrade seen).market.ladder ticket.side = m.ladder ticket.side ∧
      (m.submit ticket onTrade seen).market.ladder ticket.side.opposite =
        Ladder.lone maker (min ticket.qty maker.val.qty) := by
  obtain ⟨o, free, shape⟩ := wf.some_free few
  have stamped : (m.stamp ticket).accepts maker.val.price = true := accepts
  obtain ⟨consumed, result⟩ := sweep_lone stamped some_qty returned
  rw [← lone] at result
  have ends := m.submit_outcome onTrade ticket seen
  generalize m.submit ticket onTrade seen = done at ends ⊢
  cases ends with
  | nothing none => exact absurd none some_qty
  | full _ full => simp [full] at shape
  | killed _ _ killed => simp [kills, ioc] at killed
  | throws _ _ _ swept threw => simp [← swept, result] at threw
  | rests _ _ _ _ _ _ limit => simp [ioc] at limit
  | @leaves o free s _ _ _ swept _ _ =>
    rw [result] at swept
    subst swept
    refine ⟨rfl, rfl, ?_, ?_⟩
    · exact swept_ne _ _ (Side.opposite_ne ticket.side).symm
    · exact swept_same _ _ _

end Submit

end Market

end Ob
