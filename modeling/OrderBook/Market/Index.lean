/-
**When the index knows every order.**

The index never points to an order that is gone (`Market.Wf.index`). The converse,
`Market.Complete`, depends on the ids that callers choose, since `emplace` keeps an entry that is
there already:

* `submit_complete` — a submit keeps it if a remainder that comes to rest meets no order of its id,
  other than those it trades with.
* `submit_incomplete` — it is lost otherwise.
* `cancel_complete` — every cancel keeps it.
-/

import OrderBook.Market.Exception

namespace Ob

open Links

/-! ### The orders of a sweep -/

section Sweep

variable {σ : Type} (onTrade : TradeCallback σ) (taker : Ticket)

theorem sweepQueue_consumed_mem (price : Price) (queue : List Resting)
    (total left : Quantity) (seen : σ) :
    ∀ maker ∈ (sweepQueue onTrade taker price queue total left seen).consumed, maker ∈ queue := by
  obtain ⟨rest, split, _⟩ := sweepQueue_trimmed onTrade taker price queue total left seen
  intro maker member
  rw [split]
  exact List.mem_append_left _ member

theorem sweep_consumed_mem (ladder : Ladder) (left : Quantity) (seen : σ) :
    ∀ maker ∈ (sweep onTrade taker ladder left seen).consumed, maker ∈ ladder.orders := by
  obtain ⟨rest, split, _⟩ := sweep_trimmed onTrade taker ladder left seen
  intro maker member
  rw [split]
  exact List.mem_append_left _ member

/-- What a sweep uses up stood at prices that the taker accepts. -/
theorem sweep_consumed {side : Side} (ladder : Ladder) (wf : ∀ rung ∈ ladder, rung.Wf side)
    (left : Quantity) (seen : σ) :
    ∀ maker ∈ (sweep onTrade taker ladder left seen).consumed,
      taker.accepts maker.val.price = true := by
  have rungs : ∀ (rung : Rung) (left : Quantity) (seen : σ), rung.Wf side →
      ¬(left = 0 ∨ taker.accepts rung.price = false) →
      ∀ maker ∈ (sweepQueue onTrade taker rung.price rung.queue rung.total left seen).consumed,
        taker.accepts maker.val.price = true := by
    intro rung left seen here goes maker member
    rw [here.prices maker (sweepQueue_consumed_mem onTrade taker _ _ _ _ _ maker member)]
    simpa using (not_or.mp goes).2
  fun_induction sweep onTrade taker ladder left seen with
  | case1 | case2 => exact List.forall_mem_nil _
  | case3 rung ladder left seen goes here rung' threw =>
    exact rungs rung left seen (wf rung (by simp)) goes
  | case4 rung ladder left seen goes here quiet emptied s ih =>
    obtain ⟨first, below⟩ := List.forall_mem_cons.mp wf
    exact List.forall_mem_append.mpr ⟨rungs rung left seen first goes, ih below⟩
  | case5 rung ladder left seen goes here rung' quiet kept =>
    exact rungs rung left seen (wf rung (by simp)) goes

end Sweep

namespace Market

variable {capacity : Nat} {held : List Ptr} {m : Market} {ticket : Ticket}

/-- Every resting order is what the index holds for its id. -/
def Complete (m : Market) : Prop :=
  ∀ order ∈ m.linked, m.index.lookup order.val.id = some order.addr

namespace Complete

/-- The ids of the resting orders are distinct, as their slots are. -/
theorem ids (complete : m.Complete) (distinct : m.slots.Nodup) :
    (m.linked.map fun order => order.val.id).Nodup := by
  have slots : (m.linked.map fun order => order.val.id).map m.index.lookup =
      (m.linked.map Cell.addr).map some := by
    rw [List.map_map, List.map_map]
    exact List.map_congr_left complete
  apply List.Nodup.of_map m.index.lookup
  rw [slots]
  exact (linked_nodup distinct).map fun _ _ same => Option.some.inj same

/-- The index has one entry for each resting order. -/
theorem count (complete : m.Complete) (wf : m.Wf capacity held) :
    m.index.entries.length = m.linked.length := by
  have ids := complete.ids wf.distinct
  have same : m.index.keys.Perm (m.linked.map fun order => order.val.id) := by
    refine (List.perm_ext_iff_of_nodup m.index.keys_nodup ids).mpr fun id => ?_
    rw [← AList.mem_keys, ← AList.lookup_isSome, Option.isSome_iff_exists, List.mem_map]
    constructor
    · rintro ⟨o, entry⟩
      obtain ⟨order, member, _, name⟩ := wf.index id o entry
      exact ⟨order, member, name⟩
    · rintro ⟨order, member, rfl⟩
      exact ⟨_, complete order member⟩
  simpa [AList.keys, List.keys] using same.length_eq

/-- A sweep removes the entries of the orders it uses up, and of no others. -/
theorem swept {σ : Type} (complete : m.Complete) (distinct : m.slots.Nodup) (side : Side)
    (onTrade : TradeCallback σ) (taker : Ticket) (left : Quantity) (seen : σ) :
    (m.swept side (sweep onTrade taker (m.ladder side) left seen)).Complete := by
  intro order member
  have marks := m.swept_marks (f := fun order => (order.addr, order.val.id))
    (fun _ _ => rfl) side onTrade
    taker left seen
  have ids :=
    m.swept_marks (f := fun order => order.val.id) (fun _ _ => rfl) side onTrade taker left seen
  obtain ⟨_, _, apart⟩ := List.nodup_append.mp (ids.nodup_iff.mp (complete.ids distinct))
  obtain ⟨old, inOld, same⟩ := List.mem_map.mp
    (marks.mem_iff.mpr (List.mem_append_right _ (List.mem_map_of_mem member)))
  obtain ⟨addr, name⟩ := Prod.mk.inj same
  refine IdIndex.lookup_release.mpr ⟨fun maker gone => ?_, ?_⟩
  · exact apart _ (List.mem_map_of_mem gone) _ (List.mem_map_of_mem member)
  · show m.index.lookup order.val.id = some order.addr
    rw [← name, ← addr]
    exact complete old inOld

/-- An order with an id that no other resting order has comes to rest. -/
theorem rest (complete : m.Complete) (wf : m.Wf capacity held) {order : Resting}
    (fresh : ∀ other ∈ m.linked, other.val.id ≠ order.val.id) : (m.rest order).Complete := by
  have linked := rest_linked (wf.ladders order.val.side).sorted
  have absent : order.val.id ∉ m.index := by
    rw [← AList.lookup_isSome, Option.isSome_iff_exists]
    rintro ⟨o, entry⟩
    obtain ⟨other, member, _, name⟩ := wf.index _ o entry
    exact fresh other member name
  intro other member
  show (m.index.emplace order.val.id order.addr).lookup other.val.id = some other.addr
  rw [IdIndex.emplace, if_neg absent]
  rcases List.mem_cons.mp (linked.mem_iff.mp member) with rfl | old
  · exact AList.lookup_insert _
  · rw [AList.lookup_insert_ne (fresh other old)]
    exact complete other old

end Complete

/-- **A cancel keeps the index complete.** -/
theorem cancel_complete (wf : m.Wf capacity held) (complete : m.Complete) (id : OrderId) :
    (m.cancel id).1.Complete := by
  have ends := cancel_outcome wf id
  generalize m.cancel id = done at ends ⊢
  cases ends with
  | absent => exact complete
  | @leaves order ladder _ _ name leaves =>
    subst name
    have linked := cancel_linked leaves
    have ids := (linked.map fun order => order.val.id).nodup_iff.mp (complete.ids wf.distinct)
    intro other stays
    refine IdIndex.lookup_erase.mpr ⟨fun same => ?_, ?_⟩
    · exact (List.nodup_cons.mp ids).1 (List.mem_map.mpr ⟨other, stays, same⟩)
    · exact complete other (linked.mem_iff.mpr (List.mem_cons_of_mem _ stays))

/-- What keeps a ticket from hiding a resting order: the orders with its id are some it trades
with. -/
def Fresh (m : Market) (ticket : Ticket) : Prop :=
  ∀ order ∈ m.linked, order.val.id = ticket.id →
    order.val.side = ticket.side.opposite ∧ ticket.accepts order.val.price = true

/-- **A submit keeps the index complete** if the id of a remainder is fresh. -/
theorem submit_complete {σ : Type} (wf : m.Wf capacity held) (complete : m.Complete)
    (onTrade : TradeCallback σ) (seen : σ)
    (fresh : m.Rests ticket onTrade seen → m.Fresh ticket) :
    (m.submit ticket onTrade seen).market.Complete := by
  have distinct := wf.distinct
  have opposite := wf.ladders ticket.side.opposite
  have swept_complete :=
    complete.swept distinct ticket.side.opposite onTrade (m.stamp ticket) ticket.qty
    seen
  have clear := sweep_clear onTrade (m.stamp ticket) _ ticket.qty seen opposite.sorted rfl
  have marks := m.swept_marks (f := fun order => { order.val with qty := 0 }) (fun _ _ => rfl)
    ticket.side.opposite onTrade (m.stamp ticket) ticket.qty seen
  have after := wf.swept ticket.side.opposite onTrade (m.stamp ticket) ticket.qty seen
  have ends := m.submit_outcome onTrade ticket seen
  generalize m.submit ticket onTrade seen = done at ends
  cases ends with
  | nothing | full | killed => exact complete
  | leaves _ _ _ swept | throws _ _ _ swept =>
    rw [swept] at swept_complete
    exact swept_complete
  | @rests o free s _ shape _ swept quiet left limit =>
    have fresh :=
      fresh (rests_of_left opposite limit (shape ▸ List.cons_ne_nil o free) swept quiet left)
    rw [swept] at swept_complete clear marks after
    -- an order with the ticket's id would be one it crosses, and none of these is left
    have gone : ∀ other ∈ (m.swept ticket.side.opposite s).linked, other.val.id ≠ ticket.id := by
      intro other member same
      obtain ⟨old, inOld, value⟩ := List.mem_map.mp
        (marks.mem_iff.mpr (List.mem_append_right _ (List.mem_map_of_mem member)))
      obtain ⟨id, price, -, -, side, -⟩ := Ticket.mk.inj value
      obtain ⟨across, crosses⟩ := fresh old inOld (id.trans same)
      have inside := mem_own_side after.ladders member
      rw [← side, across] at inside
      obtain ⟨rung, inLadder, _, here⟩ := (after.ladders _).rung_of_mem inside
      rw [show (m.swept _ s).ladder _ = s.ladder from m.swept_same _ s] at inLadder
      have beyond := clear quiet left rung inLadder
      rw [here, ← price] at beyond
      rw [Ticket.accepts_limited (by simp [limit]), priceCrosses_iff] at crosses
      exact Int.not_lt.mpr crosses beyond
    exact swept_complete.rest after gone

/-- **And only then**: a remainder that meets an order with its id leaves one of the two unknown. -/
theorem submit_incomplete {σ : Type} (wf : m.Wf capacity held) {onTrade : TradeCallback σ}
    {seen : σ} (rests : m.Rests ticket onTrade seen) (stale : ¬m.Fresh ticket) :
    ¬(m.submit ticket onTrade seen).market.Complete := by
  have opposite := wf.ladders ticket.side.opposite
  have consumed := sweep_consumed onTrade (m.stamp ticket) _ opposite.rungs ticket.qty seen
  have inside :=
    sweep_consumed_mem onTrade (m.stamp ticket) (m.ladder ticket.side.opposite) ticket.qty
    seen
  have marks := m.swept_marks (f := fun order => { order.val with qty := 0 }) (fun _ _ => rfl)
    ticket.side.opposite onTrade (m.stamp ticket) ticket.qty seen
  have after := wf.swept ticket.side.opposite onTrade (m.stamp ticket) ticket.qty seen
  have wf' := (m.submit_wf onTrade seen wf ticket).1
  obtain ⟨o, free, s, _, swept, _, ends⟩ := rests.submit opposite
  rw [swept] at consumed inside marks after
  rw [ends] at wf' ⊢
  intro complete
  have linked : (((m.taken ticket free).swept ticket.side.opposite s).rest
      ⟨o, { m.stamp ticket with qty := s.left }⟩).linked.Perm
        (_ :: (m.swept ticket.side.opposite s).linked) :=
          rest_linked (after.ladders ticket.side).sorted
  have ids := complete.ids (wf' (Option.some_ne_none true)).distinct
  have alone := (List.nodup_cons.mp ((linked.map _).nodup_iff.mp ids)).1
  refine stale fun order member same => ?_
  rcases List.mem_append.mp (marks.mem_iff.mp (List.mem_map_of_mem member)) with gone | stays
  · -- it traded, so it stands across at a price the ticket accepts
    obtain ⟨maker, inConsumed, value⟩ := List.mem_map.mp gone
    obtain ⟨-, price, -, -, side, -⟩ := Ticket.mk.inj value
    rw [← side, ← price]
    refine ⟨side_of_mem opposite ?_, consumed maker inConsumed⟩
    exact inside maker inConsumed
  · -- it is at rest together with the remainder
    obtain ⟨old, inSwept, value⟩ := List.mem_map.mp stays
    obtain ⟨id, -⟩ := Ticket.mk.inj value
    exact absurd (List.mem_map.mpr ⟨old, inSwept, id.trans same⟩) alone

end Market

end Ob
