/-
**The invariant of the market survives every call.**

`Market.Wf` is followed through a call phase by phase: a slot is taken, the taker is swept, and the
remainder rests or the slot is given back. Between the first and the last phase the taker's slot is
held; a callback that throws leaves it held for good.

* `submit_wf` — any order, any callback. A call that ends in an exception leaves one more slot held.
* `cancel_outcome`, `cancel_wf` — any id: nothing happens, or the order of that id leaves.
-/

import OrderBook.Market.Place

namespace Ob

open Links

/-! ### The index -/

namespace IdIndex

variable {index : IdIndex} {id id' : OrderId} {o o' : Ptr}

theorem lookup_erase :
    (index.erase id).lookup id' = some o ↔ id' ≠ id ∧ index.lookup id' = some o := by
  by_cases same : id' = id
  · subst same
    rw [AList.lookup_erase]
    exact iff_of_false (fun found => by cases found) fun found => found.1 rfl
  · rw [AList.lookup_erase_ne same]
    exact ⟨fun found => ⟨same, found⟩, fun found => found.2⟩

/-- What the index still knows after a sweep. -/
theorem lookup_release {makers : List Resting} {index : IdIndex} :
    (makers.foldl (fun index maker => index.erase maker.val.id) index).lookup id = some o ↔
      (∀ maker ∈ makers, maker.val.id ≠ id) ∧ index.lookup id = some o := by
  induction makers generalizing index with
  | nil => exact ⟨fun found => ⟨List.forall_mem_nil _, found⟩, fun found => found.2⟩
  | cons maker makers ih =>
    rw [List.foldl_cons, ih, lookup_erase, List.forall_mem_cons]
    exact ⟨fun ⟨others, here, found⟩ => ⟨⟨Ne.symm here, others⟩, found⟩,
      fun ⟨⟨here, others⟩, found⟩ => ⟨others, Ne.symm here, found⟩⟩

/-- An entry that is there is kept. -/
theorem lookup_emplace (found : (index.emplace id o).lookup id' = some o') :
    index.lookup id' = some o' ∨ id' = id ∧ o' = o := by
  unfold emplace at found
  split at found
  · exact .inl found
  · by_cases same : id' = id
    · subst same
      rw [AList.lookup_insert] at found
      cases found
      exact .inr ⟨rfl, rfl⟩
    · rw [AList.lookup_insert_ne same] at found
      exact .inl found

end IdIndex

namespace Market

variable {capacity : Nat} {held : List Ptr} {m : Market}

/-! ### Prices -/

/-- The two sides are apart, seen from either of them. -/
theorem uncrossed_iff (side : Side) :
    (∀ bid ∈ m.ladder .buy, ∀ ask ∈ m.ladder .sell, bid.price < ask.price) ↔
      ∀ own ∈ m.ladder side, ∀ other ∈ m.ladder side.opposite,
        rank side.opposite other.price < rank side.opposite own.price := by
  cases side with
  | buy => simp only [Side.opposite, rank, Int.neg_lt_neg_iff, Int64.lt_iff_toInt_lt]
  | sell =>
    simp only [Side.opposite, rank, Int64.lt_iff_toInt_lt]
    exact ⟨fun apart own inOwn other inOther => apart other inOther own inOwn,
      fun apart own inOwn other inOther => apart other inOther own inOwn⟩

/-- The two sides after one of them is replaced. -/
theorem uncrossed_with {side : Side} {ladder : Ladder}
    (apart : ∀ own ∈ ladder, ∀ other ∈ m.ladder side.opposite,
      rank side.opposite other.price < rank side.opposite own.price) :
    ∀ bid ∈ (m.withLadder side ladder).ladder .buy, ∀ ask ∈ (m.withLadder side ladder).ladder .sell,
      bid.price < ask.price := by
  refine (uncrossed_iff side).mpr ?_
  rw [withLadder_same, withLadder_ne _ _ (Side.opposite_ne side)]
  exact apart

/-- A side whose prices were there before stays apart from the other. -/
theorem uncrossed_sub {side : Side} {ladder : Ladder}
    (uncrossed : ∀ bid ∈ m.ladder .buy, ∀ ask ∈ m.ladder .sell, bid.price < ask.price)
    (prices : ladder.map Rung.price ⊆ (m.ladder side).map Rung.price) :
    ∀ bid ∈ (m.withLadder side ladder).ladder .buy, ∀ ask ∈ (m.withLadder side ladder).ladder .sell,
      bid.price < ask.price := by
  refine uncrossed_with fun own inOwn other inOther => ?_
  obtain ⟨old, inOld, same⟩ := List.mem_map.mp (prices (List.mem_map_of_mem inOwn))
  rw [← same]
  exact (uncrossed_iff side).mp uncrossed old inOld other inOther

/-- Of what does not depend on quantities, a sweep loses what it uses up. -/
theorem swept_marks {α σ : Type} {f : Resting → α}
    (same : ∀ maker fill, f (maker.reduce fill) = f maker) (m : Market) (side : Side)
    (onTrade : TradeCallback σ) (taker : Ticket) (left : Quantity) (seen : σ) :
    (m.linked.map f).Perm ((sweep onTrade taker (m.ladder side) left seen).consumed.map f ++
      (m.swept side (sweep onTrade taker (m.ladder side) left seen)).linked.map f) := by
  obtain ⟨rest, split, trimmed⟩ := sweep_trimmed onTrade taker (m.ladder side) left seen
  have after := (linked_with m side (sweep onTrade taker (m.ladder side) left seen).ladder).map f
  have before := (m.linked_perm side).map f
  rw [List.map_append, trimmed.map_eq same] at after
  rw [split, List.map_append, List.map_append, List.append_assoc] at before
  exact before.trans (after.symm.append_left _)

/-! ### The phases of a call -/

namespace Wf

/-- A slot is taken from the free list. -/
theorem take (wf : m.Wf capacity held) {o : Ptr} {free : List Ptr} (shape : m.free = o :: free)
    (clock : Timestamp) :
      ({ m with free := free, clock := clock } : Market).Wf capacity (o :: held) where
  ladders := wf.ladders
  slots := by
    refine .trans ?_ wf.slots
    show (o :: (held ++ (free ++ m.linked.map Cell.addr))).Perm
      (held ++ (m.free ++ m.linked.map Cell.addr))
    rw [shape]
    exact List.perm_middle.symm
  index := wf.index
  uncrossed := wf.uncrossed

/-- A slot that is held becomes free. -/
theorem discard {o : Ptr} (wf : m.Wf capacity (o :: held)) :
    ({ m with free := o :: m.free } : Market).Wf capacity held where
  ladders := wf.ladders
  slots := List.perm_middle.trans wf.slots
  index := wf.index
  uncrossed := wf.uncrossed

theorem ticked (wf : m.Wf capacity held) (clock : Timestamp) :
    ({ m with clock := clock } : Market).Wf capacity held :=
  ⟨wf.ladders, wf.slots, wf.index, wf.uncrossed⟩

/-- The ladders of a side and of the other, in a market where one side is replaced. -/
theorem ladders_with {side : Side} {ladder : Ladder} (wf : ∀ side, (m.ladder side).Wf side)
    (here : ladder.Wf side) : ∀ other, ((m.withLadder side ladder).ladder other).Wf other :=
  forall_with (fun side ladder => ladder.Wf side) wf here

/-- **The sweep keeps the invariant**, wherever it ends. An index entry whose order has been used up
went with the order, as both are removed under the same id. -/
theorem swept {σ : Type} (wf : m.Wf capacity held) (side : Side) (onTrade : TradeCallback σ)
    (taker : Ticket) (left : Quantity) (seen : σ) :
    (m.swept side (sweep onTrade taker (m.ladder side) left seen)).Wf capacity held where
  ladders := ladders_with wf.ladders (sweep_wf onTrade taker _ left seen (wf.ladders side))
  slots := ((swept_slots m side onTrade taker left seen).append_left held).trans wf.slots
  index := by
    intro id o found
    obtain ⟨kept, entry⟩ := IdIndex.lookup_release.mp found
    obtain ⟨order, member, here, name⟩ := wf.index id o entry
    have marks := m.swept_marks (f := fun order => (order.addr, order.val.id)) (fun _ _ => rfl) side
      onTrade taker left seen
    rcases List.mem_append.mp (marks.mem_iff.mp (List.mem_map_of_mem member)) with gone | stays
    · obtain ⟨maker, inConsumed, same⟩ := List.mem_map.mp gone
      exact absurd ((Prod.mk.inj same).2.trans name) (kept maker inConsumed)
    · obtain ⟨order', stays', same⟩ := List.mem_map.mp stays
      obtain ⟨addr, id'⟩ := Prod.mk.inj same
      exact ⟨order', stays', addr.trans here, id'.trans name⟩
  uncrossed := uncrossed_sub wf.uncrossed (sweep_prices onTrade taker _ left seen).subset

/-- **An order comes to rest** from a held slot, at a price that the other side does not reach. -/
theorem rest {order : Resting} (wf : m.Wf capacity (order.addr :: held))
    (positive : 0 < order.val.qty)
    (clear : ∀ other ∈ m.ladder order.val.side.opposite,
      rank order.val.side.opposite other.price < rank order.val.side.opposite order.val.price) :
    (m.rest order).Wf capacity held := by
  have joins : Joins order.val.side order _ _ := insert_joins (wf.ladders order.val.side).sorted
  have linked := rest_linked (wf.ladders order.val.side).sorted
  refine ⟨ladders_with wf.ladders (joins.wf (wf.ladders _) rfl positive), ?_, ?_, ?_⟩
  · have moved := rest_slots (wf.ladders order.val.side).sorted
    exact ((moved.append_left held).trans List.perm_middle).trans wf.slots
  · intro id o found
    rcases IdIndex.lookup_emplace found with old | ⟨rfl, rfl⟩
    · obtain ⟨other, member, here, name⟩ := wf.index id o old
      exact ⟨other, linked.mem_iff.mpr (List.mem_cons_of_mem _ member), here, name⟩
    · exact ⟨order, linked.mem_iff.mpr List.mem_cons_self, rfl, rfl⟩
  · refine uncrossed_with fun own inOwn other inOther => ?_
    rcases joins.prices own inOwn with here | ⟨old, inOld, same⟩
    · rw [here]
      exact clear other inOther
    · rw [← same]
      exact (uncrossed_iff _).mp wf.uncrossed old inOld other inOther

end Wf

/-! ### Calls -/

section Calls

variable {σ : Type} (onTrade : TradeCallback σ) (seen : σ)

/-- How a call leaves the slots it held: all of them accounted for when it returns, one of them lost
when the callback throws. -/
def Submitted.Kept (capacity : Nat) (held : List Ptr) (done : Submitted σ) : Prop :=
  (done.ret ≠ none → done.market.Wf capacity held) ∧
    (done.ret = none → ∃ o, done.market.Wf capacity (o :: held))

theorem execute_wf {taker : Ticket} {o : Ptr} (wf : m.Wf capacity (o :: held)) :
    (m.execute taker o onTrade seen).Kept capacity held := by
  have swept := wf.swept taker.side.opposite onTrade taker taker.qty seen
  have clear := sweep_clear onTrade taker (m.ladder taker.side.opposite) taker.qty seen
    (wf.ladders _).sorted rfl
  unfold execute
  generalize sweep onTrade taker (m.ladder taker.side.opposite) taker.qty seen = s at *
  cases threw : s.threw with
  | true =>
    simp only [threw, if_true]
    exact ⟨fun returned => absurd rfl returned, fun _ => ⟨o, swept⟩⟩
  | false =>
    simp only [threw, Bool.false_eq_true, if_false]
    by_cases rests : s.left > 0 ∧ taker.type = .limit
    · rw [if_pos rests]
      refine ⟨fun _ => ?_, fun thrown => by cases thrown⟩
      have other := m.swept_same taker.side.opposite s
      show ((m.swept taker.side.opposite s).rest ⟨o, { taker with qty := s.left }⟩).Wf capacity held
      exact Wf.rest swept rests.1 (other.symm ▸ clear threw (UInt64.pos_iff_ne_zero.mp rests.1))
    · rw [if_neg rests]
      exact ⟨fun _ => swept.discard, fun thrown => by cases thrown⟩

/-- **Every submit keeps the invariant**, whatever the order and the callback. -/
theorem submit_wf (wf : m.Wf capacity held) (ticket : Ticket) :
    (m.submit ticket onTrade seen).Kept capacity held := by
  unfold submit
  by_cases nothing : ticket.qty = 0
  · rw [if_pos nothing]
    exact ⟨fun _ => wf, fun thrown => by cases thrown⟩
  rw [if_neg nothing]
  cases shape : m.free with
  | nil => exact ⟨fun _ => wf, fun thrown => by cases thrown⟩
  | cons o free =>
    by_cases killed : m.kills ticket
    · have kept := wf.ticked (m.tick ticket)
      rw [shape] at kept
      simp only [if_pos killed]
      exact ⟨fun _ => kept, fun thrown => by cases thrown⟩
    · simp only [if_neg killed]
      exact execute_wf onTrade seen (wf.take shape _)

end Calls

/-- The ends of a cancel. -/
inductive Cancelled (m : Market) (id : OrderId) : Market × Bool → Prop
  | absent (unknown : m.index.lookup id = none) : Cancelled m id (m, false)
  | leaves {order : Resting} {ladder : Ladder} (member : order ∈ m.linked)
      (entry : m.index.lookup id = some order.addr) (name : order.val.id = id)
      (leaves : Leaves order.val.side order (m.ladder order.val.side) ladder) :
      Cancelled m id ({ m.withLadder order.val.side ladder with
        free := order.addr :: m.free, index := m.index.erase id }, true)

/-- **How a cancel ends.** -/
theorem cancel_outcome (wf : m.Wf capacity held) (id : OrderId) : m.Cancelled id (m.cancel id) := by
  cases entry : m.index.lookup id with
  | none =>
    rw [cancel_absent entry]
    exact .absent entry
  | some o =>
    obtain ⟨order, member, rfl, name⟩ := wf.index id o entry
    rw [cancel_resting wf.distinct member entry]
    exact .leaves member entry name (remove_leaves (wf.ladders order.val.side)
      (side_nodup wf.distinct) (mem_own_side wf.ladders member))

/-- **Every cancel keeps the invariant.** No other entry points to the cancelled order, as it would
have to carry the order's id. -/
theorem cancel_wf (wf : m.Wf capacity held) (id : OrderId) : (m.cancel id).1.Wf capacity held := by
  have ends := cancel_outcome wf id
  generalize m.cancel id = done at ends ⊢
  cases ends with
  | absent => exact wf
  | @leaves order ladder member _ name leaves =>
    have linked := cancel_linked leaves
    refine ⟨Wf.ladders_with wf.ladders (leaves.wf (wf.ladders _)), ?_, ?_, ?_⟩
    · refine .trans ?_ wf.slots
      refine .append_left held ?_
      show (order.addr :: m.free ++ _).Perm (m.free ++ _)
      exact List.perm_middle.symm.trans ((linked.map Cell.addr).symm.append_left m.free)
    · intro id' o found
      obtain ⟨different, entry'⟩ := IdIndex.lookup_erase.mp found
      obtain ⟨other, member', here, name'⟩ := wf.index id' o entry'
      rcases List.mem_cons.mp (linked.mem_iff.mp member') with rfl | stays
      · exact absurd (name'.symm.trans name) different
      · exact ⟨other, stays, here, name'⟩
    · exact uncrossed_sub wf.uncrossed leaves.prices.subset

end Market

end Ob
