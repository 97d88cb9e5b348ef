/-
**The order book refines the market.**

On a book that represents a well-formed market, with any callback, `submit` and `cancel` run to
their end without a fault, give the result that the market gives, and leave a book that represents
the market after the call:

* `submit_spec`, `cancel_spec` — one call.
* `handle_spec` — one call with the recording callback, as runs of calls are made of.
-/

import Mathlib.Data.List.Perm.Subperm
import OrderBook.Refine.Place

namespace Ob

open Links ObjectPool

variable {σ : Type} {b : OrderBook} {m : Market}

/-! ### Bounds of the loops -/

/-- The slots of a queue are distinct slots of the pool. -/
theorem queue_short (rep : Rep b m) (distinct : m.slots.Nodup) (side : Side) :
    ∀ rung ∈ m.ladder side, rung.queue.length < b.pool.capacity + 1 := by
  intro rung member
  obtain ⟨above, below, shape⟩ := List.append_of_mem member
  have orders :
    (m.ladder side).orders = Ladder.orders above ++ (rung.queue ++ Ladder.orders below) := by
    rw [shape, Ladder.orders_append, Ladder.orders_cons]
  have inside : rung.queue.map Cell.addr ⊆ List.range b.pool.capacity := by
    intro p used
    obtain ⟨order, inQueue, rfl⟩ := List.mem_map.mp used
    have resting : order ∈ (m.ladder side).orders := Ladder.mem_orders.mpr ⟨rung, member, inQueue⟩
    obtain ⟨x, here, _⟩ := (rep.ladders side).live order resting
    exact List.mem_range.mpr (lt_of_read here)
  have short := (List.subperm_of_subset (queue_apart distinct orders).1 inside).length_le
  rw [List.length_map, List.length_range] at short
  exact Nat.lt_succ_of_le short

theorem levels_length (rep : Rep b m) (side : Side) :
    (b.sideBook side).levels.length = (m.ladder side).length := by
  have lengths := (rep.ladders side).length_eq
  rwa [List.length_reverse] at lengths

/-- **`match`.** The taker is swept against the other side. -/
theorem match_spec (onTrade : TradeCallback σ) (seen : σ) {o : Ptr} {x : Order} (rep : Rep b m)
    (sorted : (m.ladder x.side.opposite).Sorted x.side.opposite) (here : b.pool.read o = some x)
    (distinct : (o :: m.slots).Nodup) :
    let s := sweep onTrade x.toTicket (m.ladder x.side.opposite) x.qty seen
    ∃ b', b.match x.side o onTrade seen = .ok ⟨b', s.seen, s.threw⟩ ∧
      b'.pool.read o = some { x with qty := s.left } ∧ Rep b' (m.swept x.side.opposite s) := by
  refine matchLoop_spec onTrade seen rep rfl sorted here distinct ?_
    (queue_short rep (List.nodup_cons.mp distinct).2 _)
  rw [levels_length rep]
  exact Nat.lt_succ_self _

/-! ### The fill-or-kill check -/

/-- The check reads the prices and totals of the levels, which are those of the rungs. -/
theorem stillNeeded_spec {heap : Ptr → Option Order} {levels : List PriceLevel} {ladder : Ladder}
    (rep : LadderRep heap levels ladder) (side : Side) (price : Price) (needed : Quantity) :
    OrderBook.stillNeeded side price levels.reverse needed =
      Ladder.shortfall side price ladder needed := by
  unfold LadderRep at rep
  generalize levels.reverse = reversed at rep ⊢
  induction rep generalizing needed with
  | nil => rfl
  | cons here _ ih =>
    rw [OrderBook.stillNeeded, Ladder.shortfall, here.price, here.total, ih]

/-! ### The slot of the incoming order -/

/-- The pool changes outside of the orders, and with it the free list. -/
theorem Rep.repool (rep : Rep b m) {pool : ObjectPool Order} {free : List Ptr}
    (reads : ∀ order ∈ m.linked, pool.read order.addr = b.pool.read order.addr)
    (chain : Chain pool.link pool.freeHead free) :
    Rep { b with pool := pool } { m with free := free } where
  sides := rep.sides
  ladders side := (rep.ladders side).congr fun order member =>
    reads order (Market.mem_linked.mpr ⟨side, member⟩)
  free := chain
  index := rep.index
  clock := rep.clock

theorem Rep.ticked (rep : Rep b m) (clock : Timestamp) :
    Rep { b with clock := clock } { m with clock := clock } :=
  ⟨rep.sides, rep.ladders, rep.free, rep.index, rfl⟩

theorem linked_apart {o : Ptr} (fresh : o ∉ m.slots) : ∀ order ∈ m.linked, order.addr ≠ o :=
  fun _ member same => fresh (same ▸ List.mem_append_right _ (List.mem_map_of_mem member))

/-- An order without a place in the book gives its slot back. -/
theorem discard_spec (rep : Rep b m) {o : Ptr} {x : Order} (here : b.pool.read o = some x)
    (fresh : o ∉ m.slots) :
    ∃ pool, b.pool.release o = .ok pool ∧
      Rep { b with pool := pool } { m with free := o :: m.free } := by
  obtain ⟨pool, done, read, chain⟩ :=
    release_spec here rep.free fun inside => fresh (List.mem_append_left _ inside)
  refine ⟨pool, done, rep.repool (fun order member => ?_) chain⟩
  rw [read, Function.update_of_ne (linked_apart fresh order member)]

/-- A slot is taken for the incoming order. -/
theorem take_spec (rep : Rep b m) {o : Ptr} {free : List Ptr} (shape : m.free = o :: free)
    (distinct : m.slots.Nodup) (x : Order) :
    ∃ pool, b.pool.acquire x = .ok (some o, pool) ∧ pool.read o = some x ∧
      Rep { b with pool := pool } { m with free := free } ∧
      (o :: ({ m with free := free } : Market).slots).Nodup := by
  have slots : m.slots = o :: ({ m with free := free } : Market).slots := by
    rw [Market.slots, shape]
    rfl
  rw [slots] at distinct
  have fresh := (List.nodup_cons.mp distinct).1
  have chain := rep.free
  rw [shape] at chain
  obtain ⟨pool, done, read, chain'⟩ :=
    acquire_spec chain (fun inside => fresh (List.mem_append_left _ inside)) x
  refine ⟨pool, done, ?_, rep.repool (fun order member => ?_) chain', distinct⟩
  · rw [read, Function.update_self]
  · rw [read, Function.update_of_ne (linked_apart fresh order member)]

/-! ### Submitting -/

/-- A result in memory and the market's result that it stands for. -/
structure SubmittedRep (done : OrderBook.Submitted σ) (said : Market.Submitted σ) : Prop where
  book : Rep done.book said.market
  seen : done.seen = said.seen
  ret : done.ret = said.ret
  dropped : done.dropped = said.dropped

/-- An order that holds a slot trades, and its remainder rests or is dropped. -/
theorem execute_spec (onTrade : TradeCallback σ) (seen : σ) {ticket : Ticket} {o : Ptr} {x : Order}
    (rep : Rep b m) (sorted : ∀ side, (m.ladder side).Sorted side) (here : b.pool.read o = some x)
    (distinct : (o :: m.slots).Nodup) (side : ticket.side = x.side) (type : ticket.type = x.type) :
    ∃ done, b.execute ticket o onTrade seen = .ok done ∧
      SubmittedRep done (m.execute x.toTicket o onTrade seen) := by
  obtain ⟨b₁, matched, here₁, rep₁⟩ :=
    match_spec onTrade seen rep (sorted x.side.opposite) here distinct
  have slots₁ := Market.swept_slots m x.side.opposite onTrade x.toTicket x.qty seen
  unfold Market.execute
  unfold OrderBook.execute
  rw [side, matched, type]
  generalize sweep onTrade x.toTicket (m.ladder x.side.opposite) x.qty seen = s at *
  have distinct₁ : (o :: (m.swept x.side.opposite s).slots).Nodup :=
    (slots₁.cons o).nodup_iff.mpr distinct
  have fresh₁ := (List.nodup_cons.mp distinct₁).1
  cases threw : s.threw with
  | true =>
    simp only [Mem.ok_bind, threw, if_true, Mem.pure_eq]
    exact ⟨_, rfl, rep₁, rfl, rfl, rfl⟩
  | false =>
    obtain ⟨pool, kept, written⟩ := modify_spec here₁ fun x => { x with qty := s.left }
    have here₂ : pool.read o = some { x with qty := s.left } := by
      rw [written.read, Function.update_self]
    have rep₂ : Rep { b₁ with pool := pool } (m.swept x.side.opposite s) := by
      refine rep₁.repool (fun order member => ?_) ?_
      · rw [written.read, Function.update_of_ne (linked_apart fresh₁ order member)]
      · rw [written.link, written.freeHead]
        exact rep₁.free
    simp only [Mem.ok_bind, threw, Bool.false_eq_true, if_false, deref_eq here₁, kept]
    by_cases rests : s.left > 0 ∧ x.type = .limit
    · have own : (m.swept x.side.opposite s).ladder x.side = m.ladder x.side :=
        Market.swept_ne _ _ (Side.opposite_ne x.side).symm
      obtain ⟨b₃, rested, rep₃⟩ := rest_spec rep₂ (own ▸ sorted x.side) here₂ distinct₁
      simp only [if_pos rests, rested, Mem.ok_bind, Mem.pure_eq]
      exact ⟨_, rfl, rep₃, rfl, rfl, rfl⟩
    · obtain ⟨pool₃, released, rep₃⟩ := discard_spec rep₂ here₂ fresh₁
      simp only [if_neg rests, released, Mem.ok_bind, Mem.pure_eq]
      exact ⟨_, rfl, rep₃, rfl, rfl, rfl⟩

/-- An order of quantity 0 is accepted at no effect. -/
theorem submit_nothing {ticket : Ticket} (nothing : ticket.qty = 0) (onTrade : TradeCallback σ)
    (seen : σ) :
    b.submit ticket onTrade seen = .ok { book := b, seen := seen, ret := some true } := by
  unfold OrderBook.submit
  simp only [if_pos nothing, Mem.pure_eq]

/-- At a book without a free slot any other order is rejected at no effect. -/
theorem submit_full {ticket : Ticket} (some_qty : ticket.qty ≠ 0) (full : b.pool.freeHead = none)
    (onTrade : TradeCallback σ) (seen : σ) :
    b.submit ticket onTrade seen = .ok { book := b, seen := seen, ret := some false } := by
  unfold OrderBook.submit
  simp only [if_neg some_qty, acquire_none full, Mem.ok_bind, Mem.pure_eq]

/-- Otherwise it takes the first free slot, and the fill-or-kill check decides. -/
theorem submit_takes (rep : Rep b m) (distinct : m.slots.Nodup) {ticket : Ticket}
    (some_qty : ticket.qty ≠ 0) {o : Ptr} {free : List Ptr} (shape : m.free = o :: free)
    (onTrade : TradeCallback σ) (seen : σ) :
    ∃ pool, pool.read o = some { toTicket := m.stamp ticket } ∧
      Rep { b with pool := pool, clock := m.tick ticket }
        { m with free := free, clock := m.tick ticket } ∧
      (o :: ({ m with free := free } : Market).slots).Nodup ∧
      b.submit ticket onTrade seen =
        if m.kills ticket then do
          let pool ← pool.release o
          return { book := { b with pool := pool, clock := m.tick ticket }, seen := seen,
                   ret := some true, dropped := ticket.qty }
        else ({ b with pool := pool, clock := m.tick ticket } : OrderBook).execute ticket o
          onTrade seen := by
  obtain ⟨pool, acquired, here, rep₁, distinct₁⟩ :=
    take_spec rep shape distinct { toTicket := m.stamp ticket }
  refine ⟨pool, here, rep₁.ticked _, distinct₁, ?_⟩
  have clock : (if ticket.ts = 0 then b.clock + 1 else b.clock) = m.tick ticket := by
    rw [Market.tick, rep.clock]
  have stamped :
    ({ ticket with ts := if ticket.ts = 0 then m.tick ticket else ticket.ts } : Order) =
      { toTicket := m.stamp ticket } := rfl
  have needed : OrderBook.stillNeeded ticket.side ticket.price
      (b.sideBook ticket.side.opposite).levels.reverse ticket.qty =
      Ladder.shortfall ticket.side ticket.price (m.ladder ticket.side.opposite) ticket.qty :=
    stillNeeded_spec (rep.ladders _) _ _ _
  have view : ∀ side, ({ b with pool := pool, clock := m.tick ticket } : OrderBook).sideBook side =
      b.sideBook side := fun side => by cases side <;> rfl
  unfold OrderBook.submit
  simp only [if_neg some_qty, clock, stamped, acquired, Mem.ok_bind, view, needed]
  rfl

/-- A killed order leaves both sides and the index as they are, and its slot is the first free one
again. -/
theorem submit_killed (rep : Rep b m) (distinct : m.slots.Nodup) {ticket : Ticket}
    (some_qty : ticket.qty ≠ 0) (some_free : m.free ≠ []) (killed : m.kills ticket)
    (onTrade : TradeCallback σ) (seen : σ) :
    ∃ pool, b.submit ticket onTrade seen =
        .ok { book := { b with pool := pool, clock := m.tick ticket }, seen := seen,
              ret := some true, dropped := ticket.qty } ∧
      Rep { b with pool := pool, clock := m.tick ticket } { m with clock := m.tick ticket } := by
  obtain ⟨o, free, shape⟩ := List.exists_cons_of_ne_nil some_free
  obtain ⟨pool, here, rep₁, distinct₁, submitted⟩ :=
    submit_takes rep distinct some_qty shape onTrade seen
  obtain ⟨pool', released, rep₂⟩ := discard_spec rep₁ here (List.nodup_cons.mp distinct₁).1
  have restored : ({ m with free := o :: free, clock := m.tick ticket } : Market) =
      { m with clock := m.tick ticket } := by rw [← shape]
  refine ⟨pool', ?_, restored ▸ rep₂⟩
  simp only [submitted, if_pos killed, released, Mem.ok_bind, Mem.pure_eq]

/-- **`submit` does what the market says.** -/
theorem submit_spec (onTrade : TradeCallback σ) (seen : σ) (rep : Rep b m)
    (sorted : ∀ side, (m.ladder side).Sorted side) (distinct : m.slots.Nodup) (ticket : Ticket) :
    ∃ done, b.submit ticket onTrade seen = .ok done ∧
      SubmittedRep done (m.submit ticket onTrade seen) := by
  unfold Market.submit
  by_cases nothing : ticket.qty = 0
  · rw [if_pos nothing]
    exact ⟨_, submit_nothing nothing onTrade seen, rep, rfl, rfl, rfl⟩
  rw [if_neg nothing]
  cases shape : m.free with
  | nil =>
    have head : b.pool.freeHead = none := rep.free.nil_iff.mpr shape
    exact ⟨_, submit_full nothing head onTrade seen, rep, rfl, rfl, rfl⟩
  | cons o free =>
    by_cases killed : m.kills ticket
    · have some_free : m.free ≠ [] := by
        rw [shape]
        exact List.cons_ne_nil _ _
      obtain ⟨pool, submitted, rep'⟩ :=
        submit_killed rep distinct nothing some_free killed onTrade seen
      rw [shape] at rep'
      simp only [if_pos killed]
      exact ⟨_, submitted, rep', rfl, rfl, rfl⟩
    · obtain ⟨pool, here, rep₁, distinct₁, submitted⟩ :=
        submit_takes rep distinct nothing shape onTrade seen
      simp only [submitted, if_neg killed]
      exact execute_spec onTrade seen rep₁ sorted here distinct₁ rfl rfl

/-! ### Cancelling -/

/-- **`cancel` does what the market says.** Every index entry points to a resting order. -/
theorem cancel_spec (rep : Rep b m) (wf : ∀ side, (m.ladder side).Wf side)
    (distinct : m.slots.Nodup)
    (index : ∀ id o, m.index.lookup id = some o →
      ∃ order ∈ m.linked, order.addr = o ∧ order.val.id = id) (id : OrderId) :
    ∃ b', b.cancel id = .ok (b', (m.cancel id).2) ∧ Rep b' (m.cancel id).1 := by
  cases entry : m.index.lookup id with
  | none =>
    rw [Market.cancel_absent entry]
    refine ⟨b, ?_, rep⟩
    unfold OrderBook.cancel
    simp only [rep.index, entry, Mem.pure_eq]
  | some o =>
    obtain ⟨order, member, rfl, _⟩ := index id o entry
    have inside := Market.mem_own_side wf member
    have leaves := remove_leaves (wf order.val.side) (side_nodup distinct) inside
    obtain ⟨x, here, (value : x.toTicket = order.val)⟩ := rep.live member
    have side : x.side = order.val.side := congrArg Ticket.side value
    have price : x.price = order.val.price := congrArg Ticket.price value
    obtain ⟨i, lvl, pool, lvl', book, x', found, reached, unlinked, erased, own,
      spelled, there, link,
      freeHead, frame⟩ := unrest_spec rep leaves distinct
    have free : Chain pool.link pool.freeHead m.free := by
      rw [link, freeHead]
      exact rep.free
    obtain ⟨pool', released, read, chain⟩ :=
      release_spec there free (free_apart distinct order inside)
    rw [Market.cancel_resting distinct member entry]
    refine ⟨{ b.withSideBook order.val.side book with pool := pool', idIndex := m.index.erase id },
      ?_, ?_⟩
    · unfold OrderBook.cancel
      simp only [rep.index, entry, deref_eq here, Mem.ok_bind, side, price, found,
        reached, unlinked,
        Mem.pure_eq, erased, released]
    · refine rep.update own (spelled.congr fun other inLadder => ?_) (fun other inOther => ?_) chain
      · have apart : ((order :: Ladder.orders _).map Cell.addr).Nodup :=
          (leaves.orders.map Cell.addr).nodup_iff.mp (side_nodup distinct)
        have different : other.addr ≠ order.addr := fun same =>
          (List.nodup_cons.mp apart).1 (same ▸ List.mem_map_of_mem inLadder)
        rw [read, Function.update_of_ne different]
      · have different : other.addr ≠ order.addr := sides_apart distinct order inside other inOther
        rw [read, Function.update_of_ne different]
        exact frame other inOther

/-! ### Calls -/

/-- **A call of the public interface does what the market says.** -/
theorem handle_spec {capacity : Nat} {held : List Ptr} (rep : Rep b m) (wf : m.Wf capacity held)
    (call : OrderBook.Call) :
    ∃ b', b.handle call = .ok (b', (m.handle call).2) ∧ Rep b' (m.handle call).1 := by
  have distinct := wf.distinct
  cases call with
  | submit ticket =>
    obtain ⟨done, submitted, said⟩ := submit_spec OrderBook.recorder [] rep
      (fun side => (wf.ladders side).sorted) distinct ticket
    refine ⟨done.book, ?_, said.book⟩
    simp only [OrderBook.handle, submitted, Mem.ok_bind, Mem.pure_eq, Market.handle, said.ret,
      said.seen, said.dropped]
  | cancel id =>
    obtain ⟨b', cancelled, rep'⟩ := cancel_spec rep wf.ladders distinct wf.index id
    refine ⟨b', ?_, rep'⟩
    simp only [OrderBook.handle, cancelled, Mem.ok_bind, Mem.pure_eq, Market.handle]

end Ob
