/-
**The matching loops perform the sweep.**

On a book that represents a market, with the taker's slot outside of it, the two loops of `match`
end within their bounds and leave a book that represents the swept market; the callback has seen
what the sweep says and the taker's slot holds the sweep's remainder.

* `fillHead_spec` — one turn of the inner loop: the head of the best rung is reduced or leaves.
* `fillLoop_spec` — the inner loop, by induction on the queue of the best rung.
* `matchLoop_spec` — the outer loop, by induction on the ladder. Sortedness enters here only: the
  emptied level is erased through a search by its price.
-/

import OrderBook.Market.Sweep
import OrderBook.Refine.Turns

namespace Ob

open Links ObjectPool

/-! ### One turn of the inner loop -/

/-- The market after the head of the best rung of a side has traded `fill`. -/
def Market.filled (m : Market) (side : Side) (price : Price) (total : Quantity) (maker : Resting)
    (queue : List Resting) (ladder : Ladder) (fill : Quantity) : Market :=
  if maker.val.qty - fill = 0 then
    { m.withLadder side (⟨price, total - fill, queue⟩ :: ladder) with
      free := maker.addr :: m.free, index := m.index.erase maker.val.id }
  else m.withLadder side (⟨price, total - fill, maker.reduce fill :: queue⟩ :: ladder)

section Loops

variable {σ : Type} {onTrade : TradeCallback σ} {b : OrderBook} {m : Market} {side : Side}
  {taker : Ptr} {t : Order} {left : Quantity}

/-- The two quantity writes of a fill, and what they leave of the maker's queue. -/
theorem reduce_spec {pool : ObjectPool Order} {maker : Resting} {queue : List Resting}
    {head tail : Option Ptr} {mk : Order}
    (takerHere : pool.read taker = some { t with qty := left })
    (makerHere : pool.read maker.addr = some mk) (value : mk.toTicket = maker.val)
    (different : taker ≠ maker.addr) (fill : Quantity)
    (spelled : Queue pool.read head tail (maker :: queue))
    (distinct : ((maker :: queue).map Cell.addr).Nodup)
    (apart : ∀ order ∈ queue, order.addr ≠ taker) :
    ∃ pool₁ pool₂, pool.modify taker (fun x => { x with qty := x.qty - fill }) = .ok pool₁ ∧
      pool₁.modify maker.addr (fun x => { x with qty := x.qty - fill }) = .ok pool₂ ∧
      Rewritten pool pool₂ (Function.update
        (Function.update pool.read taker (some { t with qty := left - fill })) maker.addr
        (some { mk with qty := mk.qty - fill })) ∧
      pool₂.read taker = some { t with qty := left - fill } ∧
      pool₂.read maker.addr = some { mk with qty := mk.qty - fill } ∧
      Queue pool₂.read head tail (maker.reduce fill :: queue) := by
  obtain ⟨pool₁, pool₂, done₁, done₂, written, takerHere₂, makerHere₂⟩ :=
    reduce_pair takerHere makerHere different fill
  refine ⟨pool₁, pool₂, done₁, done₂, written, takerHere₂, makerHere₂, ?_⟩
  have spelled₁ : Queue (Function.update pool.read taker (some { t with qty := left - fill })) head
      tail ([] ++ maker :: queue) := by
    refine Seg.congr spelled fun order member => Function.update_of_ne ?_ _ _
    rcases List.mem_cons.mp member with rfl | member
    · exact Ne.symm different
    · exact apart order member
  have makerHere₁ : Function.update pool.read taker (some { t with qty := left - fill })
      maker.addr = some mk := by
    rw [Function.update_of_ne (Ne.symm different), makerHere]
  have reduced : maker.reduce fill =
      ⟨maker.addr, Links.LinkedNode.val ({ mk with qty := mk.qty - fill } : Order)⟩ := by
    rw [Resting.reduce, ← value]
    rfl
  rw [written.read, reduced]
  exact Seg.setVal spelled₁ distinct makerHere₁ rfl rfl

/-- The removal of a filled maker: its queue goes on without it, its slot heads the free list, and
nothing else is written to. -/
theorem consume_spec {pool : ObjectPool Order} {maker : Resting} {queue : List Resting}
    {free : List Ptr} (lvl : PriceLevel) {mk : Order}
    (spelled : Queue pool.read lvl.head lvl.tail (maker :: queue))
    (makerHere : pool.read maker.addr = some mk)
    (distinct : ((maker :: queue).map Cell.addr).Nodup)
    (chain : Chain pool.link pool.freeHead free) (outside : maker.addr ∉ free) :
    ∃ pool₁ pool₂ lvl', OrderBook.dropHead pool lvl mk = .ok (pool₁, lvl') ∧
      pool₁.release maker.addr = .ok pool₂ ∧ lvl'.price = lvl.price ∧
      lvl'.totalQty = lvl.totalQty ∧ Queue pool₂.read lvl'.head lvl'.tail queue ∧
      Chain pool₂.link pool₂.freeHead (maker.addr :: free) ∧
      ∀ p ∉ (maker :: queue).map Cell.addr, pool₂.read p = pool.read p := by
  obtain ⟨node, _, here, _, _, rest⟩ := Seg.head spelled
  rw [makerHere] at here
  cases here
  have nextMem : ∀ h, mk.next = some h → h ∈ queue.map Cell.addr :=
    fun h next => rest.first_mem next
  have live : ∀ h, mk.next = some h → ∃ x, pool.read h = some x := by
    intro h next
    obtain ⟨order, member, rfl⟩ := List.mem_map.mp (nextMem h next)
    obtain ⟨x, there, _⟩ := rest.node order member
    exact ⟨x, there⟩
  have fresh := (List.nodup_cons.mp distinct).1
  have apart : mk.next ≠ some maker.addr := fun same => fresh (nextMem _ same)
  obtain ⟨pool₁, done₁, written₁, makerHere₁⟩ := dropHead_apart lvl makerHere apart live
  have chain₁ : Chain pool₁.link pool₁.freeHead free := by
    rw [written₁.link, written₁.freeHead]
    exact chain
  obtain ⟨pool₂, done₂, read₂, chain₂⟩ := release_spec makerHere₁ chain₁ outside
  refine ⟨pool₁, pool₂, _, done₁, done₂, rfl, rfl, ?_, chain₂, ?_⟩
  · rw [read₂, written₁.read]
    exact Seg.update_of_notMem (Queue.popFront spelled distinct makerHere) fresh none
  · intro p other
    have different : p ≠ maker.addr := fun same => other (same ▸ List.mem_cons_self)
    rw [read₂, Function.update_of_ne different, written₁.read]
    exact writePrev_of_ne _ fun same => other (List.mem_cons_of_mem _ (nextMem _ same))

/-- The best level of a side is the last one of its vector. -/
theorem best_last (rep : Rep b m) {rung : Rung} {ladder : Ladder}
    (shape : m.ladder side = rung :: ladder) :
    ∃ lows lvl, (b.sideBook side).levels = lows ++ [lvl] ∧ ladder.length = lows.length ∧
      RungRep b.pool.read lvl rung ∧ LadderRep b.pool.read lows ladder := by
  have spelled := rep.ladders side
  rw [shape] at spelled
  obtain ⟨lows, lvl, levels, here, low⟩ := spelled.uncons
  have lengths := low.length_eq
  rw [List.length_reverse] at lengths
  exact ⟨lows, lvl, levels, lengths.symm, here, low⟩

/-- The best level of a side, as `best` and a pointer to it see it. -/
theorem best_level (rep : Rep b m) {rung : Rung} {ladder : Ladder}
    (shape : m.ladder side = rung :: ladder) :
    ∃ lvl, (b.sideBook side).level ladder.length = .ok lvl ∧
      (b.sideBook side).best = some ladder.length ∧ RungRep b.pool.read lvl rung := by
  obtain ⟨lows, lvl, levels, position, here, _⟩ := best_last rep shape
  refine ⟨lvl, ?_, ?_, here⟩
  · rw [position, SideBook.level_append levels]
  · rw [position, SideBook.best_append levels]

/-- **One turn of the inner loop.** The head of the best rung trades with the taker. -/
theorem fillHead_spec (rep : Rep b m) {price : Price} {total : Quantity} {maker : Resting}
    {queue : List Resting} {ladder : Ladder}
    (shape : m.ladder side.opposite = ⟨price, total, maker :: queue⟩ :: ladder)
    (here : b.pool.read taker = some { t with qty := left }) (distinct : (taker :: m.slots).Nodup)
    {seen seen' : σ}
    (returns : onTrade seen (tradeOf t.toTicket maker price (min left maker.val.qty)) =
      some seen') :
    ∃ b', OrderBook.fillHead onTrade side taker ladder.length maker.addr ⟨b, seen, false⟩ =
        .ok ⟨b', seen', false⟩ ∧
      b'.pool.read taker = some { t with qty := left - min left maker.val.qty } ∧
      Rep b' (m.filled side.opposite price total maker queue ladder (min left maker.val.qty)) := by
  obtain ⟨lows, lvl, levels, position, hereLvl, low⟩ := best_last rep shape
  have orders : (m.ladder side.opposite).orders = maker :: queue ++ Ladder.orders ladder := by
    rw [shape]
    rfl
  have distinctSlots := (List.nodup_cons.mp distinct).2
  have apartTaker : ∀ order ∈ maker :: queue ++ Ladder.orders ladder, order.addr ≠ taker := by
    rw [← orders]
    exact taker_apart distinct
  obtain ⟨inQueue, _, belowApart, otherApart⟩ :=
    @queue_apart _ _ [] ladder (maker :: queue) distinctSlots orders
  obtain ⟨mk, makerHere, (value : mk.toTicket = maker.val)⟩ :=
    Seg.node hereLvl.queue maker List.mem_cons_self
  have sameQty : mk.qty = maker.val.qty := congrArg Ticket.qty value
  obtain ⟨pool₁, pool₂, done₁, done₂, written₂, takerHere₂, makerHere₂, spelled₂⟩ :=
    reduce_spec here makerHere value (Ne.symm (apartTaker maker List.mem_cons_self))
      (min left maker.val.qty) hereLvl.queue inQueue fun order member =>
        apartTaker order (List.mem_append_left _ (List.mem_cons_of_mem _ member))
  rw [sameQty] at makerHere₂
  have traded :
    onTrade seen ⟨mk.id, t.id, lvl.price, min left maker.val.qty, t.ts⟩ = some seen' := by
    rw [← returns, tradeOf, ← value, hereLvl.price]
  unfold OrderBook.fillHead
  simp only [position, SideBook.level_append levels, deref_eq here, deref_eq makerHere, Mem.ok_bind,
    traded, sameQty, done₁, done₂, deref_eq makerHere₂]
  have takerOutside : taker ∉ (maker :: queue).map Cell.addr := by
    intro inside
    obtain ⟨cell, inCells, same⟩ := List.mem_map.mp inside
    exact apartTaker cell (List.mem_append_left _ inCells) same
  -- off the taker's slot and the maker's queue nothing has been written so far
  have frame₂ : ∀ order : Resting, order.addr ≠ taker →
    order.addr ∉ (maker :: queue).map Cell.addr →
      pool₂.read order.addr = b.pool.read order.addr := by
    intro order other outside
    have different : order.addr ≠ maker.addr := fun same => outside (same ▸ List.mem_cons_self)
    rw [written₂.read, Function.update_of_ne different, Function.update_of_ne other]
  by_cases gone : maker.val.qty - min left maker.val.qty = 0
  · obtain ⟨pool₃, pool₄, lvl', done₃, done₄, price', total', spelled₄, chain₄, frame₄⟩ :=
      consume_spec { lvl with totalQty := lvl.totalQty - min left maker.val.qty }
        spelled₂ makerHere₂
        inQueue (by rw [written₂.link, written₂.freeHead]; exact rep.free)
        (free_apart distinctSlots maker (by rw [orders]; exact List.mem_cons_self))
    rw [Resting.reduce_addr] at done₄ chain₄
    rw [List.map_cons, Resting.reduce_addr, ← List.map_cons] at frame₄
    simp only [if_pos gone, done₃, done₄, Mem.ok_bind, Mem.pure_eq, Market.filled]
    refine ⟨_, rfl, (frame₄ taker takerOutside).trans takerHere₂, ?_⟩
    have erased : b.idIndex.erase mk.id = m.index.erase maker.val.id := by
      rw [rep.index, ← value]
    rw [erased]
    refine rep.setBest levels low ⟨price'.trans hereLvl.price, ?_, spelled₄⟩
      (fun order member => ?_) (fun order member => ?_) chain₄
    · rw [total']
      exact congrArg (· - min left maker.val.qty) hereLvl.total
    · exact (frame₄ _ (belowApart order member)).trans
        (frame₂ order (apartTaker order (List.mem_append_right _ member)) (belowApart order member))
    · exact (frame₄ _ (otherApart order member)).trans
        (frame₂ order (taker_apart distinct order member) (otherApart order member))
  · simp only [if_neg gone, Mem.pure_eq, Market.filled]
    refine ⟨_, rfl, takerHere₂, ?_⟩
    have same : b.idIndex = m.index := rep.index
    show Rep { b.withSideBook side.opposite ((b.sideBook side.opposite).setLevel lows.length _) with
      pool := pool₂, idIndex := b.idIndex } _
    rw [same]
    refine rep.setBest levels low
      ⟨hereLvl.price, congrArg (· - min left maker.val.qty) hereLvl.total, spelled₂⟩
      (fun order member => ?_) (fun order member => ?_) ?_
    · exact frame₂ order (apartTaker order (List.mem_append_right _ member))
        (belowApart order member)
    · exact frame₂ order (taker_apart distinct order member) (otherApart order member)
    · rw [written₂.link, written₂.freeHead]
      exact rep.free

/-- When the callback throws, nothing has been written yet. -/
theorem fillHead_throws (rep : Rep b m) {price : Price} {total : Quantity} {maker : Resting}
    {queue : List Resting} {ladder : Ladder}
    (shape : m.ladder side.opposite = ⟨price, total, maker :: queue⟩ :: ladder)
    (here : b.pool.read taker = some { t with qty := left }) {seen : σ}
    (throws : onTrade seen (tradeOf t.toTicket maker price (min left maker.val.qty)) = none) :
    OrderBook.fillHead onTrade side taker ladder.length maker.addr ⟨b, seen, false⟩ =
      .ok ⟨b, seen, true⟩ := by
  obtain ⟨lvl, reached, _, hereLvl⟩ := best_level rep shape
  obtain ⟨mk, makerHere, (value : mk.toTicket = maker.val)⟩ :=
    Seg.node hereLvl.queue maker List.mem_cons_self
  have sameQty : mk.qty = maker.val.qty := congrArg Ticket.qty value
  have traded : onTrade seen ⟨mk.id, t.id, lvl.price, min left maker.val.qty, t.ts⟩ = none := by
    rw [← throws, tradeOf, ← value, hereLvl.price]
  unfold OrderBook.fillHead
  simp only [reached, deref_eq here, deref_eq makerHere, Mem.ok_bind, sameQty, traded, Mem.pure_eq]

/-- A turn of the inner loop moves slots between the queue and the free list only. -/
theorem filled_slots {price : Price} {total : Quantity} {maker : Resting}
    {queue : List Resting} {ladder : Ladder}
    (shape : m.ladder side = ⟨price, total, maker :: queue⟩ :: ladder) (fill : Quantity) :
    (m.filled side price total maker queue ladder fill).slots.Perm m.slots := by
  have orders : (m.ladder side).orders = maker :: (queue ++ Ladder.orders ladder) := by
    rw [shape]
    rfl
  refine (Market.slots_perm _ side).trans (.trans ?_ (m.slots_perm side).symm)
  rw [orders]
  unfold Market.filled
  split
  · show (maker.addr :: m.free ++ (_ ++ _)).Perm _
    rw [Market.withLadder_same, Market.withLadder_ne _ _ (Side.opposite_ne side)]
    exact List.perm_middle.symm
  · rw [Market.withLadder_same, Market.withLadder_ne _ _ (Side.opposite_ne side)]
    exact .refl _

/-! ### The inner loop -/

/-- The market after the sweep of its best rung. -/
def Market.sweptRung (m : Market) (side : Side) (price : Price) (ladder : Ladder)
    (s : QueueSweep σ) : Market :=
  (m.withLadder side (⟨price, s.total, s.queue⟩ :: ladder)).release s.consumed

theorem sweptRung_self {price : Price} {total : Quantity} {queue : List Resting} {ladder : Ladder}
    (shape : m.ladder side = ⟨price, total, queue⟩ :: ladder) {left : Quantity} {seen : σ}
    {threw : Bool} :
    m.sweptRung side price ladder ⟨queue, total, [], left, seen, threw⟩ = m :=
  Market.withLadder_self shape

/-- A filled maker, then the sweep of the rest of its queue. -/
theorem sweptRung_filled {price : Price} {total : Quantity} {maker : Resting}
    {queue : List Resting} {ladder : Ladder} {fill : Quantity}
    (gone : maker.val.qty - fill = 0) (s : QueueSweep σ) :
    (m.filled side price total maker queue ladder fill).sweptRung side price ladder s =
      m.sweptRung side price ladder { s with consumed := maker :: s.consumed } := by
  simp only [Market.filled, if_pos gone, Market.sweptRung, Market.release, Market.withLadder,
    Function.update_idem, List.map_cons, List.reverse_cons, List.append_assoc, List.cons_append,
    List.nil_append, List.foldl_cons]

/-- The inner loop stops at once when nothing is left of the taker. -/
theorem fillLoop_stop (rep : Rep b m) {rung : Rung} {ladder : Ladder}
    (shape : m.ladder side.opposite = rung :: ladder)
    (here : b.pool.read taker = some { t with qty := 0 }) (turns : Nat) (seen : σ) :
    OrderBook.fillLoop onTrade side taker ladder.length (turns + 1) ⟨b, seen, false⟩ =
      .ok ⟨b, seen, false⟩ := by
  obtain ⟨lvl, reached, _, _⟩ := best_level rep shape
  exact fillLoop_done reached here (.inr rfl) turns seen

/-- A turn of the inner loop, on a taker that is not used up and a queue that is not empty. -/
theorem fillLoop_turn (rep : Rep b m) {price : Price} {total : Quantity} {maker : Resting}
    {queue : List Resting} {ladder : Ladder}
    (shape : m.ladder side.opposite = ⟨price, total, maker :: queue⟩ :: ladder)
    (here : b.pool.read taker = some { t with qty := left }) (positive : left ≠ 0) (turns : Nat)
    (seen : σ) :
    OrderBook.fillLoop onTrade side taker ladder.length (turns + 1) ⟨b, seen, false⟩ =
      (OrderBook.fillHead onTrade side taker ladder.length maker.addr ⟨b, seen, false⟩ >>=
        fun run => if run.threw then return run else
          OrderBook.fillLoop onTrade side taker ladder.length turns run) := by
  obtain ⟨lvl, reached, _, hereLvl⟩ := best_level rep shape
  have head : lvl.head = some maker.addr := (Seg.head hereLvl.queue).choose_spec.1
  exact fillLoop_goes reached here head positive turns seen

variable (onTrade) in
/-- **The inner loop.** By induction on the queue of the best rung. -/
theorem fillLoop_spec {price : Price} {ladder : Ladder} {queue : List Resting} :
    ∀ {b : OrderBook} {m : Market} {total left : Quantity} (seen : σ) {turns : Nat}, Rep b m →
      m.ladder side.opposite = ⟨price, total, queue⟩ :: ladder →
      b.pool.read taker = some { t with qty := left } → (taker :: m.slots).Nodup →
      queue.length < turns →
      let s := sweepQueue onTrade t.toTicket price queue total left seen
      ∃ b', OrderBook.fillLoop onTrade side taker ladder.length turns ⟨b, seen, false⟩ =
          .ok ⟨b', s.seen, s.threw⟩ ∧
        b'.pool.read taker = some { t with qty := s.left } ∧
        Rep b' (m.sweptRung side.opposite price ladder s) := by
  induction queue with
  | nil =>
    intro b m total left seen turns rep shape here distinct enough
    obtain ⟨turns, rfl⟩ := Nat.exists_eq_add_of_lt enough
    obtain ⟨lvl, reached, _, hereLvl⟩ := best_level rep shape
    have noHead : lvl.head = none := Queue.nil_iff hereLvl.queue |>.mpr rfl
    refine ⟨b, ?_, here, ?_⟩
    · exact fillLoop_done reached here (.inl noHead) _ seen
    · rw [sweepQueue, sweptRung_self shape]
      exact rep
  | cons maker queue ih =>
    intro b m total left seen turns rep shape here distinct enough
    obtain ⟨turns, rfl⟩ : ∃ k, turns = k + 1 := ⟨turns - 1, by omega⟩
    have enough' : queue.length < turns := Nat.lt_of_succ_lt_succ enough
    by_cases done : left = 0
    · subst done
      refine ⟨b, ?_, here, ?_⟩
      · rw [fillLoop_stop rep shape here, sweepQueue, if_pos rfl]
      · rw [sweepQueue, if_pos rfl, sweptRung_self shape]
        exact rep
    rw [fillLoop_turn rep shape here done]
    cases returns : onTrade seen (tradeOf t.toTicket maker price (min left maker.val.qty)) with
    | none =>
      simp only [sweepQueue, if_neg done, returns]
      refine ⟨b, ?_, here, ?_⟩
      · rw [fillHead_throws rep shape here returns]
        rfl
      · rw [sweptRung_self shape]
        exact rep
    | some seen' =>
      obtain ⟨b₁, did, here₁, rep₁⟩ := fillHead_spec rep shape here distinct returns
      have distinct₁ :=
        ((filled_slots shape (min left maker.val.qty)).cons taker).nodup_iff.mpr distinct
      simp only [did, Mem.ok_bind, Bool.false_eq_true, if_false, sweepQueue, if_neg done, returns]
      by_cases gone : maker.val.qty - min left maker.val.qty = 0
      · -- the maker is filled: the rest of the queue follows
        have shape₁ : (m.filled side.opposite price total maker queue ladder
            (min left maker.val.qty)).ladder side.opposite =
            ⟨price, total - min left maker.val.qty, queue⟩ :: ladder := by
          rw [Market.filled, if_pos gone]
          exact Market.withLadder_same _ _ _
        obtain ⟨b₂, did₂, here₂, rep₂⟩ := ih seen' rep₁ shape₁ here₁ distinct₁ enough'
        rw [if_pos gone]
        rw [sweptRung_filled gone] at rep₂
        exact ⟨b₂, did₂, here₂, rep₂⟩
      · -- the maker survives, so the taker is exhausted and the loop stops
        have exhausted := Quantity.sub_min_eq_zero gone
        obtain ⟨turns, rfl⟩ : ∃ k, turns = k + 1 := ⟨turns - 1, by omega⟩
        have filled : m.filled side.opposite price total maker queue ladder
            (min left maker.val.qty) = m.withLadder side.opposite
            (⟨price, total - min left maker.val.qty,
              maker.reduce (min left maker.val.qty) :: queue⟩ :: ladder) := if_neg gone
        have shape₁ := congrArg (fun m => m.ladder side.opposite) filled
        rw [Market.withLadder_same] at shape₁
        rw [exhausted] at here₁
        rw [if_neg gone, fillLoop_stop rep₁ shape₁ here₁, exhausted]
        rw [filled] at rep₁
        exact ⟨b₁, rfl, here₁, rep₁⟩

/-! ### The outer loop -/

/-- The sweep of an emptied rung, then the sweep of the rest of the side. -/
theorem swept_sweptRung {price : Price} {ladder : Ladder} (here : QueueSweep σ) (s : Sweep σ) :
    ((m.sweptRung side price ladder here).withLadder side ladder).swept side s =
      m.swept side { s with consumed := here.consumed ++ s.consumed } := by
  simp only [Market.sweptRung, Market.swept, Market.release, Market.withLadder,
    Function.update_idem, List.map_append, List.reverse_append, List.append_assoc,
      List.foldl_append]

/-- An emptied rung disappears. -/
theorem withLadder_sweptRung {price : Price} {ladder : Ladder} (here : QueueSweep σ) :
    (m.sweptRung side price ladder here).withLadder side ladder =
      (m.withLadder side ladder).release here.consumed := by
  simp only [Market.sweptRung, Market.release, Market.withLadder, Function.update_idem]

/-- The outer loop stops at a level that the taker's price does not reach. -/
theorem matchLoop_refused (rep : Rep b m) {rung : Rung} {ladder : Ladder}
    (shape : m.ladder t.side.opposite = rung :: ladder)
    (here : b.pool.read taker = some { t with qty := left }) (positive : left ≠ 0)
    (refused : t.toTicket.accepts rung.price = false) (inner turns : Nat) (seen : σ) :
    OrderBook.matchLoop onTrade t.side taker inner (turns + 1) ⟨b, seen, false⟩ =
      .ok ⟨b, seen, false⟩ := by
  obtain ⟨lvl, reached, best, hereLvl⟩ := best_level rep shape
  have outside : t.type ≠ .market ∧ priceCrosses t.side t.price lvl.price = false := by
    rw [hereLvl.price]
    exact Ticket.accepts_false.mp refused
  rw [matchLoop_goes best reached here positive, if_pos outside]

/-- A turn of the outer loop, on a taker that is not used up and a level that its price reaches. -/
theorem matchLoop_turn (rep : Rep b m) {rung : Rung} {ladder : Ladder}
    (shape : m.ladder t.side.opposite = rung :: ladder)
    (here : b.pool.read taker = some { t with qty := left }) (positive : left ≠ 0)
    (accepted : t.toTicket.accepts rung.price = true) (inner turns : Nat) (seen : σ) :
    OrderBook.matchLoop onTrade t.side taker inner (turns + 1) ⟨b, seen, false⟩ =
      (OrderBook.fillLoop onTrade t.side taker ladder.length inner ⟨b, seen, false⟩ >>= fun run =>
        if run.threw then return run
        else do
          let opp := run.book.sideBook t.side.opposite
          let lvl ← opp.level ladder.length
          let opp ← (if lvl.empty then opp.eraseIfEmpty ladder.length else pure opp)
          OrderBook.matchLoop onTrade t.side taker inner turns
            { run with book := run.book.withSideBook t.side.opposite opp }) := by
  obtain ⟨lvl, reached, best, hereLvl⟩ := best_level rep shape
  have inside : ¬(t.type ≠ .market ∧ priceCrosses t.side t.price lvl.price = false) := by
    rw [hereLvl.price]
    exact fun outside =>
      Bool.false_ne_true ((Ticket.accepts_false.mpr outside).symm.trans accepted)
  rw [matchLoop_goes best reached here positive, if_neg inside]

/-- The emptied best level is erased. -/
theorem eraseBest_spec (rep : Rep b m) {rung : Rung} {ladder : Ladder}
    (shape : m.ladder side = rung :: ladder) (sorted : Ladder.Sorted side (rung :: ladder))
    (empty : rung.queue = []) :
    ∃ book, (b.sideBook side).eraseIfEmpty ladder.length = .ok book ∧
      Rep (b.withSideBook side book) (m.withLadder side ladder) := by
  obtain ⟨lows, lvl, levels, position, here, low⟩ := best_last rep shape
  have noHead : lvl.empty = true := here.empty_iff.mpr empty
  have worse : ∀ l ∈ lows, rank (b.sideBook side).side l.price < rank (b.sideBook side).side
    lvl.price := by
    rw [rep.sides, here.price]
    have below : ∀ r ∈ ladder, rank side r.price < rank side rung.price := fun r member =>
      (List.pairwise_cons.mp sorted).1 _ (List.mem_map_of_mem member)
    exact @LadderRep.price_mem _ _ _ low (fun p => rank side p < rank side rung.price) below
  refine ⟨_, position ▸ eraseIfEmpty_best levels noHead worse, ?_⟩
  have same : b.idIndex = m.index := rep.index
  show Rep { b.withSideBook side { b.sideBook side with levels := lows } with
    pool := b.pool, idIndex := b.idIndex } _
  rw [same]
  exact rep.update (rep.sides side) low (fun _ _ => rfl) rep.free

variable (onTrade) in
/-- **The outer loop.** By induction on the ladder of the opposite side. -/
theorem matchLoop_spec {inner : Nat} {ladder : Ladder} :
    ∀ {b : OrderBook} {m : Market} {left : Quantity} (seen : σ) {turns : Nat}, Rep b m →
      m.ladder t.side.opposite = ladder → ladder.Sorted t.side.opposite →
      b.pool.read taker = some { t with qty := left } → (taker :: m.slots).Nodup →
      ladder.length < turns → (∀ rung ∈ ladder, rung.queue.length < inner) →
      let s := sweep onTrade t.toTicket ladder left seen
      ∃ b', OrderBook.matchLoop onTrade t.side taker inner turns ⟨b, seen, false⟩ =
          .ok ⟨b', s.seen, s.threw⟩ ∧
        b'.pool.read taker = some { t with qty := s.left } ∧
        Rep b' (m.swept t.side.opposite s) := by
  induction ladder with
  | nil =>
    intro b m left seen turns rep shape sorted here distinct enough short
    obtain ⟨turns, rfl⟩ := Nat.exists_eq_add_of_lt enough
    have noLevels : (b.sideBook t.side.opposite).levels = [] :=
      (rep.ladders t.side.opposite).nil_iff.mpr shape
    refine ⟨b, ?_, here, ?_⟩
    · exact matchLoop_done here (.inr noLevels) inner _ seen
    · rw [sweep, Market.swept_self shape]
      exact rep
  | cons rung ladder ih =>
    intro b m left seen turns rep shape sorted here distinct enough short
    obtain ⟨turns, rfl⟩ : ∃ k, turns = k + 1 := ⟨turns - 1, by omega⟩
    have enough' : ladder.length < turns := Nat.lt_of_succ_lt_succ enough
    by_cases done : left = 0
    · subst done
      simp only [sweep, true_or, if_true]
      refine ⟨b, matchLoop_done here (.inl rfl) inner turns seen, here, ?_⟩
      rw [Market.swept_self shape]
      exact rep
    cases accepted : t.toTicket.accepts rung.price with
    | false =>
      simp only [sweep, accepted, or_true, if_true]
      refine ⟨b, matchLoop_refused rep shape here done accepted inner turns seen, here, ?_⟩
      rw [Market.swept_self shape]
      exact rep
    | true =>
      have goes : ¬(left = 0 ∨ t.toTicket.accepts rung.price = false) :=
        fun stop => stop.elim done (fun refused => Bool.false_ne_true (refused.symm.trans accepted))
      have turned := fillLoop_spec onTrade seen rep shape here distinct
        (short rung List.mem_cons_self)
      have addrs := sweepQueue_addrs onTrade t.toTicket rung.price rung.queue rung.total left seen
      have exhausted :=
        sweepQueue_left onTrade t.toTicket rung.price rung.queue rung.total left seen
      rcases swept : sweepQueue onTrade t.toTicket rung.price rung.queue rung.total left seen with
        ⟨queue, total, consumed, left', seen', threw⟩
      simp only [swept] at turned addrs exhausted
      obtain ⟨b₁, did, here₁, rep₁⟩ := turned
      rw [matchLoop_turn rep shape here done accepted, did]
      cases threw with
      | true =>
        simp only [sweep, if_neg goes, swept, if_true]
        exact ⟨b₁, rfl, here₁, rep₁⟩
      | false =>
        obtain ⟨lvl₁, reached₁, _, hereLvl₁⟩ := best_level rep₁ (Market.withLadder_same _ _ _)
        by_cases emptied : queue = []
        · -- the rung is used up: its level is erased and the loop goes on below it
          subst emptied
          obtain ⟨book, erased, rep₂⟩ :=
            eraseBest_spec rep₁ (Market.withLadder_same _ _ _) sorted rfl
          have slots₂ :
            ((m.withLadder t.side.opposite ladder).release consumed).slots.Perm m.slots :=
            Market.released_slots (by
              rw [shape, Ladder.orders_cons, List.map_append, ← addrs, List.append_nil,
                List.map_append])
          rw [← withLadder_sweptRung (QueueSweep.mk [] total consumed left' seen' false)] at slots₂
          have noHead : lvl₁.empty = true := hereLvl₁.empty_iff.mpr rfl
          obtain ⟨b₂, did₂, here₂, rep₂⟩ := ih seen' rep₂ (Market.withLadder_same _ _ _)
            (List.pairwise_cons.mp sorted).2 here₁
              ((slots₂.cons taker).nodup_iff.mpr distinct) enough'
            fun r member => short r (List.mem_cons_of_mem _ member)
          simp only [sweep, if_neg goes, swept, Bool.false_eq_true, if_false, if_true]
          refine ⟨b₂, ?_, here₂, ?_⟩
          · simp only [Mem.ok_bind, Bool.false_eq_true, if_false, reached₁, noHead, if_true, erased,
              did₂]
          · rw [swept_sweptRung] at rep₂
            exact rep₂
        · -- an order is left, so the taker is exhausted and the loop stops
          obtain ⟨turns, rfl⟩ : ∃ k, turns = k + 1 := ⟨turns - 1, by omega⟩
          have spent := exhausted rfl emptied
          subst spent
          have head : ¬lvl₁.empty = true := fun empty => emptied (hereLvl₁.empty_iff.mp empty)
          simp only [sweep, if_neg goes, swept, Bool.false_eq_true, if_false, if_neg emptied]
          refine ⟨b₁, ?_, here₁, rep₁⟩
          simp only [Mem.ok_bind, Bool.false_eq_true, if_false, reached₁, if_neg head, Mem.pure_eq,
            OrderBook.withSideBook_self, matchLoop_done here₁ (.inl rfl)]

end Loops

end Ob
