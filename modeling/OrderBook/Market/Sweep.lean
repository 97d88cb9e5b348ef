/-
**What a sweep does to a side.**

A sweep uses up the oldest orders of the best rungs, in order, and at most one order that stays has
traded: `sweep_trimmed`. So what does not depend on quantities survives for the orders that stay,
and the invariant of the side is kept:

* `sweep_prices` — the prices that stay are a tail of the prices before.
* `sweep_wf` — a well-formed side stays well formed, totals included.
* `sweep_exit` — a sweep that did not throw stops at an exhausted taker or at a price that the taker
  does not accept.

Each fact about a rung is by induction along `sweepQueue`, and the fact about a side by induction
along `sweep` from it.
-/

import OrderBook.Market.Basic

namespace Ob

/-! ### Orders that stay -/

/-- What becomes of the orders that a sweep does not use up: the first may have traded in part. -/
inductive Trimmed : List Resting → List Resting → Prop
  | whole (queue : List Resting) : Trimmed queue queue
  | first {maker : Resting} {fill : Quantity} (queue : List Resting) (le : fill ≤ maker.val.qty)
      (partly : maker.val.qty - fill ≠ 0) : Trimmed (maker :: queue) (maker.reduce fill :: queue)

namespace Trimmed

variable {queue queue' : List Resting}

theorem append (trimmed : Trimmed queue queue') (more : List Resting) :
    Trimmed (queue ++ more) (queue' ++ more) := by
  cases trimmed with
  | whole => exact .whole _
  | first queue le partly => exact .first (queue ++ more) le partly

theorem eq_nil (trimmed : Trimmed queue []) : queue = [] := by
  cases trimmed
  rfl

/-- Whatever does not depend on the quantity is as before. -/
theorem map_eq {α : Type} {f : Resting → α} (same : ∀ maker fill, f (maker.reduce fill) = f maker)
    (trimmed : Trimmed queue queue') : queue'.map f = queue.map f := by
  cases trimmed with
  | whole => rfl
  | first queue le partly => rw [List.map_cons, List.map_cons, same]

/-- What a trade does not make false of an order holds of those that stay. -/
theorem keeps {P : Resting → Prop} (stable : ∀ maker fill, P maker → P (maker.reduce fill))
    (trimmed : Trimmed queue queue') (before : ∀ order ∈ queue, P order) :
    ∀ order ∈ queue', P order := by
  cases trimmed with
  | whole => exact before
  | first queue le partly =>
    intro order member
    rcases List.mem_cons.mp member with rfl | member
    · exact stable _ _ (before _ List.mem_cons_self)
    · exact before order (List.mem_cons_of_mem _ member)

theorem quantities_le (trimmed : Trimmed queue queue') :
    (quantities queue').sum ≤ (quantities queue).sum := by
  cases trimmed with
  | whole => exact Nat.le_refl _
  | @first maker fill queue le partly =>
    refine Nat.add_le_add_right ?_ (quantities queue).sum
    exact Nat.le_trans (Nat.le_of_eq (UInt64.toNat_sub_of_le _ _ le)) (Nat.sub_le _ _)

theorem positive (trimmed : Trimmed queue queue') (before : ∀ order ∈ queue, 0 < order.val.qty) :
    ∀ order ∈ queue', 0 < order.val.qty := by
  cases trimmed with
  | whole => exact before
  | first queue le partly =>
    intro order member
    rcases List.mem_cons.mp member with rfl | member
    · exact UInt64.pos_iff_ne_zero.mpr partly
    · exact before order (List.mem_cons_of_mem _ member)

end Trimmed

/-! ### The quantities of a queue -/

theorem quantities_cons (order : Resting) (queue : List Resting) :
    (quantities (order :: queue)).sum = order.val.qty.toNat + (quantities queue).sum := rfl

theorem quantities_append (queue more : List Resting) :
    (quantities (queue ++ more)).sum = (quantities queue).sum + (quantities more).sum := by
  rw [quantities, List.map_append, List.sum_append]
  rfl

/-- Taking a traded quantity off a cached total. -/
theorem Quantity.ofNat_sub {fill qty : Quantity} (le : fill ≤ qty) (more : Nat) :
    UInt64.ofNat (qty.toNat + more) - fill = UInt64.ofNat ((qty - fill).toNat + more) := by
  have split : qty.toNat + more = ((qty - fill).toNat + more) + fill.toNat := by
    rw [UInt64.toNat_sub_of_le _ _ le]
    have := UInt64.le_iff_toNat_le.mp le
    omega
  rw [split, UInt64.ofNat_add, UInt64.ofNat_toNat]
  exact UInt64.add_sub_cancel _ _

/-! ### One rung -/

section Queue

variable {σ : Type} (onTrade : TradeCallback σ) (taker : Ticket) (price : Price)
  (queue : List Resting) (total left : Quantity) (seen : σ)

/-- The makers used up are the oldest, and of the others at most the first has traded. -/
theorem sweepQueue_trimmed : ∃ rest,
    queue = (sweepQueue onTrade taker price queue total left seen).consumed ++ rest ∧
      Trimmed rest (sweepQueue onTrade taker price queue total left seen).queue := by
  fun_induction sweepQueue onTrade taker price queue total left seen with
  | case1 | case2 | case3 => exact ⟨_, rfl, .whole _⟩
  | case4 maker queue total left seen some_left fill seen' returns gone s ih =>
    obtain ⟨rest, split, trimmed⟩ := ih
    exact ⟨rest, congrArg (maker :: ·) split, trimmed⟩
  | case5 maker queue total left seen some_left fill seen' returns remains =>
    exact ⟨_, rfl, .first queue (Quantity.min_le_right _ _) remains⟩

/-- A cached total that was right modulo `2 ^ 64` stays right. -/
theorem sweepQueue_total (right : total = UInt64.ofNat (quantities queue).sum) :
    (sweepQueue onTrade taker price queue total left seen).total =
      UInt64.ofNat
        (quantities (sweepQueue onTrade taker price queue total left seen).queue).sum := by
  fun_induction sweepQueue onTrade taker price queue total left seen with
  | case1 | case2 | case3 => exact right
  | case4 maker queue total left seen some_left fill seen' returns gone s ih =>
    refine ih ?_
    rw [right, quantities_cons, Quantity.ofNat_sub (Quantity.min_le_right _ _), gone]
    exact congrArg UInt64.ofNat (Nat.zero_add _)
  | case5 maker queue total left seen some_left fill seen' returns remains =>
    show total - fill = _
    rw [right, quantities_cons, Quantity.ofNat_sub (Quantity.min_le_right _ _)]
    rfl

/-- A callback throws at an order that is still there. -/
theorem sweepQueue_threw
    (threw : (sweepQueue onTrade taker price queue total left seen).threw = true) :
    (sweepQueue onTrade taker price queue total left seen).queue ≠ [] := by
  fun_induction sweepQueue onTrade taker price queue total left seen with
  | case1 | case2 => cases threw
  | case3 => exact List.cons_ne_nil _ _
  | case4 maker queue total left seen some_left fill seen' returns gone s ih => exact ih threw
  | case5 => cases threw

/-- A rung that keeps an order has used up the taker, unless the callback threw. -/
theorem sweepQueue_left
    (quiet : (sweepQueue onTrade taker price queue total left seen).threw = false)
    (remains : (sweepQueue onTrade taker price queue total left seen).queue ≠ []) :
    (sweepQueue onTrade taker price queue total left seen).left = 0 := by
  fun_induction sweepQueue onTrade taker price queue total left seen with
  | case1 => exact absurd rfl remains
  | case2 => rfl
  | case3 => cases quiet
  | case4 maker queue total left seen some_left fill seen' returns gone s ih =>
    exact ih quiet remains
  | case5 maker queue total left seen some_left fill seen' returns kept =>
    exact Quantity.sub_min_eq_zero kept

theorem sweepQueue_addrs :
    ((sweepQueue onTrade taker price queue total left seen).consumed ++
      (sweepQueue onTrade taker price queue total left seen).queue).map Links.Cell.addr =
      queue.map Links.Cell.addr := by
  obtain ⟨rest, split, trimmed⟩ := sweepQueue_trimmed onTrade taker price queue total left seen
  rw [List.map_append, trimmed.map_eq Resting.reduce_addr, ← List.map_append, ← split]

/-- A rung that is not emptied stays well formed. -/
theorem sweepQueue_wf {side : Side} (wf : Rung.Wf side ⟨price, total, queue⟩)
    (remains : (sweepQueue onTrade taker price queue total left seen).queue ≠ []) :
    Rung.Wf side ⟨price, (sweepQueue onTrade taker price queue total left seen).total,
      (sweepQueue onTrade taker price queue total left seen).queue⟩ := by
  obtain ⟨rest, split, trimmed⟩ := sweepQueue_trimmed onTrade taker price queue total left seen
  have inside : ∀ order ∈ rest, order ∈ queue := fun order member =>
    split ▸ List.mem_append_right _ member
  refine ⟨remains, ?_, ?_, ?_, sweepQueue_total onTrade taker price queue total left seen wf.total⟩
  · exact trimmed.keeps (fun _ _ same => same) fun order member =>
      wf.sides order (inside order member)
  · exact trimmed.keeps (fun _ _ same => same) fun order member =>
      wf.prices order (inside order member)
  · exact trimmed.positive fun order member => wf.positive order (inside order member)

end Queue

/-! ### One side -/

section Side

variable {σ : Type} (onTrade : TradeCallback σ) (taker : Ticket) (ladder : Ladder)
  (left : Quantity) (seen : σ)

theorem sweep_trimmed : ∃ rest,
    ladder.orders = (sweep onTrade taker ladder left seen).consumed ++ rest ∧
      Trimmed rest (sweep onTrade taker ladder left seen).ladder.orders := by
  fun_induction sweep onTrade taker ladder left seen with
  | case1 | case2 => exact ⟨_, rfl, .whole _⟩
  | case3 rung ladder left seen goes here rung' threw =>
    obtain ⟨rest, split, trimmed⟩ :=
      sweepQueue_trimmed onTrade taker rung.price rung.queue rung.total left seen
    refine ⟨rest ++ Ladder.orders ladder, ?_, trimmed.append _⟩
    rw [← List.append_assoc, ← split]
    rfl
  | case4 rung ladder left seen goes here quiet emptied s ih =>
    obtain ⟨rest, split, trimmed⟩ :=
      sweepQueue_trimmed onTrade taker rung.price rung.queue rung.total left seen
    rw [emptied] at trimmed
    rw [trimmed.eq_nil, List.append_nil] at split
    obtain ⟨rest', split', trimmed'⟩ := ih
    refine ⟨rest', ?_, trimmed'⟩
    rw [Ladder.orders_cons, split, split', List.append_assoc]
  | case5 rung ladder left seen goes here rung' quiet remains =>
    obtain ⟨rest, split, trimmed⟩ :=
      sweepQueue_trimmed onTrade taker rung.price rung.queue rung.total left seen
    refine ⟨rest ++ Ladder.orders ladder, ?_, trimmed.append _⟩
    rw [← List.append_assoc, ← split]
    rfl

theorem sweep_addrs :
    ((sweep onTrade taker ladder left seen).consumed ++
      (sweep onTrade taker ladder left seen).ladder.orders).map Links.Cell.addr =
      ladder.orders.map Links.Cell.addr := by
  obtain ⟨rest, split, trimmed⟩ := sweep_trimmed onTrade taker ladder left seen
  rw [List.map_append, trimmed.map_eq Resting.reduce_addr, ← List.map_append, ← split]

/-- The prices that stay are a tail of the prices before. -/
theorem sweep_prices :
    (sweep onTrade taker ladder left seen).ladder.map Rung.price <:+ ladder.map Rung.price := by
  fun_induction sweep onTrade taker ladder left seen with
  | case1 | case2 | case3 | case5 => exact List.suffix_rfl
  | case4 rung ladder left seen goes here quiet emptied s ih =>
    exact ih.trans (List.suffix_cons _ _)

/-- The rungs that stay are well formed. -/
theorem sweep_rungs {side : Side} (wf : ∀ rung ∈ ladder, rung.Wf side) :
    ∀ rung ∈ (sweep onTrade taker ladder left seen).ladder, rung.Wf side := by
  fun_induction sweep onTrade taker ladder left seen with
  | case1 | case2 => exact wf
  | case3 rung ladder left seen goes here rung' threw =>
    have head := sweepQueue_wf onTrade taker rung.price rung.queue rung.total left seen
      (wf rung List.mem_cons_self) (sweepQueue_threw _ _ _ _ _ _ _ threw)
    exact List.forall_mem_cons.mpr ⟨head, fun other member =>
      wf other (List.mem_cons_of_mem _ member)⟩
  | case4 rung ladder left seen goes here quiet emptied s ih =>
    exact ih fun other member => wf other (List.mem_cons_of_mem _ member)
  | case5 rung ladder left seen goes here rung' quiet remains =>
    have head := sweepQueue_wf onTrade taker rung.price rung.queue rung.total left seen
      (wf rung List.mem_cons_self) remains
    exact List.forall_mem_cons.mpr ⟨head, fun other member =>
      wf other (List.mem_cons_of_mem _ member)⟩

/-- **A sweep keeps a side well formed**, also one that ends in an exception. -/
theorem sweep_wf {side : Side} (wf : ladder.Wf side) :
    (sweep onTrade taker ladder left seen).ladder.Wf side where
  sorted := wf.sorted.sublist (sweep_prices onTrade taker ladder left seen).sublist
  rungs := sweep_rungs onTrade taker ladder left seen wf.rungs

/-- **The exit of the loops.** A taker with something left has met no rung, or one whose price it
does not accept. -/
theorem sweep_exit (quiet : (sweep onTrade taker ladder left seen).threw = false)
    (remains : (sweep onTrade taker ladder left seen).left ≠ 0) {rung : Rung} {below : Ladder}
    (shape : (sweep onTrade taker ladder left seen).ladder = rung :: below) :
    taker.accepts rung.price = false := by
  fun_induction sweep onTrade taker ladder left seen with
  | case1 => cases shape
  | case2 rung' ladder left seen stop =>
    cases shape
    exact stop.resolve_left remains
  | case3 => cases quiet
  | case4 rung' ladder left seen goes here quiet' emptied s ih => exact ih quiet remains shape
  | case5 rung' ladder left seen goes here rung'' quiet' kept =>
    exact absurd (sweepQueue_left _ _ _ _ _ _ _ (Bool.eq_false_iff.mpr quiet') kept) remains

/-- What the taker has not traded with is out of its reach. -/
theorem sweep_clear {side : Side} (sorted : ladder.Sorted side)
    (opposite : side = taker.side.opposite)
    (quiet : (sweep onTrade taker ladder left seen).threw = false)
    (remains : (sweep onTrade taker ladder left seen).left ≠ 0) :
    ∀ rung ∈ (sweep onTrade taker ladder left seen).ladder,
      rank side rung.price < rank side taker.price := by
  subst opposite
  have sorted' : (sweep onTrade taker ladder left seen).ladder.Sorted taker.side.opposite :=
    sorted.sublist (sweep_prices onTrade taker ladder left seen).sublist
  cases shape : (sweep onTrade taker ladder left seen).ladder with
  | nil => exact List.forall_mem_nil _
  | cons head below =>
    have first :=
      Ticket.rank_lt_of_refused (sweep_exit onTrade taker ladder left seen quiet remains shape)
    rw [shape] at sorted'
    refine List.forall_mem_cons.mpr ⟨first, fun rung member => ?_⟩
    exact Int.lt_trans ((Ladder.sorted_cons.mp sorted').1 rung member) first

end Side

/-! ### Slots -/

theorem Market.slots_perm (m : Market) (side : Side) :
    m.slots.Perm (m.free ++ ((m.ladder side).orders.map Links.Cell.addr ++
      (m.ladder side.opposite).orders.map Links.Cell.addr)) := by
  rw [Market.slots, ← List.map_append]
  exact ((m.linked_perm side).map _).append_left _

/-- Orders that leave a side for the free list take their slots along. -/
theorem Market.released_slots {m : Market} {side : Side} {ladder : Ladder} {gone : List Resting}
    (same : (m.ladder side).orders.map Links.Cell.addr = (gone ++ ladder.orders).map
      Links.Cell.addr) :
    ((m.withLadder side ladder).release gone).slots.Perm m.slots := by
  refine (Market.slots_perm _ side).trans (.trans ?_ (m.slots_perm side).symm)
  show ((gone.map Links.Cell.addr).reverse ++ m.free ++
    (((m.withLadder side ladder).ladder side).orders.map Links.Cell.addr ++
      ((m.withLadder side ladder).ladder side.opposite).orders.map Links.Cell.addr)).Perm _
  rw [Market.withLadder_same, Market.withLadder_ne _ _ (Side.opposite_ne side), same,
    List.perm_iff_count]
  intro p
  simp only [List.map_append, List.count_append, List.count_reverse]
  omega

/-- A sweep moves the slots of the makers it uses up to the free list. -/
theorem Market.swept_slots {σ : Type} (m : Market) (side : Side) (onTrade : TradeCallback σ)
    (taker : Ticket)
    (left : Quantity) (seen : σ) :
    (m.swept side (sweep onTrade taker (m.ladder side) left seen)).slots.Perm m.slots :=
  released_slots (sweep_addrs onTrade taker (m.ladder side) left seen).symm

section Apart

variable {m : Market} {side : Side} {taker : Ptr}

/-- The orders of one side have slots of their own. -/
theorem side_nodup (distinct : m.slots.Nodup) :
    ((m.ladder side).orders.map Links.Cell.addr).Nodup := by
  rw [(m.slots_perm side).nodup_iff, List.nodup_append, List.nodup_append] at distinct
  exact distinct.2.1.1

theorem sides_apart (distinct : m.slots.Nodup) : ∀ order ∈ (m.ladder side).orders,
    ∀ other ∈ (m.ladder side.opposite).orders, other.addr ≠ order.addr := by
  rw [(m.slots_perm side).nodup_iff, List.nodup_append, List.nodup_append] at distinct
  intro order member other member' same
  exact distinct.2.1.2.2 _ (List.mem_map_of_mem member) _ (List.mem_map_of_mem member') same.symm

theorem free_apart (distinct : m.slots.Nodup) :
    ∀ order ∈ (m.ladder side).orders, order.addr ∉ m.free := by
  rw [(m.slots_perm side).nodup_iff, List.nodup_append] at distinct
  intro order member inside
  exact distinct.2.2 _ inside _ (List.mem_append_left _ (List.mem_map_of_mem member)) rfl

/-- The orders of one rung have slots of their own, and none of them is used on another rung or on
the other side. -/
theorem queue_apart {above below : Ladder} {queue : List Resting}
    (distinct : m.slots.Nodup)
    (orders : (m.ladder side).orders = above.orders ++ (queue ++ below.orders)) :
    (queue.map Links.Cell.addr).Nodup ∧
      (∀ order ∈ above.orders, order.addr ∉ queue.map Links.Cell.addr) ∧
      (∀ order ∈ below.orders, order.addr ∉ queue.map Links.Cell.addr) ∧
      ∀ order ∈ (m.ladder side.opposite).orders, order.addr ∉ queue.map Links.Cell.addr := by
  have inSide : ((m.ladder side).orders.map Links.Cell.addr).Nodup := side_nodup distinct
  rw [orders, List.map_append, List.map_append, List.nodup_append, List.nodup_append] at inSide
  obtain ⟨_, ⟨inQueue, _, behind⟩, ahead⟩ := inSide
  refine ⟨inQueue, fun order member inside => ?_, fun order member inside => ?_,
    fun order member inside => ?_⟩
  · exact ahead _ (List.mem_map_of_mem member) _ (List.mem_append_left _ inside) rfl
  · exact behind _ inside _ (List.mem_map_of_mem member) rfl
  · obtain ⟨cell, inQueue, same⟩ := List.mem_map.mp inside
    refine sides_apart distinct cell ?_ order member same.symm
    rw [orders]
    exact List.mem_append_right _ (List.mem_append_left _ inQueue)

/-- The taker's slot is not one of the market's. -/
theorem taker_apart (distinct : (taker :: m.slots).Nodup) :
    ∀ order ∈ (m.ladder side).orders, order.addr ≠ taker := by
  intro order member same
  refine (List.nodup_cons.mp distinct).1 (same ▸ List.mem_append_right _ ?_)
  exact List.mem_map_of_mem (Market.mem_linked.mpr ⟨side, member⟩)

end Apart

end Ob
