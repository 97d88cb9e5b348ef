/-
**A side is a queue for each price.**

* `Joins.queueAt`, `Leaves.queueAt` — an order that comes to rest queues behind the orders at its
  price, one that leaves is missing there, and the queues at other prices stay as they are.
* `Ladder.Wf.ext` — two well-formed sides with the same queues are the same.
* `Ladder.Wf.shown_ext` — two whose queues show the same show the same levels.
-/

import OrderBook.Market.Place

namespace Ob

/-! ### Coming to rest, and leaving -/

section Place

variable {side : Side} {order : Resting} {ladder ladder' : Ladder}

/-- An order that comes to rest queues behind the orders at its price. -/
theorem Joins.queueAt (joins : Joins side order ladder ladder') (wf : ∀ rung ∈ ladder, rung.Wf side)
    (p : Price) :
    ladder'.queueAt p = ladder.queueAt p ++ if order.val.price = p then [order] else [] := by
  have single : [order].filter (fun other => other.val.price = p) =
      if order.val.price = p then [order] else [] := by
    split <;> simp_all
  have below : ∀ {above below : Ladder}, Around side order.val.price above below →
      (∀ rung ∈ below, rung.Wf side) →
      (if order.val.price = p then [order] else []) ++ below.queueAt p =
        below.queueAt p ++ if order.val.price = p then [order] else [] := by
    intro above below around wf
    split
    · rename_i here
      rw [← here, around.queueAt_below wf, List.append_nil, List.nil_append]
    · exact (List.append_nil _).symm
  cases joins with
  | @queue above low total queue around =>
    obtain ⟨_, wf⟩ := List.forall_mem_append.mp wf
    rw [queueAt_append, queueAt_append, List.append_assoc]
    simp only [Ladder.queueAt, Ladder.orders_cons, List.filter_append, single, List.append_assoc]
    rw [show low.orders.filter _ = low.queueAt p from
      rfl, below around (List.forall_mem_cons.mp wf).2]
  | @rung above low around =>
    obtain ⟨_, wf⟩ := List.forall_mem_append.mp wf
    rw [queueAt_append, queueAt_append, List.append_assoc, ← below around wf]
    simp only [Ladder.queueAt, Ladder.orders_cons, List.filter_append, Rung.single, single]

/-- An order that leaves, leaves a gap in the order in which the others trade. -/
theorem Leaves.gap (leaves : Leaves side order ladder ladder') :
    ∃ before after, ladder.orders = before ++ order :: after ∧
      ladder'.orders = before ++ after := by
  cases leaves with
  | @queue above below total older newer around remains =>
    refine ⟨above.orders ++ older, newer ++ below.orders, ?_, ?_⟩
    · simp [Ladder.orders_append, Ladder.orders_cons]
    · simp [Ladder.orders_append, Ladder.orders_cons]
  | @rung above below total around =>
    refine ⟨above.orders, below.orders, ?_, Ladder.orders_append _ _⟩
    simp [Ladder.orders_append, Ladder.orders_cons]

/-- An order that leaves is missing where it queued. -/
theorem Leaves.queueAt (leaves : Leaves side order ladder ladder')
    (distinct : (ladder.orders.map Links.Cell.addr).Nodup) (p : Price) :
    ladder'.queueAt p = (ladder.queueAt p).filter fun other => other.addr ≠ order.addr := by
  obtain ⟨before, after, split, left⟩ := leaves.gap
  rw [split] at distinct
  rw [Ladder.queueAt, Ladder.queueAt, List.filter_comm, split, left, filter_others distinct]

end Place

/-! ### The levels, from the queues -/

/-- The rung of a price, made from its queue. -/
def Ladder.rungAt (ladder : Ladder) (p : Price) : Rung :=
  ⟨p, UInt64.ofNat (quantities (ladder.queueAt p)).sum, ladder.queueAt p⟩

/-- A level as it is shown. -/
structure Level (α : Type) where
  price : Price
  total : Quantity
  queue : List α
  deriving DecidableEq

def Rung.shown {α : Type} (show_order : Resting → α) (rung : Rung) : Level α :=
  ⟨rung.price, rung.total, rung.queue.map show_order⟩

section Queues

variable {side : Side} {rung : Rung} {ladder ladder' : Ladder} {p : Price}

theorem Ladder.Wf.queueAt_rung (wf : ladder.Wf side) (member : rung ∈ ladder) :
    ladder.queueAt rung.price = rung.queue := by
  obtain ⟨above, below, rfl⟩ := List.append_of_mem member
  exact wf.sorted.around.queueAt_rung wf.rungs

/-- The prices are those at which an order queues. -/
theorem Ladder.Wf.mem_prices (wf : ladder.Wf side) :
    p ∈ ladder.map Rung.price ↔ ladder.queueAt p ≠ [] := by
  constructor
  · intro member
    obtain ⟨rung, inLadder, rfl⟩ := List.mem_map.mp member
    rw [wf.queueAt_rung inLadder]
    exact (wf.rungs rung inLadder).nonempty
  · intro queued
    by_contra absent
    exact queued (queueAt_other wf.rungs fun rung inLadder same =>
      absent (List.mem_map.mpr ⟨rung, inLadder, same⟩))

theorem Ladder.Wf.eq_map (wf : ladder.Wf side) :
    ladder = (ladder.map Rung.price).map ladder.rungAt := by
  rw [List.map_map]
  refine (List.map_id ladder).symm.trans (List.map_congr_left fun rung member => ?_)
  rw [id_eq, Function.comp_apply, Ladder.rungAt, wf.queueAt_rung member,
    ← (wf.rungs rung member).total]

theorem Ladder.Sorted.nodup (sorted : ladder.Sorted side) : (ladder.map Rung.price).Nodup := by
  refine List.Pairwise.imp (fun {p q} lower same => ?_) sorted
  rw [same] at lower
  exact Int.lt_irrefl _ lower

/-- Sides with orders at the same prices have their levels at the same prices. -/
theorem Ladder.Wf.prices_ext (wf : ladder.Wf side) (wf' : ladder'.Wf side)
    (same : ∀ p, ladder.queueAt p = [] ↔ ladder'.queueAt p = []) :
    ladder.map Rung.price = ladder'.map Rung.price := by
  have members : ∀ p, p ∈ ladder.map Rung.price ↔ p ∈ ladder'.map Rung.price := fun p => by
    rw [wf.mem_prices, wf'.mem_prices, ne_eq, ne_eq, same]
  refine List.Perm.eq_of_pairwise (fun p q _ _ below above => ?_) wf.sorted wf'.sorted
    ((List.perm_ext_iff_of_nodup wf.sorted.nodup wf'.sorted.nodup).mpr members)
  exact absurd above (Int.lt_asymm below)

/-- **A side is determined by its queues.** -/
theorem Ladder.Wf.ext (wf : ladder.Wf side) (wf' : ladder'.Wf side)
    (same : ∀ p, ladder.queueAt p = ladder'.queueAt p) : ladder = ladder' := by
  rw [wf.eq_map, wf'.eq_map, wf.prices_ext wf' fun p => by rw [same]]
  exact List.map_congr_left fun p _ => by rw [Ladder.rungAt, Ladder.rungAt, same]

/-- Sides whose orders are the same are the same. -/
theorem Ladder.Wf.ext_orders (wf : ladder.Wf side) (wf' : ladder'.Wf side)
    (same : ladder.orders = ladder'.orders) : ladder = ladder' :=
  wf.ext wf' fun p => by rw [Ladder.queueAt, Ladder.queueAt, same]

/-- **What a side shows is determined by what its queues show**, if they show the quantities. -/
theorem Ladder.Wf.shown_ext {α : Type} {show_order : Resting → α} (size : α → Nat)
    (sizes : ∀ order, size (show_order order) = order.val.qty.toNat)
    (wf : ladder.Wf side) (wf' : ladder'.Wf side)
    (same : ∀ p, (ladder.queueAt p).map show_order = (ladder'.queueAt p).map show_order) :
    ladder.map (Rung.shown show_order) = ladder'.map (Rung.shown show_order) := by
  have total : ∀ queue : List Resting, quantities queue = (queue.map show_order).map size :=
    fun queue => by
      rw [List.map_map]
      exact List.map_congr_left fun order _ => (sizes order).symm
  rw [wf.eq_map, wf'.eq_map, wf.prices_ext wf' fun p => by
    rw [← List.map_eq_nil_iff (f := show_order), same, List.map_eq_nil_iff]]
  simp only [List.map_map]
  refine List.map_congr_left fun p _ => ?_
  simp only [Function.comp_apply, Ladder.rungAt, Rung.shown, total, same]

end Queues

end Ob
