/-
**How an order comes to rest, and how it leaves.**

`Joins` and `Leaves` say what `insert` and `remove` can do to a side: the rungs above and below the
order's price stay as they are, and at that price a queue grows or shrinks by the order or a rung
appears or goes with it. Everything else about the two operations follows from these two relations:

* `Joins.wf`, `Leaves.wf` — a well-formed side stays well formed.
* `Joins.orders`, `Leaves.orders` — the side gains or loses the order and no other.
-/

import OrderBook.Market.Sweep

namespace Ob

/-- The rungs of a side strictly above and strictly below a price. -/
structure Around (side : Side) (p : Price) (above below : Ladder) : Prop where
  higher : ∀ rung ∈ above, rank side p < rank side rung.price
  lower : ∀ rung ∈ below, rank side rung.price < rank side p

/-- What `insert` does to a side. -/
inductive Joins (side : Side) (order : Resting) : Ladder → Ladder → Prop
  | queue {above below : Ladder} (total : Quantity) (queue : List Resting)
      (around : Around side order.val.price above below) :
      Joins side order (above ++ ⟨order.val.price, total, queue⟩ :: below)
        (above ++ ⟨order.val.price, total + order.val.qty, queue ++ [order]⟩ :: below)
  | rung {above below : Ladder} (around : Around side order.val.price above below) :
      Joins side order (above ++ below) (above ++ Rung.single order :: below)

/-- What `remove` does to a side. -/
inductive Leaves (side : Side) (order : Resting) : Ladder → Ladder → Prop
  | queue {above below : Ladder} (total : Quantity) {older newer : List Resting}
      (around : Around side order.val.price above below) (remains : older ++ newer ≠ []) :
      Leaves side order (above ++ ⟨order.val.price, total, older ++ order :: newer⟩ :: below)
        (above ++ ⟨order.val.price, total - order.val.qty, older ++ newer⟩ :: below)
  | rung {above below : Ladder} (total : Quantity)
      (around : Around side order.val.price above below) :
      Leaves side order (above ++ ⟨order.val.price, total, [order]⟩ :: below) (above ++ below)

section Sorted

variable {side : Side} {rung : Rung} {ladder above below : Ladder} {p : Price}

/-- A sorted side is split by the price of each of its rungs. -/
theorem Ladder.Sorted.around (sorted : Ladder.Sorted side (above ++ rung :: below)) :
    Around side rung.price above below := by
  obtain ⟨_, lower, between⟩ := Ladder.sorted_append.mp sorted
  exact ⟨fun high member => between high member rung List.mem_cons_self,
    (Ladder.sorted_cons.mp lower).1⟩

theorem Around.sorted (around : Around side p above below) (sortedAbove : above.Sorted side)
    (sortedBelow : below.Sorted side) (price : rung.price = p) :
    Ladder.Sorted side (above ++ rung :: below) := by
  subst price
  refine Ladder.sorted_append.mpr
    ⟨sortedAbove, Ladder.sorted_cons.mpr ⟨around.lower, sortedBelow⟩, ?_⟩
  intro high inAbove low inBelow
  rcases List.mem_cons.mp inBelow with rfl | inBelow
  · exact around.higher high inAbove
  · exact Int.lt_trans (around.lower low inBelow) (around.higher high inAbove)

theorem Around.cons (around : Around side p above below)
    (higher : rank side p < rank side rung.price) : Around side p (rung :: above) below :=
  ⟨List.forall_mem_cons.mpr ⟨higher, around.higher⟩, around.lower⟩

end Sorted

/-! ### Rungs -/

/-- A mark that is nowhere else picks out one element of a list. -/
theorem filter_others {α β : Type} [DecidableEq β] {f : α → β} {before after : List α} {x : α}
    (distinct : ((before ++ x :: after).map f).Nodup) :
    (before ++ x :: after).filter (fun y => f y ≠ f x) = before ++ after := by
  rw [List.map_append, List.map_cons, List.nodup_middle, List.nodup_cons,
    List.mem_append] at distinct
  have other : ∀ part : List α, f x ∉ part.map f → part.filter (fun y => f y ≠ f x) = part := by
    intro part fresh
    refine List.filter_eq_self.mpr fun y member => decide_eq_true fun same => fresh ?_
    exact same ▸ List.mem_map_of_mem member
  rw [List.filter_append, other before fun inside => distinct.1 (.inl inside),
    List.filter_cons_of_neg (by simp), other after fun inside => distinct.1 (.inr inside)]

section Rungs

variable {side : Side} {order : Resting}

theorem Rung.single_wf (own : order.val.side = side) (positive : 0 < order.val.qty) :
    (Rung.single order).Wf side where
  nonempty := List.cons_ne_nil _ _
  sides := List.forall_mem_singleton.mpr own
  prices := List.forall_mem_singleton.mpr rfl
  positive := List.forall_mem_singleton.mpr positive
  total := UInt64.ofNat_toNat.symm

theorem Rung.Wf.push {price : Price} {total : Quantity} {queue : List Resting}
    (wf : Rung.Wf side ⟨price, total, queue⟩) (own : order.val.side = side)
    (here : order.val.price = price) (positive : 0 < order.val.qty) :
    Rung.Wf side ⟨price, total + order.val.qty, queue ++ [order]⟩ where
  nonempty := List.append_ne_nil_of_right_ne_nil _ (List.cons_ne_nil _ _)
  sides := List.forall_mem_append.mpr ⟨wf.sides, List.forall_mem_singleton.mpr own⟩
  prices := List.forall_mem_append.mpr ⟨wf.prices, List.forall_mem_singleton.mpr here⟩
  positive := List.forall_mem_append.mpr ⟨wf.positive, List.forall_mem_singleton.mpr positive⟩
  total := by
    show total + order.val.qty = UInt64.ofNat (quantities (queue ++ [order])).sum
    have before : total = UInt64.ofNat (quantities queue).sum := wf.total
    rw [before, quantities_append, UInt64.ofNat_add]
    exact congrArg _ UInt64.ofNat_toNat.symm

theorem Rung.Wf.drop {price : Price} {total : Quantity} {older newer : List Resting}
    (wf : Rung.Wf side ⟨price, total, older ++ order :: newer⟩) (remains : older ++ newer ≠ []) :
    Rung.Wf side ⟨price, total - order.val.qty, older ++ newer⟩ := by
  have inside : ∀ other ∈ older ++ newer, other ∈ older ++ order :: newer := fun other member =>
    ((List.sublist_cons_self order newer).append_left older).mem member
  have total_eq : total = UInt64.ofNat (quantities (older ++ order :: newer)).sum := wf.total
  have sum : (quantities (older ++ order :: newer)).sum =
      order.val.qty.toNat + (quantities (older ++ newer)).sum := by
    rw [quantities_append, quantities_cons, quantities_append]
    omega
  refine ⟨remains, fun other member => wf.sides other (inside other member),
    fun other member => wf.prices other (inside other member),
    fun other member => wf.positive other (inside other member), ?_⟩
  show total - order.val.qty = _
  rw [total_eq, sum, Quantity.ofNat_sub (UInt64.le_refl _), UInt64.sub_self]
  exact congrArg UInt64.ofNat (Nat.zero_add _)

/-- In a queue of distinct slots, an order's slot names the order. -/
theorem Rung.drop_eq {price : Price} {total : Quantity} {older newer : List Resting}
    (distinct : ((older ++ order :: newer).map Links.Cell.addr).Nodup) :
    Rung.drop ⟨price, total, older ++ order :: newer⟩ order =
      ⟨price, total - order.val.qty, older ++ newer⟩ := by
  rw [Rung.drop, filter_others distinct]

end Rungs

/-! ### Insertion -/

section Insert

variable {side : Side} {order : Resting} {ladder ladder' : Ladder}

theorem Joins.cons {rung : Rung} (joins : Joins side order ladder ladder')
    (higher : rank side order.val.price < rank side rung.price) :
    Joins side order (rung :: ladder) (rung :: ladder') := by
  cases joins with
  | queue total queue around => exact .queue total queue (around.cons higher)
  | rung around => exact .rung (around.cons higher)

/-- By induction along the ladder, down to the order's price. -/
theorem insert_joins (sorted : ladder.Sorted side) :
    Joins side order ladder (Ladder.insert side order ladder) := by
  fun_induction Ladder.insert side order ladder with
  | case1 =>
    have around : Around side order.val.price [] [] :=
      ⟨List.forall_mem_nil _, List.forall_mem_nil _⟩
    exact Joins.rung around
  | case2 rung ladder same =>
    obtain ⟨price, total, queue⟩ := rung
    obtain rfl : price = order.val.price := same
    have around : Around side order.val.price [] ladder :=
      ⟨List.forall_mem_nil _, (Ladder.sorted_cons.mp sorted).1⟩
    exact Joins.queue total queue around
  | case3 rung ladder different lower =>
    have around : Around side order.val.price [] (rung :: ladder) :=
      ⟨List.forall_mem_nil _, List.forall_mem_cons.mpr ⟨lower, fun other member =>
        Int.lt_trans ((Ladder.sorted_cons.mp sorted).1 other member) lower⟩⟩
    exact Joins.rung around
  | case4 rung ladder different higher ih =>
    refine (ih (Ladder.sorted_cons.mp sorted).2).cons
      (Int.lt_iff_le_and_ne.mpr ⟨Int.not_lt.mp higher, ?_⟩)
    exact fun same => different (rank_inj.mp same).symm

namespace Joins

theorem orders (joins : Joins side order ladder ladder') :
    ladder'.orders.Perm (order :: ladder.orders) := by
  cases joins with
  | @queue above below total queue around =>
    rw [Ladder.orders_append, Ladder.orders_cons, Ladder.orders_append, Ladder.orders_cons,
      List.append_assoc, List.singleton_append]
    refine .trans (.append_left _ List.perm_middle) List.perm_middle
  | @rung above below around =>
    rw [Ladder.orders_append, Ladder.orders_cons, Ladder.orders_append]
    exact List.perm_middle

/-- The prices are the old ones and the order's. -/
theorem prices (joins : Joins side order ladder ladder') :
    ∀ rung ∈ ladder', rung.price = order.val.price ∨ ∃ old ∈ ladder, old.price = rung.price := by
  cases joins with
  | @queue above below total queue around =>
    intro rung member
    rcases List.mem_append.mp member with member | member
    · exact .inr ⟨rung, List.mem_append_left _ member, rfl⟩
    rcases List.mem_cons.mp member with rfl | member
    · exact .inl rfl
    · exact .inr ⟨rung, List.mem_append_right _ (List.mem_cons_of_mem _ member), rfl⟩
  | @rung above below around =>
    intro rung member
    rcases List.mem_append.mp member with member | member
    · exact .inr ⟨rung, List.mem_append_left _ member, rfl⟩
    rcases List.mem_cons.mp member with rfl | member
    · exact .inl rfl
    · exact .inr ⟨rung, List.mem_append_right _ member, rfl⟩

theorem wf (joins : Joins side order ladder ladder') (wf : ladder.Wf side)
    (own : order.val.side = side) (positive : 0 < order.val.qty) : ladder'.Wf side := by
  cases joins with
  | @queue above below total queue around =>
    obtain ⟨inAbove, inBelow, _⟩ := Ladder.sorted_append.mp wf.sorted
    refine ⟨around.sorted inAbove (Ladder.sorted_cons.mp inBelow).2 rfl, ?_⟩
    obtain ⟨above, below⟩ := List.forall_mem_append.mp wf.rungs
    obtain ⟨rung, below⟩ := List.forall_mem_cons.mp below
    refine List.forall_mem_append.mpr ⟨above, List.forall_mem_cons.mpr ⟨?_, below⟩⟩
    exact rung.push own rfl positive
  | @rung above below around =>
    obtain ⟨inAbove, inBelow, _⟩ := Ladder.sorted_append.mp wf.sorted
    refine ⟨around.sorted inAbove inBelow rfl, ?_⟩
    obtain ⟨above, below⟩ := List.forall_mem_append.mp wf.rungs
    refine List.forall_mem_append.mpr ⟨above, List.forall_mem_cons.mpr ⟨?_, below⟩⟩
    exact Rung.single_wf own positive

end Joins

end Insert

/-! ### Removal -/

section Remove

variable {side : Side} {order : Resting} {ladder ladder' : Ladder}

theorem Leaves.cons {rung : Rung} (leaves : Leaves side order ladder ladder')
    (higher : rank side order.val.price < rank side rung.price) :
    Leaves side order (rung :: ladder) (rung :: ladder') := by
  cases leaves with
  | queue total around remains => exact .queue total (around.cons higher) remains
  | rung total around => exact .rung total (around.cons higher)

theorem Ladder.Wf.tail {rung : Rung} (wf : Ladder.Wf side (rung :: ladder)) : ladder.Wf side :=
  ⟨(Ladder.sorted_cons.mp wf.sorted).2, (List.forall_mem_cons.mp wf.rungs).2⟩

/-- An order rests on a rung with its price. -/
theorem Ladder.Wf.rung_of_mem (wf : ladder.Wf side) (member : order ∈ ladder.orders) :
    ∃ rung ∈ ladder, order ∈ rung.queue ∧ rung.price = order.val.price := by
  obtain ⟨rung, inLadder, inQueue⟩ := Ladder.mem_orders.mp member
  exact ⟨rung, inLadder, inQueue, ((wf.rungs rung inLadder).prices order inQueue).symm⟩

/-- By induction along the ladder, down to the order's rung. -/
theorem remove_leaves (wf : ladder.Wf side) (distinct : (ladder.orders.map Links.Cell.addr).Nodup)
    (member : order ∈ ladder.orders) : Leaves side order ladder (Ladder.remove order ladder) := by
  induction ladder with
  | nil => cases member
  | cons rung ladder ih =>
    have lower := (Ladder.sorted_cons.mp wf.sorted).1
    rw [Ladder.orders_cons, List.map_append, List.nodup_append] at distinct
    by_cases same : rung.price = order.val.price
    · -- the rungs below have other prices, so the order is in this queue
      have here : order ∈ rung.queue := by
        refine (List.mem_append.mp member).resolve_right fun elsewhere => ?_
        obtain ⟨other, inLadder, _, price⟩ := wf.tail.rung_of_mem elsewhere
        have below := lower other inLadder
        rw [price, same] at below
        exact Int.lt_irrefl _ below
      obtain ⟨price, total, queue⟩ := rung
      obtain rfl : price = order.val.price := same
      obtain ⟨older, newer, rfl⟩ := List.append_of_mem here
      have around : Around side order.val.price [] ladder := ⟨List.forall_mem_nil _, lower⟩
      rw [Ladder.remove, if_pos rfl, Rung.drop_eq distinct.1]
      by_cases emptied : older ++ newer = []
      · rw [if_pos emptied]
        obtain ⟨rfl, rfl⟩ := List.append_eq_nil_iff.mp emptied
        exact Leaves.rung total around
      · rw [if_neg emptied]
        exact Leaves.queue total around emptied
    · have elsewhere : order ∈ Ladder.orders ladder := by
        refine (List.mem_append.mp member).resolve_left fun here => same ?_
        exact ((wf.rungs rung List.mem_cons_self).prices order here).symm
      rw [Ladder.remove, if_neg same]
      refine (ih wf.tail distinct.2.1 elsewhere).cons ?_
      obtain ⟨other, inLadder, _, price⟩ := wf.tail.rung_of_mem elsewhere
      exact price ▸ lower other inLadder

namespace Leaves

theorem orders (leaves : Leaves side order ladder ladder') :
    ladder.orders.Perm (order :: ladder'.orders) := by
  cases leaves with
  | @queue above below total older newer around remains =>
    simp only [Ladder.orders_append, Ladder.orders_cons, List.append_assoc, List.cons_append]
    exact (List.perm_middle.append_left _).trans List.perm_middle
  | @rung above below total around =>
    simp only [Ladder.orders_append, Ladder.orders_cons, List.singleton_append]
    exact List.perm_middle

/-- The prices that stay were there before. -/
theorem prices (leaves : Leaves side order ladder ladder') :
    (ladder'.map Rung.price).Sublist (ladder.map Rung.price) := by
  cases leaves with
  | queue total around remains =>
    simp only [List.map_append, List.map_cons]
    exact List.Sublist.refl _
  | rung total around =>
    simp only [List.map_append, List.map_cons]
    exact (List.sublist_cons_self _ _).append_left _

theorem wf (leaves : Leaves side order ladder ladder') (wf : ladder.Wf side) : ladder'.Wf side := by
  refine ⟨wf.sorted.sublist leaves.prices, ?_⟩
  cases leaves with
  | @queue above below total older newer around remains =>
    obtain ⟨above, below⟩ := List.forall_mem_append.mp wf.rungs
    obtain ⟨rung, below⟩ := List.forall_mem_cons.mp below
    refine List.forall_mem_append.mpr ⟨above, List.forall_mem_cons.mpr ⟨?_, below⟩⟩
    exact rung.drop remains
  | @rung above below total around =>
    obtain ⟨above, below⟩ := List.forall_mem_append.mp wf.rungs
    exact List.forall_mem_append.mpr ⟨above, (List.forall_mem_cons.mp below).2⟩

end Leaves

end Remove

/-! ### The orders at a price -/

/-- The orders of a side at a price, oldest first. -/
def Ladder.queueAt (ladder : Ladder) (p : Price) : List Resting :=
  ladder.orders.filter fun order => order.val.price = p

section QueueAt

variable {side : Side} {order : Resting} {ladder ladder' above below : Ladder} {p : Price}

theorem queueAt_append :
    Ladder.queueAt (above ++ below) p = above.queueAt p ++ below.queueAt p := by
  rw [Ladder.queueAt, Ladder.orders_append, List.filter_append]
  rfl

/-- Rungs at other prices hold none of them. -/
theorem queueAt_other (wf : ∀ rung ∈ ladder, rung.Wf side)
    (different : ∀ rung ∈ ladder, rung.price ≠ p) : ladder.queueAt p = [] := by
  refine List.filter_eq_nil_iff.mpr fun order member here => ?_
  obtain ⟨rung, inLadder, inQueue⟩ := Ladder.mem_orders.mp member
  exact different rung inLadder
    (((wf rung inLadder).prices order inQueue).symm.trans (of_decide_eq_true here))

theorem Around.queueAt_above (around : Around side p above below)
    (wf : ∀ rung ∈ above, rung.Wf side) :
    above.queueAt p = [] :=
  queueAt_other wf fun rung member same => Int.lt_irrefl _ (same ▸ around.higher rung member)

theorem Around.queueAt_below (around : Around side p above below)
    (wf : ∀ rung ∈ below, rung.Wf side) :
    below.queueAt p = [] :=
  queueAt_other wf fun rung member same => Int.lt_irrefl _ (same ▸ around.lower rung member)

/-- The rung at a price holds all of them. -/
theorem Around.queueAt_rung {total : Quantity} {queue : List Resting}
    (around : Around side p above below)
    (wf : ∀ rung ∈ above ++ ⟨p, total, queue⟩ :: below, rung.Wf side) :
    Ladder.queueAt (above ++ ⟨p, total, queue⟩ :: below) p = queue := by
  obtain ⟨high, low⟩ := List.forall_mem_append.mp wf
  obtain ⟨here, low⟩ := List.forall_mem_cons.mp low
  have whole : Ladder.queueAt [⟨p, total, queue⟩] p = queue := by
    rw [Ladder.queueAt, Ladder.orders_cons]
    refine (congrArg (List.filter _) (List.append_nil queue)).trans (List.filter_eq_self.mpr ?_)
    exact fun order member => decide_eq_true (here.prices order member)
  rw [queueAt_append, ← List.singleton_append, queueAt_append, whole, around.queueAt_above high,
    around.queueAt_below low, List.nil_append, List.append_nil]

end QueueAt

/-! ### Resting and cancelling in the market -/

namespace Market

variable {m : Market}

theorem linked_with (m : Market) (side : Side) (ladder : Ladder) :
    (m.withLadder side ladder).linked.Perm (ladder.orders ++ (m.ladder side.opposite).orders) := by
  have perm := (m.withLadder side ladder).linked_perm side
  rwa [withLadder_same, withLadder_ne _ _ (Side.opposite_ne side)] at perm

theorem rest_linked {order : Resting} (sorted : (m.ladder order.val.side).Sorted order.val.side) :
    (m.rest order).linked.Perm (order :: m.linked) :=
  (linked_with m _ _).trans <| ((insert_joins sorted).orders.append_right _).trans
    ((m.linked_perm order.val.side).symm.cons order)

/-- An order that rests brings its slot along. -/
theorem rest_slots {order : Resting} (sorted : (m.ladder order.val.side).Sorted order.val.side) :
    (m.rest order).slots.Perm (order.addr :: m.slots) :=
  (((rest_linked sorted).map Links.Cell.addr).append_left m.free).trans List.perm_middle

theorem cancel_linked {order : Resting} {ladder : Ladder}
    (leaves : Leaves order.val.side order (m.ladder order.val.side) ladder) :
    m.linked.Perm (order :: (m.withLadder order.val.side ladder).linked) :=
  (m.linked_perm order.val.side).trans <| (leaves.orders.append_right _).trans
    ((linked_with m _ ladder).symm.cons order)

/-- The orders of a side are marked with it. -/
theorem side_of_mem {side : Side} {order : Resting} (wf : (m.ladder side).Wf side)
    (member : order ∈ (m.ladder side).orders) : order.val.side = side := by
  obtain ⟨rung, inLadder, inQueue⟩ := Ladder.mem_orders.mp member
  exact (wf.rungs rung inLadder).sides order inQueue

/-- A resting order is found on the side it is marked with. -/
theorem mem_own_side (wf : ∀ side, (m.ladder side).Wf side) {order : Resting}
    (member : order ∈ m.linked) : order ∈ (m.ladder order.val.side).orders := by
  obtain ⟨side, inside⟩ := mem_linked.mp member
  rw [side_of_mem (wf side) inside]
  exact inside

theorem linked_nodup (distinct : m.slots.Nodup) : (m.linked.map Links.Cell.addr).Nodup :=
  (List.nodup_append.mp distinct).2.1

/-- An order is the only one in its slot. -/
theorem find_linked (distinct : m.slots.Nodup) {order : Resting} (member : order ∈ m.linked) :
    (m.linked.find? fun other => other.addr = order.addr) = some order := by
  have apart := linked_nodup distinct
  obtain ⟨before, after, shape⟩ := List.append_of_mem member
  rw [shape, List.map_append, List.nodup_append] at apart
  have none : before.find? (fun other => other.addr = order.addr) = none := by
    refine List.find?_eq_none.mpr fun other inside same => ?_
    exact apart.2.2 _ (List.mem_map_of_mem inside) _ List.mem_cons_self (of_decide_eq_true same)
  rw [shape, List.find?_append, none, Option.none_or, List.find?_cons_of_pos (by simp)]

theorem cancel_absent {id : OrderId} (absent : m.index.lookup id = none) :
    m.cancel id = (m, false) := by
  rw [cancel, absent]

theorem cancel_resting (distinct : m.slots.Nodup) {id : OrderId} {order : Resting}
    (member : order ∈ m.linked) (entry : m.index.lookup id = some order.addr) :
    m.cancel id = ({ m.withLadder order.val.side
        (Ladder.remove order (m.ladder order.val.side)) with
      free := order.addr :: m.free, index := m.index.erase id }, true) := by
  simp only [cancel, entry, find_linked distinct member]

end Market

end Ob
