/-
**A ladder and a flat list with the same orders.**

`Mirrors`: at every price, the orders of a side stand in the list in the order in which they queue
on the ladder. That is all that price-time priority depends on:

* `Mirrors.best_cons` — the first order of the ladder is the best order of the list.
* `Reflects.traded` — a deal with it changes both alike.
* `sweep_follows`, `sweep_stops` — so a sweep of the ladder makes the deals that the list allows,
  and all of them.
-/

import OrderBook.Market.Outcome
import OrderBook.Market.Trades
import OrderBook.Reference.Book

namespace Ob

open Reference OrderBook

/-- A resting order as the reference book lists it. -/
def Resting.listed (order : Resting) : Listed :=
  ⟨order.val.id, order.val.side, order.val.price, order.val.qty⟩

theorem crosses_iff {taker : Ticket} {p : Price} : Crosses taker p ↔ taker.accepts p = true := by
  simp [Crosses, Ticket.accepts, priceCrosses_iff]

/-- At every price, the orders of a side are listed as they queue. -/
def Mirrors (side : Side) (resting : List Resting) (orders : List Listed) : Prop :=
  ∀ p, (resting.filter fun order => order.val.price = p).map Resting.listed =
    orders.filter fun order => order.side = side ∧ order.price = p

namespace Mirrors

variable {side : Side} {resting : List Resting} {orders : List Listed}

theorem listed_mem (mirrors : Mirrors side resting orders) {order : Resting}
    (member : order ∈ resting) :
    order.listed ∈ orders ∧ order.val.side = side := by
  have here : order.listed ∈ (resting.filter fun other => other.val.price = order.val.price).map
    Resting.listed :=
    List.mem_map_of_mem (List.mem_filter.mpr ⟨member, by simp⟩)
  rw [mirrors, List.mem_filter] at here
  exact ⟨here.1, (of_decide_eq_true here.2).1⟩

theorem mem_resting (mirrors : Mirrors side resting orders) {listed : Listed}
    (member : listed ∈ orders)
    (own : listed.side = side) : ∃ order ∈ resting, order.listed = listed := by
  have here : listed ∈ orders.filter fun other => other.side = side ∧ other.price = listed.price :=
    List.mem_filter.mpr ⟨member, by simp [own]⟩
  rw [← mirrors, List.mem_map] at here
  obtain ⟨order, inside, rfl⟩ := here
  exact ⟨order, List.mem_of_mem_filter inside, rfl⟩

/-- The ladder and the list have the same orders on a side. -/
theorem perm (mirrors : Mirrors side resting orders) :
    (resting.map Resting.listed).Perm (orders.filter fun order => order.side = side) := by
  refine List.perm_iff_count.mpr fun listed => ?_
  have here : (resting.map Resting.listed).count listed =
      ((resting.filter fun order => order.val.price = listed.price).map
        Resting.listed).count listed := by
    rw [List.count_eq_countP, List.count_eq_countP, List.countP_map, List.countP_map,
      List.countP_filter]
    refine List.countP_congr fun order _ => ?_
    simp only [Function.comp_apply, beq_iff_eq, Bool.and_eq_true, decide_eq_true_eq]
    exact ⟨fun same => ⟨same, congrArg Listed.price same⟩, fun both => both.1⟩
  rw [here, mirrors]
  by_cases own : listed.side = side
  · rw [List.count_filter (by simp [own]), List.count_filter (by simp [own])]
  · rw [List.count_eq_zero_of_not_mem fun member => own ?_,
      List.count_eq_zero_of_not_mem fun member => own ?_]
    · exact of_decide_eq_true (List.mem_filter.mp member).2
    · exact (of_decide_eq_true (List.mem_filter.mp member).2).1

theorem best_nil (mirrors : Mirrors side [] orders) : best side orders = none := by
  refine List.find?_eq_none.mpr fun listed member chosen => ?_
  obtain ⟨order, inside, _⟩ := mirrors.mem_resting member (of_decide_eq_true chosen).1
  cases inside

/-- **The first order of a ladder is the best of the list**: the orders at the best price are listed
as they queue. -/
theorem best_cons {first : Resting} (mirrors : Mirrors side (first :: resting) orders)
    (worse : ∀ other ∈ resting, rank side other.val.price ≤ rank side first.val.price) :
    best side orders = some first.listed := by
  have same : (orders.filter fun order => order.side = side ∧
      ∀ other ∈ orders, other.side = side → rank side other.price ≤ rank side order.price) =
        orders.filter fun order => order.side = side ∧ order.price = first.val.price := by
    refine List.filter_congr fun listed member =>
      decide_eq_decide.mpr (and_congr_right fun own => ?_)
    have bound : ∀ other ∈ orders, other.side = side →
      rank side other.price ≤ rank side first.val.price := by
      intro other inOrders otherOwn
      obtain ⟨order, inside, rfl⟩ := mirrors.mem_resting inOrders otherOwn
      rcases List.mem_cons.mp inside with rfl | inside
      · exact Int.le_refl _
      · exact worse order inside
    obtain ⟨inOrders, firstOwn⟩ := mirrors.listed_mem List.mem_cons_self
    constructor
    · intro greatest
      exact rank_inj.mp (Int.le_antisymm (bound listed member own) (greatest _ inOrders firstOwn))
    · intro price
      rw [price]
      exact bound
  rw [best, ← List.head?_filter, same, ← mirrors, List.filter_cons_of_pos (by simp)]
  rfl

end Mirrors

/-- A ladder's side, the other one, and the list that mirrors both; no id is listed twice. -/
structure Reflects (side : Side) (here there : List Resting) (orders : List Listed) : Prop where
  here : Mirrors side here orders
  there : Mirrors side.opposite there orders
  ids : (orders.map Listed.id).Nodup

theorem Reflects.flip {side : Side} {here there : List Resting} {orders : List Listed}
    (reflects : Reflects side here there orders) : Reflects side.opposite there here orders :=
  ⟨reflects.there, (Side.opposite_opposite side).symm ▸ reflects.here, reflects.ids⟩

/-! ### Deals -/

/-- Where ids are distinct, a quantity is taken off one order. -/
theorem reduce_split {before after : List Listed} {maker : Listed} (qty : Quantity)
    (ids : ((before ++ maker :: after).map Listed.id).Nodup) :
    reduce maker.id qty (before ++ maker :: after) =
      before ++ ((if maker.qty = qty then [] else [{ maker with qty := maker.qty - qty }]) ++
        after) := by
  rw [List.map_append, List.map_cons, List.nodup_middle, List.nodup_cons, List.mem_append,
    not_or] at ids
  have others : ∀ part : List Listed, maker.id ∉ part.map Listed.id →
    reduce maker.id qty part = part := by
    intro part absent
    rw [reduce, List.filterMap_congr (g := some), List.filterMap_some]
    intro order member
    exact if_neg fun (same : order.id = maker.id) => absent (same ▸ List.mem_map_of_mem member)
  have middle : reduce maker.id qty [maker] =
      if maker.qty = qty then [] else [{ maker with qty := maker.qty - qty }] := by
    by_cases whole : maker.qty = qty <;> simp [reduce, whole]
  have spread : ∀ part more : List Listed,
      reduce maker.id qty (part ++ more) = reduce maker.id qty part ++ reduce maker.id qty more :=
    fun part more => List.filterMap_append
  rw [← List.singleton_append, spread, spread, others before ids.1.1, others after ids.1.2, middle]

/-- The first order of a ladder is listed in front of the others at its price. -/
theorem Mirrors.split {side : Side} {first : Resting} {resting : List Resting}
    {orders : List Listed}
    (mirrors : Mirrors side (first :: resting) orders) :
    ∃ before after, orders = before ++ first.listed :: after ∧
      (before.filter fun order => order.side = side ∧ order.price = first.val.price) = [] ∧
      (after.filter fun order => order.side = side ∧ order.price = first.val.price) =
        (resting.filter fun order => order.val.price = first.val.price).map Resting.listed := by
  have here := mirrors first.val.price
  rw [List.filter_cons_of_pos (by simp), List.map_cons] at here
  obtain ⟨before, after, shape, none, _, rest⟩ := List.filter_eq_cons_iff.mp here.symm
  exact ⟨before, after, shape, List.filter_eq_nil_iff.mpr none, rest⟩

section Deals

variable {side : Side} {first : Resting} {resting there : List Resting} {orders : List Listed}
  {fill : Quantity}

/-- What is left of the first order of a ladder when it has traded. -/
def Resting.rest (first : Resting) (fill : Quantity) : List Resting :=
  if first.val.qty = fill then [] else [first.reduce fill]

theorem Resting.rest_marks (first : Resting) (fill : Quantity) :
    ∀ order ∈ first.rest fill, order.val.side = first.val.side ∧
      order.val.price = first.val.price := by
  intro order member
  unfold Resting.rest at member
  split at member
  · cases member
  · rw [List.mem_singleton.mp member]
    exact ⟨rfl, rfl⟩

/-- Orders at other prices, or of the other side, are listed as before. -/
theorem filter_rest {before after : List Listed} {side : Side} {p : Price}
    (other : ¬(first.val.side = side ∧ first.val.price = p)) :
    (before ++ ((first.rest fill).map Resting.listed ++ after)).filter
        (fun order => order.side = side ∧ order.price = p) =
      (before ++ first.listed :: after).filter fun order => order.side = side ∧
        order.price = p := by
  have none : ((first.rest fill).map Resting.listed).filter
      (fun order => order.side = side ∧ order.price = p) = [] := by
    refine List.filter_eq_nil_iff.mpr (List.forall_mem_map.mpr fun order member chosen => other ?_)
    obtain ⟨own, price⟩ := first.rest_marks fill order member
    rw [← own, ← price]
    exact of_decide_eq_true chosen
  have here : ¬decide (first.listed.side = side ∧ first.listed.price = p) = true :=
    fun chosen => other (of_decide_eq_true chosen)
  rw [List.filter_append, List.filter_append, none, List.filter_append,
    List.filter_cons, if_neg here]
  rfl

/-- **A deal with the first order** changes the ladder and the list alike. -/
theorem Reflects.traded (reflects : Reflects side (first :: resting) there orders) :
    Reflects side (first.rest fill ++ resting) there (reduce first.val.id fill orders) := by
  obtain ⟨before, after, rfl, none, rest⟩ := reflects.here.split
  obtain ⟨_, own⟩ := reflects.here.listed_mem List.mem_cons_self
  have shape : reduce first.val.id fill (before ++ first.listed :: after) =
      before ++ ((first.rest fill).map Resting.listed ++ after) := by
    refine (reduce_split fill reflects.ids).trans ?_
    unfold Resting.rest
    split <;> simp_all [Resting.listed, Resting.reduce]
  rw [shape]
  refine ⟨fun p => ?_, fun p => ?_, ?_⟩
  · by_cases here : first.val.price = p
    · subst here
      rw [List.filter_append, List.map_append, List.filter_append, none, List.filter_append, rest,
        List.filter_map, List.nil_append]
      congr 2
      refine List.filter_congr fun order member => ?_
      obtain ⟨own', price⟩ := first.rest_marks fill order member
      simp [Resting.listed, own', own, price]
    · have before' := reflects.here p
      rw [List.filter_cons_of_neg (by simpa using here)] at before'
      rw [filter_rest fun both => here both.2, ← before', List.filter_append]
      rw [List.filter_eq_nil_iff.mpr fun order member => by
        simpa [(first.rest_marks fill order member).2] using here]
      rfl
  · rw [filter_rest fun both => Side.opposite_ne side (both.1.symm.trans own)]
    exact reflects.there p
  · refine reflects.ids.sublist ?_
    rw [List.map_append, List.map_append, List.map_append, List.map_cons]
    refine (List.Sublist.refl _).append ?_
    rw [← List.singleton_append]
    refine List.Sublist.append ?_ (List.Sublist.refl _)
    unfold Resting.rest
    split
    · exact List.nil_sublist _
    · exact List.Sublist.refl _

end Deals

/-! ### A sweep -/

/-- A taker that meets a ladder, with so much left and so many trades reported, comes out of it in
another state; a list that reflects the one allows deals that lead to a list that reflects the
other. -/
def Follows (taker : Ticket) (there : List Resting) (before : List Resting) (left : Quantity)
    (seen : List Trade) (after : List Resting) (left' : Quantity) (seen' : List Trade) : Prop :=
  ∀ orders, Reflects taker.side.opposite before there orders →
    ∃ deals orders', Trades taker orders left deals orders' left' ∧
      Reflects taker.side.opposite after there orders' ∧
      seen'.map Trade.deal = seen.map Trade.deal ++ deals

namespace Follows

variable {taker : Ticket} {there before between after : List Resting} {left left' left'' : Quantity}
  {seen seen' seen'' : List Trade}

theorem refl (before : List Resting) (left : Quantity) (seen : List Trade) :
    Follows taker there before left seen before left seen :=
  fun orders reflects => ⟨[], orders, .done _ _, reflects, (List.append_nil _).symm⟩

theorem trans (first : Follows taker there before left seen between left' seen')
    (second : Follows taker there between left' seen' after left'' seen'') :
    Follows taker there before left seen after left'' seen'' := by
  intro orders reflects
  obtain ⟨deals, orders', trades, reflects', told⟩ := first orders reflects
  obtain ⟨more, orders'', trades', reflects'', told'⟩ := second orders' reflects'
  refine ⟨deals ++ more, orders'', trades.trans trades', reflects'', told'.trans ?_⟩
  rw [told, List.append_assoc]

/-- **One deal**, with the first order of the ladder. -/
theorem deal {maker : Resting} {resting : List Resting} (goes : left ≠ 0)
    (accepted : taker.accepts maker.val.price = true)
    (worse : ∀ other ∈ resting,
      rank taker.side.opposite other.val.price ≤ rank taker.side.opposite maker.val.price) :
    Follows taker there (maker :: resting) left seen
      (maker.rest (min left maker.val.qty) ++ resting)
      (left - min left maker.val.qty)
      (seen ++ [tradeOf taker maker maker.val.price (min left maker.val.qty)]) := by
  intro orders reflects
  have first := reflects.here.best_cons worse
  have crosses : Crosses taker maker.listed.price := crosses_iff.mpr accepted
  refine ⟨_, _, .deal goes first crosses (.done _ _), reflects.traded, ?_⟩
  rw [List.map_append]
  rfl

end Follows

section Sweep

variable (taker : Ticket) (there : List Resting)

/-- The deals with the queue of a rung, in front of the rungs below: by induction along the
queue. -/
theorem sweepQueue_follows (price : Price) (queue : List Resting) (total left : Quantity)
    (seen : List Trade) {below : List Resting} (accepted : taker.accepts price = true)
    (prices : ∀ order ∈ queue, order.val.price = price)
    (worse : ∀ order ∈ below,
      rank taker.side.opposite order.val.price ≤ rank taker.side.opposite price) :
    Follows taker there (queue ++ below) left seen
      ((sweepQueue recorder taker price queue total left seen).queue ++ below)
      (sweepQueue recorder taker price queue total left seen).left
      (sweepQueue recorder taker price queue total left seen).seen := by
  have first : ∀ (maker : Resting) (queue : List Resting) (left : Quantity) (seen : List Trade),
      left ≠ 0 → (∀ order ∈ maker :: queue, order.val.price = price) →
      Follows taker there (maker :: (queue ++ below)) left seen
        (maker.rest (min left maker.val.qty) ++ (queue ++ below)) (left - min left maker.val.qty)
        (seen ++ [tradeOf taker maker price (min left maker.val.qty)]) := by
    intro maker queue left seen goes prices
    obtain ⟨rfl, later⟩ := List.forall_mem_cons.mp prices
    refine .deal goes accepted (List.forall_mem_append.mpr ⟨fun order member => ?_, worse⟩)
    exact Int.le_of_eq (congrArg (rank _) (later order member))
  fun_induction sweepQueue recorder taker price queue total left seen with
  | case1 | case2 | case3 => exact .refl _ _ _
  | case4 maker queue total left seen goes fill seen' returns gone s ih =>
    cases returns
    have one := first maker queue left seen goes prices
    rw [Resting.rest, if_pos (Quantity.sub_eq_zero.mp gone)] at one
    exact one.trans (ih (List.forall_mem_cons.mp prices).2)
  | case5 maker queue total left seen goes fill seen' returns remains =>
    cases returns
    have one := first maker queue left seen goes prices
    rw [Resting.rest, if_neg (mt Quantity.sub_eq_zero.mpr remains)] at one
    exact one

/-- **The deals of a sweep**: by induction along the rungs. -/
theorem sweep_follows (ladder : Ladder) (wf : ladder.Wf taker.side.opposite) (left : Quantity)
    (seen : List Trade) :
    Follows taker there ladder.orders left seen
      (sweep recorder taker ladder left seen).ladder.orders
      (sweep recorder taker ladder left seen).left
        (sweep recorder taker ladder left seen).seen := by
  have rungs : ∀ (rung : Rung) (ladder : Ladder) (left : Quantity) (seen : List Trade),
      Ladder.Wf taker.side.opposite (rung :: ladder) →
        ¬(left = 0 ∨ taker.accepts rung.price = false) →
      Follows taker there (rung.queue ++ ladder.orders) left seen
        ((sweepQueue recorder taker rung.price rung.queue rung.total left seen).queue ++
          ladder.orders)
        (sweepQueue recorder taker rung.price rung.queue rung.total left seen).left
        (sweepQueue recorder taker rung.price rung.queue rung.total left seen).seen := by
    intro rung ladder left seen wf goes
    refine sweepQueue_follows taker there _ _ _ _ _ (by simpa using (not_or.mp goes).2)
      (wf.rungs rung List.mem_cons_self).prices fun order member => ?_
    obtain ⟨other, inLadder, _, here⟩ := wf.tail.rung_of_mem member
    rw [← here]
    exact Int.le_of_lt ((Ladder.sorted_cons.mp wf.sorted).1 other inLadder)
  fun_induction sweep recorder taker ladder left seen with
  | case1 | case2 => exact .refl _ _ _
  | case3 rung ladder left seen goes here rung' threw => exact rungs rung ladder left seen wf goes
  | case4 rung ladder left seen goes here quiet emptied s ih =>
    have one := rungs rung ladder left seen wf goes
    rw [emptied] at one
    exact one.trans (ih wf.tail)
  | case5 rung ladder left seen goes here rung' quiet kept =>
    exact rungs rung ladder left seen wf goes

/-- When a sweep has ended, the list allows no further deal. -/
theorem sweep_stops (ladder : Ladder) (wf : ladder.Wf taker.side.opposite) (left : Quantity)
    (seen : List Trade) {orders : List Listed}
    (reflects : Reflects taker.side.opposite (sweep recorder taker ladder left seen).ladder.orders
      there orders) :
    (sweep recorder taker ladder left seen).left = 0 ∨
      ∀ maker, best taker.side.opposite orders = some maker → ¬Crosses taker maker.price := by
  by_cases spent : (sweep recorder taker ladder left seen).left = 0
  · exact .inl spent
  refine .inr fun maker first crosses => ?_
  obtain ⟨order, inside, rfl⟩ := reflects.here.mem_resting (best_mem first) (best_side first)
  obtain ⟨rung, inLadder, _, here⟩ :=
    (sweep_wf recorder taker ladder left seen wf).rung_of_mem inside
  have refused :=
    sweep_refuses recorder taker ladder wf left seen (sweep_quiet recorder_returns _ _ _ _)
    spent rung inLadder
  rw [here, Bool.eq_false_iff] at refused
  exact refused (crosses_iff.mp crosses)

end Sweep

end Ob
