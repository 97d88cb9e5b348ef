/-
**A sweep that ends in an exception.**

* `sweep_throws` — when a callback throws, every maker before has been used up and every trade with
  one of them was reported and returned; the maker at which it threw and those behind it are as they
  were.
* `sweep_foldlM` — a sweep that does not use the taker up runs the callback over the trades with all
  the orders it crosses.
* `Market.Rests.submit`, `Market.rests_of_left` — so a remainder comes to rest (`Market.Rests`) if
  and only if the callback returns at all of these.
-/

import OrderBook.Market.Waterfall

namespace Ob

/-- The trades of a taker with makers that it uses up. -/
def filled (taker : Ticket) (makers : List Resting) : List Trade :=
  makers.map fun maker => tradeOf taker maker maker.val.price maker.val.qty

section Sweep

variable {σ : Type} (onTrade : TradeCallback σ) (taker : Ticket)

/-- A run of callbacks that return, and one that throws after it. -/
structure Throws (seen : σ) (left : Nat) (queue : List Resting) (gone kept : List Resting)
    (reached : σ) : Prop where
  split : queue = gone ++ kept
  returned : (filled taker gone).foldlM onTrade seen = some reached
  threw : ∃ maker behind, kept = maker :: behind ∧
    onTrade reached (tradeOf taker maker maker.val.price
      (UInt64.ofNat (min maker.val.qty.toNat (left - (quantities gone).sum)))) = none
  short : (quantities gone).sum < left

theorem filled_append (makers more : List Resting) :
    filled taker (makers ++ more) = filled taker makers ++ filled taker more := List.map_append

variable {onTrade taker}

/-- Behind makers that have been used up. -/
theorem Throws.behind {seen middle reached : σ} {left : Nat} {front queue gone kept : List Resting}
    (returned : (filled taker front).foldlM onTrade seen = some middle)
    (throws : Throws onTrade taker middle (left - (quantities front).sum) queue gone kept reached) :
    Throws onTrade taker seen left (front ++ queue) (front ++ gone) kept reached where
  split := by rw [throws.split, List.append_assoc]
  returned := by
    rw [filled_append, List.foldlM_append, returned]
    exact throws.returned
  threw := by
    rw [quantities_append, ← Nat.sub_sub]
    exact throws.threw
  short := by
    have short := throws.short
    rw [quantities_append]
    omega

variable (onTrade taker)

/-! ### One rung -/

section Queue

variable (price : Price) (queue : List Resting) (total left : Quantity) (seen : σ)

/-- A rung that is emptied. -/
theorem sweepQueue_emptied (prices : ∀ order ∈ queue, order.val.price = price)
    (emptied : (sweepQueue onTrade taker price queue total left seen).queue = []) :
    (sweepQueue onTrade taker price queue total left seen).consumed = queue ∧
      (filled taker queue).foldlM onTrade seen =
        some (sweepQueue onTrade taker price queue total left seen).seen := by
  fun_induction sweepQueue onTrade taker price queue total left seen with
  | case1 => exact ⟨rfl, rfl⟩
  | case2 | case3 | case5 => cases emptied
  | case4 maker queue total left seen goes fill seen' returns gone s ih =>
    obtain ⟨here, prices⟩ := List.forall_mem_cons.mp prices
    obtain ⟨all, returned⟩ := ih prices emptied
    refine ⟨congrArg (maker :: ·) all, ?_⟩
    have whole : fill = maker.val.qty := (Quantity.sub_eq_zero.mp gone).symm
    rw [whole, ← here] at returns
    rw [filled, List.map_cons, List.foldlM_cons, returns]
    exact returned

theorem sweepQueue_throws (prices : ∀ order ∈ queue, order.val.price = price)
    (threw : (sweepQueue onTrade taker price queue total left seen).threw = true) :
    Throws onTrade taker seen left.toNat queue
      (sweepQueue onTrade taker price queue total left seen).consumed
      (sweepQueue onTrade taker price queue total left seen).queue
      (sweepQueue onTrade taker price queue total left seen).seen := by
  fun_induction sweepQueue onTrade taker price queue total left seen with
  | case1 | case2 | case5 => cases threw
  | case3 maker queue total left seen goes fill throws =>
    obtain ⟨here, _⟩ := List.forall_mem_cons.mp prices
    have share : fill = _ := Quantity.min_eq_share left maker.val.qty
    rw [share, ← here] at throws
    exact ⟨rfl, rfl, ⟨maker, queue, rfl, throws⟩, UInt64.lt_iff_toNat_lt.mp
      (UInt64.pos_iff_ne_zero.mpr goes)⟩
  | case4 maker queue total left seen goes fill seen' returns gone s ih =>
    obtain ⟨here, prices⟩ := List.forall_mem_cons.mp prices
    have throws := ih prices threw
    have whole : fill = maker.val.qty := (Quantity.sub_eq_zero.mp gone).symm
    rw [Quantity.toNat_sub_min_left] at throws
    rw [whole, ← here] at returns
    have returned : (filled taker [maker]).foldlM onTrade seen = some seen' := by
      rw [filled, List.map_singleton, List.foldlM_cons, returns]
      rfl
    have behind := throws.behind returned
    exact behind

/-- A rung that does not use the taker up. -/
theorem sweepQueue_foldlM (prices : ∀ order ∈ queue, order.val.price = price)
    (short : (quantities queue).sum < left.toNat) :
    (filled taker queue).foldlM onTrade seen =
      if (sweepQueue onTrade taker price queue total left seen).threw then none
      else some (sweepQueue onTrade taker price queue total left seen).seen := by
  have whole : ∀ {maker : Resting} {more : Nat} {left : Quantity},
      maker.val.qty.toNat + more < left.toNat → min left maker.val.qty = maker.val.qty := by
    intro maker more left short
    refine UInt64.toNat_inj.mp ((Quantity.toNat_min _ _).trans (Nat.min_eq_right ?_))
    omega
  fun_induction sweepQueue onTrade taker price queue total left seen with
  | case1 => rfl
  | case2 => exact absurd short (Nat.not_lt_zero _)
  | case3 maker queue total left seen goes fill throws =>
    obtain ⟨here, _⟩ := List.forall_mem_cons.mp prices
    rw [show fill = maker.val.qty from whole short, ← here] at throws
    rw [filled, List.map_cons, List.foldlM_cons, throws]
    rfl
  | case4 maker queue total left seen goes fill seen' returns gone s ih =>
    obtain ⟨here, prices⟩ := List.forall_mem_cons.mp prices
    rw [show fill = maker.val.qty from whole short, ← here] at returns
    rw [filled, List.map_cons, List.foldlM_cons, returns]
    refine ih prices ?_
    rw [Quantity.toNat_sub_min_left]
    exact Nat.lt_sub_of_add_lt (Nat.add_comm _ _ ▸ short)
  | case5 maker queue total left seen goes fill seen' returns remains =>
    rw [show fill = maker.val.qty from whole short, UInt64.sub_self] at remains
    exact absurd rfl remains

end Queue

/-! ### One side -/

section Side

variable {ladder : Ladder} {left : Quantity} {seen : σ}

/-- **A sweep that ends in an exception** has used up makers whose trades returned, and touched
nothing else. -/
theorem sweep_throws (wf : ladder.Wf taker.side.opposite)
    (threw : (sweep onTrade taker ladder left seen).threw = true) :
    Throws onTrade taker seen left.toNat ladder.orders
      (sweep onTrade taker ladder left seen).consumed
      (sweep onTrade taker ladder left seen).ladder.orders
      (sweep onTrade taker ladder left seen).seen := by
  fun_induction sweep onTrade taker ladder left seen with
  | case1 | case2 | case5 => cases threw
  | case3 rung ladder left seen goes here rung' thrown =>
    have prices := (wf.rungs rung List.mem_cons_self).prices
    obtain ⟨split, returned, ⟨maker, behind, kept, throws⟩, short⟩ :=
      sweepQueue_throws onTrade taker rung.price rung.queue rung.total left seen prices thrown
    refine ⟨?_, returned, ⟨maker, behind ++ Ladder.orders ladder, ?_, throws⟩, short⟩
    · rw [Ladder.orders_cons, Ladder.orders_cons, split, List.append_assoc]
    · show here.queue ++ Ladder.orders ladder = _
      rw [kept]
      rfl
  | case4 rung ladder left seen goes here quiet emptied s ih =>
    have prices := (wf.rungs rung List.mem_cons_self).prices
    obtain ⟨all, returned⟩ :=
      sweepQueue_emptied onTrade taker rung.price rung.queue rung.total left seen prices emptied
    have remains := sweepQueue_remains onTrade taker rung.price rung.queue rung.total left seen
      (Bool.eq_false_iff.mpr quiet)
    have throws := ih wf.tail threw
    rw [remains] at throws
    rw [Ladder.orders_cons]
    exact all.symm ▸ throws.behind returned

/-- **A sweep that does not use the taker up** runs the callback over the trades with all the orders
it crosses. -/
theorem sweep_foldlM (wf : ladder.Wf taker.side.opposite)
    (short : depth taker ladder.orders < left.toNat) :
    (filled taker (crossed taker ladder.orders)).foldlM onTrade seen =
      if (sweep onTrade taker ladder left seen).threw then none
      else some (sweep onTrade taker ladder left seen).seen := by
  fun_induction sweep onTrade taker ladder left seen with
  | case1 => rfl
  | case2 rung ladder left seen stop =>
    rcases stop with rfl | refused
    · exact absurd short (Nat.not_lt_zero _)
    · rw [crossed_cons wf, if_neg (Bool.eq_false_iff.mp refused)]
      rfl
  | case3 rung ladder left seen goes here rung' thrown =>
    have accepted : taker.accepts rung.price = true := Bool.not_eq_false _ ▸ (not_or.mp goes).2
    have prices := (wf.rungs rung List.mem_cons_self).prices
    rw [depth_cons wf, if_pos accepted] at short
    have run := sweepQueue_foldlM onTrade taker rung.price rung.queue rung.total left seen prices
      (Nat.lt_of_le_of_lt (Nat.le_add_right _ _) short)
    rw [if_pos thrown] at run
    rw [crossed_cons wf, if_pos accepted, filled_append, List.foldlM_append, run]
    rfl
  | case4 rung ladder left seen goes here quiet emptied s ih =>
    have accepted : taker.accepts rung.price = true := Bool.not_eq_false _ ▸ (not_or.mp goes).2
    have prices := (wf.rungs rung List.mem_cons_self).prices
    rw [depth_cons wf, if_pos accepted] at short
    have run := sweepQueue_foldlM onTrade taker rung.price rung.queue rung.total left seen prices
      (Nat.lt_of_le_of_lt (Nat.le_add_right _ _) short)
    have remains := sweepQueue_remains onTrade taker rung.price rung.queue rung.total left seen
      (Bool.eq_false_iff.mpr quiet)
    rw [if_neg quiet] at run
    rw [crossed_cons wf, if_pos accepted, filled_append, List.foldlM_append, run]
    refine ih wf.tail ?_
    rw [remains]
    exact Nat.lt_sub_of_add_lt (Nat.add_comm _ _ ▸ short)
  | case5 rung ladder left seen goes here rung' quiet kept =>
    have accepted : taker.accepts rung.price = true := Bool.not_eq_false _ ▸ (not_or.mp goes).2
    have remains := sweepQueue_remains onTrade taker rung.price rung.queue rung.total left seen
      (Bool.eq_false_iff.mpr quiet)
    have spent := sweepQueue_left onTrade taker rung.price rung.queue rung.total left seen
      (Bool.eq_false_iff.mpr quiet) kept
    -- the rung has used the taker up
    rw [depth_cons wf, if_pos accepted] at short
    rw [spent, UInt64.toNat_zero] at remains
    omega

end Side

end Sweep

/-! ### Remainders -/

namespace Market

variable {σ : Type} {m : Market} {ticket : Ticket} {onTrade : TradeCallback σ} {seen : σ}

/-- A remainder comes to rest: a limit order finds a slot, the orders it crosses do not use it up,
and the callback returns at the trades with all of them. -/
def Rests (m : Market) (ticket : Ticket) (onTrade : TradeCallback σ) (seen : σ) : Prop :=
  ticket.type = .limit ∧ m.free ≠ [] ∧
    depth ticket (m.ladder ticket.side.opposite).orders < ticket.qty.toNat ∧
    ((filled (m.stamp ticket)
      (crossed ticket (m.ladder ticket.side.opposite).orders)).foldlM onTrade seen).isSome

/-- How a submit ends that leaves a remainder. -/
theorem Rests.submit (rests : m.Rests ticket onTrade seen)
    (opposite : (m.ladder ticket.side.opposite).Wf ticket.side.opposite) :
    ∃ o free s, m.free = o :: free ∧
      sweep onTrade (m.stamp ticket) (m.ladder ticket.side.opposite) ticket.qty seen = s ∧
      s.left.toNat = ticket.qty.toNat - depth ticket (m.ladder ticket.side.opposite).orders ∧
      m.submit ticket onTrade seen = ⟨((m.taken ticket free).swept ticket.side.opposite s).rest
        ⟨o, { m.stamp ticket with qty := s.left }⟩, s.seen, some true, 0⟩ := by
  obtain ⟨limit, some_free, short, returns⟩ := rests
  obtain ⟨o, free, shape⟩ := List.exists_cons_of_ne_nil some_free
  have some_qty : ticket.qty ≠ 0 := by
    intro none
    rw [none] at short
    exact Nat.not_lt_zero _ short
  have run : (filled (m.stamp ticket) (crossed ticket
      (m.ladder ticket.side.opposite).orders)).foldlM onTrade seen = _ :=
    sweep_foldlM onTrade (m.stamp ticket) opposite short
  have remains := sweep_left onTrade (m.stamp ticket) _ opposite ticket.qty seen
  generalize swept :
    sweep onTrade (m.stamp ticket) (m.ladder ticket.side.opposite) ticket.qty seen = s
    at run remains
  have quiet : s.threw = false := by
    by_contra threw
    rw [run, if_pos (Bool.not_eq_false _ ▸ threw)] at returns
    cases returns
  have left := remains quiet
  refine ⟨o, free, s, shape, rfl, left, ?_⟩
  have some_left : s.left > 0 := by
    rw [gt_iff_lt, UInt64.lt_iff_toNat_lt, left]
    exact Nat.sub_pos_of_lt short
  rw [submit_swept onTrade some_qty shape (fun killed => by simp [kills, limit] at killed) swept,
    quiet, if_neg Bool.false_ne_true, if_pos ⟨some_left, limit⟩]

/-- A limit order of which something is left. -/
theorem rests_of_left (opposite : (m.ladder ticket.side.opposite).Wf ticket.side.opposite)
    (limit : ticket.type = .limit) (some_free : m.free ≠ []) {s : Sweep σ}
    (swept : sweep onTrade (m.stamp ticket) (m.ladder ticket.side.opposite) ticket.qty seen = s)
    (quiet : s.threw = false) (left : s.left ≠ 0) : m.Rests ticket onTrade seen := by
  subst swept
  have short : depth ticket (m.ladder ticket.side.opposite).orders < ticket.qty.toNat := by
    have some_left := mt UInt64.toNat_inj.mp left
    rw [sweep_left onTrade (m.stamp ticket) _ opposite ticket.qty seen quiet] at some_left
    exact Nat.lt_of_sub_ne_zero some_left
  refine ⟨limit, some_free, short, ?_⟩
  have run : (filled (m.stamp ticket) (crossed ticket
      (m.ladder ticket.side.opposite).orders)).foldlM onTrade seen = _ :=
    sweep_foldlM onTrade (m.stamp ticket) opposite short
  rw [run, quiet]
  rfl

end Market

end Ob
