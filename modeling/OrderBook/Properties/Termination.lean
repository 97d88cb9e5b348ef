/-
**Matching ends.**

* `Stands.queued` — every book that stands for a market has sorted levels, and queues that end.
* `match_ends` — on any such book, for any taker outside of it and any callback, `match` ends. The
  callback is called at most once for each opposite order, the outer loop is entered at most once
  more than there are opposite levels, and each turn of it ends the loop, uses up the taker or takes
  away the best level. Every book that calls can lead to is such a book.
-/

import OrderBook.Properties.WellFormed
import OrderBook.Refine.Termination

namespace Ob

open Links ObjectPool

/-! ### Bounds -/

/-- The orders of a queue have slots of the pool for themselves. -/
theorem Queued.short {b : OrderBook} {side : Side} {queues : List (List Ptr)}
    (queued : Queued b side queues) : ∀ q ∈ queues, q.length < b.pool.capacity + 1 := by
  intro q member
  have distinct : q.Nodup := (List.nodup_flatten.mp queued.distinct).1 q member
  have inside : q ⊆ List.range b.pool.capacity := by
    intro p used
    obtain ⟨x, here⟩ := queued.spelled.live p (List.mem_flatten_of_mem member used)
    exact List.mem_range.mpr (lt_of_read here)
  have short := (List.subperm_of_subset distinct inside).length_le
  rw [List.length_range] at short
  exact Nat.lt_succ_of_le short

theorem Queued.length_eq {b : OrderBook} {side : Side} {queues : List (List Ptr)}
    (queued : Queued b side queues) : (b.sideBook side).levels.length = queues.length := by
  have lengths := List.Forall₂.length_eq queued.spelled
  rwa [List.length_reverse] at lengths

/-! ### Reachable books -/

/-- The links of a doubly linked queue, one way. -/
theorem chain_of_seg {heap : Ptr → Option Order} {before first last : Option Ptr}
    {cells : List Resting} (seg : Seg heap before first cells last none) :
    Chain (nextLink heap) first (cells.map Cell.addr) := by
  generalize ending : (none : Option Ptr) = after at seg
  induction seg with
  | nil =>
    subst ending
    exact .nil
  | cons here _ _ _ ih =>
    refine .cons ?_ (ih ending)
    rw [nextLink, here]
    rfl

/-- The addresses of the orders of a market, rung by rung. -/
def Ladder.slots (ladder : Ladder) : List (List Ptr) :=
  ladder.map fun rung => rung.queue.map Cell.addr

theorem Ladder.slots_flatten (ladder : Ladder) :
    ladder.slots.flatten = (Ladder.orders ladder).map Cell.addr :=
  List.map_flatMap.symm

/-- The slot that the next order is given is in no queue. -/
theorem Stands.taker_apart {capacity : Nat} {held : List Ptr} {b : OrderBook} {m : Market}
    (stands : Stands capacity held b m) (side : Side) {o : Ptr} (free : b.pool.freeHead = some o) :
    o ∉ (m.ladder side).slots.flatten := by
  have first : o ∈ m.free := by
    have chain := stands.rep.free
    rw [free] at chain
    generalize m.free = slots at chain ⊢
    cases chain
    exact List.mem_cons_self
  intro inside
  rw [Ladder.slots_flatten] at inside
  obtain ⟨order, member, rfl⟩ := List.mem_map.mp inside
  exact free_apart stands.distinct order member first

theorem Stands.queued {capacity : Nat} {held : List Ptr} {b : OrderBook} {m : Market}
    (stands : Stands capacity held b m) (side : Side) : Queued b side (m.ladder side).slots where
  sorted := by
    have sorted := stands.levels_sorted side
    rw [List.pairwise_map] at sorted
    refine sorted.imp fun {l r} less => ?_
    rw [stands.rep.sides]
    exact lessForSide_iff.mpr less
  spelled := by
    refine List.forall₂_map_right_iff.mpr ?_
    exact List.Forall₂.imp (fun _ _ here => chain_of_seg here.queue) (stands.rep.ladders side)
  distinct := by
    have distinct : ((m.ladder side).orders.map Cell.addr).Nodup := side_nodup stands.distinct
    rwa [Ladder.slots_flatten]

/-! ### The loops of `match` -/

/-- How `match` ends for a taker in a slot. -/
structure Ends {σ : Type} (b : OrderBook) (side : Side) (taker : Ptr) (onTrade : TradeCallback σ)
    (seen : σ) (queues : List (List Ptr)) : Prop where
  /-- It does, and there are no more calls than opposite orders. -/
  calls : ∃ run, b.match side taker (OrderBook.counted onTrade) (0, seen) = .ok run ∧
    b.match side taker onTrade seen = .ok run.plain ∧ run.calls ≤ queues.flatten.length
  /-- One turn more than there are levels is enough for the outer loop, and as for the turns of the
  inner loop, one more than there are orders on a level: other bounds change nothing. -/
  turns : ∀ inner turns, (∀ q ∈ queues, q.length < inner) →
    (b.sideBook side.opposite).levels.length + 1 ≤ turns →
    OrderBook.matchLoop onTrade side taker inner turns ⟨b, seen, false⟩ =
      b.match side taker onTrade seen
  /-- A turn of the outer loop ends it, or uses up the taker, or takes the best level away. -/
  progress : (∃ done, ∀ inner turns, (∀ q ∈ queues, q.length < inner) →
      OrderBook.matchLoop onTrade side taker inner (turns + 1) ⟨b, seen, false⟩ = .ok done) ∨
    ∃ next t, (∀ inner turns, (∀ q ∈ queues, q.length < inner) →
        OrderBook.matchLoop onTrade side taker inner (turns + 1) ⟨b, seen, false⟩ =
          OrderBook.matchLoop onTrade side taker inner turns next) ∧
      next.book.pool.read taker = some t ∧
      (t.qty = 0 ∨
        (next.book.sideBook side.opposite).levels =
            (b.sideBook side.opposite).levels.dropLast ∧
          Queued next.book side.opposite queues.tail)

theorem match_ends_of_queued {σ : Type} {b : OrderBook} {side : Side} {taker : Ptr} {t : Order}
    {queues : List (List Ptr)} (queued : Queued b side.opposite queues)
    (here : b.pool.read taker = some t) (apart : taker ∉ queues.flatten)
    (onTrade : TradeCallback σ) (seen : σ) : Ends b side taker onTrade seen queues := by
  obtain ⟨run, ran, calls⟩ := matchLoop_ends onTrade 0 seen queued here apart
  have plain : ∀ inner turns, (∀ q ∈ queues, q.length < inner) → queues.length < turns →
      OrderBook.matchLoop onTrade side taker inner turns ⟨b, seen, false⟩ = .ok run.plain := by
    intro inner turns short enough
    have same := matchLoop_plain onTrade side taker inner turns ⟨b, (0, seen), false⟩
    rw [ran inner turns short enough] at same
    exact same.symm
  have enough : queues.length < (b.sideBook side.opposite).levels.length + 1 :=
    Nat.lt_succ_of_le (Nat.le_of_eq queued.length_eq.symm)
  have ended : b.match side taker onTrade seen = .ok run.plain := plain _ _ queued.short enough
  rw [Nat.zero_add] at calls
  refine ⟨⟨run, ran _ _ queued.short enough, ended, calls⟩, fun inner turns short many => ?_, ?_⟩
  · rw [ended]
    exact plain inner turns short (Nat.lt_of_lt_of_le enough many)
  · rcases matchLoop_progress onTrade queued here apart 0 seen with
      ⟨done, last, _⟩ | ⟨q, rest, b', n', seen', t', rfl, turn, _, here', next⟩
    · refine .inl ⟨done.plain, fun inner turns short => ?_⟩
      have same := matchLoop_plain onTrade side taker inner (turns + 1) ⟨b, (0, seen), false⟩
      rw [last inner turns short] at same
      exact same.symm
    · refine .inr ⟨⟨b', seen', false⟩, t', fun inner turns short => ?_, here', next⟩
      have before := matchLoop_plain onTrade side taker inner (turns + 1) ⟨b, (0, seen), false⟩
      have after := matchLoop_plain onTrade side taker inner turns ⟨b', (n', seen'), false⟩
      rw [turn inner turns short, after] at before
      exact before.symm

/-- **Matching ends**, on any book whose opposite levels are sorted and whose queues end; and every
book that calls lead to is one of these, also for the slot that the next taker is given. -/
theorem match_ends :
    (∀ (σ : Type) (b : OrderBook) (side : Side) (taker : Ptr) (t : Order)
      (queues : List (List Ptr)) (onTrade : TradeCallback σ) (seen : σ),
      Queued b side.opposite queues → b.pool.read taker = some t → taker ∉ queues.flatten →
        Ends b side taker onTrade seen queues) ∧
    ∀ (capacity : Nat) (requests : List OrderBook.Request), 0 < capacity →
      ∃ b rets, Machine.run OrderBook.perform (OrderBook.new capacity) requests = .ok (b, rets) ∧
        ∀ side, ∃ queues, Queued b side queues ∧
          ∀ o, b.pool.freeHead = some o → o ∉ queues.flatten := by
  refine ⟨fun σ b side taker t queues onTrade seen queued here apart =>
    match_ends_of_queued queued here apart onTrade seen, fun capacity requests positive => ?_⟩
  obtain ⟨b, rets, ran, m, held, stands⟩ := run_stands positive requests
  exact ⟨b, rets, ran, fun side => ⟨_, stands.queued side, fun o => stands.taker_apart side⟩⟩

/-- Two levels without orders, and a level of an order without a quantity and another one. -/
def sparse : OrderBook where
  pool := {
    storage := [
      .storage { id := 1, price := 102, qty := 0, ts := 1, side := .sell, type := .limit,
                 next := some 1 },
      .storage { id := 2, price := 102, qty := 5, ts := 2, side := .sell, type := .limit,
                 prev := some 0 },
      .storage { id := 3, price := 105, qty := 7, ts := 3, side := .buy, type := .limit }]
    freeHead := none }
  bids := { side := .buy }
  asks := { side := .sell, levels := [⟨103, 0, none, none⟩, ⟨102, 5, some 0, some 1⟩,
    ⟨101, 0, none, none⟩] }
  idIndex := ∅
  clock := 3

theorem match_ends_sparse : Ends sparse .buy 2 OrderBook.recorder [] [[], [0, 1], []] :=
  match_ends.1 _ sparse .buy 2 _ [[], [0, 1], []] OrderBook.recorder []
    { sorted := by decide
      spelled := .cons .nil (.cons (.cons rfl (.cons rfl .nil)) (.cons .nil .nil))
      distinct := by decide } rfl (by decide)

end Ob
