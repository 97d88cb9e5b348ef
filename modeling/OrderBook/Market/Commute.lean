/-
**Calls that do not meet.**

On the queues of a market a cancel is a filter (`cancel_queueAt`) and a limit order that crosses
nothing an append (`submit_placed`), whatever slots they use. So two of them commute as far as the
queues show, unless one concerns the other:

* `cancel_cancel` — two cancels of different ids.
* `cancel_submit` — a cancel and a limit order of another id that crosses nothing.
* `submit_submit` — two limit orders that cross nothing, nor each other, on different queues.
-/

import OrderBook.Market.Queues
import OrderBook.Market.Waterfall

namespace Ob

open Links OrderBook

/-- An order without its slot and time. -/
def Resting.untimed (order : Resting) : Ticket := { order.val with ts := 0 }

namespace IdIndex

variable {index : IdIndex} {id id' : OrderId} {o : Ptr}

theorem mem_emplace :
    id' ∈ index.emplace id o ↔ id' = id ∨ id' ∈ index := by
  unfold IdIndex.emplace
  split
  · rename_i known
    exact ⟨.inr, fun either => either.elim (fun same => same ▸ known) fun inside => inside⟩
  · rw [AList.mem_insert, eq_comm]

theorem lookup_emplace_ne (different : id' ≠ id) :
    (index.emplace id o).lookup id' = index.lookup id' := by
  unfold IdIndex.emplace
  split
  · rfl
  · exact AList.lookup_insert_ne different

end IdIndex

namespace Market

variable {capacity : Nat} {held : List Ptr} {m : Market}

/-- Two markets whose queues show the same and whose indexes know the same ids. -/
structure LooksAlike (m m' : Market) : Prop where
  queues : ∀ side p, ((m.ladder side).queueAt p).map Resting.untimed =
    ((m'.ladder side).queueAt p).map Resting.untimed
  ids : ∀ id, id ∈ m.index ↔ id ∈ m'.index

/-- Two calls whose order does not show, neither of which trades. -/
structure Commute (m : Market) (first second : Call) : Prop where
  first_reply : ((m.handle second).1.handle first).2 = (m.handle first).2
  second_reply : ((m.handle first).1.handle second).2 = (m.handle second).2
  trades : (m.handle first).2.trades = [] ∧ (m.handle second).2.trades = []
  alike : ((m.handle first).1.handle second).1.LooksAlike ((m.handle second).1.handle first).1

/-! ### A cancel -/

section Cancel

variable (wf : m.Wf capacity held) (id : OrderId)

include wf

theorem cancel_ret : (m.cancel id).2 = (m.index.lookup id).isSome := by
  have ends := cancel_outcome wf id
  generalize m.cancel id = done at ends ⊢
  cases ends with
  | absent unknown => rw [unknown, Option.isSome_none]
  | leaves _ entry => rw [entry, Option.isSome_some]

theorem cancel_lookup (other : OrderId) : (m.cancel id).1.index.lookup other =
    if other = id then none else m.index.lookup other := by
  have ends := cancel_outcome wf id
  generalize m.cancel id = done at ends ⊢
  cases ends with
  | absent unknown =>
    split
    · rename_i same
      rw [same, unknown]
    · rfl
  | leaves =>
    show (m.index.erase id).lookup other = _
    split
    · rename_i same
      rw [same, AList.lookup_erase]
    · rename_i different
      rw [AList.lookup_erase_ne different]

/-- **A cancel is a filter** on every queue of both sides. -/
theorem cancel_queueAt (side : Side) (p : Price) : ((m.cancel id).1.ladder side).queueAt p =
    ((m.ladder side).queueAt p).filter fun other => m.index.lookup id ≠ some other.addr := by
  have ends := cancel_outcome wf id
  generalize m.cancel id = done at ends ⊢
  cases ends with
  | absent unknown =>
    rw [unknown]
    exact (List.filter_eq_self.mpr fun other _ => rfl).symm
  | @leaves order ladder member entry _ leaves =>
    rw [entry]
    show ((m.withLadder order.val.side ladder).ladder side).queueAt p = _
    rcases Side.eq_or_opposite order.val.side side with rfl | rfl
    · rw [withLadder_same, leaves.queueAt (side_nodup wf.distinct)]
      refine List.filter_congr fun other _ => ?_
      rw [decide_eq_decide, ne_eq, ne_eq, Option.some_inj, eq_comm]
    · rw [withLadder_ne _ _ (Side.opposite_ne _)]
      refine (List.filter_eq_self.mpr fun other inside => ?_).symm
      have apart := sides_apart wf.distinct order (mem_own_side wf.ladders member) other
        (List.mem_filter.mp inside).1
      rw [decide_eq_true_eq, ne_eq, Option.some_inj]
      exact apart.symm

end Cancel

/-- What a cancel leaves was there before. -/
theorem mem_of_cancel (wf : m.Wf capacity held) {id : OrderId} {side : Side} {order : Resting}
    (member : order ∈ ((m.cancel id).1.ladder side).orders) : order ∈ (m.ladder side).orders := by
  have queued : order ∈ ((m.cancel id).1.ladder side).queueAt order.val.price :=
    List.mem_filter.mpr ⟨member, decide_eq_true rfl⟩
  rw [cancel_queueAt wf] at queued
  exact (List.mem_filter.mp (List.mem_filter.mp queued).1).1

/-! ### A limit order that crosses nothing -/

/-- What such an order does: unless it is of quantity 0, it queues at its price. -/
structure Placed (m : Market) (ticket : Ticket) (added : List Resting) : Prop where
  reply : (m.handle (.submit ticket)).2 = ⟨true, [], 0⟩
  queueAt : ∀ side p, ((m.handle (.submit ticket)).1.ladder side).queueAt p =
    (m.ladder side).queueAt p ++ if ticket.side = side ∧ ticket.price = p then added else []
  untimed : added.map Resting.untimed = if ticket.qty = 0 then [] else [{ ticket with ts := 0 }]
  slots : ∀ order ∈ added, order.addr ∈ m.free
  lookup : ∀ id, id ≠ ticket.id →
    (m.handle (.submit ticket)).1.index.lookup id = m.index.lookup id
  ids : ∀ id, id ∈ (m.handle (.submit ticket)).1.index ↔
    (ticket.qty ≠ 0 ∧ id = ticket.id) ∨ id ∈ m.index
  room : m.free.length ≤ (m.handle (.submit ticket)).1.free.length + 1

theorem rest_queueAt {order : Resting} (wf : ∀ side, (m.ladder side).Wf side) (side : Side)
    (p : Price) : ((m.rest order).ladder side).queueAt p = (m.ladder side).queueAt p ++
      if order.val.side = side ∧ order.val.price = p then [order] else [] := by
  rcases Side.eq_or_opposite order.val.side side with rfl | rfl
  · have joins : Joins _ order _ _ := insert_joins (wf order.val.side).sorted
    rw [rest_same, joins.queueAt (wf order.val.side).rungs]
    simp only [true_and]
  · rw [rest_ne _ (Side.opposite_ne _), if_neg fun here => Side.opposite_ne _ here.1.symm,
      List.append_nil]

/-- **A limit order that crosses nothing is an append** to one queue. -/
theorem submit_placed (wf : ∀ side, (m.ladder side).Wf side) {ticket : Ticket}
    (limit : ticket.type = .limit)
    (nothing : crossed ticket (m.ladder ticket.side.opposite).orders = [])
    (some_free : m.free ≠ []) :
    ∃ added, m.Placed ticket added := by
  by_cases none : ticket.qty = 0
  · have done : m.handle (.submit ticket) = (m, ⟨true, [], 0⟩) := by
      rw [handle, submit_nothing _ _ _ none]
      rfl
    refine ⟨[], ?_⟩
    constructor <;> simp [done, none]
  · obtain ⟨o, free, shape⟩ := List.exists_cons_of_ne_nil some_free
    have rested := submit_spared recorder [] (wf ticket.side.opposite) nothing none shape
      (by rw [limit]; decide)
    rw [if_pos limit] at rested
    have done : m.handle (.submit ticket) =
        ((m.taken ticket free).rest ⟨o, m.stamp ticket⟩, ⟨true, [], 0⟩) := by
      rw [handle, rested]
      rfl
    refine ⟨[⟨o, m.stamp ticket⟩], ?_, fun side p => ?_, ?_, ?_, fun id different => ?_,
      fun id => ?_, ?_⟩
    · rw [done]
    · rw [done]
      exact rest_queueAt wf side p
    · rw [if_neg none]
      rfl
    · rw [shape]
      exact List.forall_mem_singleton.mpr List.mem_cons_self
    · rw [done]
      exact IdIndex.lookup_emplace_ne different
    · rw [done]
      refine IdIndex.mem_emplace.trans (or_congr_left ?_)
      exact (and_iff_right none).symm
    · rw [done, shape]
      exact Nat.le_refl _

/-! ### Two calls -/

theorem cancel_mem (wf : m.Wf capacity held) (id other : OrderId) :
    other ∈ (m.cancel id).1.index ↔ other ≠ id ∧ other ∈ m.index := by
  rw [← AList.lookup_isSome, cancel_lookup wf, ← AList.lookup_isSome]
  split
  · rename_i same
    exact iff_of_false Bool.false_ne_true fun both => both.1 same
  · rename_i different
    exact (and_iff_right different).symm

/-- **Two cancels commute.** -/
theorem cancel_cancel (wf : m.Wf capacity held) {id id' : OrderId} (different : id ≠ id') :
    m.Commute (.cancel id) (.cancel id') := by
  have after := m.cancel_wf wf id
  have after' := m.cancel_wf wf id'
  have entry : (m.cancel id').1.index.lookup id = m.index.lookup id := by
    rw [cancel_lookup wf, if_neg different]
  have entry' : (m.cancel id).1.index.lookup id' = m.index.lookup id' := by
    rw [cancel_lookup wf, if_neg different.symm]
  refine ⟨?_, ?_, ⟨rfl, rfl⟩, fun side p => ?_, fun other => ?_⟩
  · have ret : ((m.cancel id').1.cancel id).2 = (m.cancel id).2 := by
      rw [cancel_ret after', entry, cancel_ret wf]
    exact congrArg (fun ret => (⟨ret, [], 0⟩ : Reply)) ret
  · have ret : ((m.cancel id).1.cancel id').2 = (m.cancel id').2 := by
      rw [cancel_ret after, entry', cancel_ret wf]
    exact congrArg (fun ret => (⟨ret, [], 0⟩ : Reply)) ret
  · show ((((m.cancel id).1.cancel id').1.ladder side).queueAt p).map _ =
      ((((m.cancel id').1.cancel id).1.ladder side).queueAt p).map _
    rw [cancel_queueAt after, cancel_queueAt wf, cancel_queueAt after', cancel_queueAt wf, entry,
      entry', List.filter_comm]
  · show other ∈ ((m.cancel id).1.cancel id').1.index ↔ other ∈ ((m.cancel id').1.cancel id).1.index
    rw [cancel_mem after, cancel_mem wf, cancel_mem after', cancel_mem wf, and_left_comm]

/-- A cancel takes no free slot. -/
theorem cancel_free (id : OrderId) : m.free <:+ (m.cancel id).1.free := by
  unfold cancel
  split
  · exact List.suffix_rfl
  · split
    · exact List.suffix_rfl
    · exact List.suffix_cons _ _

/-- An order in reach after a cancel was in reach before. -/
theorem cancel_crossed (wf : m.Wf capacity held) (id : OrderId) {ticket : Ticket}
    (nothing : crossed ticket (m.ladder ticket.side.opposite).orders = []) :
    crossed ticket ((m.cancel id).1.ladder ticket.side.opposite).orders = [] :=
  List.filter_eq_nil_iff.mpr fun order member =>
    List.filter_eq_nil_iff.mp nothing order (mem_of_cancel wf member)

/-- An order shows the same wherever it is placed. -/
theorem Placed.untimed_eq {m' : Market} {ticket : Ticket} {added added' : List Resting}
    (placed : m.Placed ticket added) (placed' : m'.Placed ticket added') :
    added.map Resting.untimed = added'.map Resting.untimed :=
  placed.untimed.trans placed'.untimed.symm

/-- **A cancel and a limit order of another id commute** if the order crosses nothing. -/
theorem cancel_submit (wf : m.Wf capacity held) {id : OrderId} {ticket : Ticket}
    (limit : ticket.type = .limit) (different : ticket.id ≠ id)
    (nothing : crossed ticket (m.ladder ticket.side.opposite).orders = [])
    (some_free : m.free ≠ []) : m.Commute (.cancel id) (.submit ticket) := by
  have after := m.cancel_wf wf id
  have after' : (m.handle (.submit ticket)).1.Wf capacity held := handle_wf wf _
  obtain ⟨added, placed⟩ := submit_placed wf.ladders limit nothing some_free
  have still_free : (m.cancel id).1.free ≠ [] := fun full =>
    some_free (List.suffix_nil.mp (full ▸ cancel_free id))
  obtain ⟨added', placed'⟩ :=
    submit_placed after.ladders limit (cancel_crossed wf id nothing) still_free
  have entry := placed.lookup id different.symm
  refine ⟨?_, placed'.reply.trans placed.reply.symm, ⟨rfl, ?_⟩, fun side p => ?_, fun other => ?_⟩
  · have ret : ((m.handle (.submit ticket)).1.cancel id).2 = (m.cancel id).2 := by
      rw [cancel_ret after', entry, cancel_ret wf]
    exact congrArg (fun ret => (⟨ret, [], 0⟩ : Reply)) ret
  · rw [placed.reply]
  · -- the order that is placed is not in the slot of the one that is cancelled
    have kept : added.filter (fun other => m.index.lookup id ≠ some other.addr) = added := by
      refine List.filter_eq_self.mpr fun order member => decide_eq_true_iff.mpr fun taken => ?_
      obtain ⟨old, inside, same, _⟩ := wf.index id _ taken
      exact free_apart wf.distinct old (mem_own_side wf.ladders inside)
        (same ▸ placed.slots order member)
    show ((((m.cancel id).1.handle (.submit ticket)).1.ladder side).queueAt p).map _ =
      ((((m.handle (.submit ticket)).1.cancel id).1.ladder side).queueAt p).map _
    rw [placed'.queueAt, cancel_queueAt wf, cancel_queueAt after', entry, placed.queueAt,
      List.filter_append, List.map_append, List.map_append]
    split
    · rw [kept, placed.untimed_eq placed']
    · rfl
  · show other ∈ ((m.cancel id).1.handle (.submit ticket)).1.index ↔
      other ∈ ((m.handle (.submit ticket)).1.cancel id).1.index
    rw [placed'.ids, cancel_mem wf, cancel_mem after', placed.ids]
    constructor
    · rintro (⟨some_qty, rfl⟩ | ⟨stays, known⟩)
      · exact ⟨different, .inl ⟨some_qty, rfl⟩⟩
      · exact ⟨stays, .inr known⟩
    · rintro ⟨stays, placed | known⟩
      · exact .inl placed
      · exact .inr ⟨stays, known⟩

/-- Neither of two prices crosses the other if one does not. -/
theorem priceCrosses_opposite (side : Side) (p q : Price) :
    priceCrosses side.opposite q p = priceCrosses side p q := by
  cases side <;> rfl

/-- An order that is placed stays out of reach of one that does not cross it. -/
theorem Placed.crossed {first second : Ticket} {added : List Resting}
    (placed : m.Placed first added) (limit : second.type = .limit)
    (nothing : Ob.crossed second (m.ladder second.side.opposite).orders = [])
    (apart : first.side = second.side.opposite →
      priceCrosses second.side second.price first.price = false) :
    Ob.crossed second ((m.handle (.submit first)).1.ladder second.side.opposite).orders = [] := by
  refine List.filter_eq_nil_iff.mpr fun order member => ?_
  have queued : order ∈ ((m.handle (.submit first)).1.ladder second.side.opposite).queueAt
      order.val.price := List.mem_filter.mpr ⟨member, decide_eq_true rfl⟩
  rw [placed.queueAt] at queued
  rcases List.mem_append.mp queued with old | new
  · exact List.filter_eq_nil_iff.mp nothing order (List.mem_filter.mp old).1
  · split at new
    · rename_i here
      rw [← here.2, Ticket.accepts, limit, apart here.1]
      decide
    · cases new

/-- A second order is placed after the first. -/
theorem Placed.next (wf : m.Wf capacity held) {first second : Ticket} {added : List Resting}
    (placed : m.Placed first added) (limit : second.type = .limit)
    (nothing : Ob.crossed second (m.ladder second.side.opposite).orders = [])
    (apart : first.side = second.side.opposite →
      priceCrosses second.side second.price first.price = false)
    (room : 2 ≤ m.free.length) : ∃ more, (m.handle (.submit first)).1.Placed second more := by
  have after : (m.handle (.submit first)).1.Wf capacity held := handle_wf wf _
  refine submit_placed after.ladders limit (placed.crossed limit nothing apart) fun full => ?_
  have left := placed.room
  rw [full, List.length_nil] at left
  exact Nat.not_lt.mpr left room

/-- **Two limit orders commute** if they cross nothing, nor each other, and join different
queues. -/
theorem submit_submit (wf : m.Wf capacity held) {first second : Ticket}
    (limit : first.type = .limit) (limit' : second.type = .limit)
    (nothing : crossed first (m.ladder first.side.opposite).orders = [])
    (nothing' : crossed second (m.ladder second.side.opposite).orders = [])
    (apart : first.side = second.side.opposite →
      priceCrosses first.side first.price second.price = false)
    (different : ¬(first.side = second.side ∧ first.price = second.price))
    (room : 2 ≤ m.free.length) : m.Commute (.submit first) (.submit second) := by
  have some_free : m.free ≠ [] :=
    List.ne_nil_of_length_pos (Nat.lt_of_lt_of_le Nat.zero_lt_two room)
  obtain ⟨one, placed⟩ := submit_placed wf.ladders limit nothing some_free
  obtain ⟨two, placed'⟩ := submit_placed wf.ladders limit' nothing' some_free
  obtain ⟨two', next⟩ := placed.next wf limit' nothing' (fun across => by
    have outside := apart across
    rwa [across, priceCrosses_opposite] at outside) room
  obtain ⟨one', next'⟩ := placed'.next wf limit nothing (fun across => apart (by
    rw [across, Side.opposite_opposite])) room
  refine ⟨next'.reply.trans placed.reply.symm, next.reply.trans placed'.reply.symm, ⟨?_, ?_⟩,
    fun side p => ?_, fun other => ?_⟩
  · rw [placed.reply]
  · rw [placed'.reply]
  · rw [next.queueAt, placed.queueAt, next'.queueAt, placed'.queueAt]
    simp only [List.map_append, List.append_assoc]
    -- at most one of the two queues here
    by_cases here : first.side = side ∧ first.price = p
    · have elsewhere : ¬(second.side = side ∧ second.price = p) := fun there =>
        different ⟨here.1.trans there.1.symm, here.2.trans there.2.symm⟩
      rw [if_pos here, if_neg elsewhere, if_pos here, if_neg elsewhere, placed.untimed_eq next']
      simp only [List.map_nil, List.append_nil, List.nil_append]
    · rw [if_neg here, if_neg here, List.map_nil, List.nil_append, List.append_nil]
      split
      · rw [next.untimed_eq placed']
      · rfl
  · rw [next.ids, placed.ids, next'.ids, placed'.ids, or_left_comm]

end Market

end Ob
