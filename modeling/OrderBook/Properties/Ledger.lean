/-
**The quantity ledger.**

Every call is entered with its reply, and a cancel with what was left of the order it takes off.
Along any run nothing is lost or invented:

* `submit_balances`, `cancel_balances` — for every id, what one call brings is what it trades, what
  stays in the book, and what leaves it.
* `entries_balance` — the same over a whole run, also for ids that are used again.
* `run_ledger` — if no id is submitted twice, the quantity of every accepted order is what it
  bought, what it sold, what is left of it in the book, what was cancelled and what was dropped.
-/

import OrderBook.Market.Trades
import OrderBook.Properties.FillOrKill

namespace Ob

open Links OrderBook

/-! ### Entries -/

namespace OrderBook

/-- A call with its reply, and for a cancel what was left of the order it took off. -/
structure Entry where
  call : Call
  reply : Reply
  cancelled : Quantity

/-- What is left of the order that the index holds for an id. -/
def leftOf (b : OrderBook) (id : OrderId) : Quantity :=
  match b.idIndex.lookup id with
  | none => 0
  | some o =>
    match b.pool.read o with
    | none => 0
    | some x => x.qty

/-- The entry of a call, given what is left of each id before it. -/
def Call.entry (call : Call) (reply : Reply) (left : OrderId → Quantity) : Entry where
  call
  reply
  cancelled := match call with
    | .submit _ => 0
    | .cancel id => left id

def record (b : OrderBook) (call : Call) : Mem (OrderBook × Entry) := do
  let (b', reply) ← b.handle call
  return (b', call.entry reply b.leftOf)

/-- The id that a call submits. -/
def Call.submits : Call → Option OrderId
  | .submit ticket => some ticket.id
  | .cancel _ => none

namespace Entry

/-- What an entry brings under an id. -/
def submitted (id : OrderId) (entry : Entry) : Nat :=
  match entry.call with
  | .submit ticket => if ticket.id = id ∧ entry.reply.ret = true then ticket.qty.toNat else 0
  | .cancel _ => 0

/-- What an entry drops of an order of an id. -/
def dropped (id : OrderId) (entry : Entry) : Nat :=
  match entry.call with
  | .submit ticket => if ticket.id = id then entry.reply.dropped.toNat else 0
  | .cancel _ => 0

/-- What an entry cancels under an id. -/
def cancels (id : OrderId) (entry : Entry) : Nat :=
  match entry.call with
  | .submit _ => 0
  | .cancel other => if other = id then entry.cancelled.toNat else 0

end Entry

/-- A sum over the entries of a run. -/
def total (account : Entry → Nat) (entries : List Entry) : Nat := (entries.map account).sum

/-- The trades of a run. -/
def tradesOf (entries : List Entry) : List Trade := entries.flatMap fun entry => entry.reply.trades

end OrderBook

/-! ### One call -/

namespace Market

variable {capacity : Nat} {held : List Ptr} {m : Market}

def leftOf (m : Market) (id : OrderId) : Quantity :=
  match m.index.lookup id with
  | none => 0
  | some o =>
    match m.linked.find? fun order => order.addr = o with
    | none => 0
    | some order => order.val.qty

def record (m : Market) (call : Call) : Market × Entry :=
  ((m.handle call).1, call.entry (m.handle call).2 m.leftOf)

/-- All trades of a sweep are the taker's. -/
theorem sweep_bought {side : Side} {ladder : Ladder} (wf : ladder.Wf side) (taker : Ticket)
    (left : Quantity) (id : OrderId) :
    bought id (sweep recorder taker ladder left []).seen =
      if taker.id = id then traded (sweep recorder taker ladder left []).seen else 0 := by
  have own := sweep_reports taker ladder left [] (P := fun trade => trade.takerId = taker.id) wf
    (List.forall_mem_nil _) fun _ _ _ _ _ => rfl
  unfold bought
  split
  · rename_i same
    rw [List.filter_eq_self.mpr fun trade member => by simp [own trade member, same]]
  · rename_i different
    rw [List.filter_eq_nil_iff.mpr fun trade member => by simp [own trade member, different]]
    rfl

/-- **A sweep**: what there was of an id, and what the taker brings, is in the book, traded or still
the taker's. -/
theorem sweep_balances (wf : m.Wf capacity held) (taker : Ticket) (left : Quantity) (id : OrderId)
    {s : Sweep (List Trade)}
    (swept : sweep recorder taker (m.ladder taker.side.opposite) left [] = s) :
    remaining id m.linked + (if taker.id = id then left.toNat else 0) =
      remaining id (m.swept taker.side.opposite s).linked + bought id s.seen + sold id s.seen +
        if taker.id = id then s.left.toNat else 0 := by
  have makers := sweep_sold taker (m.ladder taker.side.opposite) left [] id
  have account := sweep_traded taker (m.ladder taker.side.opposite) left []
  have own := sweep_bought (wf.ladders taker.side.opposite) taker left id
  have before := remaining_perm id (m.linked_perm taker.side.opposite)
  have after := remaining_perm id (linked_with m taker.side.opposite s.ladder)
  rw [swept] at makers account own
  rw [remaining_append] at before after
  have start : sold id [] = 0 ∧ traded [] = 0 := ⟨rfl, rfl⟩
  show _ = remaining id (m.withLadder taker.side.opposite s.ladder).linked + _ + _ + _
  split at own <;> simp_all only [if_true, if_false] <;> omega

/-- **One submit.** -/
theorem submit_balances (wf : m.Wf capacity held) (ticket : Ticket) (id : OrderId)
    {done : Submitted (List Trade)} (submitted : m.submit ticket recorder [] = done) :
    remaining id m.linked +
        (if ticket.id = id ∧ done.ret = some true then ticket.qty.toNat else 0) =
      remaining id done.market.linked + bought id done.seen + sold id done.seen +
        if ticket.id = id then done.dropped.toNat else 0 := by
  have start : sold id [] = 0 ∧ bought id [] = 0 := ⟨rfl, rfl⟩
  have ends := m.submit_outcome recorder ticket []
  rw [submitted] at ends
  cases ends with
  | nothing none => simp [start, none]
  | full => simp [start]
  | killed => simp [start, linked]
  | throws _ _ _ swept threw =>
    rw [← swept, sweep_quiet recorder_returns] at threw
    cases threw
  | leaves _ _ _ swept =>
    have balance := sweep_balances wf (m.stamp ticket) ticket.qty id swept
    rw [if_congr (and_iff_left rfl) rfl rfl]
    exact balance
  | @rests o free s _ _ _ swept =>
    have balance := sweep_balances wf (m.stamp ticket) ticket.qty id swept
    have after := wf.swept ticket.side.opposite recorder (m.stamp ticket) ticket.qty []
    rw [swept] at after
    have linked : (((m.taken ticket free).swept ticket.side.opposite s).rest
        ⟨o, { m.stamp ticket with qty := s.left }⟩).linked.Perm
          (_ :: (m.swept ticket.side.opposite s).linked) :=
            rest_linked (after.ladders ticket.side).sorted
    rw [if_congr (and_iff_left rfl) rfl rfl, remaining_perm id linked, remaining_cons]
    refine balance.trans ?_
    show remaining id (m.swept ticket.side.opposite s).linked + bought id s.seen + sold id s.seen +
        (if ticket.id = id then s.left.toNat else 0) =
      (if ticket.id = id then s.left.toNat else 0) +
        remaining id (m.swept ticket.side.opposite s).linked + bought id s.seen + sold id s.seen +
        if ticket.id = id then 0 else 0
    rw [ite_self]
    omega

theorem leftOf_resting (distinct : m.slots.Nodup) {order : Resting} (member : order ∈ m.linked)
    {id : OrderId}
    (entry : m.index.lookup id = some order.addr) : m.leftOf id = order.val.qty := by
  simp only [leftOf, entry, find_linked distinct member]

/-- **One cancel.** -/
theorem cancel_balances (wf : m.Wf capacity held) (other id : OrderId) :
    remaining id m.linked =
      remaining id (m.cancel other).1.linked +
        if other = id then (m.leftOf other).toNat else 0 := by
  have ends := cancel_outcome wf other
  generalize m.cancel other = done at ends ⊢
  cases ends with
  | absent unknown => simp [leftOf, unknown]
  | leaves member entry name leaves =>
    subst name
    rw [leftOf_resting wf.distinct member entry, remaining_perm id (cancel_linked leaves),
      remaining_cons, Nat.add_comm]
    rfl

/-- **One entry.** -/
theorem record_balances (wf : m.Wf capacity held) (call : Call) (id : OrderId) :
    remaining id m.linked + (m.record call).2.submitted id =
      remaining id (m.record call).1.linked + bought id (m.record call).2.reply.trades +
        sold id (m.record call).2.reply.trades + (m.record call).2.cancels id +
        (m.record call).2.dropped id := by
  cases call with
  | submit ticket =>
    have balance := submit_balances wf ticket id rfl
    have ret := m.submit_ret recorder_returns ticket []
    simp only [record, handle, Call.entry, Entry.submitted, Entry.cancels, Entry.dropped, ret,
      Option.getD_some, Option.some_inj] at balance ⊢
    exact balance
  | cancel other =>
    have balance := cancel_balances wf other id
    simp only [record, handle, Call.entry, Entry.submitted, Entry.cancels, Entry.dropped]
    rw [balance]
    rfl

/-- What a submit drops is not of a limit order, and what it reports is positive. -/
theorem submit_sound (wf : m.Wf capacity held) (ticket : Ticket) {done : Submitted (List Trade)}
    (submitted : m.submit ticket recorder [] = done) :
    (done.dropped ≠ 0 → ticket.type ≠ .limit) ∧ ∀ trade ∈ done.seen, 0 < trade.qty := by
  have reports := sweep_reports (m.stamp ticket) _ ticket.qty [] (P := fun trade => 0 < trade.qty)
    (wf.ladders ticket.side.opposite) (List.forall_mem_nil _) fun _ _ _ _ positive => positive
  have ends := m.submit_outcome recorder ticket []
  rw [submitted] at ends
  cases ends with
  | nothing | full => exact ⟨absurd rfl, List.forall_mem_nil _⟩
  | killed _ _ killed => exact ⟨fun _ => by simp [killed.1], List.forall_mem_nil _⟩
  | throws _ _ _ swept threw =>
    rw [← swept, sweep_quiet recorder_returns] at threw
    cases threw
  | leaves _ _ _ swept quiet rests =>
    rw [swept] at reports
    exact ⟨fun dropped limit => rests ⟨dropped, limit⟩, reports⟩
  | rests _ _ _ swept =>
    rw [swept] at reports
    exact ⟨absurd rfl, reports⟩

end Market

/-! ### Runs -/

/-- What the entries of a run say, together with the orders that are in the book after it. -/
structure Balance (calls : List Call) (entries : List Entry) (orders : List Resting) : Prop where
  calls : entries.map Entry.call = calls
  balance : ∀ id, total (Entry.submitted id) entries =
    remaining id orders + bought id (tradesOf entries) + sold id (tradesOf entries) +
      total (Entry.cancels id) entries + total (Entry.dropped id) entries
  dropped : ∀ entry ∈ entries, ∀ ticket, entry.call = .submit ticket → entry.reply.dropped ≠ 0 →
    ticket.type ≠ .limit
  positive : ∀ trade ∈ tradesOf entries, 0 < trade.qty

theorem total_snoc (account : Entry → Nat) (entries : List Entry) (entry : Entry) :
    total account (entries ++ [entry]) = total account entries + account entry := by
  simp [total]

theorem tradesOf_snoc (entries : List Entry) (entry : Entry) :
    tradesOf (entries ++ [entry]) = tradesOf entries ++ entry.reply.trades := by
  simp [tradesOf]

/-- **The entries of a run balance**, whichever ids it uses: by induction along the run. -/
theorem entries_balance {capacity : Nat} (positive : 0 < capacity) (calls : List Call) :
    (Machine.answers Market.record (Market.new capacity) calls).1.Wf capacity [] ∧
      Balance calls (Machine.answers Market.record (Market.new capacity) calls).2
        (Machine.answers Market.record (Market.new capacity) calls).1.linked := by
  apply Machine.answers_history
    (P := fun calls entries (m : Market) => m.Wf capacity [] ∧ Balance calls entries m.linked)
  · exact ⟨(Stands.new positive).wf, rfl, fun _ => rfl, List.forall_mem_nil _,
      List.forall_mem_nil _⟩
  · intro calls entries m call ⟨wf, before⟩
    refine ⟨Market.handle_wf wf call, ?_, fun id => ?_, ?_, ?_⟩
    · rw [List.map_append, before.calls]
      rfl
    · have one := m.record_balances wf call id
      have all := before.balance id
      rw [total_snoc, total_snoc, total_snoc, tradesOf_snoc, bought_append, sold_append]
      omega
    · refine List.forall_mem_append.mpr ⟨before.dropped, List.forall_mem_singleton.mpr ?_⟩
      rintro ticket (rfl : call = _) dropped
      exact (m.submit_sound wf ticket rfl).1 dropped
    · rw [tradesOf_snoc]
      refine List.forall_mem_append.mpr ⟨before.positive, ?_⟩
      cases call with
      | submit ticket => exact (m.submit_sound wf ticket rfl).2
      | cancel id => exact List.forall_mem_nil _

section Stands

variable {capacity : Nat} {b : OrderBook} {m : Market}

theorem Stands.leftOf (stands : Stands capacity [] b m) (id : OrderId) :
    b.leftOf id = m.leftOf id := by
  cases entry : m.index.lookup id with
  | none => simp only [OrderBook.leftOf, Market.leftOf, stands.rep.index, entry]
  | some o =>
    obtain ⟨order, member, rfl, _⟩ := stands.wf.index id o entry
    obtain ⟨x, here, (value : x.toTicket = order.val)⟩ := stands.rep.live member
    rw [Market.leftOf_resting stands.distinct member entry, ← value]
    simp only [OrderBook.leftOf, stands.rep.index, entry, here]

theorem Stands.record (stands : Stands capacity [] b m) (call : Call) :
    ∃ b', b.record call = .ok (b', (m.record call).2) ∧
      Stands capacity [] b' (m.record call).1 := by
  obtain ⟨b', did, rep⟩ := handle_spec stands.rep stands.wf call
  refine ⟨b', ?_, rep, Market.handle_wf stands.wf call⟩
  have left : b.leftOf = m.leftOf := funext stands.leftOf
  simp only [OrderBook.record, did, Mem.ok_bind, Mem.pure_eq, Market.record, left]

end Stands

/-- A sum to which, of the elements with some key, only one contributes. -/
theorem sum_of_once {α κ : Type} {key : α → Option κ} {k : κ} {account : α → Nat}
    (others : ∀ a, key a ≠ some k → account a = 0) {as : List α}
      (once : (as.filterMap key).Nodup) {a : α}
    (member : a ∈ as) (named : key a = some k) : (as.map account).sum = account a := by
  obtain ⟨before, after, rfl⟩ := List.append_of_mem member
  rw [List.filterMap_append, List.filterMap_cons_some named, List.nodup_middle, List.nodup_cons,
    List.mem_append, not_or] at once
  have none : ∀ part : List α, k ∉ part.filterMap key → (part.map account).sum = 0 := by
    intro part absent
    refine List.sum_eq_zero_iff_forall_eq_nat.mpr (List.forall_mem_map.mpr fun other inPart =>
      others other ?_)
    exact fun same => absent (List.mem_filterMap.mpr ⟨other, inPart, same⟩)
  rw [List.map_append, List.map_cons, List.sum_append, List.sum_cons, none before once.1.1,
    none after once.1.2]
  omega

/-- **The ledger of a run** that submits no id twice. -/
theorem run_ledger {capacity : Nat} (positive : 0 < capacity) {calls : List Call}
    (once : (calls.filterMap Call.submits).Nodup) :
    ∃ b entries, Machine.run OrderBook.record (OrderBook.new capacity) calls = .ok (b, entries) ∧
      entries.map Entry.call = calls ∧
      (∀ entry ∈ entries, ∀ ticket, entry.call = .submit ticket → entry.reply.ret = true →
        ticket.qty.toNat = bought ticket.id (tradesOf entries) + sold ticket.id (tradesOf entries) +
          remaining ticket.id b.orders + total (Entry.cancels ticket.id) entries +
          entry.reply.dropped.toNat) ∧
      (∀ entry ∈ entries, ∀ ticket, entry.call = .submit ticket → entry.reply.dropped ≠ 0 →
        ticket.type ≠ .limit) ∧
      ∀ trade ∈ tradesOf entries, 0 < trade.qty := by
  have simulates : ∀ b m call, Stands capacity [] b m → True →
      ∃ b', b.record call = .ok (b', (m.record call).2) ∧ Stands capacity [] b' (m.record call).1 :=
    fun b m call stands _ => stands.record call
  obtain ⟨b, ran, stands⟩ := Machine.run_simulates simulates (Stands.new positive)
    (Machine.Allowed.always calls _)
  obtain ⟨_, balance⟩ := entries_balance positive calls
  refine ⟨b, _, ran, balance.calls, ?_, balance.dropped, balance.positive⟩
  rw [orders_eq stands.rep stands.distinct]
  generalize (Machine.answers Market.record (Market.new capacity) calls).2 = entries at balance
  intro entry member ticket submit accepted
  have once' : (entries.filterMap fun entry => entry.call.submits).Nodup := by
    rw [← balance.calls, List.filterMap_map] at once
    exact once
  have named : entry.call.submits = some ticket.id := by simp [submit, Call.submits]
  have brought : total (Entry.submitted ticket.id) entries = ticket.qty.toNat := by
    refine (sum_of_once (fun other different => ?_) once' member named).trans ?_
    · cases shape : other.call <;> simp_all [Entry.submitted, Call.submits]
    · simp [Entry.submitted, submit, accepted]
  have dropped : total (Entry.dropped ticket.id) entries = entry.reply.dropped.toNat := by
    refine (sum_of_once (fun other different => ?_) once' member named).trans ?_
    · cases shape : other.call <;> simp_all [Entry.dropped, Call.submits]
    · simp [Entry.dropped, submit]
  have account := balance.balance ticket.id
  omega

set_option maxRecDepth 4000 in
/-- Four orders, one of them filled in part and then cancelled. -/
theorem run_ledger_partial :
    ∃ b entries, Machine.run OrderBook.record (OrderBook.new 4)
        [.submit ⟨1, 100, 5, 0, .sell, .limit⟩, .submit ⟨2, 101, 7, 0, .buy, .limit⟩,
          .submit ⟨3, 0, 1, 0, .sell, .market⟩, .submit ⟨4, 101, 9, 0, .sell, .ioc⟩, .cancel 2] =
        .ok (b, entries) ∧
      ∀ entry ∈ entries, ∀ ticket, entry.call = .submit ticket → entry.reply.ret = true →
        ticket.qty.toNat = bought ticket.id (tradesOf entries) + sold ticket.id (tradesOf entries) +
          remaining ticket.id b.orders + total (Entry.cancels ticket.id) entries +
          entry.reply.dropped.toNat :=
  have ⟨b, entries, ran, _, balance, _⟩ := run_ledger (by decide) (by decide)
  ⟨b, entries, ran, balance⟩

end Ob
