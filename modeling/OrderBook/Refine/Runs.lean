/-
**Runs of calls.**

`Stands`: a book represents a market that satisfies the invariant. A new book stands for the empty
market and every call keeps this, so a list of calls runs to its end without a fault:

* `run_stands` — calls with any callbacks, throwing ones included.
* `run_returns` — calls whose callbacks return: no slot is lost.
* `run_handles` — calls with the recording callback: the replies are those of the market.
-/

import OrderBook.Library.Machine
import OrderBook.Market.Outcome
import OrderBook.Refine.View

namespace Ob

/-- A book and the well-formed market it represents; the slots in `held` were lost to callbacks that
threw. -/
structure Stands (capacity : Nat) (held : List Ptr) (b : OrderBook) (m : Market) : Prop where
  rep : Rep b m
  wf : m.Wf capacity held

namespace Stands

variable {capacity : Nat} {held : List Ptr} {b : OrderBook} {m : Market}

theorem new (positive : 0 < capacity) :
    Stands capacity [] (OrderBook.new capacity) (Market.new capacity) where
  rep := Rep.new positive
  wf := by
    refine ⟨fun side => ⟨List.Pairwise.nil, List.forall_mem_nil _⟩, ?_, ?_, List.forall_mem_nil _⟩
    · exact (List.append_nil (List.range capacity)).symm ▸ .refl _
    · exact fun id o found => by cases found

theorem distinct (stands : Stands capacity held b m) : m.slots.Nodup := stands.wf.distinct

/-- Books that stand for the same market, but for the clock, are alike. -/
theorem alike {held' : List Ptr} {b' : OrderBook} {m' : Market} (stands : Stands capacity held b m)
    (stands' : Stands capacity held' b' m') (ladders : ∀ side, m.ladder side = m'.ladder side)
    (index : m.index = m'.index) (free : m.free = m'.free) : b.Alike b' where
  ladders side := by
    rw [ladder_eq stands.rep stands.distinct, ladder_eq stands'.rep stands'.distinct, ladders]
  index := by rw [stands.rep.index, stands'.rep.index, index]
  slots := by
    rw [freeSlots_eq stands.rep stands.distinct, freeSlots_eq stands'.rep stands'.distinct, free]

theorem cancel (stands : Stands capacity held b m) (id : OrderId) :
    ∃ b', b.cancel id = .ok (b', (m.cancel id).2) ∧ Stands capacity held b' (m.cancel id).1 := by
  obtain ⟨b', cancelled, rep⟩ :=
    cancel_spec stands.rep stands.wf.ladders stands.distinct stands.wf.index id
  exact ⟨b', cancelled, rep, m.cancel_wf stands.wf id⟩

theorem submitted {σ : Type} (stands : Stands capacity held b m) (onTrade : TradeCallback σ)
    (ticket : Ticket) (seen : σ) :
    ∃ done, b.submit ticket onTrade seen = .ok done ∧
      SubmittedRep done (m.submit ticket onTrade seen) :=
  submit_spec onTrade seen stands.rep (fun side => (stands.wf.ladders side).sorted)
    stands.distinct ticket

theorem submit {σ : Type} (stands : Stands capacity held b m) {onTrade : TradeCallback σ}
    (returns : ∀ seen trade, onTrade seen trade ≠ none) (ticket : Ticket) (seen : σ) :
    ∃ done, b.submit ticket onTrade seen = .ok done ∧
      done.seen = (m.submit ticket onTrade seen).seen ∧
      done.ret = (m.submit ticket onTrade seen).ret ∧
      Stands capacity held done.book (m.submit ticket onTrade seen).market := by
  obtain ⟨done, submitted, said⟩ := stands.submitted onTrade ticket seen
  exact ⟨done, submitted, said.seen, said.ret, said.book,
    Market.submit_wf_returns stands.wf returns ticket seen⟩

/-- A submit with any callback; one that throws loses a slot. -/
theorem submit_any {σ : Type} (stands : Stands capacity held b m) (onTrade : TradeCallback σ)
    (ticket : Ticket) (seen : σ) :
    ∃ done held', b.submit ticket onTrade seen = .ok done ∧
      SubmittedRep done (m.submit ticket onTrade seen) ∧
      Stands capacity held' done.book (m.submit ticket onTrade seen).market := by
  obtain ⟨done, submitted, said⟩ := stands.submitted onTrade ticket seen
  obtain ⟨returned, threw⟩ := m.submit_wf onTrade seen stands.wf ticket
  by_cases ret : (m.submit ticket onTrade seen).ret = none
  · obtain ⟨o, lost⟩ := threw ret
    exact ⟨done, o :: held, submitted, said, said.book, lost⟩
  · exact ⟨done, held, submitted, said, said.book, returned ret⟩

/-- A recorded call. -/
theorem handle (stands : Stands capacity held b m) (call : OrderBook.Call) :
    ∃ b', b.handle call = .ok (b', (m.handle call).2) ∧
      Stands capacity held b' (m.handle call).1 := by
  obtain ⟨b', did, rep⟩ := handle_spec stands.rep stands.wf call
  exact ⟨b', did, rep, Market.handle_wf stands.wf call⟩

end Stands

/-! ### One call -/

section Call

variable {capacity : Nat} {held : List Ptr} {b : OrderBook} {m : Market}

theorem perform_spec (stands : Stands capacity held b m) (request : OrderBook.Request) :
    ∃ b', b.perform request = .ok (b', (m.perform request).2) ∧ Rep b' (m.perform request).1 := by
  cases request with
  | submit ticket σ onTrade seen =>
    obtain ⟨done, submitted, said⟩ := stands.submitted onTrade ticket seen
    refine ⟨done.book, ?_, said.book⟩
    simp only [OrderBook.perform, submitted, Mem.ok_bind, Mem.pure_eq, Market.perform, said.ret]
  | cancel id =>
    obtain ⟨b', cancelled, stands'⟩ := stands.cancel id
    refine ⟨b', ?_, stands'.rep⟩
    simp only [OrderBook.perform, cancelled, Mem.ok_bind, Mem.pure_eq, Market.perform]

theorem perform_wf (wf : m.Wf capacity held) (request : OrderBook.Request) :
    ∃ held', (m.perform request).1.Wf capacity held' := by
  cases request with
  | submit ticket σ onTrade seen =>
    obtain ⟨returned, threw⟩ := m.submit_wf onTrade seen wf ticket
    by_cases ret : (m.submit ticket onTrade seen).ret = none
    · obtain ⟨o, lost⟩ := threw ret
      exact ⟨o :: held, lost⟩
    · exact ⟨held, returned ret⟩
  | cancel id => exact ⟨held, m.cancel_wf wf id⟩

/-- A call that returns loses no slot. -/
theorem perform_wf_returns (wf : m.Wf capacity held) {request : OrderBook.Request}
    (returns : request.Returns) : (m.perform request).1.Wf capacity held := by
  cases request with
  | submit ticket σ onTrade seen => exact Market.submit_wf_returns wf returns ticket seen
  | cancel id => exact m.cancel_wf wf id

end Call

/-! ### Runs -/

section Runs

variable {capacity : Nat}

/-- **Any calls.** They run without a fault, and the book still stands for a market. -/
theorem run_stands (positive : 0 < capacity) (requests : List OrderBook.Request) :
    ∃ b rets, Machine.run OrderBook.perform (OrderBook.new capacity) requests = .ok (b, rets) ∧
      ∃ m held, Stands capacity held b m := by
  have simulates : ∀ b m request, (∃ held, Stands capacity held b m) → True →
      ∃ b', b.perform request = .ok (b', (m.perform request).2) ∧
        ∃ held, Stands capacity held b' (m.perform request).1 := by
    rintro b m request ⟨held, stands⟩ -
    obtain ⟨b', did, rep⟩ := perform_spec stands request
    obtain ⟨held', wf⟩ := perform_wf stands.wf request
    exact ⟨b', did, held', rep, wf⟩
  obtain ⟨b, ran, held, stands⟩ := Machine.run_simulates simulates ⟨[], Stands.new positive⟩
    (Machine.Allowed.always requests _)
  exact ⟨b, _, ran, _, held, stands⟩

/-- **Calls that return.** Every slot is free or linked. -/
theorem run_returns (positive : 0 < capacity) {requests : List OrderBook.Request}
    (returns : ∀ request ∈ requests, request.Returns) :
    ∃ b rets, Machine.run OrderBook.perform (OrderBook.new capacity) requests = .ok (b, rets) ∧
      ∃ m, Stands capacity [] b m := by
  have simulates : ∀ b m request, Stands capacity [] b m → OrderBook.Request.Returns request →
      ∃ b', b.perform request = .ok (b', (m.perform request).2) ∧
        Stands capacity [] b' (m.perform request).1 := by
    intro b m request stands returned
    obtain ⟨b', did, rep⟩ := perform_spec stands request
    exact ⟨b', did, rep, perform_wf_returns stands.wf returned⟩
  obtain ⟨b, ran, stands⟩ := Machine.run_simulates simulates (Stands.new positive)
    (Machine.Allowed.of_forall returns _)
  exact ⟨b, _, ran, _, stands⟩

/-- **Recorded calls.** The replies are those of the market. -/
theorem run_handles (positive : 0 < capacity) (calls : List OrderBook.Call) :
    ∃ b, Machine.run OrderBook.handle (OrderBook.new capacity) calls =
        .ok (b, (Machine.answers Market.handle (Market.new capacity) calls).2) ∧
      Stands capacity [] b (Machine.answers Market.handle (Market.new capacity) calls).1 := by
  have simulates : ∀ b m call, Stands capacity [] b m → True →
      ∃ b', b.handle call = .ok (b', (m.handle call).2) ∧
        Stands capacity [] b' (m.handle call).1 := fun b m call stands _ => stands.handle call
  exact Machine.run_simulates simulates (Stands.new positive) (Machine.Allowed.always calls _)

end Runs

end Ob
