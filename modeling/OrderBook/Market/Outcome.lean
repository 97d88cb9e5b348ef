/-
**How a submit ends.**

A call of `submit` ends in one of six ways, and `Outcome` says for each when it is taken and what it
leaves. Properties of `submit` are by cases on it (`submit_outcome`); a callback that returns rules
out the last (`sweep_quiet`).
-/

import OrderBook.Market.Depth
import OrderBook.Market.Invariant

namespace Ob

open Links

/-! ### Callbacks that return -/

section Returns

variable {σ : Type} {onTrade : TradeCallback σ} (returns : ∀ seen trade, onTrade seen trade ≠ none)

include returns

theorem sweepQueue_quiet (taker : Ticket) (price : Price) (queue : List Resting)
    (total left : Quantity) (seen : σ) :
    (sweepQueue onTrade taker price queue total left seen).threw = false := by
  fun_induction sweepQueue onTrade taker price queue total left seen with
  | case1 | case2 | case5 => rfl
  | case3 maker queue total left seen goes fill throws => exact absurd throws (returns _ _)
  | case4 maker queue total left seen goes fill seen' returned gone s ih => exact ih

theorem sweep_quiet (taker : Ticket) (ladder : Ladder) (left : Quantity) (seen : σ) :
    (sweep onTrade taker ladder left seen).threw = false := by
  fun_induction sweep onTrade taker ladder left seen with
  | case1 | case2 | case5 => rfl
  | case3 rung ladder left seen goes here rung' threw =>
    exact absurd threw (Bool.not_eq_true _ ▸ sweepQueue_quiet returns _ _ _ _ _ _)
  | case4 rung ladder left seen goes here quiet emptied s ih => exact ih

end Returns

theorem recorder_returns : ∀ seen trade, OrderBook.recorder seen trade ≠ none :=
  fun _ _ => Option.some_ne_none _

namespace Market

variable {σ : Type} {m : Market} {ticket : Ticket}

/-- The market while an order holds the slot it has taken. -/
def taken (m : Market) (ticket : Ticket) (free : List Ptr) : Market :=
  { m with free := free, clock := m.tick ticket }

/-- The ends of a submit. -/
inductive Outcome (m : Market) (ticket : Ticket) (onTrade : TradeCallback σ) (seen : σ) :
    Submitted σ → Prop
  | nothing (none : ticket.qty = 0) : Outcome m ticket onTrade seen ⟨m, seen, some true, 0⟩
  | full (some_qty : ticket.qty ≠ 0) (full : m.free = []) :
      Outcome m ticket onTrade seen ⟨m, seen, some false, 0⟩
  | killed (some_qty : ticket.qty ≠ 0) (some_free : m.free ≠ []) (killed : m.kills ticket) :
      Outcome m ticket onTrade seen
        ⟨{ m with clock := m.tick ticket }, seen, some true, ticket.qty⟩
  | rests {o : Ptr} {free : List Ptr} {s : Sweep σ} (some_qty : ticket.qty ≠ 0)
      (shape : m.free = o :: free) (lives : ¬m.kills ticket)
      (swept : sweep onTrade (m.stamp ticket) (m.ladder ticket.side.opposite) ticket.qty seen = s)
      (quiet : s.threw = false) (left : s.left ≠ 0) (limit : ticket.type = .limit) :
      Outcome m ticket onTrade seen
        ⟨((m.taken ticket free).swept ticket.side.opposite s).rest
          ⟨o, { m.stamp ticket with qty := s.left }⟩, s.seen, some true, 0⟩
  | leaves {o : Ptr} {free : List Ptr} {s : Sweep σ} (some_qty : ticket.qty ≠ 0)
      (shape : m.free = o :: free) (lives : ¬m.kills ticket)
      (swept : sweep onTrade (m.stamp ticket) (m.ladder ticket.side.opposite) ticket.qty seen = s)
      (quiet : s.threw = false) (rests : ¬(s.left ≠ 0 ∧ ticket.type = .limit)) :
      Outcome m ticket onTrade seen
        ⟨{ (m.taken ticket free).swept ticket.side.opposite s with
            free := o :: ((m.taken ticket free).swept ticket.side.opposite s).free },
          s.seen, some true, s.left⟩
  | throws {o : Ptr} {free : List Ptr} {s : Sweep σ} (some_qty : ticket.qty ≠ 0)
      (shape : m.free = o :: free) (lives : ¬m.kills ticket)
      (swept : sweep onTrade (m.stamp ticket) (m.ladder ticket.side.opposite) ticket.qty seen = s)
      (threw : s.threw = true) :
      Outcome m ticket onTrade seen
        ⟨(m.taken ticket free).swept ticket.side.opposite s, s.seen, none, 0⟩

theorem submit_nothing (onTrade : TradeCallback σ) (m : Market) (seen : σ)
    (none : ticket.qty = 0) : m.submit ticket onTrade seen = ⟨m, seen, some true, 0⟩ :=
  if_pos none

theorem submit_full (onTrade : TradeCallback σ) (seen : σ) (some_qty : ticket.qty ≠ 0)
    (full : m.free = []) : m.submit ticket onTrade seen = ⟨m, seen, some false, 0⟩ := by
  rw [submit, if_neg some_qty, full]

/-- An order that takes a slot, by what its sweep leaves of it. -/
theorem submit_swept (onTrade : TradeCallback σ) {seen : σ} {o : Ptr} {free : List Ptr}
    {s : Sweep σ}
    (some_qty : ticket.qty ≠ 0) (shape : m.free = o :: free) (lives : ¬m.kills ticket)
    (swept : sweep onTrade (m.stamp ticket) (m.ladder ticket.side.opposite) ticket.qty seen = s) :
    m.submit ticket onTrade seen =
      if s.threw then ⟨(m.taken ticket free).swept ticket.side.opposite s, s.seen, none, 0⟩
      else if s.left > 0 ∧ ticket.type = .limit then
        ⟨((m.taken ticket free).swept ticket.side.opposite s).rest
          ⟨o, { m.stamp ticket with qty := s.left }⟩, s.seen, some true, 0⟩
      else ⟨{ (m.taken ticket free).swept ticket.side.opposite s with
        free := o :: ((m.taken ticket free).swept ticket.side.opposite s).free },
        s.seen, some true, s.left⟩ := by
  rw [submit, if_neg some_qty, shape, ← swept]
  exact if_neg lives

/-- **A submit ends in one of these ways.** -/
theorem submit_outcome (onTrade : TradeCallback σ) (m : Market) (ticket : Ticket) (seen : σ) :
    Outcome m ticket onTrade seen (m.submit ticket onTrade seen) := by
  by_cases nothing : ticket.qty = 0
  · rw [submit_nothing onTrade m seen nothing]
    exact .nothing nothing
  cases shape : m.free with
  | nil =>
    rw [submit_full onTrade seen nothing shape]
    exact .full nothing shape
  | cons o free =>
    by_cases killed : m.kills ticket
    · have ended : m.submit ticket onTrade seen =
          ⟨{ m with clock := m.tick ticket }, seen, some true, ticket.qty⟩ := by
        rw [submit, if_neg nothing, shape]
        exact if_pos killed
      rw [ended]
      exact .killed nothing (shape ▸ List.cons_ne_nil o free) killed
    · generalize swept :
        sweep onTrade (m.stamp ticket) (m.ladder ticket.side.opposite) ticket.qty seen = s
      rw [submit_swept onTrade nothing shape killed swept]
      cases threw : s.threw with
      | true => exact .throws nothing shape killed swept threw
      | false =>
        simp only [Bool.false_eq_true, if_false]
        by_cases rests : s.left > 0 ∧ ticket.type = .limit
        · rw [if_pos rests]
          exact .rests nothing shape killed swept threw (UInt64.pos_iff_ne_zero.mp rests.1) rests.2
        · rw [if_neg rests]
          rw [gt_iff_lt, UInt64.pos_iff_ne_zero] at rests
          exact .leaves nothing shape killed swept threw rests

/-- A submit whose callback returns is rejected for want of a slot only. -/
theorem submit_ret {onTrade : TradeCallback σ} (returns : ∀ seen trade, onTrade seen trade ≠ none)
    (m : Market) (ticket : Ticket) (seen : σ) :
    (m.submit ticket onTrade seen).ret = some (decide (ticket.qty = 0 ∨ m.free ≠ [])) := by
  have ends := m.submit_outcome onTrade ticket seen
  generalize m.submit ticket onTrade seen = done at ends ⊢
  cases ends with
  | nothing none => simp only [none, true_or, decide_true]
  | full some_qty full =>
    simp only [some_qty, full, ne_eq, not_true_eq_false, or_self, decide_false]
  | killed some_qty some_free killed =>
    simp only [some_free, ne_eq, not_false_eq_true, or_true, decide_true]
  | rests some_qty shape =>
    simp only [shape, ne_eq, reduceCtorEq, not_false_eq_true, or_true, decide_true]
  | leaves some_qty shape =>
    simp only [shape, ne_eq, reduceCtorEq, not_false_eq_true, or_true, decide_true]
  | throws _ _ _ swept threw =>
    rw [← swept, sweep_quiet returns] at threw
    cases threw

/-- A submit whose callback returns loses no slot. -/
theorem submit_wf_returns {capacity : Nat} {held : List Ptr} (wf : m.Wf capacity held)
    {onTrade : TradeCallback σ} (returns : ∀ seen trade, onTrade seen trade ≠ none)
    (ticket : Ticket) (seen : σ) : (m.submit ticket onTrade seen).market.Wf capacity held := by
  refine (m.submit_wf onTrade seen wf ticket).1 ?_
  rw [m.submit_ret returns]
  exact Option.some_ne_none _

/-- A recorded call keeps the invariant and loses no slot. -/
theorem handle_wf {capacity : Nat} {held : List Ptr} (wf : m.Wf capacity held)
    (call : OrderBook.Call) : (m.handle call).1.Wf capacity held := by
  cases call with
  | submit ticket => exact submit_wf_returns wf recorder_returns ticket []
  | cancel id => exact m.cancel_wf wf id

/-- The check compares the order with the cached depth. -/
theorem kills_iff {capacity : Nat} {held : List Ptr} (wf : m.Wf capacity held)
    (fok : ticket.type = .fok) :
    m.kills ticket ↔ cachedDepth ticket (m.ladder ticket.side.opposite) < ticket.qty.toNat := by
  have limited : ticket.type ≠ .market := by simp [fok]
  have toNat := shortfall_toNat limited _ (wf.ladders ticket.side.opposite) ticket.qty
  rw [kills, and_iff_right fok, gt_iff_lt, UInt64.lt_iff_toNat_lt, toNat]
  exact Nat.sub_pos_iff_lt

end Market

end Ob
