/-
**Buying and selling exchanged.**

`flip` exchanges the two sides of a market and negates every price. Every operation on a side
commutes with it, and with them the calls:

* `submit_flip`, `cancel_flip` — one call.
* `handle_flip` — one recorded call, whose reply has its prices negated.

Negation turns the order of prices round except at the least one, which is its own negation, so the
prices of orders are above it.
-/

import OrderBook.Market.Outcome

namespace Ob

/-! ### Exchanging the sides -/

def Ticket.flip (ticket : Ticket) : Ticket :=
  { ticket with side := ticket.side.opposite, price := -ticket.price }

def Trade.flip (trade : Trade) : Trade := { trade with price := -trade.price }

def Resting.flip (order : Resting) : Resting := ⟨order.addr, order.val.flip⟩

def Rung.flip (rung : Rung) : Rung := ⟨-rung.price, rung.total, rung.queue.map Resting.flip⟩

def Ladder.flip (ladder : Ladder) : Ladder := ladder.map Rung.flip

def Market.flip (m : Market) : Market :=
  { m with ladder := fun side => (m.ladder side.opposite).flip }

def OrderBook.Call.flip : OrderBook.Call → OrderBook.Call
  | .submit ticket => .submit ticket.flip
  | .cancel id => .cancel id

def OrderBook.Reply.flip (reply : OrderBook.Reply) : OrderBook.Reply :=
  { reply with trades := reply.trades.map Trade.flip }

/-! ### Prices -/

/-- A price whose negation is a price. -/
def Negatable (p : Price) : Prop := Int64.minValue < p

theorem Negatable.toInt_neg {p : Price} (negatable : Negatable p) : (-p).toInt = -p.toInt := by
  have above := Int64.lt_iff_toInt_lt.mp negatable
  have below := p.toInt_lt
  rw [Int64.toInt_minValue] at above
  rw [Int64.toInt_neg, Int.bmod_eq_of_le (by omega) (by omega)]

theorem rank_flip {side : Side} {p : Price} (negatable : Negatable p) :
    rank side.opposite (-p) = rank side p := by
  cases side <;> simp only [rank, Side.opposite, negatable.toInt_neg, Int.neg_neg]

theorem priceCrosses_flip {side : Side} {p q : Price} (left : Negatable p) (right : Negatable q) :
    priceCrosses side.opposite (-p) (-q) = priceCrosses side p q := by
  rw [Bool.eq_iff_iff, priceCrosses_iff, priceCrosses_iff, rank_flip left, rank_flip right]

theorem Ticket.accepts_flip {taker : Ticket} {p : Price} (limit : Negatable taker.price)
    (negatable : Negatable p) : taker.flip.accepts (-p) = taker.accepts p := by
  rw [accepts, accepts, flip, priceCrosses_flip limit negatable]

/-- The price of a submitted order has a negation. -/
def OrderBook.Call.Negatable : OrderBook.Call → Prop
  | .submit ticket => Ob.Negatable ticket.price
  | .cancel _ => True

instance : ∀ call : OrderBook.Call, Decidable call.Negatable
  | .submit ticket => inferInstanceAs (Decidable (Int64.minValue < ticket.price))
  | .cancel _ => inferInstanceAs (Decidable True)

/-- Every rung has a price whose negation is a price. -/
def Ladder.Negatable (ladder : Ladder) : Prop := ∀ rung ∈ ladder, Ob.Negatable rung.price

theorem Ladder.Negatable.tail {rung : Rung} {ladder : Ladder}
    (negatable : Ladder.Negatable (rung :: ladder)) : ladder.Negatable :=
  (List.forall_mem_cons.mp negatable).2

/-! ### The sweep -/

section Sweep

variable {σ τ : Type} {onTrade : TradeCallback σ} {onTrade' : TradeCallback τ} {told : σ → τ}

/-- The second callback does with the negated trades what the first does with the trades. -/
def Retells (told : σ → τ) (onTrade : TradeCallback σ) (onTrade' : TradeCallback τ) : Prop :=
  ∀ seen trade, onTrade' (told seen) trade.flip = (onTrade seen trade).map told

def QueueSweep.flip (told : σ → τ) (s : QueueSweep σ) : QueueSweep τ where
  queue := s.queue.map Resting.flip
  total := s.total
  consumed := s.consumed.map Resting.flip
  left := s.left
  seen := told s.seen
  threw := s.threw

def Sweep.flip (told : σ → τ) (s : Sweep σ) : Sweep τ where
  ladder := s.ladder.flip
  consumed := s.consumed.map Resting.flip
  left := s.left
  seen := told s.seen
  threw := s.threw

theorem sweepQueue_flip (retells : Retells told onTrade onTrade') (taker : Ticket) (price : Price)
    (queue : List Resting) (total left : Quantity) (seen : σ) :
    sweepQueue onTrade' taker.flip (-price) (queue.map Resting.flip) total left (told seen) =
      (sweepQueue onTrade taker price queue total left seen).flip told := by
  induction queue generalizing total left seen with
  | nil => rfl
  | cons maker queue ih =>
    rw [List.map_cons, sweepQueue, sweepQueue]
    by_cases done : left = 0
    · rw [if_pos done, if_pos done]
      rfl
    rw [if_neg done, if_neg done]
    have told_trade : onTrade' (told seen)
        (tradeOf taker.flip maker.flip (-price) (min left maker.flip.val.qty)) = _ :=
      retells seen (tradeOf taker maker price (min left maker.val.qty))
    simp only [told_trade]
    cases onTrade seen (tradeOf taker maker price (min left maker.val.qty)) with
    | none => rfl
    | some seen' =>
      simp only [Option.map_some]
      have qty : maker.flip.val.qty = maker.val.qty := rfl
      rw [qty]
      by_cases gone : maker.val.qty - min left maker.val.qty = 0
      · simp only [if_pos gone, ih]
        rfl
      · simp only [if_neg gone]
        rfl

theorem sweep_flip (retells : Retells told onTrade onTrade') {taker : Ticket}
    (limit : Negatable taker.price) {ladder : Ladder} (negatable : ladder.Negatable)
    (left : Quantity) (seen : σ) :
    sweep onTrade' taker.flip ladder.flip left (told seen) =
      (sweep onTrade taker ladder left seen).flip told := by
  induction ladder generalizing left seen with
  | nil => rfl
  | cons rung ladder ih =>
    have price := (List.forall_mem_cons.mp negatable).1
    have rest := ih negatable.tail
    have accepts : taker.flip.accepts rung.flip.price = taker.accepts rung.price :=
      Ticket.accepts_flip limit price
    have here : sweepQueue onTrade' taker.flip rung.flip.price rung.flip.queue rung.flip.total left
        (told seen) = _ :=
      sweepQueue_flip retells taker rung.price rung.queue rung.total left seen
    unfold Ladder.flip at rest ⊢
    rw [List.map_cons, sweep, sweep, accepts]
    by_cases stops : left = 0 ∨ taker.accepts rung.price = false
    · rw [if_pos stops, if_pos stops]
      rfl
    rw [if_neg stops, if_neg stops, here]
    generalize sweepQueue onTrade taker rung.price rung.queue rung.total left seen = s
    cases threw : s.threw with
    | true =>
      simp only [QueueSweep.flip, threw, if_true]
      rfl
    | false =>
      simp only [QueueSweep.flip, threw, Bool.false_eq_true, if_false, List.map_eq_nil_iff]
      by_cases emptied : s.queue = []
      · simp only [if_pos emptied, rest]
        simp only [Sweep.flip, List.map_append]
      · simp only [if_neg emptied]
        rfl

end Sweep

/-! ### Insertion, removal and the fill-or-kill check -/

section Ladder

variable {side : Side} {order : Resting} {ladder : Ladder}

theorem insert_flip (negatable : ladder.Negatable) (price : Negatable order.val.price) :
    Ladder.insert side.opposite order.flip ladder.flip =
      (Ladder.insert side order ladder).flip := by
  induction ladder with
  | nil => rfl
  | cons rung ladder ih =>
    have rest := ih negatable.tail
    have own := (List.forall_mem_cons.mp negatable).1
    have same : rung.flip.price = order.flip.val.price ↔ rung.price = order.val.price :=
      Int64.neg_inj
    have less : rank side.opposite rung.flip.price < rank side.opposite order.flip.val.price ↔
        rank side rung.price < rank side order.val.price := by
      rw [show rung.flip.price = -rung.price from rfl,
        show order.flip.val.price = -order.val.price from rfl, rank_flip own, rank_flip price]
    unfold Ladder.flip at rest ⊢
    rw [List.map_cons, Ladder.insert, Ladder.insert]
    simp only [same, less]
    split
    · simp only [List.map_cons, Rung.flip, Rung.push, List.map_append]
      rfl
    · split
      · rfl
      · rw [rest]
        rfl

theorem remove_flip : Ladder.remove order.flip ladder.flip = (Ladder.remove order ladder).flip := by
  induction ladder with
  | nil => rfl
  | cons rung ladder ih =>
    have same : rung.flip.price = order.flip.val.price ↔ rung.price = order.val.price :=
      Int64.neg_inj
    have dropped : rung.flip.drop order.flip = (rung.drop order).flip := by
      simp only [Rung.drop, Rung.flip, List.filter_map]
      rfl
    unfold Ladder.flip at ih ⊢
    rw [List.map_cons, Ladder.remove, Ladder.remove]
    simp only [same, dropped]
    have empty : (rung.drop order).flip.queue = [] ↔ (rung.drop order).queue = [] :=
      List.map_eq_nil_iff
    simp only [empty]
    split
    · split
      · rfl
      · rfl
    · rw [ih]
      rfl

theorem shortfall_flip {price : Price} (limit : Negatable price) (negatable : ladder.Negatable)
    (needed : Quantity) :
    Ladder.shortfall side.opposite (-price) ladder.flip needed =
      Ladder.shortfall side price ladder needed := by
  induction ladder generalizing needed with
  | nil => rfl
  | cons rung ladder ih =>
    have crosses : priceCrosses side.opposite (-price) rung.flip.price =
        priceCrosses side price rung.price :=
      priceCrosses_flip limit (List.forall_mem_cons.mp negatable).1
    have rest := ih negatable.tail
    unfold Ladder.flip at rest ⊢
    rw [List.map_cons, Ladder.shortfall, Ladder.shortfall, crosses]
    simp only [rest]
    rfl

end Ladder

namespace Market

variable {m : Market}

/-! ### The market -/

/-- Every price of either side has a negation. -/
def Negatable (m : Market) : Prop := ∀ side, (m.ladder side).Negatable

theorem flip_ladder (m : Market) (side : Side) :
    m.flip.ladder side.opposite = (m.ladder side).flip := by
  show (m.ladder side.opposite.opposite).flip = _
  rw [Side.opposite_opposite]

theorem withLadder_flip (m : Market) (side : Side) (ladder : Ladder) :
    m.flip.withLadder side.opposite ladder.flip = (m.withLadder side ladder).flip := by
  unfold withLadder flip
  congr 1
  funext other
  cases side <;> cases other <;> rfl

theorem release_flip (m : Market) (makers : List Resting) :
    m.flip.release (makers.map Resting.flip) = (m.release makers).flip := by
  simp only [release, flip, List.map_map, List.foldl_map]
  rfl

theorem swept_flip {σ τ : Type} (m : Market) (side : Side) (told : σ → τ) (s : Sweep σ) :
    m.flip.swept side.opposite (s.flip told) = (m.swept side s).flip := by
  show (m.flip.withLadder side.opposite s.ladder.flip).release (s.consumed.map Resting.flip) = _
  rw [withLadder_flip, release_flip]
  rfl

theorem rest_flip {order : Resting} (negatable : (m.ladder order.val.side).Negatable)
    (price : Ob.Negatable order.val.price) : m.flip.rest order.flip = (m.rest order).flip := by
  have own : order.flip.val.side = order.val.side.opposite := rfl
  unfold rest
  rw [own, flip_ladder, insert_flip negatable price, withLadder_flip]
  rfl

section Submit

variable {σ τ : Type} {onTrade : TradeCallback σ} {onTrade' : TradeCallback τ} {told : σ → τ}
  {ticket : Ticket}

def Submitted.flip (told : σ → τ) (done : Submitted σ) : Submitted τ where
  market := done.market.flip
  seen := told done.seen
  ret := done.ret
  dropped := done.dropped

theorem kills_flip (negatable : m.Negatable) (limit : Ob.Negatable ticket.price) :
    m.flip.kills ticket.flip ↔ m.kills ticket := by
  have needed : Ladder.shortfall ticket.side.opposite (-ticket.price)
      (m.ladder ticket.side.opposite).flip ticket.qty = _ :=
    shortfall_flip limit (negatable ticket.side.opposite) ticket.qty
  rw [← flip_ladder] at needed
  unfold kills
  rw [← needed]
  rfl

theorem execute_flip (retells : Retells told onTrade onTrade') (negatable : m.Negatable)
    {taker : Ticket} (limit : Ob.Negatable taker.price) (o : Ptr) (seen : σ) :
    m.flip.execute taker.flip o onTrade' (told seen) =
      (m.execute taker o onTrade seen).flip told := by
  have swept := sweep_flip retells limit (negatable taker.side.opposite) taker.qty seen
  rw [← flip_ladder] at swept
  have swept : sweep onTrade' taker.flip (m.flip.ladder taker.flip.side.opposite) taker.flip.qty
      (told seen) = _ := swept
  unfold execute
  rw [swept]
  generalize sweep onTrade taker (m.ladder taker.side.opposite) taker.qty seen = s
  have market : m.flip.swept taker.flip.side.opposite (s.flip told) =
      (m.swept taker.side.opposite s).flip := swept_flip m taker.side.opposite told s
  have own : ((m.swept taker.side.opposite s).ladder taker.side).Negatable := by
    rw [swept_ne _ _ (Side.opposite_ne taker.side).symm]
    exact negatable taker.side
  have rested : (m.swept taker.side.opposite s).flip.rest ⟨o, { taker.flip with qty := s.left }⟩ =
      ((m.swept taker.side.opposite s).rest ⟨o, { taker with qty := s.left }⟩).flip :=
    @rest_flip _ ⟨o, { taker with qty := s.left }⟩ own limit
  simp only [market]
  cases threw : s.threw with
  | true =>
    simp only [Sweep.flip, threw, if_true]
    rfl
  | false =>
    have type : taker.flip.type = taker.type := rfl
    simp only [Sweep.flip, threw, Bool.false_eq_true, if_false, type]
    split
    · exact congrArg (fun market => (⟨market, told s.seen, some true, 0⟩ : Submitted τ)) rested
    · rfl

/-- **One submit**, with callbacks that do the same with the trades. -/
theorem submit_flip (retells : Retells told onTrade onTrade') (negatable : m.Negatable)
    (limit : Ob.Negatable ticket.price) (seen : σ) :
    m.flip.submit ticket.flip onTrade' (told seen) =
      (m.submit ticket onTrade seen).flip told := by
  have qty : ticket.flip.qty = ticket.qty := rfl
  have free : m.flip.free = m.free := rfl
  unfold submit
  rw [qty, free]
  split
  · rfl
  · cases m.free with
    | nil => rfl
    | cons o free =>
      simp only [kills_flip negatable limit]
      split
      · rfl
      · have negatable' : ({ m with free, clock := m.tick ticket } : Market).Negatable := negatable
        have limit' : Ob.Negatable (m.stamp ticket).price := limit
        exact execute_flip retells negatable' limit' o seen

end Submit

/-! ### Calls -/

section Calls

variable {capacity : Nat} {held : List Ptr}

theorem linked_flip (m : Market) : m.flip.linked.Perm (m.linked.map Resting.flip) := by
  have orders : ∀ ladder : Ladder, ladder.flip.orders = ladder.orders.map Resting.flip := by
    intro ladder
    simp only [Ladder.flip, Ladder.orders, List.flatMap_map, List.map_flatMap]
    rfl
  rw [linked, linked, List.map_append, ← orders, ← orders]
  exact List.perm_append_comm

theorem slots_flip (m : Market) : m.flip.slots.Perm m.slots := by
  refine List.Perm.append_left _ ?_
  rw [show m.linked.map Links.Cell.addr = (m.linked.map Resting.flip).map Links.Cell.addr by
    rw [List.map_map]; rfl]
  exact m.linked_flip.map _

/-- **One cancel.** -/
theorem cancel_flip (wf : m.Wf capacity held) (id : OrderId) :
    m.flip.cancel id = ((m.cancel id).1.flip, (m.cancel id).2) := by
  cases entry : m.index.lookup id with
  | none => rw [cancel_absent entry, cancel_absent (show m.flip.index.lookup id = none from entry)]
  | some o =>
    obtain ⟨order, member, rfl, _⟩ := wf.index id o entry
    have member' : order.flip ∈ m.flip.linked :=
      m.linked_flip.mem_iff.mpr (List.mem_map_of_mem member)
    rw [cancel_resting wf.distinct member entry,
      cancel_resting (m.slots_flip.nodup_iff.mpr wf.distinct) member' entry]
    have own : order.flip.val.side = order.val.side.opposite := rfl
    rw [own, flip_ladder, remove_flip, withLadder_flip]
    rfl

theorem recorder_retells : Retells (List.map Trade.flip) OrderBook.recorder OrderBook.recorder := by
  intro seen trade
  simp only [OrderBook.recorder, Option.map_some, List.map_append, List.map_cons, List.map_nil]

/-- **One recorded call.** -/
theorem handle_flip (wf : m.Wf capacity held) (negatable : m.Negatable) {call : OrderBook.Call}
    (price : call.Negatable) :
    m.flip.handle call.flip = ((m.handle call).1.flip, (m.handle call).2.flip) := by
  cases call with
  | submit ticket =>
    have limit : Ob.Negatable ticket.price := price
    have same := submit_flip recorder_retells negatable limit []
    simp only [OrderBook.Call.flip, handle]
    rw [List.map_nil] at same
    rw [same]
    rfl
  | cancel id =>
    simp only [OrderBook.Call.flip, handle, cancel_flip wf id]
    rfl

theorem negatable_with {side : Side} {ladder : Ladder} (negatable : m.Negatable)
    (here : ladder.Negatable) : (m.withLadder side ladder).Negatable :=
  forall_with (fun _ => Ladder.Negatable) negatable here

/-- The sweep of a side leaves no new price. -/
theorem swept_negatable {σ : Type} {onTrade : TradeCallback σ} {taker : Ticket} {side : Side}
    {left : Quantity} {seen : σ} (negatable : m.Negatable) :
    (m.swept side (sweep onTrade taker (m.ladder side) left seen)).Negatable := by
  refine negatable_with negatable fun rung member => ?_
  have stays := (sweep_prices onTrade taker (m.ladder side) left seen).subset
  obtain ⟨old, inside, same⟩ := List.mem_map.mp (stays (List.mem_map_of_mem member))
  exact same ▸ negatable side old inside

/-- The prices after a submit are among those before it and the order's. -/
theorem submit_negatable {σ : Type} {onTrade : TradeCallback σ} {ticket : Ticket} {seen : σ}
    (wf : m.Wf capacity held) (negatable : m.Negatable) (limit : Ob.Negatable ticket.price) :
    (m.submit ticket onTrade seen).market.Negatable := by
  have ends := m.submit_outcome onTrade ticket seen
  generalize m.submit ticket onTrade seen = done at ends ⊢
  have taken : ∀ free, (m.taken ticket free).Negatable := fun _ => negatable
  cases ends with
  | nothing | full | killed => exact negatable
  | leaves _ _ _ swept => exact swept ▸ swept_negatable (taken _)
  | throws _ _ _ swept => exact swept ▸ swept_negatable (taken _)
  | @rests o free s _ _ _ swept =>
    have gone : ((m.taken ticket free).swept ticket.side.opposite s).Negatable :=
      swept ▸ swept_negatable (taken free)
    have own : ((m.taken ticket free).swept ticket.side.opposite s).ladder ticket.side =
        m.ladder ticket.side := swept_ne _ s (Side.opposite_ne ticket.side).symm
    have joins :
        Joins ticket.side ⟨o, { m.stamp ticket with qty := s.left }⟩ (m.ladder ticket.side) _ :=
      insert_joins (wf.ladders ticket.side).sorted
    rw [← own] at joins
    refine negatable_with gone fun rung member => ?_
    rcases joins.prices rung member with here | ⟨old, inside, same⟩
    · exact here ▸ limit
    · exact same ▸ gone ticket.side old inside

theorem cancel_negatable (wf : m.Wf capacity held) (negatable : m.Negatable) (id : OrderId) :
    (m.cancel id).1.Negatable := by
  have ends := cancel_outcome wf id
  generalize m.cancel id = done at ends ⊢
  cases ends with
  | absent => exact negatable
  | leaves _ _ _ leaves =>
    refine negatable_with negatable fun rung member => ?_
    have stays := leaves.prices.subset (List.mem_map_of_mem member)
    obtain ⟨old, inside, same⟩ := List.mem_map.mp stays
    exact same ▸ negatable _ old inside

theorem handle_negatable (wf : m.Wf capacity held) (negatable : m.Negatable)
    {call : OrderBook.Call} (price : call.Negatable) : (m.handle call).1.Negatable := by
  cases call with
  | submit ticket => exact submit_negatable wf negatable price
  | cancel id => exact cancel_negatable wf negatable id

end Calls

end Market

end Ob
