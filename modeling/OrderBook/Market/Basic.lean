/-
**The market: the order book without pointers.**

Two ladders, the list of free slots, the id index and the clock; `submit` and `cancel` are the
pure counterparts of the source's. `Market.Wf` is the invariant of the whole component. It carries
the list of slots that are neither free nor linked: none between calls, the taker's during one.
-/

import OrderBook.Market.Ladder

namespace Ob

@[ext]
structure Market where
  ladder : Side → Ladder
  free : List Ptr
  index : IdIndex
  clock : Timestamp

namespace Market

def new (capacity : Nat) : Market where
  ladder := fun _ => []
  free := List.range capacity
  index := ∅
  clock := 0

/-- The resting orders of both sides. -/
def linked (m : Market) : List Resting := (m.ladder .buy).orders ++ (m.ladder .sell).orders

/-- The slots the market knows of: the free ones and those of the resting orders. -/
def slots (m : Market) : List Ptr := m.free ++ m.linked.map Links.Cell.addr

def withLadder (m : Market) (side : Side) (ladder : Ladder) : Market :=
  { m with ladder := Function.update m.ladder side ladder }

/-- Filled makers give back their slots and index entries, in the order in which they were
filled. -/
def release (m : Market) (makers : List Resting) : Market :=
  { m with
    free := (makers.map Links.Cell.addr).reverse ++ m.free
    index := makers.foldl (fun index maker => index.erase maker.val.id) m.index }

/-- An order comes to rest on its side. -/
def rest (m : Market) (order : Resting) : Market :=
  { m.withLadder order.val.side (Ladder.insert order.val.side order (m.ladder order.val.side)) with
    index := m.index.emplace order.val.id order.addr }

/-- How a call of `submit` ended; see `OrderBook.Submitted`. -/
structure Submitted (σ : Type) where
  market : Market
  seen : σ
  ret : Option Bool
  dropped : Quantity := 0

section Submit

variable {σ : Type}

/-- The market after a sweep of one side. -/
def swept (m : Market) (side : Side) (s : Sweep σ) : Market :=
  (m.withLadder side s.ladder).release s.consumed

/-- The clock after an order with this timestamp, and the order with its stamp. -/
def tick (m : Market) (ticket : Ticket) : Timestamp :=
  if ticket.ts = 0 then m.clock + 1 else m.clock

def stamp (m : Market) (ticket : Ticket) : Ticket :=
  { ticket with ts := if ticket.ts = 0 then m.tick ticket else ticket.ts }

/-- An order that holds slot `o` trades, and its remainder rests or its slot is free again. -/
def execute (m : Market) (taker : Ticket) (o : Ptr) (onTrade : TradeCallback σ) (seen : σ) :
    Submitted σ :=
  let s := sweep onTrade taker (m.ladder taker.side.opposite) taker.qty seen
  let m' := m.swept taker.side.opposite s
  if s.threw then ⟨m', s.seen, none, 0⟩
  else if s.left > 0 ∧ taker.type = .limit then
    ⟨m'.rest ⟨o, { taker with qty := s.left }⟩, s.seen, some true, 0⟩
  else ⟨{ m' with free := o :: m'.free }, s.seen, some true, s.left⟩

/-- Whether a fill-or-kill order is killed. -/
def kills (m : Market) (ticket : Ticket) : Prop :=
  ticket.type = .fok ∧
    Ladder.shortfall ticket.side ticket.price (m.ladder ticket.side.opposite) ticket.qty > 0

instance (m : Market) (ticket : Ticket) : Decidable (m.kills ticket) :=
  inferInstanceAs (Decidable (_ ∧ _))

def submit (m : Market) (ticket : Ticket) (onTrade : TradeCallback σ) (seen : σ) : Submitted σ :=
  if ticket.qty = 0 then ⟨m, seen, some true, 0⟩
  else
    match m.free with
    | [] => ⟨m, seen, some false, 0⟩
    | o :: free =>
      if m.kills ticket then ⟨{ m with clock := m.tick ticket }, seen, some true, ticket.qty⟩
      else execute { m with free, clock := m.tick ticket } (m.stamp ticket) o onTrade seen

end Submit

def cancel (m : Market) (id : OrderId) : Market × Bool :=
  match m.index.lookup id with
  | none => (m, false)
  | some o =>
    match m.linked.find? fun order => order.addr = o with
    | none => (m, false)
    | some order =>
      ({ m.withLadder order.val.side (Ladder.remove order (m.ladder order.val.side)) with
          free := o :: m.free, index := m.index.erase id }, true)

def perform (m : Market) : OrderBook.Request → Market × Option Bool
  | .submit ticket _ onTrade seen =>
    let done := m.submit ticket onTrade seen
    (done.market, done.ret)
  | .cancel id => ((m.cancel id).1, some (m.cancel id).2)

/-- A call and its reply; see `OrderBook.handle`. -/
def handle (m : Market) : OrderBook.Call → Market × OrderBook.Reply
  | .submit ticket =>
    let done := m.submit ticket OrderBook.recorder []
    (done.market, ⟨done.ret.getD false, done.seen, done.dropped⟩)
  | .cancel id => ((m.cancel id).1, ⟨(m.cancel id).2, [], 0⟩)

/-! ### Selecting a side -/

@[simp] theorem withLadder_same (m : Market) (side : Side) (ladder : Ladder) :
    (m.withLadder side ladder).ladder side = ladder := Function.update_self _ _ _

theorem withLadder_ne (m : Market) {side other : Side} (ladder : Ladder)
    (different : other ≠ side) :
    (m.withLadder side ladder).ladder other = m.ladder other := Function.update_of_ne different _ _

theorem withLadder_self {m : Market} {side : Side} {ladder : Ladder}
    (same : m.ladder side = ladder) : m.withLadder side ladder = m := by
  rw [withLadder, ← same, Function.update_eq_self]

/-- What is true of both ladders, and of the one that replaces one of them. -/
theorem forall_with {m : Market} (P : Side → Ladder → Prop) {side : Side} {ladder : Ladder}
    (each : ∀ side, P side (m.ladder side)) (here : P side ladder) (other : Side) :
    P other ((m.withLadder side ladder).ladder other) :=
  (Function.forall_update_iff m.ladder P).mpr ⟨here, fun other _ => each other⟩ other

theorem swept_same {σ : Type} (m : Market) (side : Side) (s : Sweep σ) :
    (m.swept side s).ladder side = s.ladder := withLadder_same m side s.ladder

theorem swept_ne {σ : Type} (m : Market) {side other : Side} (s : Sweep σ)
    (different : other ≠ side) : (m.swept side s).ladder other = m.ladder other :=
  withLadder_ne m s.ladder different

/-- A sweep that does nothing. -/
theorem swept_self {σ : Type} {m : Market} {side : Side} {ladder : Ladder}
    (same : m.ladder side = ladder) {left : Quantity} {seen : σ} {threw : Bool} :
    m.swept side ⟨ladder, [], left, seen, threw⟩ = m := withLadder_self same

theorem rest_same (m : Market) (order : Resting) :
    (m.rest order).ladder order.val.side =
      Ladder.insert order.val.side order (m.ladder order.val.side) := withLadder_same m _ _

theorem rest_ne (m : Market) {order : Resting} {other : Side} (different : other ≠ order.val.side) :
    (m.rest order).ladder other = m.ladder other := withLadder_ne m _ different

/-- Both sides, one of them named first. -/
theorem linked_perm (m : Market) (side : Side) :
    m.linked.Perm ((m.ladder side).orders ++ (m.ladder side.opposite).orders) := by
  cases side
  · exact .refl _
  · exact List.perm_append_comm

theorem mem_linked {m : Market} {order : Resting} :
    order ∈ m.linked ↔ ∃ side, order ∈ (m.ladder side).orders := by
  rw [linked, List.mem_append]
  constructor
  · rintro (member | member)
    · exact ⟨_, member⟩
    · exact ⟨_, member⟩
  · rintro ⟨side, member⟩
    cases side
    · exact Or.inl member
    · exact Or.inr member

end Market

/-! ### The invariant -/

/-- The quantities of a queue, as natural numbers. -/
def quantities (queue : List Resting) : List Nat := queue.map fun order => order.val.qty.toNat

/-- A rung holds at least one order, each of its side and price and with something left, and its
total is the sum of what is left, modulo `2 ^ 64`. -/
structure Rung.Wf (side : Side) (rung : Rung) : Prop where
  nonempty : rung.queue ≠ []
  sides : ∀ order ∈ rung.queue, order.val.side = side
  prices : ∀ order ∈ rung.queue, order.val.price = rung.price
  positive : ∀ order ∈ rung.queue, 0 < order.val.qty
  total : rung.total = UInt64.ofNat (quantities rung.queue).sum

/-- Prices get strictly worse along the ladder. -/
def Ladder.Sorted (side : Side) (ladder : Ladder) : Prop :=
  (ladder.map Rung.price).Pairwise fun p q => rank side q < rank side p

section Sorted

variable {side : Side} {rung : Rung} {ladder above below : Ladder}

theorem Ladder.sorted_cons : Ladder.Sorted side (rung :: ladder) ↔
    (∀ other ∈ ladder, rank side other.price < rank side rung.price) ∧ ladder.Sorted side := by
  rw [Ladder.Sorted, List.map_cons, List.pairwise_cons, List.forall_mem_map]
  rfl

theorem Ladder.sorted_append : Ladder.Sorted side (above ++ below) ↔
    above.Sorted side ∧ below.Sorted side ∧
      ∀ high ∈ above, ∀ low ∈ below, rank side low.price < rank side high.price := by
  rw [Ladder.Sorted, List.map_append, List.pairwise_append, List.forall_mem_map]
  simp only [List.forall_mem_map]
  rfl

end Sorted

structure Ladder.Wf (side : Side) (ladder : Ladder) : Prop where
  sorted : ladder.Sorted side
  rungs : ∀ rung ∈ ladder, rung.Wf side

structure Market.Wf (capacity : Nat) (held : List Ptr) (m : Market) : Prop where
  ladders : ∀ side, (m.ladder side).Wf side
  slots : (held ++ m.slots).Perm (List.range capacity)
  index : ∀ id o, m.index.lookup id = some o → ∃ order ∈ m.linked, order.addr = o ∧
    order.val.id = id
  uncrossed : ∀ bid ∈ m.ladder .buy, ∀ ask ∈ m.ladder .sell, bid.price < ask.price

theorem Market.Wf.nodup {capacity : Nat} {held : List Ptr} {m : Market} (wf : m.Wf capacity held) :
    (held ++ m.slots).Nodup := wf.slots.nodup_iff.mpr List.nodup_range

theorem Market.Wf.distinct {capacity : Nat} {held : List Ptr} {m : Market}
    (wf : m.Wf capacity held) : m.slots.Nodup := (List.nodup_append.mp wf.nodup).2.1

end Ob
