/-
**The queue between one producer and one consumer.**

The class `SPSCQueue` of `spsc_queue.hpp`, run by two threads at once. A step of a thread is one of
its accesses to memory that both see: a load or a store of `head_` or `tail_`, the beginning or the
end of the write of a slot, the read of a slot. What a thread does on its own (its local variables,
its cached copy of the other's counter, its tests) belongs to the load before it.

Loads and stores take effect one after another, so a slot that was written before `head_` was stored
is seen as written by a thread that has loaded that `head_`: this is what release and acquire
provide.
-/

import OrderBook.Library.Fifo
import OrderBook.Library.Ring

namespace Ob

/-- A slot: it holds a value, it has none to give (never written, or moved from), or it is being
written. -/
inductive SPSCQueue.Slot (α : Type)
  | holds (value : α)
  | vacant
  | beingWritten
  deriving DecidableEq, Repr

structure SPSCQueue (α : Type) where
  mask : UInt64
  head : UInt64
  cachedTail : UInt64
  tail : UInt64
  cachedHead : UInt64
  slots : List (SPSCQueue.Slot α)
  deriving DecidableEq, Repr

/-- A read of a slot that is being written, or of one with no value to give. -/
inductive BadRead
  | torn
  | vacant
  deriving DecidableEq, Repr

namespace SPSCQueue

variable {α : Type}

/-- `while (cap < min_capacity) cap <<= 1;`, for at most so many turns. -/
def roundUp (minCapacity : UInt64) : Nat → UInt64 → Option UInt64
  | 0, _ => none
  | turns + 1, cap => if cap < minCapacity then roundUp minCapacity turns (cap <<< 1) else some cap

/-- The constructor; it does not end when there is no such power of two. -/
def new (minCapacity : UInt64) : Option (SPSCQueue α) := do
  let cap ← roundUp minCapacity 64 1
  return { mask := cap - 1, head := 0, cachedTail := 0, tail := 0, cachedHead := 0,
           slots := List.replicate cap.toNat .vacant }

/-- `slots_.size()`. -/
def capacity (q : SPSCQueue α) : UInt64 := UInt64.ofNat q.slots.length

/-- `slots_[counter & mask_]`. -/
def index (q : SPSCQueue α) (counter : UInt64) : Nat := (counter &&& q.mask).toNat

def setSlot (q : SPSCQueue α) (counter : UInt64) (slot : Slot α) : SPSCQueue α :=
  { q with slots := q.slots.set (q.index counter) slot }

/-- Where the producer is in `try_push(value)`. -/
inductive Producer (α : Type)
  | idle
  /-- Before the load of `head_`. -/
  | called (value : α)
  /-- Before the load of `tail_`. -/
  | reload (value : α) (head : UInt64)
  /-- Before the write of the slot. -/
  | write (value : α) (head : UInt64)
  /-- In the write of the slot. -/
  | writing (value : α) (head : UInt64)
  /-- Before the store to `head_`. -/
  | publish (value : α) (head : UInt64)
  deriving DecidableEq, Repr

/-- Where the consumer is in `try_pop(out)`. -/
inductive Consumer (α : Type)
  | idle
  /-- Before the load of `tail_`. -/
  | called
  /-- Before the load of `head_`. -/
  | reload (tail : UInt64)
  /-- Before the read of the slot. -/
  | read (tail : UInt64)
  /-- Before the store to `tail_`. -/
  | publish (tail : UInt64) (out : α)
  deriving DecidableEq, Repr

/-- The queue and its two threads. -/
structure State (α : Type) where
  queue : SPSCQueue α
  producer : Producer α
  consumer : Consumer α
  deriving DecidableEq, Repr

/-- Neither thread is in a call. -/
def atRest (q : SPSCQueue α) : State α := ⟨q, .idle, .idle⟩

/-- One step of the producer in `try_push`. -/
def tryPush (s : State α) : State α × Option (Fifo.Event α) :=
  let q := s.queue
  match s.producer with
  | .idle => (s, none)
  | .called value =>
    let head := q.head
    if head + 1 - q.cachedTail > q.capacity then ({ s with producer := .reload value head }, none)
    else ({ s with producer := .write value head }, none)
  | .reload value head =>
    let q := { q with cachedTail := q.tail }
    if head + 1 - q.cachedTail > q.capacity then
      ({ s with queue := q, producer := .idle }, some .pushFailed)
    else ({ s with queue := q, producer := .write value head }, none)
  | .write value head =>
    ({ s with queue := q.setSlot head .beingWritten, producer := .writing value head }, none)
  | .writing value head =>
    ({ s with queue := q.setSlot head (.holds value), producer := .publish value head }, none)
  | .publish value head =>
    ({ s with queue := { q with head := head + 1 }, producer := .idle }, some (.pushed value))

/-- One step of the consumer in `try_pop`. -/
def tryPop (s : State α) : Except BadRead (State α × Option (Fifo.Event α)) :=
  let q := s.queue
  match s.consumer with
  | .idle => .ok (s, none)
  | .called =>
    let tail := q.tail
    if tail = q.cachedHead then .ok ({ s with consumer := .reload tail }, none)
    else .ok ({ s with consumer := .read tail }, none)
  | .reload tail =>
    let q := { q with cachedHead := q.head }
    if tail = q.cachedHead then .ok ({ s with queue := q, consumer := .idle }, some .popFailed)
    else .ok ({ s with queue := q, consumer := .read tail }, none)
  | .read tail =>
    match q.slots[q.index tail]? with
    | some (.holds value) =>
      .ok ({ s with queue := q.setSlot tail .vacant, consumer := .publish tail value }, none)
    | some .beingWritten => .error .torn
    | _ => .error .vacant
  | .publish tail out =>
    .ok ({ s with queue := { q with tail := tail + 1 }, consumer := .idle }, some (.popped out))

/-- What happens next: a thread that is not in a call begins one, or a thread goes on with its
call. -/
inductive Action (α : Type)
  | push (value : α)
  | producer
  | pop
  | consumer
  deriving DecidableEq, Repr

def step (s : State α) : Action α → Except BadRead (State α × Option (Fifo.Event α))
  | .push value =>
    match s.producer with
    | .idle => .ok ({ s with producer := .called value }, none)
    | _ => .ok (s, none)
  | .producer => .ok (tryPush s)
  | .pop =>
    match s.consumer with
    | .idle => .ok ({ s with consumer := .called }, none)
    | _ => .ok (s, none)
  | .consumer => tryPop s

/-- The slot that the producer is about to write or is writing. -/
def writes (s : State α) : Option Nat :=
  match s.producer with
  | .write _ head | .writing _ head => some (s.queue.index head)
  | _ => none

/-- The slot that the consumer is about to read. -/
def reads (s : State α) : Option Nat :=
  match s.consumer with
  | .read tail => some (s.queue.index tail)
  | _ => none

/-- The slot of the `i`-th of the values that are pushed and not yet popped. -/
def slotOf (s : State α) (i : Nat) : Nat := s.queue.index (s.queue.tail + UInt64.ofNat i)

/-- The value in a slot. -/
def Slot.value : Slot α → Option α
  | .holds value => some value
  | .vacant | .beingWritten => none

/-- What the consumer has moved out of a slot and not yet given back the slot of. -/
def Consumer.out : Consumer α → Option α
  | .publish _ out => some out
  | _ => none

/-- The `i`-th value from `tail_` on: it is in its slot, unless it is the first and moved out. -/
def valueAt (s : State α) (i : Nat) : Option α :=
  if i = 0 ∧ s.consumer.out.isSome then s.consumer.out
  else s.queue.slots[slotOf s i]?.bind Slot.value

/-- The values from `tail_` up to `head_`. -/
def values (s : State α) : List (Option α) :=
  (List.range (s.queue.head - s.queue.tail).toNat).map (valueAt s)

end SPSCQueue

end Ob
