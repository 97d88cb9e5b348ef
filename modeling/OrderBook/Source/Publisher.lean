/-
**The telemetry publisher.**

The class `TelemetryPublisher` of `telemetry.hpp`, run by its worker, by one thread that calls
`start` and `stop`, and by any number of threads that call `publish`. A step of a thread is one of
its accesses to what they share: it takes the mutex, evaluates the predicate of the wait, releases
the mutex and blocks (one step), works under the mutex and releases it, exchanges `running_`,
notifies, creates or joins the worker, writes a line to a sink, or flushes a sink.

A notification wakes the worker if it is blocked at that moment, and is lost otherwise. The worker
may also wake for no reason.
-/

import Mathlib.Logic.Function.Basic

namespace Ob

/-- A sink: the lines written to it, and how many there were when it was last flushed. -/
structure TelemetrySink (L : Type) where
  lines : List L := []
  flushed : Nat := 0
  deriving DecidableEq, Repr

namespace TelemetrySink

variable {L : Type}

def writeLine (sink : TelemetrySink L) (line : L) : TelemetrySink L :=
  { sink with lines := sink.lines ++ [line] }

def flush (sink : TelemetrySink L) : TelemetrySink L := { sink with flushed := sink.lines.length }

end TelemetrySink

namespace TelemetryPublisher

variable {R L ι : Type}

/-- `emit` in progress: what is left of the batch, and the sink that gets the first record's line
next. -/
structure Emission (R : Type) where
  batch : List R
  sink : Nat := 0
  deriving DecidableEq, Repr

/-- Where the worker is in `run`. -/
inductive Worker (R : Type)
  /-- There is no worker. -/
  | absent
  /-- Before it takes the mutex, at first or after a wake-up. -/
  | locking
  /-- With the mutex, before it evaluates the predicate. -/
  | evaluating
  /-- With the mutex, after the predicate was false. -/
  | blocking
  | blocked
  /-- With the mutex, after the predicate was true. -/
  | passed
  | emitting (emission : Emission R)
  | flushing (sink : Nat)
  | finished
  deriving DecidableEq, Repr

/-- Where the controlling thread is in `start` or `stop`. -/
inductive Control (R : Type)
  | idle
  /-- In `start`, before it creates the worker. -/
  | creating
  /-- In `stop`, before `notify_all`. -/
  | notifying
  | joining
  /-- In `drain_locked_batch`, before it takes the mutex. -/
  | locking
  /-- With the mutex. -/
  | taking
  | emitting (emission : Emission R)
  | flushing (sink : Nat)
  deriving DecidableEq, Repr

/-- Where a producer is in `publish(rec)`. -/
inductive Producer (R : Type)
  | idle
  /-- Before it takes the mutex. -/
  | locking (record : R)
  /-- With the mutex. -/
  | pushing (record : R)
  /-- Before `notify_one`. -/
  | notifying
  deriving DecidableEq, Repr

inductive Thread (ι : Type)
  | worker
  | control
  | producer (i : ι)
  deriving DecidableEq, Repr

/-- The publisher and its threads. -/
structure State (R L ι : Type) where
  queue : List R
  running : Bool
  mutex : Option (Thread ι)
  sinks : List (TelemetrySink L)
  worker : Worker R
  control : Control R
  producers : ι → Producer R

/-- A new publisher with so many sinks, and every thread at rest. -/
def new (sinkCount : Nat) : State R L ι where
  queue := []
  running := false
  mutex := none
  sinks := List.replicate sinkCount {}
  worker := .absent
  control := .idle
  producers := fun _ => .idle

/-- What can be told of a step: a record is appended to the queue, the final drain of a `stop` takes
the mutex, or a `stop` that found the publisher running returns. -/
inductive Event (R : Type)
  | appended (record : R)
  | drained
  | stopped
  deriving DecidableEq, Repr

/-- What a notification does to the worker. -/
def Worker.wake : Worker R → Worker R
  | .blocked => .locking
  | worker => worker

/-- One step of the loops of `emit`, and what is left of them. -/
def emit (toJsonLine : R → L) (sinks : List (TelemetrySink L)) (emission : Emission R) :
    List (TelemetrySink L) × Option (Emission R) :=
  match emission.batch with
  | [] => (sinks, none)
  | record :: rest =>
    if emission.sink < sinks.length then
      (sinks.modify emission.sink fun sink => sink.writeLine (toJsonLine record),
        some { emission with sink := emission.sink + 1 })
    else (sinks, some { batch := rest })

/-- One step of `for (auto& s : sinks_) s->flush();`. -/
def flush (sinks : List (TelemetrySink L)) (next : Nat) : List (TelemetrySink L) × Option Nat :=
  if next < sinks.length then (sinks.modify next TelemetrySink.flush, some (next + 1))
  else (sinks, none)

section Steps

variable (toJsonLine : R → L)

def workerStep (s : State R L ι) : State R L ι :=
  match s.worker with
  | .absent | .blocked | .finished => s
  | .locking =>
    if s.mutex.isSome then s else { s with mutex := some .worker, worker := .evaluating }
  | .evaluating =>
    if s.queue ≠ [] ∨ s.running = false then { s with worker := .passed }
    else { s with worker := .blocking }
  | .blocking => { s with mutex := none, worker := .blocked }
  | .passed =>
    if s.queue = [] ∧ s.running = false then { s with mutex := none, worker := .finished }
    else { s with queue := [], mutex := none, worker := .emitting { batch := s.queue } }
  | .emitting emission =>
    let (sinks, next) := emit toJsonLine s.sinks emission
    { s with sinks, worker := next.elim (.flushing 0) .emitting }
  | .flushing next =>
    let (sinks, next) := flush s.sinks next
    { s with sinks, worker := next.elim .locking .flushing }

def controlStep (s : State R L ι) : State R L ι × Option (Event R) :=
  match s.control with
  | .idle => (s, none)
  | .creating => ({ s with worker := .locking, control := .idle }, none)
  | .notifying => ({ s with worker := s.worker.wake, control := .joining }, none)
  | .joining =>
    match s.worker with
    | .absent | .finished => ({ s with worker := .absent, control := .locking }, none)
    | _ => (s, none)
  | .locking =>
    if s.mutex.isSome then (s, none)
    else ({ s with mutex := some .control, control := .taking }, some .drained)
  | .taking =>
    ({ s with queue := [], mutex := none, control := .emitting { batch := s.queue } }, none)
  | .emitting emission =>
    let (sinks, next) := emit toJsonLine s.sinks emission
    ({ s with sinks, control := next.elim (.flushing 0) .emitting }, none)
  | .flushing next =>
    match flush s.sinks next with
    | (sinks, some next) => ({ s with sinks, control := .flushing next }, none)
    | (sinks, none) => ({ s with sinks, control := .idle }, some .stopped)

variable [DecidableEq ι]

def producerStep (s : State R L ι) (i : ι) : State R L ι × Option (Event R) :=
  match s.producers i with
  | .idle => (s, none)
  | .locking record =>
    if s.mutex.isSome then (s, none)
    else
      ({ s with
          mutex := some (.producer i)
          producers := Function.update s.producers i (.pushing record) }, none)
  | .pushing record =>
    ({ s with
        queue := s.queue ++ [record]
        mutex := none
        producers := Function.update s.producers i .notifying }, some (.appended record))
  | .notifying =>
    ({ s with
        worker := s.worker.wake
        producers := Function.update s.producers i .idle }, none)

/-- What happens next: a thread that is not in a call begins one, a thread goes on, or the worker
wakes for no reason. A call of `start` or `stop` begins with its exchange of `running_`. -/
inductive Action (R ι : Type)
  | publish (i : ι) (record : R)
  | producer (i : ι)
  | start
  | stop
  | control
  | worker
  | spurious
  deriving DecidableEq, Repr

def step (s : State R L ι) : Action R ι → State R L ι × Option (Event R)
  | .publish i record =>
    match s.producers i with
    | .idle => ({ s with producers := Function.update s.producers i (.locking record) }, none)
    | _ => (s, none)
  | .producer i => producerStep s i
  | .start =>
    match s.control with
    | .idle => (if s.running then s else { s with running := true, control := .creating }, none)
    | _ => (s, none)
  | .stop =>
    match s.control with
    | .idle => (if s.running then { s with running := false, control := .notifying } else s, none)
    | _ => (s, none)
  | .control => controlStep toJsonLine s
  | .worker => (workerStep toJsonLine s, none)
  | .spurious => ({ s with worker := s.worker.wake }, none)

end Steps

end TelemetryPublisher

end Ob
