/-
**What a step of the publisher can do.**

The three step functions by their cases. A step either changes nothing, because its thread is at
rest or has to wait, or it is one of the cases here, with what holds before it and the state after
it:

* `workerStep_cases`, `controlStep_cases`, `producerStep_cases` — one thread.
* `step_cases` — any action.
-/

import OrderBook.Source.Publisher

namespace Ob.TelemetryPublisher

variable {R L ι : Type} {toJsonLine : R → L} {s : State R L ι}

/-! ### The worker -/

inductive WorkerStep (toJsonLine : R → L) (s : State R L ι) : State R L ι → Prop
  | waits : WorkerStep toJsonLine s s
  | locks (place : s.worker = .locking) (free : s.mutex = none) :
      WorkerStep toJsonLine s { s with mutex := some .worker, worker := .evaluating }
  | finds (place : s.worker = .evaluating) (something : s.queue ≠ [] ∨ s.running = false) :
      WorkerStep toJsonLine s { s with worker := .passed }
  | misses (place : s.worker = .evaluating) (empty : s.queue = []) (runs : s.running = true) :
      WorkerStep toJsonLine s { s with worker := .blocking }
  | blocks (place : s.worker = .blocking) :
      WorkerStep toJsonLine s { s with mutex := none, worker := .blocked }
  | finishes (place : s.worker = .passed) (empty : s.queue = []) (cleared : s.running = false) :
      WorkerStep toJsonLine s { s with mutex := none, worker := .finished }
  | takes (place : s.worker = .passed) (something : ¬(s.queue = [] ∧ s.running = false)) :
      WorkerStep toJsonLine s
        { s with queue := [], mutex := none, worker := .emitting { batch := s.queue } }
  | emits (emission : Emission R) (place : s.worker = .emitting emission) :
      WorkerStep toJsonLine s
        { s with
          sinks := (emit toJsonLine s.sinks emission).1
          worker := (emit toJsonLine s.sinks emission).2.elim (.flushing 0) .emitting }
  | flushes (next : Nat) (place : s.worker = .flushing next) :
      WorkerStep toJsonLine s
        { s with
          sinks := (flush s.sinks next).1
          worker := (flush s.sinks next).2.elim .locking .flushing }

theorem workerStep_cases : WorkerStep toJsonLine s (workerStep toJsonLine s) := by
  unfold workerStep
  split
  · exact .waits
  · exact .waits
  · exact .waits
  · split
    · exact .waits
    · exact .locks ‹_› (Option.not_isSome_iff_eq_none.mp ‹_›)
  · split
    · exact .finds ‹_› ‹_›
    · obtain ⟨empty, runs⟩ := not_or.mp ‹¬(_ ∨ _)›
      exact .misses ‹_› (not_not.mp empty) (Bool.not_eq_false _ ▸ runs)
  · exact .blocks ‹_›
  · split
    · rename_i place both
      exact .finishes place both.1 both.2
    · exact .takes ‹_› ‹_›
  · exact .emits _ ‹_›
  · exact .flushes _ ‹_›

/-! ### The controlling thread -/

inductive ControlStep (toJsonLine : R → L) (s : State R L ι) :
    State R L ι → Option (Event R) → Prop
  | waits : ControlStep toJsonLine s s none
  | creates (place : s.control = .creating) :
      ControlStep toJsonLine s { s with worker := .locking, control := .idle } none
  | notifies (place : s.control = .notifying) :
      ControlStep toJsonLine s { s with worker := s.worker.wake, control := .joining } none
  | joins (place : s.control = .joining) (gone : s.worker = .absent ∨ s.worker = .finished) :
      ControlStep toJsonLine s { s with worker := .absent, control := .locking } none
  | locks (place : s.control = .locking) (free : s.mutex = none) :
      ControlStep toJsonLine s { s with mutex := some .control, control := .taking } (some .drained)
  | takes (place : s.control = .taking) :
      ControlStep toJsonLine s
        { s with queue := [], mutex := none, control := .emitting { batch := s.queue } } none
  | emits (emission : Emission R) (place : s.control = .emitting emission) :
      ControlStep toJsonLine s
        { s with
          sinks := (emit toJsonLine s.sinks emission).1
          control := (emit toJsonLine s.sinks emission).2.elim (.flushing 0) .emitting } none
  | flushes (next : Nat) (place : s.control = .flushing next) (more : next < s.sinks.length) :
      ControlStep toJsonLine s
        { s with
          sinks := s.sinks.modify next TelemetrySink.flush
          control := .flushing (next + 1) } none
  | returns (next : Nat) (place : s.control = .flushing next) (last : s.sinks.length ≤ next) :
      ControlStep toJsonLine s { s with control := .idle } (some .stopped)

theorem controlStep_cases :
    ControlStep toJsonLine s (controlStep toJsonLine s).1 (controlStep toJsonLine s).2 := by
  unfold controlStep
  split
  · exact .waits
  · exact .creates ‹_›
  · exact .notifies ‹_›
  · split
    · exact .joins ‹_› (.inl ‹_›)
    · exact .joins ‹_› (.inr ‹_›)
    · exact .waits
  · split
    · exact .waits
    · exact .locks ‹_› (Option.not_isSome_iff_eq_none.mp ‹_›)
  · exact .takes ‹_›
  · exact .emits _ ‹_›
  · rename_i next place
    unfold flush
    by_cases more : next < s.sinks.length
    · rw [if_pos more]
      exact .flushes next place more
    · rw [if_neg more]
      exact .returns next place (Nat.not_lt.mp more)

/-! ### A producer -/

variable [DecidableEq ι] {i : ι}

inductive ProducerStep (s : State R L ι) (i : ι) : State R L ι → Option (Event R) → Prop
  | waits : ProducerStep s i s none
  | locks (record : R) (place : s.producers i = .locking record) (free : s.mutex = none) :
      ProducerStep s i
        { s with
          mutex := some (.producer i)
          producers := Function.update s.producers i (.pushing record) } none
  | pushes (record : R) (place : s.producers i = .pushing record) :
      ProducerStep s i
        { s with
          queue := s.queue ++ [record]
          mutex := none
          producers := Function.update s.producers i .notifying } (some (.appended record))
  | notifies (place : s.producers i = .notifying) :
      ProducerStep s i
        { s with
          worker := s.worker.wake
          producers := Function.update s.producers i .idle } none

theorem producerStep_cases : ProducerStep s i (producerStep s i).1 (producerStep s i).2 := by
  unfold producerStep
  split
  · exact .waits
  · split
    · exact .waits
    · exact .locks _ ‹_› (Option.not_isSome_iff_eq_none.mp ‹_›)
  · exact .pushes _ ‹_›
  · exact .notifies ‹_›

/-! ### Any action -/

inductive Step (toJsonLine : R → L) (s : State R L ι) :
    Action R ι → State R L ι → Option (Event R) → Prop
  | ignored (action : Action R ι) : Step toJsonLine s action s none
  | publish (i : ι) (record : R) (place : s.producers i = .idle) :
      Step toJsonLine s (.publish i record)
        { s with producers := Function.update s.producers i (.locking record) } none
  | start (place : s.control = .idle) (stands : s.running = false) :
      Step toJsonLine s .start { s with running := true, control := .creating } none
  | stop (place : s.control = .idle) (runs : s.running = true) :
      Step toJsonLine s .stop { s with running := false, control := .notifying } none
  | producer {i : ι} {s' : State R L ι} {event : Option (Event R)}
      (does : ProducerStep s i s' event) : Step toJsonLine s (.producer i) s' event
  | control {s' : State R L ι} {event : Option (Event R)}
      (does : ControlStep toJsonLine s s' event) : Step toJsonLine s .control s' event
  | worker {s' : State R L ι} (does : WorkerStep toJsonLine s s') :
      Step toJsonLine s .worker s' none
  | spurious : Step toJsonLine s .spurious { s with worker := s.worker.wake } none

theorem step_cases (action : Action R ι) :
    Step toJsonLine s action (step toJsonLine s action).1 (step toJsonLine s action).2 := by
  cases action with
  | publish i record =>
    rw [step]
    split
    · exact .publish i record ‹_›
    · exact .ignored _
  | producer i => exact .producer producerStep_cases
  | start =>
    rw [step]
    split
    · split
      · exact .ignored _
      · exact .start ‹_› (Bool.not_eq_true _ ▸ ‹_›)
    · exact .ignored _
  | stop =>
    rw [step]
    split
    · split
      · exact .stop ‹_› ‹_›
      · exact .ignored _
    · exact .ignored _
  | control => exact .control controlStep_cases
  | worker => exact .worker workerStep_cases
  | spurious => exact .spurious

end Ob.TelemetryPublisher
