/-
**Shutting the publisher down.**

`stop` clears `running_` without the mutex and notifies once. A worker that has found the predicate
false before and has not blocked yet is not woken by that.

* `run_unstuck` — in every run in which no `notify_all` falls into that gap, `stop` never waits for
  a worker that nothing will wake.
* `stuck_of_missed` — one that falls into it leads to such a wait in the worker's next step, if the
  queue is empty and no producer is in a call.
* `Stuck.stays` — the wait goes on until a record is published or the worker wakes for no reason.
-/

import OrderBook.Library.Machine
import OrderBook.Telemetry.Steps

namespace Ob.TelemetryPublisher

variable {R L ι : Type}

/-- `stop` has cleared the flag and has notified, and waits for a worker that is blocked at an empty
queue, with no notification to come. -/
structure Stuck (s : State R L ι) : Prop where
  joining : s.control = .joining
  cleared : s.running = false
  empty : s.queue = []
  blocked : s.worker = .blocked
  quiet : ∀ i, s.producers i = .idle

/-- `notify_all` is not executed while the worker is between a predicate that was false and the
wait. -/
def Notices (s : State R L ι) (action : Action R ι) : Prop :=
  action = .control → s.control = .notifying → s.worker ≠ .blocking

instance (s : State R L ι) [DecidableEq R] [DecidableEq ι] (action : Action R ι) :
    Decidable (Notices s action) :=
  inferInstanceAs (Decidable (_ → _ → _))

/-- The worker is not in the wait, nor about to be. -/
def Worker.Awake (worker : Worker R) : Prop := worker ≠ .blocking ∧ worker ≠ .blocked

theorem Worker.wake_awake {worker : Worker R} (waits : worker ≠ .blocking) :
    worker.wake.Awake := by
  cases worker <;> first | exact absurd rfl waits | exact ⟨by simp [wake], by simp [wake]⟩

/-- Once `stop` has notified, the worker stays out of the wait. -/
structure Woken (s : State R L ι) : Prop where
  cleared : s.control = .notifying ∨ s.control = .joining → s.running = false
  awake : s.control = .joining → s.worker.Awake

section Steps

variable {toJsonLine : R → L} {s s' : State R L ι} {event : Option (Event R)}

/-- With the flag cleared the worker does not go into the wait. -/
theorem WorkerStep.awake (does : WorkerStep toJsonLine s s') (cleared : s.running = false)
    (awake : s.worker.Awake) : s'.worker.Awake := by
  cases does with
  | waits => exact awake
  | misses place empty runs => rw [cleared] at runs; cases runs
  | blocks place => exact absurd place awake.1
  | locks | finds | finishes | takes => exact ⟨nofun, nofun⟩
  | emits emission place =>
    show Worker.Awake (Option.elim _ _ _)
    cases (emit toJsonLine s.sinks emission).2 <;> exact ⟨nofun, nofun⟩
  | flushes next place =>
    show Worker.Awake (Option.elim _ _ _)
    cases (flush s.sinks next).2 <;> exact ⟨nofun, nofun⟩

theorem WorkerStep.frame (does : WorkerStep toJsonLine s s') :
    s'.control = s.control ∧ s'.running = s.running := by
  cases does <;> exact ⟨rfl, rfl⟩

theorem ControlStep.woken (does : ControlStep toJsonLine s s' event) (woken : Woken s)
    (notices : s.control = .notifying → s.worker ≠ .blocking) : Woken s' := by
  cases does with
  | waits => exact woken
  | notifies place =>
    exact ⟨fun _ => woken.cleared (.inl place), fun _ => Worker.wake_awake (notices place)⟩
  | emits emission place =>
    refine ⟨fun stopping => ?_, fun joining => ?_⟩
    · cases left : (emit toJsonLine s.sinks emission).2 <;> simp [left] at stopping
    · cases left : (emit toJsonLine s.sinks emission).2 <;> simp [left] at joining
  | creates | joins | locks | takes | flushes | returns =>
    exact ⟨fun stopping => by simp at stopping, nofun⟩

variable [DecidableEq ι]

/-- **One step.** -/
theorem Step.woken {action : Action R ι} (does : Step toJsonLine s action s' event)
    (woken : Woken s) (notices : Notices s action) : Woken s' := by
  have awake := fun joining => Worker.wake_awake (woken.awake joining).1
  cases does with
  | ignored => exact woken
  | publish => exact ⟨woken.cleared, woken.awake⟩
  | start => exact ⟨fun stopping => by simp at stopping, nofun⟩
  | stop => exact ⟨fun _ => rfl, nofun⟩
  | producer does =>
    cases does with
    | notifies => exact ⟨woken.cleared, awake⟩
    | waits | locks | pushes => exact ⟨woken.cleared, woken.awake⟩
  | control does => exact does.woken woken (notices rfl)
  | worker does =>
    obtain ⟨control, running⟩ := does.frame
    refine ⟨fun stopping => ?_, fun joining => ?_⟩
    · rw [running]
      exact woken.cleared (control ▸ stopping)
    · rw [control] at joining
      exact does.awake (woken.cleared (.inr joining)) (woken.awake joining)
  | spurious => exact ⟨woken.cleared, awake⟩

/-! ### The gap -/

/-- A notification in the gap is lost: the worker's next step is the wait. -/
theorem stuck_of_missed (notifying : s.control = .notifying) (cleared : s.running = false)
    (missed : s.worker = .blocking) (empty : s.queue = []) (quiet : ∀ i, s.producers i = .idle) :
    Stuck (Machine.answers (step toJsonLine) s [.control, .worker]).1 := by
  simp only [Machine.answers, step, controlStep, workerStep, notifying, missed, Worker.wake]
  exact ⟨rfl, cleared, empty, rfl, quiet⟩

/-- Nothing but a new record or a spurious wake-up ends the wait. -/
theorem Stuck.stays (stuck : Stuck s) {action : Action R ι}
    (silent : ∀ i record, action ≠ .publish i record) (genuine : action ≠ .spurious) :
    step toJsonLine s action = (s, none) := by
  obtain ⟨joining, _, _, blocked, quiet⟩ := stuck
  cases action with
  | publish i record => exact absurd rfl (silent i record)
  | producer i => simp only [step, producerStep, quiet]
  | start => simp only [step, joining]
  | stop => simp only [step, joining]
  | control => simp only [step, controlStep, joining, blocked]
  | worker => simp only [step, workerStep, blocked]
  | spurious => exact absurd rfl genuine

end Steps

/-- **No lost wake-up**, as long as no `notify_all` falls into the gap. -/
theorem run_unstuck [DecidableEq ι] (toJsonLine : R → L) (sinkCount : Nat)
    {actions : List (Action R ι)}
    (notices : Machine.Allowed Notices (step toJsonLine) (new sinkCount) actions) :
    ¬Stuck (Machine.answers (step toJsonLine) (new sinkCount) actions).1 := by
  have start : Woken (new sinkCount : State R L ι) := ⟨fun _ => rfl, nofun⟩
  have woken := Machine.answers_along
    (fun _ action woken notices => (step_cases action).woken woken notices) start notices
  exact fun stuck => (woken.awake stuck.joining).2 stuck.blocked

/-- The worker waits when it is notified. -/
theorem run_unstuck_blocked :
    ¬Stuck (Machine.answers (step id) (new 1 : State Nat Nat (Fin 1))
      [.start, .control, .worker, .worker, .worker, .stop, .control, .worker]).1 :=
  run_unstuck id 1 ⟨by decide, by decide, by decide, by decide, by decide, by decide, by decide,
    by decide, trivial⟩

/-- The worker finds the queue empty. Before it blocks, `stop` clears the flag and notifies. -/
theorem run_stuck :
    Stuck (Machine.answers (step id) (new 1 : State Nat Nat (Fin 1))
      [.start, .control, .worker, .worker, .stop, .control, .worker]).1 :=
  ⟨rfl, rfl, rfl, rfl, fun _ => rfl⟩

end Ob.TelemetryPublisher
