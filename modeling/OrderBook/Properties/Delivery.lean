/-
**Delivery to the sinks.**

A record goes from the queue into a batch, of the worker or of the final drain, and from the batch
to every sink. `Delivers` says where each one is: the records appended so far are those of which
every sink has the line, those of the batch in progress, and those in the queue, in this order.

* `run_delivers` — in every run the lines of every sink are those of a prefix of the records
  appended so far, and when a `stop` that found the publisher running returns, every record appended
  before its final drain took the mutex is written to every sink and flushed.
-/

import Mathlib.Data.List.Infix
import Mathlib.Data.List.ReduceOption
import OrderBook.Library.Machine
import OrderBook.Telemetry.Steps

namespace Ob.TelemetryPublisher

variable {R L ι : Type}

/-! ### What is told of a run -/

/-- The records appended to the queue, in order. -/
def appended (events : List (Event R)) : List R :=
  events.filterMap fun event =>
    match event with
    | .appended record => some record
    | .drained | .stopped => none

/-- The last final drain took the mutex after these events, and its `stop` has not returned. -/
def DrainsAfter (events earlier : List (Event R)) : Prop :=
  ∃ rest, events = earlier ++ .drained :: rest ∧ .drained ∉ rest ∧ .stopped ∉ rest

theorem appended_append (events rest : List (Event R)) :
    appended (events ++ rest) = appended events ++ appended rest :=
  List.filterMap_append

theorem appended_snoc (events : List (Event R)) (record : R) :
    appended (events ++ [.appended record]) = appended events ++ [record] :=
  appended_append events _

theorem drainsAfter_drained (events : List (Event R)) : DrainsAfter (events ++ [.drained]) events :=
  ⟨[], rfl, List.not_mem_nil, List.not_mem_nil⟩

theorem DrainsAfter.snoc {events earlier : List (Event R)} (drains : DrainsAfter events earlier)
    (record : R) : DrainsAfter (events ++ [.appended record]) earlier := by
  obtain ⟨rest, rfl, undrained, unstopped⟩ := drains
  refine ⟨rest ++ [.appended record], ?_, ?_, ?_⟩
  · rw [List.append_assoc, List.cons_append]
  · simp [undrained]
  · simp [unstopped]

theorem DrainsAfter.appended_prefix {events earlier : List (Event R)}
    (drains : DrainsAfter events earlier) : appended earlier <+: appended events := by
  obtain ⟨rest, rfl, _⟩ := drains
  exact (List.prefix_append _ _).filterMap _

/-! ### The sinks -/

/-- The records of a batch in progress. -/
def batchOf (emission : Option (Emission R)) : List R := emission.elim [] Emission.batch

/-- What a sink has already got of the batch in progress. -/
def ahead (emission : Option (Emission R)) (i : Nat) : List R :=
  emission.elim [] fun emission => if i < emission.sink then emission.batch.take 1 else []

/-- Every sink has the lines of the emitted records, and of the one in progress if its turn is
over. -/
def Written (toJsonLine : R → L) (emitted : List R) (emission : Option (Emission R))
    (sinks : List (TelemetrySink L)) : Prop :=
  ∀ i sink, sinks[i]? = some sink → sink.lines = (emitted ++ ahead emission i).map toJsonLine

section Sinks

variable {toJsonLine : R → L} {emitted : List R} {sinks : List (TelemetrySink L)}

theorem ahead_begins (emission : Option (Emission R)) (i : Nat) :
    ahead emission i <+: batchOf emission := by
  cases emission with
  | none => exact List.prefix_rfl
  | some emission =>
    simp only [ahead, batchOf, Option.elim_some]
    split
    · exact List.take_prefix _ _
    · exact List.nil_prefix

/-- **One step of `emit`.** -/
theorem emit_spec {emission : Emission R}
    (written : Written toJsonLine emitted (some emission) sinks) :
    ∃ emitted', Written toJsonLine emitted' (emit toJsonLine sinks emission).2
        (emit toJsonLine sinks emission).1 ∧
      emitted' ++ batchOf (emit toJsonLine sinks emission).2 = emitted ++ emission.batch ∧
      (emit toJsonLine sinks emission).1.length = sinks.length := by
  obtain ⟨batch, next⟩ := emission
  cases batch with
  | nil =>
    refine ⟨emitted, fun i sink here => ?_, rfl, rfl⟩
    rw [written i sink here]
    simp [ahead, emit]
  | cons record rest =>
    by_cases more : next < sinks.length
    · simp only [emit, if_pos more]
      refine ⟨emitted, fun i sink here => ?_, rfl, List.length_modify _ _ _⟩
      rw [List.getElem?_modify] at here
      obtain ⟨old, there, same⟩ := Option.map_eq_some_iff.mp here
      have lines := written i old there
      simp only [ahead, Option.elim_some, List.take_succ_cons, List.take_zero] at lines ⊢
      by_cases turn : next = i
      · subst turn
        rw [if_neg (Nat.lt_irrefl next), List.append_nil] at lines
        simp [← same, TelemetrySink.writeLine, lines]
      · have still : i < next + 1 ↔ i < next := by omega
        simp only [if_neg turn] at same
        rw [← same, lines]
        simp only [still]
    · simp only [emit, if_neg more]
      refine ⟨emitted ++ [record], fun i sink here => ?_, by simp [batchOf], trivial⟩
      have turn : i < next :=
        Nat.lt_of_lt_of_le (List.getElem?_eq_some_iff.mp here).1 (Nat.not_lt.mp more)
      rw [written i sink here]
      simp [ahead, turn]

/-- A flush writes no line. -/
theorem Written.flush {emission : Option (Emission R)}
    (written : Written toJsonLine emitted emission sinks) (next : Nat) :
    Written toJsonLine emitted emission (flush sinks next).1 ∧
      (TelemetryPublisher.flush sinks next).1.length = sinks.length := by
  unfold TelemetryPublisher.flush
  split
  · refine ⟨fun i sink here => ?_, List.length_modify _ _ _⟩
    rw [List.getElem?_modify] at here
    obtain ⟨old, there, rfl⟩ := Option.map_eq_some_iff.mp here
    rw [← written i old there]
    split <;> rfl
  · exact ⟨written, rfl⟩

/-- What has been flushed so far, and the next sink. -/
theorem flushed_next {next : Nat}
    (flushed : ∀ i < next, ∀ sink, sinks[i]? = some sink → sink.flushed = sink.lines.length) :
    ∀ i < next + 1, ∀ sink, (sinks.modify next TelemetrySink.flush)[i]? = some sink →
      sink.flushed = sink.lines.length := by
  intro i le sink here
  rw [List.getElem?_modify] at here
  obtain ⟨old, there, same⟩ := Option.map_eq_some_iff.mp here
  by_cases turn : next = i
  · rw [if_pos turn] at same
    rw [← same]
    rfl
  · rw [if_neg turn] at same
    rw [← same]
    exact flushed i (by omega) old there

end Sinks

/-! ### The invariant -/

def Worker.emission : Worker R → Option (Emission R)
  | .emitting emission => some emission
  | _ => none

def Control.emission : Control R → Option (Emission R)
  | .emitting emission => some emission
  | _ => none

/-- The emission in progress, in one thread or the other. -/
def State.emission (s : State R L ι) : Option (Emission R) :=
  s.control.emission.or s.worker.emission

/-- There is no worker: before it is created, and after it was joined. -/
def Control.Alone (running : Bool) : Control R → Prop
  | .idle => running = false
  | .notifying | .joining => False
  | _ => True

/-- What the final drain has done so far for the records before it. -/
def Serves (s : State R L ι) (emitted : List R) (events : List (Event R)) : Prop :=
  match s.control with
  | .taking => ∃ earlier, DrainsAfter events earlier
  | .emitting emission => ∃ earlier, DrainsAfter events earlier ∧
      appended earlier <+: emitted ++ emission.batch
  | .flushing next => ∃ earlier, DrainsAfter events earlier ∧ appended earlier <+: emitted ∧
      ∀ i < next, ∀ sink, s.sinks[i]? = some sink → sink.flushed = sink.lines.length
  | _ => True

structure Delivers (toJsonLine : R → L) (sinkCount : Nat) (s : State R L ι) (emitted : List R)
    (events : List (Event R)) : Prop where
  count : s.sinks.length = sinkCount
  records : appended events = emitted ++ batchOf s.emission ++ s.queue
  written : Written toJsonLine emitted s.emission s.sinks
  alone : s.control.Alone s.running → s.worker = .absent
  created : s.control = .creating → s.running = true
  serves : Serves s emitted events

section Steps

variable {toJsonLine : R → L} {sinkCount : Nat} {s s' : State R L ι} {emitted : List R}
  {events : List (Event R)} {event : Option (Event R)}

theorem Worker.wake_emission (worker : Worker R) :
    worker.wake.emission = worker.emission := by
  cases worker <;> rfl

theorem Worker.wake_absent {worker : Worker R} (absent : worker = .absent) :
    worker.wake = .absent := by
  subst absent
  rfl

/-- While there is a worker, no final drain is going on. -/
theorem Delivers.attended (delivers : Delivers toJsonLine sinkCount s emitted events)
    (present : s.worker ≠ .absent) : ¬s.control.Alone s.running :=
  fun alone => present (delivers.alone alone)

theorem Control.emission_of_not_alone {control : Control R} {running : Bool}
    (attended : ¬control.Alone running) : control.emission = none := by
  cases control <;> first | rfl | exact absurd trivial attended

theorem serves_of_not_alone (attended : ¬s.control.Alone s.running) : Serves s emitted events := by
  unfold Serves
  split <;> first | trivial | (rename_i place; exact absurd (place ▸ trivial) attended)

theorem Delivers.at_work (delivers : Delivers toJsonLine sinkCount s emitted events)
    (present : s.worker ≠ .absent) : s.emission = s.worker.emission := by
  rw [State.emission, Control.emission_of_not_alone (delivers.attended present), Option.none_or]

/-- The worker moves records on, and does not lose any. -/
theorem Delivers.work (delivers : Delivers toJsonLine sinkCount s emitted events)
    (present : s.worker ≠ .absent) {queue : List R} {mutex : Option (Thread ι)}
    {sinks : List (TelemetrySink L)} {worker : Worker R} {emitted' : List R}
    (count : sinks.length = s.sinks.length)
    (records : emitted' ++ batchOf worker.emission ++ queue =
      emitted ++ batchOf s.worker.emission ++ s.queue)
    (written : Written toJsonLine emitted' worker.emission sinks) :
    Delivers toJsonLine sinkCount { s with queue, mutex, sinks, worker } emitted' events := by
  have attended := delivers.attended present
  have there : ({ s with queue, mutex, sinks, worker } : State R L ι).emission =
      worker.emission := by
    rw [State.emission, Control.emission_of_not_alone attended, Option.none_or]
  refine ⟨count.trans delivers.count, ?_, ?_, fun alone => absurd alone attended,
    delivers.created, serves_of_not_alone attended⟩
  · rw [delivers.records, there, delivers.at_work present, records]
  · rw [there]
    exact written

theorem WorkerStep.delivers (does : WorkerStep toJsonLine s s')
    (delivers : Delivers toJsonLine sinkCount s emitted events) :
    ∃ emitted', Delivers toJsonLine sinkCount s' emitted' events := by
  have present : ∀ {worker}, s.worker = worker → worker ≠ .absent → s.worker ≠ .absent :=
    fun place => place ▸ id
  have written := delivers.written
  cases does with
  | waits => exact ⟨emitted, delivers⟩
  | locks place | finds place | misses place | blocks place | finishes place =>
    have present := present place nofun
    rw [delivers.at_work present, place] at written
    refine ⟨emitted, delivers.work present rfl ?_ written⟩
    rw [place]
    rfl
  | takes place =>
    have present := present place nofun
    rw [delivers.at_work present, place] at written
    refine ⟨emitted, delivers.work present rfl ?_ fun i sink here => ?_⟩
    · simp [place, Worker.emission, batchOf]
    · rw [written i sink here]
      simp [ahead, Worker.emission]
  | emits emission place =>
    have present := present place nofun
    rw [delivers.at_work present, place] at written
    obtain ⟨emitted', written', records, count⟩ := emit_spec written
    have goes_on : (Option.elim (emit toJsonLine s.sinks emission).2 (.flushing 0)
        .emitting : Worker R).emission = (emit toJsonLine s.sinks emission).2 := by
      cases (emit toJsonLine s.sinks emission).2 <;> rfl
    refine ⟨emitted', delivers.work present count ?_ ?_⟩
    · rw [goes_on, records, place]
      rfl
    · rw [goes_on]
      exact written'
  | flushes next place =>
    have present := present place nofun
    rw [delivers.at_work present, place] at written
    obtain ⟨written', count⟩ := written.flush next
    have goes_on : (Option.elim (flush s.sinks next).2 .locking .flushing : Worker R).emission =
        none := by
      cases (flush s.sinks next).2 <;> rfl
    refine ⟨emitted, delivers.work present count ?_ ?_⟩
    · rw [goes_on, place]
      rfl
    · rw [goes_on]
      exact written'

/-- Without a worker, what is in progress is the controlling thread's. -/
theorem Delivers.at_rest (delivers : Delivers toJsonLine sinkCount s emitted events)
    (alone : s.control.Alone s.running) : s.emission = s.control.emission := by
  rw [State.emission, delivers.alone alone]
  exact Option.or_none

/-- The final drain moves records on, and does not lose any. -/
theorem Delivers.drain (delivers : Delivers toJsonLine sinkCount s emitted events)
    (alone : s.control.Alone s.running) {queue : List R} {mutex : Option (Thread ι)}
    {sinks : List (TelemetrySink L)} {control : Control R} {emitted' : List R}
    {events' : List (Event R)} (count : sinks.length = s.sinks.length)
    (same : appended events' = appended events)
    (records : emitted' ++ batchOf control.emission ++ queue =
      emitted ++ batchOf s.control.emission ++ s.queue)
    (written : Written toJsonLine emitted' control.emission sinks) (goes_on : control ≠ .creating)
    (serves : Serves { s with queue, mutex, sinks, control } emitted' events') :
    Delivers toJsonLine sinkCount { s with queue, mutex, sinks, control } emitted' events' := by
  have absent := delivers.alone alone
  have there : ({ s with queue, mutex, sinks, control } : State R L ι).emission =
      control.emission := by
    rw [State.emission, absent]
    exact Option.or_none
  refine ⟨count.trans delivers.count, ?_, ?_, fun _ => absent,
    fun creating => absurd creating goes_on, serves⟩
  · rw [same, delivers.records, there, delivers.at_rest alone, records]
  · rw [there]
    exact written

theorem ControlStep.delivers (does : ControlStep toJsonLine s s' event)
    (delivers : Delivers toJsonLine sinkCount s emitted events) :
    ∃ emitted', Delivers toJsonLine sinkCount s' emitted' (events ++ event.toList) := by
  have alone : ∀ {control}, s.control = control → control.Alone s.running →
      s.control.Alone s.running := fun place => place ▸ id
  have records := delivers.records
  have written := delivers.written
  have serves := delivers.serves
  unfold Serves at serves
  cases does with
  | waits => exact ⟨emitted, (List.append_nil events).symm ▸ delivers⟩
  | creates place =>
    have runs := delivers.created place
    rw [delivers.at_rest (alone place trivial), place] at records written
    rw [Option.toList_none, List.append_nil]
    refine ⟨emitted, delivers.count, records, written, fun stands => ?_, nofun, trivial⟩
    exact Bool.noConfusion (runs.symm.trans stands)
  | notifies place =>
    rw [State.emission, place] at records written
    rw [Option.toList_none, List.append_nil]
    refine ⟨emitted, delivers.count, ?_, ?_, False.elim, nofun, trivial⟩
    · rw [State.emission, Worker.wake_emission]
      exact records
    · rw [State.emission, Worker.wake_emission]
      exact written
  | joins place gone =>
    have none : s.worker.emission = none := by
      rcases gone with gone | gone <;> rw [gone] <;> rfl
    rw [State.emission, place, none] at records written
    rw [Option.toList_none, List.append_nil]
    exact ⟨emitted, delivers.count, records, written, fun _ => rfl, nofun, trivial⟩
  | locks place =>
    have alone := alone place trivial
    rw [delivers.at_rest alone, place] at written
    refine ⟨emitted, delivers.drain alone rfl ?_ ?_ written nofun
      ⟨events, drainsAfter_drained events⟩⟩
    · exact (appended_append events _).trans (List.append_nil _)
    · rw [place]
      rfl
  | takes place =>
    have alone := alone place trivial
    rw [delivers.at_rest alone, place] at written records
    rw [place] at serves
    obtain ⟨earlier, drains⟩ := serves
    rw [Option.toList_none, List.append_nil]
    refine ⟨emitted, delivers.drain alone rfl rfl ?_ (fun i sink here => ?_) nofun
      ⟨earlier, drains, ?_⟩⟩
    · simp [place, Control.emission, batchOf]
    · rw [written i sink here]
      simp [ahead, Control.emission]
    · have before := drains.appended_prefix
      rw [records] at before
      simpa [Control.emission, batchOf] using before
  | emits emission place =>
    have alone := alone place trivial
    rw [delivers.at_rest alone, place] at written
    rw [place] at serves
    obtain ⟨earlier, drains, reached⟩ := serves
    obtain ⟨emitted', written', moved, count⟩ := emit_spec written
    rw [Option.toList_none, List.append_nil]
    rw [← moved] at reached
    cases next : (emit toJsonLine s.sinks emission).2 with
    | none =>
      rw [next] at written' moved reached
      refine ⟨emitted', delivers.drain alone count rfl ?_ written' nofun
        ⟨earlier, drains, ?_, nofun⟩⟩
      · rw [place]
        exact congrArg (· ++ s.queue) moved
      · exact (List.append_nil emitted') ▸ reached
    | some emission' =>
      rw [next] at written' moved reached
      refine ⟨emitted', delivers.drain alone count rfl ?_ written' nofun
        ⟨earlier, drains, reached⟩⟩
      rw [place]
      exact congrArg (· ++ s.queue) moved
  | flushes next place more =>
    have alone := alone place trivial
    rw [delivers.at_rest alone, place] at written
    rw [place] at serves
    obtain ⟨earlier, drains, reached, flushed⟩ := serves
    obtain ⟨written', count⟩ := written.flush next
    rw [flush, if_pos more] at written' count
    rw [Option.toList_none, List.append_nil]
    refine ⟨emitted, delivers.drain alone count rfl ?_ written' nofun
      ⟨earlier, drains, reached, flushed_next flushed⟩⟩
    rw [place]
    rfl
  | returns next place last =>
    have alone := alone place trivial
    rw [delivers.at_rest alone, place] at written
    refine ⟨emitted, delivers.drain alone rfl ?_ ?_ written nofun trivial⟩
    · exact (appended_append events _).trans (List.append_nil _)
    · rw [place]
      rfl

/-- When `stop` returns, every sink has the records from before its drain, flushed. -/
theorem ControlStep.stopped (does : ControlStep toJsonLine s s' (some .stopped))
    (delivers : Delivers toJsonLine sinkCount s emitted events) :
    ∃ earlier, DrainsAfter events earlier ∧ ∀ sink ∈ s'.sinks,
      (appended earlier).map toJsonLine <+: sink.lines.take sink.flushed := by
  cases does with
  | returns next place last =>
    have serves := delivers.serves
    have written := delivers.written
    rw [delivers.at_rest (place ▸ trivial), place] at written
    unfold Serves at serves
    rw [place] at serves
    obtain ⟨earlier, drains, reached, flushed⟩ := serves
    refine ⟨earlier, drains, fun sink member => ?_⟩
    obtain ⟨i, inside, here⟩ := List.getElem_of_mem member
    have there : s.sinks[i]? = some sink := List.getElem?_eq_some_iff.mpr ⟨inside, here⟩
    rw [flushed i (Nat.lt_of_lt_of_le inside last) sink there, List.take_length,
      written i sink there]
    simp only [Control.emission, ahead, Option.elim_none, List.append_nil]
    exact reached.map _

theorem Serves.appended (serves : Serves s emitted events) {queue : List R}
    {mutex : Option (Thread ι)} {producers : ι → Producer R} (record : R) :
    Serves { s with queue, mutex, producers } emitted (events ++ [.appended record]) := by
  unfold Serves at serves ⊢
  simp only
  split at serves
  · obtain ⟨earlier, drains⟩ := serves
    exact ⟨earlier, drains.snoc record⟩
  · obtain ⟨earlier, drains, reached⟩ := serves
    exact ⟨earlier, drains.snoc record, reached⟩
  · obtain ⟨earlier, drains, reached, flushed⟩ := serves
    exact ⟨earlier, drains.snoc record, reached, flushed⟩
  · trivial

/-- A wake-up moves no record. -/
theorem Delivers.wake (delivers : Delivers toJsonLine sinkCount s emitted events) :
    Delivers toJsonLine sinkCount { s with worker := s.worker.wake } emitted events := by
  refine ⟨delivers.count, ?_, ?_, fun alone => Worker.wake_absent (delivers.alone alone),
    delivers.created, delivers.serves⟩
  · rw [State.emission, Worker.wake_emission]
    exact delivers.records
  · rw [State.emission, Worker.wake_emission]
    exact delivers.written

variable [DecidableEq ι]

/-- **One step.** -/
theorem Step.delivers {action : Action R ι} (does : Step toJsonLine s action s' event)
    (delivers : Delivers toJsonLine sinkCount s emitted events) :
    ∃ emitted', Delivers toJsonLine sinkCount s' emitted' (events ++ event.toList) := by
  have quiet := (List.append_nil events).symm
  cases does with
  | ignored => exact ⟨emitted, quiet ▸ delivers⟩
  | publish =>
    obtain ⟨count, records, written, alone, created, serves⟩ := delivers
    exact ⟨emitted, quiet ▸ ⟨count, records, written, alone, created, serves⟩⟩
  | start place stands =>
    obtain ⟨count, records, written, alone, _, _⟩ := delivers
    have absent := alone (place ▸ stands)
    rw [State.emission, place] at records written
    exact ⟨emitted, quiet ▸ ⟨count, records, written, fun _ => absent, fun _ => rfl, trivial⟩⟩
  | stop place runs =>
    obtain ⟨count, records, written, _, _, _⟩ := delivers
    rw [State.emission, place] at records written
    exact ⟨emitted, quiet ▸ ⟨count, records, written, False.elim, nofun, trivial⟩⟩
  | producer does =>
    cases does with
    | waits => exact ⟨emitted, quiet ▸ delivers⟩
    | locks =>
      obtain ⟨count, records, written, alone, created, serves⟩ := delivers
      exact ⟨emitted, quiet ▸ ⟨count, records, written, alone, created, serves⟩⟩
    | pushes record place =>
      refine ⟨emitted, delivers.count, ?_, delivers.written, delivers.alone, delivers.created,
        delivers.serves.appended record⟩
      rw [Option.toList_some, appended_snoc, delivers.records, List.append_assoc]
      rfl
    | notifies =>
      obtain ⟨count, records, written, alone, created, serves⟩ := delivers.wake
      exact ⟨emitted, quiet ▸ ⟨count, records, written, alone, created, serves⟩⟩
  | control does => exact does.delivers delivers
  | worker does => exact quiet ▸ does.delivers delivers
  | spurious => exact ⟨emitted, quiet ▸ delivers.wake⟩

theorem Step.stopped {action : Action R ι} (does : Step toJsonLine s action s' (some .stopped))
    (delivers : Delivers toJsonLine sinkCount s emitted events) :
    ∃ earlier, DrainsAfter events earlier ∧ ∀ sink ∈ s'.sinks,
      (appended earlier).map toJsonLine <+: sink.lines.take sink.flushed := by
  cases does with
  | producer does => cases does
  | control does => exact does.stopped delivers

end Steps

/-! ### Over a run -/

theorem Delivers.new (toJsonLine : R → L) (sinkCount : Nat) :
    Delivers toJsonLine sinkCount (new sinkCount : State R L ι) [] [] where
  count := List.length_replicate
  records := rfl
  written i sink here := by
    have fresh := List.mem_of_getElem? here
    rw [List.eq_of_mem_replicate fresh]
    rfl
  alone _ := rfl
  created := nofun
  serves := trivial

theorem Delivers.lines_prefix {toJsonLine : R → L} {sinkCount : Nat} {s : State R L ι}
    {emitted : List R} {events : List (Event R)}
    (delivers : Delivers toJsonLine sinkCount s emitted events) :
    ∀ sink ∈ s.sinks, sink.lines <+: (appended events).map toJsonLine := by
  intro sink member
  obtain ⟨i, inside, here⟩ := List.getElem_of_mem member
  rw [delivers.written i sink (List.getElem?_eq_some_iff.mpr ⟨inside, here⟩), delivers.records]
  refine List.IsPrefix.map _ ?_
  rw [List.append_assoc]
  exact (List.prefix_append_right_inj _).mpr
    ((ahead_begins s.emission i).trans (List.prefix_append _ _))

/-- **Exactly once, in order, to every sink.** -/
theorem run_delivers [DecidableEq ι] (toJsonLine : R → L) (sinkCount : Nat)
    (actions : List (Action R ι)) :
    ∃ s outs, Machine.answers (step toJsonLine) (new sinkCount) actions = (s, outs) ∧
      s.sinks.length = sinkCount ∧
      (∀ sink ∈ s.sinks, sink.lines <+: (appended outs.reduceOption).map toJsonLine) ∧
      ∀ action, (step toJsonLine s action).2 = some .stopped →
        ∃ earlier, DrainsAfter outs.reduceOption earlier ∧
          ∀ sink ∈ (step toJsonLine s action).1.sinks,
            (appended earlier).map toJsonLine <+: sink.lines.take sink.flushed := by
  have kept : ∀ (_ : List (Action R ι)) (outs : List (Option (Event R))) (s : State R L ι) action,
      (∃ emitted, Delivers toJsonLine sinkCount s emitted outs.reduceOption) →
      ∃ emitted, Delivers toJsonLine sinkCount (step toJsonLine s action).1 emitted
        (outs ++ [(step toJsonLine s action).2]).reduceOption := by
    rintro _ outs s action ⟨emitted, delivers⟩
    rw [List.reduceOption_append, List.reduceOption_singleton]
    exact (step_cases action).delivers delivers
  obtain ⟨emitted, delivers⟩ := Machine.answers_history (P := fun _ outs s =>
      ∃ emitted, Delivers toJsonLine sinkCount s emitted outs.reduceOption)
    ⟨[], Delivers.new toJsonLine sinkCount⟩ kept actions
  refine ⟨_, _, rfl, delivers.count, delivers.lines_prefix, fun action returns => ?_⟩
  have does := @step_cases R L ι toJsonLine
    (Machine.answers (step toJsonLine) (new sinkCount) actions).1 _ action
  rw [returns] at does
  exact does.stopped delivers

end Ob.TelemetryPublisher
