/-
**Calls of `publish`.**

A call of `publish` holds its record until it is appended to the queue, and only its own thread goes
on with it:

* `Step.holds` — one step appends the record of at most one call, which then holds it no more.
* `Step.running` — `running_` is changed by `start` and `stop` only.
* `Delivers.complete` — when `stop` returns and nothing was appended since its drain, every sink has
  everything.
-/

import OrderBook.Properties.Delivery

namespace Ob.TelemetryPublisher

variable {R L ι : Type} {toJsonLine : R → L} {s s' : State R L ι} {event : Option (Event R)}

/-- The record that a producer is about to append. -/
def Producer.holds : Producer R → List R
  | .locking record | .pushing record => [record]
  | .idle | .notifying => []

/-- The producer whose call an action begins or goes on with. -/
def Action.producer? : Action R ι → Option ι
  | .publish i _ | .producer i => some i
  | _ => none

section

variable [DecidableEq ι] {action : Action R ι}

/-- The call of every other producer stays where it is. -/
theorem Step.others (does : Step toJsonLine s action s' event) {i : ι}
    (other : action.producer? ≠ some i) : s'.producers i = s.producers i := by
  cases does with
  | ignored | start | stop | spurious => rfl
  | publish j record =>
    exact Function.update_of_ne (fun same => other (congrArg some same.symm)) _ _
  | producer does =>
    rename_i j
    have ne : i ≠ j := fun same => other (congrArg some same.symm)
    cases does with
    | waits => rfl
    | locks | pushes | notifies => exact Function.update_of_ne ne _ _
  | control does => cases does <;> rfl
  | worker does => cases does <;> rfl

/-- **One step of a producer** appends its record, or keeps it. -/
theorem Step.holds {i : ι} (does : Step toJsonLine s (.producer i) s' event) :
    appended event.toList ++ (s'.producers i).holds = (s.producers i).holds ∧
      (s'.producers i ≠ .idle → s.producers i ≠ .idle) := by
  cases does with
  | ignored => exact ⟨rfl, id⟩
  | producer does =>
    cases does with
    | waits => exact ⟨rfl, id⟩
    | locks record place | pushes record place | notifies place =>
      simp only [Function.update_self, place]
      exact ⟨rfl, fun _ => nofun⟩

/-- No other step appends a record. -/
theorem Step.appended_nil (does : Step toJsonLine s action s' event)
    (other : ∀ i, action ≠ .producer i) : appended event.toList = [] := by
  cases does with
  | producer => exact absurd rfl (other _)
  | control does => cases does <;> rfl
  | ignored | publish | start | stop | worker | spurious => rfl

theorem Step.running (does : Step toJsonLine s action s' event) (start : action ≠ .start)
    (stop : action ≠ .stop) : s'.running = s.running := by
  cases does with
  | ignored | publish | spurious => rfl
  | start => exact absurd rfl start
  | stop => exact absurd rfl stop
  | producer does => cases does <;> rfl
  | control does => cases does <;> rfl
  | worker does => cases does <;> rfl

/-- Only the controlling thread's own steps move it. -/
theorem Step.control_same (does : Step toJsonLine s action s' event) (start : action ≠ .start)
    (stop : action ≠ .stop) (control : action ≠ .control) :
    s'.control = s.control ∧ (event = none ∨ ∃ record, event = some (.appended record)) := by
  cases does with
  | ignored | publish | spurious => exact ⟨rfl, .inl rfl⟩
  | start => exact absurd rfl start
  | stop => exact absurd rfl stop
  | producer does =>
    cases does with
    | waits | locks | notifies => exact ⟨rfl, .inl rfl⟩
    | pushes record => exact ⟨rfl, .inr ⟨record, rfl⟩⟩
  | control => exact absurd rfl control
  | worker does => exact ⟨by cases does <;> rfl, .inl rfl⟩

end

/-- A controlling thread that is at rest, or creates the worker, begins no drain by going on. -/
theorem Step.undrained [DecidableEq ι] {action : Action R ι}
    (does : Step toJsonLine s action s' event) (start : action ≠ .start) (stop : action ≠ .stop)
    (rest : s.control = .idle ∨ s.control = .creating) :
    (s'.control = .idle ∨ s'.control = .creating) ∧ some .drained ≠ event := by
  by_cases own : action = .control
  · subst own
    cases does with
    | ignored => exact ⟨rest, nofun⟩
    | control does =>
      cases does with
      | waits => exact ⟨rest, nofun⟩
      | creates => exact ⟨.inl rfl, nofun⟩
      | notifies place | joins place | locks place | takes place | emits _ place | flushes _ place
      | returns _ place => rcases rest with rest | rest <;> exact nomatch place.symm.trans rest
  · obtain ⟨control, event⟩ := does.control_same start stop own
    rw [control]
    refine ⟨rest, ?_⟩
    rcases event with rfl | ⟨record, rfl⟩ <;> exact nofun

/-! ### The last drain -/

/-- A drain that goes on began when everything was appended. -/
def Latest (events : List (Event R)) : Prop :=
  ∀ earlier, DrainsAfter events earlier → appended earlier = appended events

theorem DrainsAfter.unique {events earlier : List (Event R)}
    (drains : DrainsAfter (events ++ [.drained]) earlier) : earlier = events := by
  obtain ⟨rest, shape, undrained, _⟩ := drains
  rcases List.eq_nil_or_concat rest with rfl | ⟨rest, last, rfl⟩
  · exact (List.append_inj' shape rfl).1.symm
  · rw [List.concat_eq_append] at shape undrained
    rw [← List.cons_append, ← List.append_assoc] at shape
    have same := (List.append_inj' shape rfl).2
    rw [List.cons.injEq] at same
    exact absurd (List.mem_append_right _ (List.mem_singleton.mpr same.1)) undrained

theorem Latest.drained (events : List (Event R)) : Latest (events ++ [.drained]) := by
  intro earlier drains
  rw [drains.unique, appended_append]
  exact (List.append_nil _).symm

/-- Everything that was appended is written to every sink and flushed. -/
def Complete (toJsonLine : R → L) (s : State R L ι) (events : List (Event R)) : Prop :=
  ∀ sink ∈ s.sinks, sink.lines = (appended events).map toJsonLine ∧
    sink.lines.take sink.flushed = sink.lines

variable {sinkCount : Nat} {emitted : List R} {events : List (Event R)}

/-- When `stop` returns and nothing was appended since its drain, everything is written out. -/
theorem Delivers.complete [DecidableEq ι] {action : Action R ι}
    (does : Step toJsonLine s action s' (some .stopped))
    (delivers : Delivers toJsonLine sinkCount s emitted events) (latest : Latest events) :
    Complete toJsonLine s' (events ++ [.stopped]) := by
  obtain ⟨earlier, drains, written⟩ := does.stopped delivers
  obtain ⟨emitted', delivers'⟩ := does.delivers delivers
  have same : appended (events ++ [.stopped]) = appended events := by
    rw [appended_append]
    exact List.append_nil _
  intro sink member
  have upper := delivers'.lines_prefix sink member
  have lower := written sink member
  rw [Option.toList_some, same] at upper
  rw [latest earlier drains] at lower
  have whole := upper.eq_of_length_le ((lower.trans (List.take_prefix _ _)).length_le)
  rw [same]
  refine ⟨whole, (List.take_prefix _ _).eq_of_length_le ?_⟩
  rw [whole]
  exact (whole ▸ lower).length_le

/-- A publisher that `stop` was called on, with nothing appended since. -/
structure Closing (toJsonLine : R → L) (s : State R L ι) (events : List (Event R)) : Prop where
  stands : s.running = false
  stopping : s.control ≠ .creating
  latest : s.control ≠ .idle → Latest events
  complete : s.control = .idle → Complete toJsonLine s events

/-- **The rest of `stop`.** -/
theorem Closing.control [DecidableEq ι] (closing : Closing toJsonLine s events)
    (does : Step toJsonLine s .control s' event)
    (delivers : Delivers toJsonLine sinkCount s emitted events) :
    Closing toJsonLine s' (events ++ event.toList) := by
  have whole : event = some .stopped → s.control ≠ .idle →
      Complete toJsonLine s' (events ++ [.stopped]) := by
    rintro rfl busy
    exact delivers.complete does (closing.latest busy)
  have stands := (does.running nofun nofun).trans closing.stands
  have quiet := (List.append_nil events).symm
  cases does with
  | ignored => exact quiet ▸ closing
  | control does =>
    cases does with
    | waits => exact quiet ▸ closing
    | creates place => exact absurd place closing.stopping
    | notifies place | joins place | takes place | flushes _ place =>
      exact ⟨stands, nofun, fun _ => quiet ▸ closing.latest (place ▸ nofun), nofun⟩
    | locks => exact ⟨stands, nofun, fun _ => Latest.drained events, nofun⟩
    | emits emission place =>
      have busy : ∀ next : Option (Emission R),
          (next.elim (.flushing 0) .emitting : Control R) ≠ .creating ∧
            (next.elim (.flushing 0) .emitting : Control R) ≠ .idle := by
        rintro (_ | _) <;> exact ⟨nofun, nofun⟩
      exact ⟨stands, (busy _).1, fun _ => quiet ▸ closing.latest (place ▸ nofun),
        fun idle => absurd idle (busy _).2⟩
    | returns _ place => exact ⟨stands, nofun, fun busy => absurd rfl busy, fun _ =>
        whole rfl (place ▸ nofun)⟩

/-- The worker, which is gone when `stop` has returned, does no harm. -/
theorem Closing.worker [DecidableEq ι] {action : Action R ι} (closing : Closing toJsonLine s events)
    (does : Step toJsonLine s action s' event) (own : action = .worker ∨ action = .spurious)
    (delivers : Delivers toJsonLine sinkCount s emitted events) :
    Closing toJsonLine s' (events ++ event.toList) ∧ event = none := by
  have others : action ≠ .start ∧ action ≠ .stop ∧ action ≠ .control := by
    rcases own with rfl | rfl <;> exact ⟨nofun, nofun, nofun⟩
  obtain ⟨control, _⟩ := does.control_same others.1 others.2.1 others.2.2
  have none : event = none := by
    rcases own with rfl | rfl <;> cases does <;> rfl
  have stands := does.running others.1 others.2.1
  have gone : s.control = .idle → s' = s := by
    intro idle
    have absent := delivers.alone (idle ▸ closing.stands)
    rcases own with rfl | rfl
    · cases does with
      | ignored => rfl
      | worker does =>
        cases does with
        | waits => rfl
        | locks place | finds place | misses place | blocks place | finishes place | takes place
        | emits _ place | flushes _ place => exact nomatch absent.symm.trans place
    · cases does with
      | ignored => rfl
      | spurious =>
        rw [Worker.wake_absent absent]
        exact congrArg (fun worker => { s with worker }) absent.symm
  subst none
  rw [Option.toList_none, List.append_nil]
  refine ⟨⟨stands.trans closing.stands, control ▸ closing.stopping, ?_, ?_⟩, rfl⟩
  · rw [control]
    exact closing.latest
  · intro idle
    rw [control] at idle
    rw [gone idle]
    exact closing.complete idle

end Ob.TelemetryPublisher
