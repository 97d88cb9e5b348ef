/-
**What the program publishes.**

Over every interleaving of the threads of the program, with any number of pipelines and sinks:

* `run_publishes` — the lines of every sink are at any time a prefix of the lines of the records
  published so far, of which the first is the record of the symbols. The records that an engine's
  thread has published are those of the fills of one event after another, in order, and its
  histogram has their latencies. When the program has ended, nothing is missing: every fill of every
  engine is in every sink, flushed.
-/

import OrderBook.Trader.Program

namespace Ob.LiveTrade.Trader

open TelemetryPublisher

variable {σ : Type} {o : Options} {onTick : Strategy σ} {strategy : σ} {sinkCount : Nat}
  {t : Trader σ o} {events : List (Event o)}

/-! ### The stages -/

/-- What the publisher has told so far. -/
abbrev Said := List (TelemetryPublisher.Event TelemetryRecord)

/-- The publisher of a program. -/
abbrev Publisher (o : Options) :=
  TelemetryPublisher.State TelemetryRecord (Option (List Char)) (Option o.Pipe)

/-- It runs, and no final drain has begun. -/
structure Opened (s : Publisher o) (said : Said) : Prop where
  runs : s.running = true
  control : s.control = .idle ∨ s.control = .creating
  undrained : .drained ∉ said

/-- Every engine is still, and the publisher is told to stop. -/
structure Ended (pipes : o.Pipe → Pipeline σ) (s : Publisher o) (said : Said) : Prop where
  still : ∀ i, (pipes i).Still
  idle : s.producers none = .idle
  closing : Closing TelemetryRecord.toJsonLine s said

/-- What holds at each stage. -/
def Placed (t : Trader σ o) (said : Said) : Prop :=
  match t.stage with
  | .opens => t.telemetry.running = false ∧
      (t.telemetry.control = .idle ∨ t.telemetry.control = .creating) ∧ .drained ∉ said
  | .greets | .starts _ | .loops _ => Opened t.telemetry said
  | .closes todo =>
    Opened t.telemetry said ∧ ∀ i, (i, Part.engine) ∉ todo → (t.pipes i).running = false
  | .ended => Ended t.pipes t.telemetry said

/-- The record of the symbols. -/
def IsMeta (o : Options) (record : TelemetryRecord) : Prop :=
  ∃ tsNs, record = metaRecord tsNs o.source o.feedKind o.symbols

/-- The record of the symbols is the first one, or about to be, and then no engine was started. -/
def Greeted (t : Trader σ o) (published : List (Option o.Pipe × TelemetryRecord)) : Prop :=
  (∃ record, published.head? = some (none, record) ∧ IsMeta o record) ∨
    published = [] ∧ (∀ i, (t.pipes i).Still) ∧
      ((t.stage = .opens ∨ t.stage = .greets) ∧ t.telemetry.producers none = .idle ∨
        ∃ record, (t.telemetry.producers none).holds = [record] ∧ IsMeta o record)

structure Inv (onTick : Strategy σ) (strategy : σ) (sinkCount : Nat) (t : Trader σ o)
    (events : List (Event o)) : Prop where
  core : Core onTick strategy sinkCount t events
  placed : Placed t (telemetryEvents events)
  greeted : Greeted t (publications events)

/-- An engine that is still has no call of the publisher. -/
theorem Core.idle (core : Core onTick strategy sinkCount t events) {i : o.Pipe}
    (still : (t.pipes i).Still) : t.telemetry.producers (some i) = .idle := by
  by_contra calls
  obtain ⟨fills, place⟩ := core.blocked i calls
  exact nomatch still.absent.symm.trans place

/-! ### Steps in a pipeline -/

section

variable {said : Said} {published : List (Option o.Pipe × TelemetryRecord)}

theorem Placed.pipes (placed : Placed t said) {pipes : o.Pipe → Pipeline σ}
    (still : ∀ i, (t.pipes i).Still → (pipes i).Still)
    (stands : ∀ i, (t.pipes i).running = false → (pipes i).running = false) :
    Placed { t with pipes } said := by
  unfold Placed at placed ⊢
  cases stage : t.stage with
  | opens | greets | starts | loops =>
    rw [stage] at placed
    exact placed
  | closes todo =>
    rw [stage] at placed
    exact ⟨placed.1, fun i done => stands i (placed.2 i done)⟩
  | ended =>
    rw [stage] at placed
    obtain ⟨calm, idle, closing⟩ := placed
    exact ⟨fun i => still i (calm i), idle, closing⟩

theorem Placed.ended (placed : Placed t said) (stage : t.stage = .ended) :
    Ended t.pipes t.telemetry said := by
  rw [Placed, stage] at placed
  exact placed

theorem Greeted.pipes (greeted : Greeted t published) {pipes : o.Pipe → Pipeline σ}
    (still : ∀ i, (t.pipes i).Still → (pipes i).Still) : Greeted { t with pipes } published :=
  greeted.imp_right fun ⟨nothing, calm, rest⟩ =>
    ⟨nothing, fun i => still i (calm i), rest⟩

end

theorem update_kept {i : o.Pipe} {p : Pipeline σ} {P : Pipeline σ → Prop}
    (kept : P (t.pipes i) → P p) (j : o.Pipe) (holds : P (t.pipes j)) :
    P (Function.update t.pipes i p j) := by
  by_cases same : j = i
  · subst same
    rw [Function.update_self]
    exact kept holds
  · rw [Function.update_of_ne same]
    exact holds

theorem telemetryEvents_quiet (i : o.Pipe) (event : Option Pipeline.Event) :
    telemetryEvents (events ++ event.toList.map (.pipe i)) = telemetryEvents events := by
  rw [telemetryEvents_append, telemetryEvents_pipe, List.append_nil]

theorem publications_quiet (i : o.Pipe) (event : Option Pipeline.Event) :
    publications (events ++ event.toList.map (.pipe i)) = publications events := by
  rw [publications_append, publications_pipe, List.append_nil]

/-- **A thread of a pipeline goes on.** -/
theorem Inv.inPipe {i : o.Pipe} {action : Pipeline.Action} {p : Pipeline σ}
    {event : Option Pipeline.Event} (inv : Inv onTick strategy sinkCount t events)
    (does : Pipeline.Step onTick (t.pipes i) action p event) (goes_on : action.GoesOn)
    (own : t.telemetry.producers (some i) = .idle ∨ ∀ now, action ≠ .engine now)
    (quiet : Pipeline.told event.toList = []) :
    Inv onTick strategy sinkCount { t with pipes := Function.update t.pipes i p }
      (events ++ event.toList.map (.pipe i)) := by
  have still := update_kept (P := Pipeline.Still) fun still => (still.step does goes_on).1
  have stands := update_kept (P := fun p : Pipeline σ => p.running = false)
    (does.running goes_on).trans
  refine ⟨inv.core.inPipe does own quiet, ?_, ?_⟩
  · rw [telemetryEvents_quiet]
    exact inv.placed.pipes still stands
  · rw [publications_quiet]
    exact inv.greeted.pipes still

/-! ### Steps in the publisher -/

section

variable {telemetry : Publisher o}
  {action : TelemetryPublisher.Action TelemetryRecord (Option o.Pipe)}
  {event : Option (TelemetryPublisher.Event TelemetryRecord)} {by_ : Option o.Pipe}

/-- A thread goes on with its call of the publisher, or the worker with its loop. -/
def GoesOn (t : Trader σ o) (action : TelemetryPublisher.Action TelemetryRecord (Option o.Pipe))
    (by_ : Option o.Pipe) : Prop :=
  action = .producer by_ ∧ t.telemetry.producers by_ ≠ .idle ∨
    by_ = none ∧ (action = .worker ∨ action = .spurious ∨ action = .control)

theorem GoesOn.others (goes_on : GoesOn t action by_) : action ≠ .start ∧ action ≠ .stop := by
  rcases goes_on with ⟨rfl, _⟩ | ⟨_, rfl | rfl | rfl⟩ <;> exact ⟨nofun, nofun⟩

theorem Opened.step {s : Publisher o} {said : Said} (opened : Opened s said)
    (does : TelemetryPublisher.Step TelemetryRecord.toJsonLine s action telemetry event)
    (start : action ≠ .start) (stop : action ≠ .stop) :
    Opened telemetry (said ++ event.toList) := by
  obtain ⟨control, undrained⟩ := does.undrained start stop opened.control
  refine ⟨(does.running start stop).trans opened.runs, control, ?_⟩
  rw [List.mem_append, not_or]
  exact ⟨opened.undrained, fun there => undrained (Option.mem_toList.mp there).symm⟩

theorem Core.placed (core : Core onTick strategy sinkCount t events)
    (placed : Placed t (telemetryEvents events))
    (does : TelemetryPublisher.Step TelemetryRecord.toJsonLine t.telemetry action telemetry event)
    (goes_on : GoesOn t action by_) :
    Placed { t with telemetry } (telemetryEvents events ++ event.toList) := by
  obtain ⟨emitted, delivers⟩ := core.delivers
  obtain ⟨start, stop⟩ := goes_on.others
  unfold Placed at placed ⊢
  cases stage : t.stage with
  | opens =>
    rw [stage] at placed
    obtain ⟨stands, control, before⟩ := placed
    obtain ⟨control', undrained⟩ := does.undrained start stop control
    refine ⟨(does.running start stop).trans stands, control', ?_⟩
    rw [List.mem_append, not_or]
    exact ⟨before, fun there => undrained (Option.mem_toList.mp there).symm⟩
  | greets | starts | loops =>
    rw [stage] at placed
    exact Opened.step placed does start stop
  | closes todo =>
    rw [stage] at placed
    exact ⟨placed.1.step does start stop, placed.2⟩
  | ended =>
    rw [stage] at placed
    obtain ⟨calm, idle, closing⟩ := placed
    rcases goes_on with ⟨rfl, busy⟩ | ⟨_, own⟩
    · cases by_ with
      | none => exact absurd idle busy
      | some i => exact absurd (core.idle (calm i)) busy
    · have same : telemetry.producers none = t.telemetry.producers none :=
        does.others (by rcases own with rfl | rfl | rfl <;> nofun)
      refine ⟨calm, same.trans idle, ?_⟩
      rcases own with rfl | rfl | rfl
      · exact (closing.worker does (.inl rfl) delivers).1
      · exact (closing.worker does (.inr rfl) delivers).1
      · exact closing.control does delivers

theorem Core.greeted (core : Core onTick strategy sinkCount t events)
    (greeted : Greeted t (publications events))
    (does : TelemetryPublisher.Step TelemetryRecord.toJsonLine t.telemetry action telemetry event)
    (goes_on : GoesOn t action by_) :
    Greeted { t with telemetry }
      (publications events ++ (appended event.toList).map fun record => (by_, record)) := by
  rcases greeted with ⟨record, first, is⟩ | ⟨nothing, calm, rest⟩
  · refine .inl ⟨record, ?_, is⟩
    rw [List.head?_append, first]
    rfl
  · by_cases main : action = .producer none
    · subst main
      rcases goes_on with ⟨same, busy⟩ | ⟨_, own⟩
      · cases same
        obtain ⟨record, holds, is⟩ := rest.resolve_left fun ⟨_, idle⟩ => busy idle
        have moved := does.holds.1
        rw [holds] at moved
        rcases List.append_eq_singleton_iff.mp moved with ⟨none, holds'⟩ | ⟨one, _⟩
        · rw [none]
          exact .inr ⟨by rw [nothing]; rfl, calm, .inr ⟨record, holds', is⟩⟩
        · rw [nothing, one]
          exact .inl ⟨record, rfl, is⟩
      · rcases own with own | own | own <;> cases own
    · have others : ∀ i, action ≠ .producer i := by
        rintro (_ | i) rfl
        · exact main rfl
        · rcases goes_on with ⟨same, busy⟩ | ⟨_, own⟩
          · cases same
            exact busy (core.idle (calm i))
          · rcases own with own | own | own <;> cases own
      have same : telemetry.producers none = t.telemetry.producers none := by
        refine does.others fun mine => ?_
        rcases goes_on with ⟨rfl, _⟩ | ⟨_, rfl | rfl | rfl⟩
        · exact others _ rfl
        · cases mine
        · cases mine
        · cases mine
      rw [does.appended_nil others, nothing]
      refine .inr ⟨rfl, calm, ?_⟩
      simp only [same]
      exact rest

/-- **A thread goes on in the publisher.** -/
theorem Inv.inTelemetry (inv : Inv onTick strategy sinkCount t events)
    (does : TelemetryPublisher.Step TelemetryRecord.toJsonLine t.telemetry action telemetry event)
    (goes_on : GoesOn t action by_) :
    Inv onTick strategy sinkCount { t with telemetry }
      (events ++ event.toList.map (.telemetry by_)) := by
  refine ⟨inv.core.inTelemetry does (goes_on.imp And.left fun ⟨main, own⟩ =>
    ⟨main, by rcases own with rfl | rfl | rfl <;> nofun⟩), ?_, ?_⟩
  · rw [telemetryEvents_append, telemetryEvents_telemetry]
    exact inv.core.placed inv.placed does goes_on
  · rw [publications_append, publications_telemetry]
    exact inv.core.greeted inv.greeted does goes_on

end

/-! ### The threads -/

/-- A step in the publisher, as the step relation has it. -/
theorem inTelemetry_eq (t : Trader σ o) (by_ : Option o.Pipe)
    (action : TelemetryPublisher.Action TelemetryRecord (Option o.Pipe)) :
    ∃ telemetry event, t.inTelemetry by_ action =
        ({ t with telemetry }, event.toList.map (.telemetry by_)) ∧
      TelemetryPublisher.Step TelemetryRecord.toJsonLine t.telemetry action telemetry event :=
  ⟨_, _, rfl, TelemetryPublisher.step_cases action⟩

/-- A thread of a pipeline that does not call `on_fill`. -/
theorem Inv.pipe_step (inv : Inv onTick strategy sinkCount t events) (i : o.Pipe)
    {action : Pipeline.Action} (goes_on : action.GoesOn) (others : ∀ now, action ≠ .engine now) :
    ∃ t' out, (do
        let (t, event) ← t.inPipe onTick i action
        return (t, event.toList.map (.pipe i))) =
          (.ok (t', out) : Except Pipeline.Failure (Trader σ o × List (Event o))) ∧
      Inv onTick strategy sinkCount t' (events ++ out) := by
  obtain ⟨p, event, did, does⟩ := inv.core.pipe_ok i action
  refine ⟨_, _, ?_, inv.inPipe does goes_on (.inr others) (does.told_nil others)⟩
  rw [did]
  rfl

/-- A thread that goes on in the publisher. -/
theorem Inv.telemetry_step (inv : Inv onTick strategy sinkCount t events) {by_ : Option o.Pipe}
    {action : TelemetryPublisher.Action TelemetryRecord (Option o.Pipe)}
    (goes_on : GoesOn t action by_) :
    ∃ t' out, t.inTelemetry by_ action = (t', out) ∧
      Inv onTick strategy sinkCount t' (events ++ out) := by
  obtain ⟨telemetry, event, did, does⟩ := inTelemetry_eq t by_ action
  exact ⟨_, _, did, inv.inTelemetry does goes_on⟩

/-- Before the end, a call of `publish` may begin. -/
theorem Placed.publish {said : Said} (placed : Placed t said) (open_ : t.stage ≠ .ended)
    (producers : Option o.Pipe → Producer TelemetryRecord)
    (latHist : o.Pipe → LatencyHistogram) :
    Placed { t with latHist, telemetry := { t.telemetry with producers } } said := by
  unfold Placed at placed ⊢
  cases stage : t.stage with
  | opens =>
    rw [stage] at placed
    exact placed
  | greets | starts | loops =>
    rw [stage] at placed
    obtain ⟨runs, control, undrained⟩ := placed
    exact ⟨runs, control, undrained⟩
  | closes todo =>
    rw [stage] at placed
    obtain ⟨⟨runs, control, undrained⟩, stopped⟩ := placed
    exact ⟨⟨runs, control, undrained⟩, stopped⟩
  | ended => exact absurd stage open_

theorem onFill_idle {i : o.Pipe} (rest : t.telemetry.producers (some i) = .idle) (tsNs : UInt64)
    (f : Fill) :
    t.onFill i tsNs f =
      ({ t with
        latHist := Function.update t.latHist i ((t.latHist i).add (latency f))
        telemetry := { t.telemetry with
          producers := Function.update t.telemetry.producers (some i)
            (.locking (fillRecord tsNs (o.symbol i) f)) } }, []) := by
  simp only [onFill, Trader.inTelemetry, TelemetryPublisher.step, rest]
  rfl

/-- **An engine's thread.** -/
theorem Inv.engineStep (inv : Inv onTick strategy sinkCount t events) (i : o.Pipe)
    (now : Timestamp) (tsNs : UInt64) :
    ∃ t' out, t.engineStep onTick i now tsNs = .ok (t', out) ∧
      Inv onTick strategy sinkCount t' (events ++ out) := by
  by_cases rest : t.telemetry.producers (some i) = .idle
  · obtain ⟨p, event, did, does⟩ := inv.core.pipe_ok i (.engine now)
    by_cases tells : ∃ f, event = some (.told f)
    · obtain ⟨f, rfl⟩ := tells
      obtain ⟨fills, place⟩ : ∃ fills, p.thread = .telling fills := by
        cases does with
        | engine does => exact does.told_place
      -- an engine that is still tells nothing
      have moving : ¬(t.pipes i).Still := fun still =>
        List.cons_ne_nil f [] (still.step does fun _ => ⟨nofun, nofun⟩).2
      refine ⟨_, _, ?_, inv.core.told does place rest tsNs, ?_, ?_⟩
      · have filled := onFill_idle (t := { t with pipes := Function.update t.pipes i p }) rest tsNs f
        simp only [Trader.engineStep, rest, did, bind, Except.bind, filled]
        rfl
      · have unsaid : telemetryEvents (events ++ [.pipe i (.told f)]) = telemetryEvents events :=
          telemetryEvents_quiet i (some (.told f))
        rw [unsaid]
        refine (inv.placed.pipes (update_kept fun still => absurd still moving) (update_kept
          (P := fun p : Pipeline σ => p.running = false)
          (does.running fun _ => ⟨nofun, nofun⟩).trans)).publish (fun ended => ?_) _ _
        exact moving ((inv.placed.ended ended).still i)
      · have unpublished : publications (events ++ [.pipe i (.told f)]) = publications events :=
          publications_quiet i (some (.told f))
        rw [unpublished]
        exact .inl (inv.greeted.resolve_right fun before => moving (before.2.1 i))
    · have quiet : Pipeline.told event.toList = [] := by
        match event with
        | some (.told f) => exact absurd ⟨f, rfl⟩ tells
        | none | some (.produced _) | some (.dropped _) | some (.queued _) | some (.handled _ _)
        | some (.stopped _) => rfl
      refine ⟨_, _, ?_, inv.inPipe does (fun _ => ⟨nofun, nofun⟩) (.inl rest) quiet⟩
      simp only [Trader.engineStep, rest, did]
      match event with
      | some (.told f) => exact absurd ⟨f, rfl⟩ tells
      | none | some (.produced _) | some (.dropped _) | some (.queued _) | some (.handled _ _)
      | some (.stopped _) => rfl
  · obtain ⟨t', out, did, inv'⟩ := inv.telemetry_step (.inl ⟨rfl, rest⟩)
    refine ⟨t', out, ?_, inv'⟩
    unfold Trader.engineStep
    split
    · exact absurd ‹_› rest
    · rw [did]

/-! ### The main thread -/

theorem busy_none (free : t.busy = none) (i : o.Pipe) : (t.pipes i).control = .idle := by
  have all := List.find?_eq_none.mp free i (List.mem_finRange i)
  simpa using all

theorem parts_mem (first second : Part) (i : o.Pipe) : (i, first) ∈ parts o first second :=
  List.mem_flatMap.mpr ⟨i, List.mem_finRange i, List.mem_cons_self⟩

/-- The state does not say which stage it is at. -/
theorem Core.stage (core : Core onTick strategy sinkCount t events) (stage : Stage o.Pipe) :
    Core onTick strategy sinkCount { t with stage } events :=
  ⟨core.pipes, core.delivers, core.books, core.blocked, core.hist⟩

/-- Past the greeting, and with no call in progress, the record of the symbols is there. -/
theorem Greeted.first {published : List (Option o.Pipe × TelemetryRecord)}
    (greeted : Greeted t published) (rest : t.telemetry.producers none = .idle)
    (past : t.stage ≠ .opens ∧ t.stage ≠ .greets) (t' : Trader σ o) : Greeted t' published := by
  refine .inl (greeted.resolve_right ?_)
  rintro ⟨_, _, ⟨early, _⟩ | ⟨record, holds, _⟩⟩
  · exact early.elim past.1 past.2
  · rw [rest] at holds
    cases holds

/-- The main thread publishes a record. -/
theorem Core.publish (core : Core onTick strategy sinkCount t events)
    (rest : t.telemetry.producers none = .idle) (record : TelemetryRecord) :
    t.inTelemetry none (.publish none record) =
        ({ t with telemetry := { t.telemetry with
            producers := Function.update t.telemetry.producers none (.locking record) } }, []) ∧
      Core onTick strategy sinkCount { t with telemetry := { t.telemetry with
        producers := Function.update t.telemetry.producers none (.locking record) } } events := by
  refine ⟨?_, ?_⟩
  · simp only [Trader.inTelemetry, TelemetryPublisher.step, rest]
    rfl
  · have does : TelemetryPublisher.Step TelemetryRecord.toJsonLine t.telemetry
        (.publish none record) _ none := .publish none record rest
    have published := core.inTelemetry does (.inr ⟨rfl, fun _ mine => by cases mine⟩)
    rw [Option.toList_none, List.map_nil, List.append_nil] at published
    exact published

/-- It starts the publisher. -/
theorem Core.start (core : Core onTick strategy sinkCount t events)
    (idle : t.telemetry.control = .idle) (stands : t.telemetry.running = false) :
    t.inTelemetry none .start =
        ({ t with telemetry := { t.telemetry with running := true, control := .creating } }, []) ∧
      Core onTick strategy sinkCount
        { t with telemetry := { t.telemetry with running := true, control := .creating } } events := by
  refine ⟨?_, ?_⟩
  · simp only [Trader.inTelemetry, TelemetryPublisher.step, idle, stands]
    rfl
  · have does : TelemetryPublisher.Step TelemetryRecord.toJsonLine t.telemetry .start _ none :=
      .start idle stands
    have started := core.inTelemetry does (.inr ⟨rfl, fun _ mine => by cases mine⟩)
    rw [Option.toList_none, List.map_nil, List.append_nil] at started
    exact started

/-- It stops the publisher. -/
theorem Core.stop (core : Core onTick strategy sinkCount t events)
    (idle : t.telemetry.control = .idle) (runs : t.telemetry.running = true) :
    t.inTelemetry none .stop =
        ({ t with telemetry := { t.telemetry with running := false, control := .notifying } }, []) ∧
      Core onTick strategy sinkCount
        { t with telemetry := { t.telemetry with running := false, control := .notifying } }
        events := by
  refine ⟨?_, ?_⟩
  · simp only [Trader.inTelemetry, TelemetryPublisher.step, idle, runs]
    rfl
  · have does : TelemetryPublisher.Step TelemetryRecord.toJsonLine t.telemetry .stop _ none :=
      .stop idle runs
    have stopped := core.inTelemetry does (.inr ⟨rfl, fun _ mine => by cases mine⟩)
    rw [Option.toList_none, List.map_nil, List.append_nil] at stopped
    exact stopped

/-- **The next command of the main thread.** -/
theorem Inv.command (inv : Inv onTick strategy sinkCount t events)
    (rest : t.telemetry.producers none = .idle) (idle : t.telemetry.control = .idle)
    (free : t.busy = none) (glance : Glance) :
    ∃ t' out, t.mainStep onTick glance = .ok (t', out) ∧
      Inv onTick strategy sinkCount t' (events ++ out) := by
  obtain ⟨core, placed, greeted⟩ := inv
  have quiet := (List.append_nil events).symm
  unfold Placed at placed
  unfold mainStep
  simp only [rest, idle, free]
  cases stage : t.stage with
  | opens =>
    rw [stage] at placed
    obtain ⟨stands, _, undrained⟩ := placed
    obtain ⟨did, started⟩ := (core.stage .greets).start idle stands
    refine ⟨_, _, congrArg Except.ok did, quiet ▸ ⟨started, ⟨rfl, .inr rfl, undrained⟩, ?_⟩⟩
    exact greeted.imp_right fun ⟨nothing, calm, greets⟩ =>
      ⟨nothing, calm, greets.imp_left fun ⟨_, rest⟩ => ⟨.inr rfl, rest⟩⟩
  | greets =>
    rw [stage] at placed
    obtain ⟨runs, control, undrained⟩ := placed
    obtain ⟨did, published⟩ := (core.stage (.starts (parts o .feed .engine))).publish rest
      (metaRecord glance.tsNs o.source o.feedKind o.symbols)
    refine ⟨_, _, congrArg Except.ok did, quiet ▸ ⟨published, ⟨runs, control, undrained⟩, ?_⟩⟩
    refine greeted.imp_right fun ⟨nothing, calm, _⟩ => ⟨nothing, calm, .inr ⟨_, ?_, glance.tsNs, rfl⟩⟩
    simp only [Function.update_self]
    rfl
  | starts todo =>
    rw [stage] at placed
    have first := greeted.first rest (stage ▸ ⟨nofun, nofun⟩)
    cases todo with
    | nil => exact ⟨_, _, rfl, quiet ▸ ⟨core.stage _, placed, first _⟩⟩
    | cons next todo =>
      obtain ⟨i, part⟩ := next
      obtain ⟨p, event, did, does⟩ := (core.stage (.starts todo)).pipe_ok i (.start part)
      refine ⟨_, _, ?_, (core.stage _).inPipe does (.inr nofun) (does.told_nil nofun), ?_, ?_⟩
      · simp only [did]
        rfl
      · rw [telemetryEvents_quiet]
        exact placed
      · rw [publications_quiet]
        exact first _
  | loops todo =>
    rw [stage] at placed
    have first := greeted.first rest (stage ▸ ⟨nofun, nofun⟩)
    cases todo with
    | nil =>
      by_cases stop : glance.stop = true
      · refine ⟨_, _, by rw [if_pos stop], ?_⟩
        exact quiet ▸ ⟨core.stage _, ⟨placed, fun i missing =>
          absurd (parts_mem .engine .feed i) missing⟩, first _⟩
      · refine ⟨_, _, by rw [if_neg stop], ?_⟩
        exact quiet ▸ ⟨core.stage _, placed, first _⟩
    | cons i todo =>
      obtain ⟨runs, control, undrained⟩ := placed
      obtain ⟨did, published⟩ := (core.stage (.loops todo)).publish rest
        (statusRecord glance.tsNs (o.symbol i) glance.position glance.mid glance.later)
      exact ⟨_, _, congrArg Except.ok did, quiet ▸ ⟨published, ⟨runs, control, undrained⟩, first _⟩⟩
  | closes todo =>
    rw [stage] at placed
    obtain ⟨opened, stopped⟩ := placed
    have first := greeted.first rest (stage ▸ ⟨nofun, nofun⟩)
    cases todo with
    | nil =>
      have still : ∀ i, (t.pipes i).Still := by
        intro i
        obtain ⟨g, ready, _⟩ := core.pipes i
        exact ready.still (busy_none free i) (stopped i List.not_mem_nil)
      obtain ⟨did, ended⟩ := (core.stage .ended).stop idle opened.runs
      refine ⟨_, _, congrArg Except.ok did,
        quiet ▸ ⟨ended, ⟨still, rest, rfl, nofun, fun _ => ?_, nofun⟩, first _⟩⟩
      rintro earlier ⟨later, shape, _⟩
      refine absurd ?_ opened.undrained
      rw [shape]
      exact List.mem_append_right _ List.mem_cons_self
    | cons next todo =>
      obtain ⟨i, part⟩ := next
      obtain ⟨p, event, did, does⟩ := (core.stage (.closes todo)).pipe_ok i (.stop part)
      refine ⟨_, _, ?_, (core.stage _).inPipe does (.inr nofun) (does.told_nil nofun), ?_, ?_⟩
      · simp only [did]
        rfl
      · rw [telemetryEvents_quiet]
        refine ⟨opened, fun j missing => ?_⟩
        have kept := update_kept (P := fun p : Pipeline σ => p.running = false) does.stops.1 j
        by_cases done : (j, Part.engine) ∈ (i, part) :: todo
        · rcases List.mem_cons.mp done with same | later
          · cases same
            simp only [Function.update_self]
            exact does.stops.2 (busy_none free i) rfl
          · exact absurd later missing
        · exact kept (stopped j done)
      · rw [publications_quiet]
        exact first _
  | ended =>
    refine ⟨t, [], rfl, quiet ▸ ⟨core, ?_, greeted⟩⟩
    rw [Placed, stage]
    rw [stage] at placed
    exact placed

/-- **The main thread.** -/
theorem Inv.mainStep (inv : Inv onTick strategy sinkCount t events) (glance : Glance) :
    ∃ t' out, t.mainStep onTick glance = .ok (t', out) ∧
      Inv onTick strategy sinkCount t' (events ++ out) := by
  by_cases rest : t.telemetry.producers none = .idle
  · by_cases idle : t.telemetry.control = .idle
    · cases free : t.busy with
      | none => exact inv.command rest idle free glance
      | some i =>
        have goes_on : Pipeline.Action.GoesOn .control := fun _ => ⟨nofun, nofun⟩
        obtain ⟨t', out, did, inv'⟩ := inv.pipe_step i goes_on nofun
        refine ⟨t', out, ?_, inv'⟩
        unfold Trader.mainStep
        simp only [rest, idle, free]
        exact did
    · obtain ⟨t', out, did, inv'⟩ := inv.telemetry_step (.inr ⟨rfl, .inr (.inr rfl)⟩)
      refine ⟨t', out, ?_, inv'⟩
      unfold Trader.mainStep
      split
      · exact absurd ‹_› idle
      · exact absurd ‹_› idle
      · rw [did]
      · rename_i none_of busy _
        exact (none_of rest).elim
  · obtain ⟨t', out, did, inv'⟩ := inv.telemetry_step (.inl ⟨rfl, rest⟩)
    refine ⟨t', out, ?_, inv'⟩
    unfold Trader.mainStep
    split
    · exact absurd ‹_› rest
    · exact absurd ‹_› rest
    · exact absurd ‹_› rest
    · rw [did]

/-- **One step of any thread.** -/
theorem Inv.step (inv : Inv onTick strategy sinkCount t events) (action : Action o) :
    ∃ t' out, step onTick t action = .ok (t', out) ∧
      Inv onTick strategy sinkCount t' (events ++ out) := by
  cases action with
  | main glance => exact inv.mainStep glance
  | feed i got => exact inv.pipe_step i (fun _ => ⟨nofun, nofun⟩) nofun
  | socket i got => exact inv.pipe_step i (fun _ => ⟨nofun, nofun⟩) nofun
  | engine i now tsNs => exact inv.engineStep i now tsNs
  | worker =>
    obtain ⟨t', out, did, inv'⟩ := inv.telemetry_step (.inr ⟨rfl, .inl rfl⟩)
    exact ⟨t', out, congrArg Except.ok did, inv'⟩
  | spurious =>
    obtain ⟨t', out, did, inv'⟩ := inv.telemetry_step (.inr ⟨rfl, .inr (.inl rfl)⟩)
    exact ⟨t', out, congrArg Except.ok did, inv'⟩

/-! ### Runs -/

theorem Inv.new (o : Options) (onTick : Strategy σ) (strategy : σ) (sinkCount : Nat) :
    Inv onTick strategy sinkCount (new o strategy sinkCount) [] where
  core :=
    { pipes := fun _ => ⟨_, Pipeline.Ready.new o.kind 10 strategy o.risk, rfl, rfl, rfl, rfl⟩
      delivers := ⟨[], Delivers.new TelemetryRecord.toJsonLine sinkCount⟩
      books := fun _ => .nil
      blocked := fun _ calls => absurd rfl calls
      hist := fun _ => rfl }
  placed := ⟨rfl, .inl rfl, List.not_mem_nil⟩
  greeted := .inr ⟨rfl, fun _ => ⟨rfl, rfl, rfl⟩, .inl ⟨.inl rfl, rfl⟩⟩

/-- **From the feeds to the sinks.** -/
theorem run_publishes (o : Options) (onTick : Strategy σ) (strategy : σ) (sinkCount : Nat)
    (actions : List (Action o)) :
    ∃ t outs events, Machine.run (step onTick) (new o strategy sinkCount) actions = .ok (t, outs) ∧
      outs.flatten = events ∧ t.telemetry.sinks.length = sinkCount ∧
      (∀ sink ∈ t.telemetry.sinks,
        sink.lines <+: (publications events).map fun p => p.2.toJsonLine) ∧
      (∀ first ∈ (publications events).head?, ∃ tsNs,
        first = (none, metaRecord tsNs o.source o.feedKind o.symbols)) ∧
      (∀ i, (Pipeline.arrivals (pipeEvents i events)).map Arrival.event <+:
          Pipeline.queued (pipeEvents i events) ∧
        Machine.run (TradingEngine.onEvent onTick) (TradingEngine.new strategy o.risk)
          (Pipeline.arrivals (pipeEvents i events)) =
            .ok ((t.pipes i).engine, Pipeline.reports (pipeEvents i events)) ∧
        Pipeline.told (pipeEvents i events) <+:
          (Pipeline.reports (pipeEvents i events)).flatMap Report.fills ∧
        List.Forall₂ (Describes (o.symbol i)) (Pipeline.told (pipeEvents i events))
          (publishedBy (some i) events ++ (t.telemetry.producers (some i)).holds) ∧
        t.latHist i = .ofSamples ((Pipeline.told (pipeEvents i events)).map latency)) ∧
      (t.stage = .ended → t.telemetry.control = .idle →
        (∀ sink ∈ t.telemetry.sinks,
          sink.lines = (publications events).map (fun p => p.2.toJsonLine) ∧
            sink.lines.take sink.flushed = sink.lines) ∧
        ∀ i, List.Forall₂ (Describes (o.symbol i))
          ((Pipeline.reports (pipeEvents i events)).flatMap Report.fills)
          (publishedBy (some i) events)) := by
  have kept : ∀ outs (t : Trader σ o) action, Inv onTick strategy sinkCount t (List.flatten outs) →
      ∃ t' out, step onTick t action = .ok (t', out) ∧
        Inv onTick strategy sinkCount t' (outs ++ [out]).flatten := by
    intro outs t action inv
    obtain ⟨t', out, did, inv'⟩ := inv.step action
    refine ⟨t', out, did, ?_⟩
    rw [List.flatten_append, List.flatten_singleton]
    exact inv'
  have starts : Inv onTick strategy sinkCount (new o strategy sinkCount) (List.flatten []) :=
    Inv.new o onTick strategy sinkCount
  obtain ⟨t, outs, ran, inv⟩ := Machine.run_history kept actions starts
  rw [List.nil_append] at inv
  obtain ⟨core, placed, greeted⟩ := inv
  obtain ⟨emitted, delivers⟩ := core.delivers
  have same := appended_telemetryEvents outs.flatten
  refine ⟨t, outs, _, ran, rfl, delivers.count, fun sink member => ?_, fun first found => ?_,
    fun i => ?_, fun ended idle => ⟨fun sink member => ?_, fun i => ?_⟩⟩
  · have begins := delivers.lines_prefix sink member
    rw [same, List.map_map] at begins
    exact begins
  · rcases greeted with ⟨record, there, tsNs, rfl⟩ | ⟨nothing, _⟩
    · rw [there] at found
      exact ⟨tsNs, (Option.mem_some.mp found).symm⟩
    · rw [nothing] at found
      cases found
  · obtain ⟨g, ready, flow⟩ := core.pipes i
    refine ⟨?_, flow.works, ⟨_, flow.tells.symm⟩, core.books i, core.hist i⟩
    rw [flow.through, List.append_assoc]
    exact List.prefix_append _ _
  · obtain ⟨whole, flushed⟩ := (placed.ended ended).closing.complete idle sink member
    rw [same, List.map_map] at whole
    exact ⟨whole, flushed⟩
  · obtain ⟨g, ready, flow⟩ := core.pipes i
    have still := (placed.ended ended).still i
    have tells := flow.tells
    have books := core.books i
    rw [still.absent] at tells
    rw [core.idle still] at books
    rw [tells]
    simpa [EngineThread.untold, Producer.holds] using books

end Ob.LiveTrade.Trader
