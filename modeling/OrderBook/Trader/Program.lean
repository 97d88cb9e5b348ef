/-
**The program's pipelines and its publisher.**

`Core` holds in every state of the program: its pipelines keep account of their events, its publisher
delivers what is appended to it, and every fill for which `on_fill` was called is in a record that
was appended, or is about to be.

* `Core.inPipe`, `Core.inTelemetry`, `Core.onFill` — the steps that the program is made of keep it.
-/

import OrderBook.Source.Trader
import OrderBook.Telemetry.Calls
import OrderBook.Trader.Flow

namespace Ob.LiveTrade.Trader

open TelemetryPublisher

variable {σ : Type} {o : Options} {onTick : Strategy σ} {strategy : σ} {sinkCount : Nat}
  {t : Trader σ o}

/-! ### What is told of a run -/

/-- What is told of one pipeline. -/
def pipeEvents (i : o.Pipe) (events : List (Event o)) : List Pipeline.Event :=
  events.filterMap fun
    | .pipe j event => if j = i then some event else none
    | .telemetry _ _ => none

def telemetryEvents (events : List (Event o)) : List (TelemetryPublisher.Event TelemetryRecord) :=
  events.filterMap fun
    | .pipe _ _ => none
    | .telemetry _ event => some event

/-- The records appended to the publisher's queue, each with the thread that published it. -/
def publications (events : List (Event o)) : List (Option o.Pipe × TelemetryRecord) :=
  events.filterMap fun
    | .telemetry by_ (.appended record) => some (by_, record)
    | _ => none

def publishedBy (by_ : Option o.Pipe) (events : List (Event o)) : List TelemetryRecord :=
  (publications events).filterMap fun (thread, record) => if thread = by_ then some record else none

section

variable (events more : List (Event o))

theorem pipeEvents_append (i : o.Pipe) :
    pipeEvents i (events ++ more) = pipeEvents i events ++ pipeEvents i more :=
  List.filterMap_append

theorem telemetryEvents_append :
    telemetryEvents (events ++ more) = telemetryEvents events ++ telemetryEvents more :=
  List.filterMap_append

theorem publications_append :
    publications (events ++ more) = publications events ++ publications more :=
  List.filterMap_append

theorem publishedBy_append (by_ : Option o.Pipe) :
    publishedBy by_ (events ++ more) = publishedBy by_ events ++ publishedBy by_ more := by
  rw [publishedBy, publications_append, List.filterMap_append]
  rfl

theorem appended_telemetryEvents :
    appended (telemetryEvents events) = (publications events).map Prod.snd := by
  rw [appended, telemetryEvents, publications, List.filterMap_filterMap, List.map_filterMap]
  refine List.filterMap_congr fun event _ => ?_
  match event with
  | .pipe _ _ | .telemetry _ (.appended _) | .telemetry _ .drained | .telemetry _ .stopped => rfl

end

section

variable (i : o.Pipe) (event : Option Pipeline.Event)

theorem pipeEvents_pipe : pipeEvents i (event.toList.map (.pipe i)) = event.toList := by
  cases event <;> simp [pipeEvents]

theorem pipeEvents_other {j : o.Pipe} (ne : i ≠ j) :
    pipeEvents j (event.toList.map (.pipe i)) = [] := by
  cases event <;> simp [pipeEvents, ne]

theorem telemetryEvents_pipe : telemetryEvents (event.toList.map (.pipe i)) = [] := by
  cases event <;> simp [telemetryEvents]

theorem publications_pipe : publications (event.toList.map (.pipe i)) = [] := by
  cases event <;> simp [publications]

end

section

variable (by_ : Option o.Pipe) (event : Option (TelemetryPublisher.Event TelemetryRecord))

theorem pipeEvents_telemetry (i : o.Pipe) :
    pipeEvents i (event.toList.map (.telemetry by_)) = [] := by
  cases event <;> simp [pipeEvents]

theorem telemetryEvents_telemetry :
    telemetryEvents (event.toList.map (.telemetry (o := o) by_)) = event.toList := by
  cases event <;> simp [telemetryEvents]

theorem publications_telemetry :
    publications (event.toList.map (.telemetry by_)) =
      (appended event.toList).map fun record => (by_, record) := by
  match event with
  | none | some (.appended _) | some .drained | some .stopped => rfl

end

theorem publishedBy_telemetry (by_ other : Option o.Pipe)
    (event : Option (TelemetryPublisher.Event TelemetryRecord)) :
    publishedBy other (event.toList.map (.telemetry by_)) =
      if by_ = other then appended event.toList else [] := by
  rw [publishedBy, publications_telemetry, List.filterMap_map]
  by_cases same : by_ = other
  · simp [same]
  · simp [same]

/-! ### The fills of a pipeline -/

/-- The record of a fill, at some reading of the clock. -/
def Describes (symbol : List Char) (fill : Fill) (record : TelemetryRecord) : Prop :=
  ∃ tsNs, record = fillRecord tsNs symbol fill

/-- What `on_fill` adds to the histogram. -/
def latency (f : Fill) : UInt64 := if f.ts > f.eventTs then f.ts - f.eventTs else 0

structure Core (onTick : Strategy σ) (strategy : σ) (sinkCount : Nat) (t : Trader σ o)
    (events : List (Event o)) : Prop where
  pipes : ∀ i, ∃ g, Pipeline.Ready 10 (t.pipes i) g ∧
    Pipeline.Flow onTick strategy o.risk (pipeEvents i events) (t.pipes i) g.contents
  delivers : ∃ emitted, Delivers TelemetryRecord.toJsonLine sinkCount t.telemetry emitted
    (telemetryEvents events)
  books : ∀ i, List.Forall₂ (Describes (o.symbol i)) (Pipeline.told (pipeEvents i events))
    (publishedBy (some i) events ++ (t.telemetry.producers (some i)).holds)
  blocked : ∀ i, t.telemetry.producers (some i) ≠ .idle →
    ∃ fills, (t.pipes i).thread = .telling fills
  hist : ∀ i, t.latHist i =
    .ofSamples ((Pipeline.told (pipeEvents i events)).map latency)

variable {events : List (Event o)} {i : o.Pipe}

/-- **A step in a pipeline** that does not call `on_fill`. -/
theorem Core.inPipe {action : Pipeline.Action} {p : Pipeline σ} {event : Option Pipeline.Event}
    (core : Core onTick strategy sinkCount t events)
    (does : Pipeline.Step onTick (t.pipes i) action p event)
    (own : t.telemetry.producers (some i) = .idle ∨ ∀ now, action ≠ .engine now)
    (quiet : Pipeline.told event.toList = []) :
    Core onTick strategy sinkCount { t with pipes := Function.update t.pipes i p }
      (events ++ event.toList.map (.pipe i)) := by
  have unpublished : ∀ by_, publishedBy by_ (event.toList.map (Event.pipe i)) = [] := by
    intro by_
    rw [publishedBy, publications_pipe]
    rfl
  have untold : ∀ j, Pipeline.told (pipeEvents j (events ++ event.toList.map (.pipe i))) =
      Pipeline.told (pipeEvents j events) := by
    intro j
    rw [pipeEvents_append, Pipeline.told_append]
    by_cases same : i = j
    · subst same
      rw [pipeEvents_pipe, quiet, List.append_nil]
    · rw [pipeEvents_other i event same]
      exact List.append_nil _
  refine ⟨fun j => ?_, ?_, fun j => ?_, fun j calls => ?_, fun j => ?_⟩
  · obtain ⟨g, ready, flow⟩ := core.pipes j
    rw [pipeEvents_append]
    by_cases same : i = j
    · subst same
      obtain ⟨g', ready', moves⟩ := does.ready (by decide) ready
      simp only [Function.update_self, pipeEvents_pipe]
      exact ⟨g', ready', flow.step moves⟩
    · simp only [Function.update_of_ne (Ne.symm same), pipeEvents_other i event same,
        List.append_nil]
      exact ⟨g, ready, flow⟩
  · obtain ⟨emitted, delivers⟩ := core.delivers
    rw [telemetryEvents_append, telemetryEvents_pipe, List.append_nil]
    exact ⟨emitted, delivers⟩
  · rw [untold, publishedBy_append, unpublished, List.append_nil]
    exact core.books j
  · obtain ⟨fills, place⟩ := core.blocked j calls
    by_cases same : i = j
    · subst same
      obtain ⟨g, ready, _⟩ := core.pipes i
      refine ⟨fills, ?_⟩
      simp only [Function.update_self]
      exact does.telling ready (own.resolve_left calls) place
    · simp only [Function.update_of_ne (Ne.symm same)]
      exact ⟨fills, place⟩
  · rw [untold]
    exact core.hist j

/-- **A step in the publisher** that goes on with a call, or is none of a producer's. -/
theorem Core.inTelemetry {telemetry : TelemetryPublisher.State TelemetryRecord (Option (List Char))
      (Option o.Pipe)} {action : TelemetryPublisher.Action TelemetryRecord (Option o.Pipe)}
    {event : Option (TelemetryPublisher.Event TelemetryRecord)} {by_ : Option o.Pipe}
    (core : Core onTick strategy sinkCount t events)
    (does : TelemetryPublisher.Step TelemetryRecord.toJsonLine t.telemetry action telemetry event)
    (goes_on : action = .producer by_ ∨ by_ = none ∧ ∀ j, action.producer? ≠ some (some j)) :
    Core onTick strategy sinkCount { t with telemetry } (events ++ event.toList.map (.telemetry by_)) := by
  have same : ∀ j, pipeEvents j (events ++ event.toList.map (.telemetry by_)) =
      pipeEvents j events := by
    intro j
    rw [pipeEvents_append, pipeEvents_telemetry, List.append_nil]
  -- the call of an engine's thread goes on, or stays where it is
  have calls : ∀ j, publishedBy (some j) (event.toList.map (.telemetry by_)) ++
      (telemetry.producers (some j)).holds = (t.telemetry.producers (some j)).holds ∧
        (telemetry.producers (some j) ≠ .idle → t.telemetry.producers (some j) ≠ .idle) := by
    intro j
    rw [publishedBy_telemetry]
    by_cases own : action = .producer (some j)
    · subst own
      rcases goes_on with same | ⟨_, others⟩
      · cases same
        rw [if_pos rfl]
        exact does.holds
      · exact absurd rfl (others j)
    · have stays : telemetry.producers (some j) = t.telemetry.producers (some j) := by
        refine does.others fun mine => ?_
        rcases goes_on with rfl | ⟨_, others⟩
        · exact own (congrArg _ (Option.some.inj mine))
        · exact others j mine
      rw [stays, if_neg]
      · exact ⟨rfl, id⟩
      · rintro rfl
        rcases goes_on with same | ⟨none, _⟩
        · exact own same
        · cases none
  refine ⟨fun j => ?_, ?_, fun j => ?_, fun j went => ?_, fun j => ?_⟩
  · rw [same]
    exact core.pipes j
  · obtain ⟨emitted, delivers⟩ := core.delivers
    rw [telemetryEvents_append, telemetryEvents_telemetry]
    exact does.delivers delivers
  · rw [same, publishedBy_append, List.append_assoc, (calls j).1]
    exact core.books j
  · exact core.blocked j ((calls j).2 went)
  · rw [same]
    exact core.hist j

/-- **A call of `on_fill`.** -/
theorem Core.told {action : Pipeline.Action} {p : Pipeline σ} {f : Fill} {fills : List Fill}
    (core : Core onTick strategy sinkCount t events)
    (does : Pipeline.Step onTick (t.pipes i) action p (some (.told f)))
    (place : p.thread = .telling fills) (rest : t.telemetry.producers (some i) = .idle)
    (tsNs : UInt64) :
    Core onTick strategy sinkCount
      { t with
        pipes := Function.update t.pipes i p
        latHist := Function.update t.latHist i ((t.latHist i).add (latency f))
        telemetry := { t.telemetry with
          producers := Function.update t.telemetry.producers (some i)
            (.locking (fillRecord tsNs (o.symbol i) f)) } }
      (events ++ [.pipe i (.told f)]) := by
  have unpublished : ∀ by_, publishedBy by_ [Event.pipe i (.told f)] = [] := fun _ => rfl
  have others : ∀ {j}, i ≠ j → pipeEvents j (events ++ [.pipe i (.told f)]) = pipeEvents j events := by
    intro j ne
    rw [pipeEvents_append]
    exact (congrArg _ (pipeEvents_other i (some (.told f)) ne)).trans (List.append_nil _)
  have own : pipeEvents i (events ++ [.pipe i (.told f)]) = pipeEvents i events ++ [.told f] := by
    rw [pipeEvents_append]
    exact congrArg _ (pipeEvents_pipe i (some (.told f)))
  refine ⟨fun j => ?_, ?_, fun j => ?_, fun j calls => ?_, fun j => ?_⟩
  · obtain ⟨g, ready, flow⟩ := core.pipes j
    by_cases same : i = j
    · subst same
      obtain ⟨g', ready', moves⟩ := does.ready (by decide) ready
      simp only [Function.update_self, own]
      exact ⟨g', ready', flow.step moves⟩
    · simp only [Function.update_of_ne (Ne.symm same), others same]
      exact ⟨g, ready, flow⟩
  · obtain ⟨emitted, delivers⟩ := core.delivers
    obtain ⟨emitted', delivers'⟩ := (Step.publish (some i) (fillRecord tsNs (o.symbol i) f)
      rest).delivers delivers
    refine ⟨emitted', ?_⟩
    rw [telemetryEvents_append]
    exact delivers'
  · rw [publishedBy_append, unpublished, List.append_nil]
    by_cases same : i = j
    · subst same
      have before := core.books i
      rw [rest] at before
      simp only [Function.update_self, own, Pipeline.told_append]
      exact List.rel_append (by simpa [Producer.holds] using before)
        (.cons ⟨tsNs, rfl⟩ .nil)
    · simp only [Function.update_of_ne (fun is => same (Option.some.inj is).symm), others same]
      exact core.books j
  · by_cases same : i = j
    · subst same
      exact ⟨fills, by simp only [Function.update_self, place]⟩
    · simp only [Function.update_of_ne (fun is => same (Option.some.inj is).symm)] at calls
      simp only [Function.update_of_ne (Ne.symm same)]
      exact core.blocked j calls
  · by_cases same : i = j
    · subst same
      simp only [Function.update_self, own, Pipeline.told_append, core.hist i]
      simp [LatencyHistogram.ofSamples, Pipeline.told]
    · simp only [Function.update_of_ne (Ne.symm same), others same]
      exact core.hist j

/-- A step in a pipeline does not fail. -/
theorem Core.pipe_ok (core : Core onTick strategy sinkCount t events) (i : o.Pipe)
    (action : Pipeline.Action) :
    ∃ p event, t.inPipe onTick i action =
        .ok ({ t with pipes := Function.update t.pipes i p }, event) ∧
      Pipeline.Step onTick (t.pipes i) action p event := by
  obtain ⟨g, ready, _⟩ := core.pipes i
  obtain ⟨p, event, did, does⟩ := ready.step (by decide) onTick action
  exact ⟨p, event, by rw [Trader.inPipe, did], does⟩

end Ob.LiveTrade.Trader
