/-
**The bounded first-in first-out queue.**

`Accepts` says which events a queue with room for so many values may have in a state; the state is
the list of the values in it. A `History` is a list of events accepted one after another from the
empty queue:

* `History.pushes_eq` — what was pushed is what was popped and what is still there, in order.
* `History.full`, `History.empty` — a push fails at a full queue only, a pop at an empty one.
-/

import Mathlib.Data.List.Basic

namespace Fifo

/-- What a call reports. -/
inductive Event (α : Type)
  | pushed (value : α)
  | pushFailed
  | popped (value : α)
  | popFailed
  deriving DecidableEq, Repr

section

variable {α : Type} {capacity : Nat}

/-- The event, if any, that takes a queue from one content to another. -/
inductive Accepts (capacity : Nat) : List α → Option (Event α) → List α → Prop
  | quiet (contents : List α) : Accepts capacity contents none contents
  | pushed {contents : List α} (value : α) (room : contents.length < capacity) :
      Accepts capacity contents (some (.pushed value)) (contents ++ [value])
  | pushFailed {contents : List α} (full : contents.length = capacity) :
      Accepts capacity contents (some .pushFailed) contents
  | popped (value : α) (contents : List α) :
      Accepts capacity (value :: contents) (some (.popped value)) contents
  | popFailed : Accepts capacity [] (some .popFailed) []

namespace Accepts

variable {contents contents' : List α} {value : α}

theorem none_eq (accepts : Accepts capacity contents none contents') : contents' = contents := by
  cases accepts with
  | quiet => rfl

theorem pushed_eq (accepts : Accepts capacity contents (some (.pushed value)) contents') :
    contents' = contents ++ [value] := by
  cases accepts with
  | pushed => rfl

theorem pushFailed_eq (accepts : Accepts capacity contents (some .pushFailed) contents') :
    contents' = contents := by
  cases accepts with
  | pushFailed => rfl

theorem popped_eq (accepts : Accepts capacity contents (some (.popped value)) contents') :
    contents = value :: contents' := by
  cases accepts with
  | popped => rfl

theorem popFailed_eq (accepts : Accepts capacity contents (some .popFailed) contents') :
    contents' = contents := by
  cases accepts with
  | popFailed => rfl

end Accepts

/-- The events of a queue that starts out empty. -/
inductive History (capacity : Nat) : List (Option (Event α)) → List α → Prop
  | start : History capacity [] []
  | step {events : List (Option (Event α))} {event : Option (Event α)} {contents contents' : List α}
      (before : History capacity events contents)
        (accepts : Accepts capacity contents event contents') :
      History capacity (events ++ [event]) contents'

def pushes (events : List (Option (Event α))) : List α :=
  events.filterMap fun
    | some (.pushed value) => some value
    | _ => none

def pops (events : List (Option (Event α))) : List α :=
  events.filterMap fun
    | some (.popped value) => some value
    | _ => none

theorem pushes_append (events more : List (Option (Event α))) :
    pushes (events ++ more) = pushes events ++ pushes more := List.filterMap_append

theorem pops_append (events more : List (Option (Event α))) :
    pops (events ++ more) = pops events ++ pops more := List.filterMap_append

namespace History

variable {events before after : List (Option (Event α))} {contents : List α}

/-- **First in, first out**, and nothing lost or doubled. -/
theorem pushes_eq (history : History capacity events contents) :
    pushes events = pops events ++ contents := by
  induction history with
  | start => rfl
  | step _ accepts ih =>
    rw [pushes_append, pops_append, ih]
    cases accepts <;> simp [pushes, pops]

/-- Every event of a history was accepted by the queue that the events before it had left. -/
theorem accepted {event : Option (Event α)} (history : History capacity events contents)
    (shape : events = before ++ event :: after) :
    ∃ here next, History capacity before here ∧ Accepts capacity here event next := by
  induction history generalizing after with
  | start => simp at shape
  | step earlier accepts ih =>
    rcases List.eq_nil_or_concat after with rfl | ⟨after, last, rfl⟩
    · obtain ⟨rfl, same⟩ := List.append_inj' shape rfl
      cases same
      exact ⟨_, _, earlier, accepts⟩
    · rw [List.concat_eq_append, ← List.cons_append, ← List.append_assoc] at shape
      exact ih (List.append_inj' shape rfl).1

/-- **A push fails only at a full queue.** -/
theorem full (history : History capacity events contents)
    (shape : events = before ++ some .pushFailed :: after) :
    (pushes before).length = (pops before).length + capacity := by
  obtain ⟨here, _, earlier, accepts⟩ := history.accepted shape
  cases accepts with
  | pushFailed full => rw [earlier.pushes_eq, List.length_append, full]

/-- **A pop fails only at an empty queue.** -/
theorem empty (history : History capacity events contents)
    (shape : events = before ++ some .popFailed :: after) : pushes before = pops before := by
  obtain ⟨here, _, earlier, accepts⟩ := history.accepted shape
  cases accepts with
  | popFailed => rw [earlier.pushes_eq, List.append_nil]

end History

end

end Fifo
