/-
**Machines that answer calls.**

A machine is a function from a state and a call to the next state and an output; the `run` of one
that may fail and the `answers` of one that does not are over lists of calls. The rules:

* `answers_history` — what holds at the start and after one more call holds after every list of
  calls. The property may speak of the calls and outputs so far.
* `answers_along` — what every call that is allowed keeps holds after calls that are all allowed.
* `answers_map` — a machine that does with translated calls what another does with the calls does so
  with lists of calls.
* `run_refines` — a machine that may fail, related step by step to one that does not, does not fail
  and gives related outputs, as long as the calls are allowed; `run_simulates` is the case of the
  same outputs.
* `run_along` — what every call that meets a condition keeps, without failing, holds after calls
  that all meet it.
* `run_induction` — the first rule again, for a machine that may fail; `run_history` is the case of
  a property that does not look at the calls.
* `run_outputs` — what every step says of its call and its output, a run says of all of them.
* `run_turns` — what ranks a state, no call raises and every turn lowers is zero after as many turns.
* `run_together` — two machines that may fail, related step by step under a condition on the first,
  give the same outputs as long as every call meets it.
* `run_counted` — a machine that stands for another one as long as not too many calls are made.
-/

import Mathlib.Data.List.Forall2
import Mathlib.Data.List.Induction

namespace Machine

variable {S T O E : Type} {C : Type*}

/-- A list of calls to a machine that may fail: its state after them and its outputs. -/
def run (step : S → C → Except E (S × O)) : S → List C → Except E (S × List O)
  | state, [] => .ok (state, [])
  | state, call :: calls =>
    match step state call with
    | .error fault => .error fault
    | .ok (state', out) =>
      match run step state' calls with
      | .error fault => .error fault
      | .ok (state'', outs) => .ok (state'', out :: outs)

/-- A list of calls to a machine that does not fail. -/
def answers (step : T → C → T × O) : T → List C → T × List O
  | state, [] => (state, [])
  | state, call :: calls =>
    let next := step state call
    let rest := answers step next.1 calls
    (rest.1, next.2 :: rest.2)

/-- Every call of a list is allowed in the state in which it is made. -/
def Allowed (allowed : T → C → Prop) (step : T → C → T × O) : T → List C → Prop
  | _, [] => True
  | state, call :: calls => allowed state call ∧ Allowed allowed step (step state call).1 calls

/-- Every call of a list meets a condition in the state in which a machine that may fail takes
it. -/
def Along (condition : S → C → Prop) (step : S → C → Except E (S × O)) : S → List C → Prop
  | _, [] => True
  | state, call :: calls =>
    condition state call ∧
      match step state call with
      | .ok (next, _) => Along condition step next calls
      | .error _ => True

instance Along.decidable (condition : S → C → Prop)
    [∀ state call, Decidable (condition state call)] (step : S → C → Except E (S × O)) :
    ∀ state calls, Decidable (Along condition step state calls)
  | _, [] => inferInstanceAs (Decidable True)
  | state, call :: calls =>
    have : Decidable (match step state call with
        | .ok (next, _) => Along condition step next calls
        | .error _ => True) :=
      match step state call with
      | .ok (next, _) => Along.decidable condition step next calls
      | .error _ => inferInstanceAs (Decidable True)
    inferInstanceAs (Decidable (_ ∧ _))

section Answers

variable {step : T → C → T × O}

theorem answers_snoc (state : T) (calls : List C) (call : C) :
    answers step state (calls ++ [call]) =
      ((step (answers step state calls).1 call).1,
        (answers step state calls).2 ++ [(step (answers step state calls).1 call).2]) := by
  induction calls generalizing state with
  | nil => rfl
  | cons first calls ih =>
    rw [List.cons_append, answers, ih]
    rfl

/-- **Induction along a history.** -/
theorem answers_history {P : List C → List O → T → Prop} {state : T} (start : P [] [] state)
    (kept : ∀ calls outs state' call, P calls outs state' →
      P (calls ++ [call]) (outs ++ [(step state' call).2]) (step state' call).1) (calls : List C) :
    P calls (answers step state calls).2 (answers step state calls).1 := by
  induction calls using List.reverseRecOn with
  | nil => exact start
  | append_singleton calls call ih =>
    rw [answers_snoc]
    exact kept _ _ _ call ih

/-- What every allowed call keeps holds after calls that are all allowed. -/
theorem answers_along {allowed : T → C → Prop} {I : T → Prop}
    (kept : ∀ state call, I state → allowed state call → I (step state call).1) {calls : List C} :
    ∀ {state : T}, I state → Allowed allowed step state calls → I (answers step state calls).1 := by
  induction calls with
  | nil => exact fun start _ => start
  | cons call calls ih => exact fun start ok => ih (kept _ call start ok.1) ok.2

/-- A second machine does with the translated calls what the first does with the calls. -/
theorem answers_map {T' O' : Type} {C' : Type*} {step' : T' → C' → T' × O'} {f : T → T'}
    {g : C → C'} {k : O → O'} {I : T → Prop} {allowed : C → Prop}
    (maps : ∀ state call, I state → allowed call →
      step' (f state) (g call) = (f (step state call).1, k (step state call).2) ∧
        I (step state call).1) {calls : List C} :
    ∀ {state : T}, I state → (∀ call ∈ calls, allowed call) →
      answers step' (f state) (calls.map g) =
        (f (answers step state calls).1, (answers step state calls).2.map k) := by
  induction calls with
  | nil => exact fun _ _ => rfl
  | cons call calls ih =>
    intro state start each
    obtain ⟨same, next⟩ := maps state call start (each call List.mem_cons_self)
    rw [List.map_cons, answers, same,
      ih next fun later member => each later (List.mem_cons_of_mem _ member)]
    rfl

end Answers

/-- A single call. -/
theorem run_one {step : S → C → Except E (S × O)} {state next : S} {call : C} {out : O}
    (stepped : step state call = .ok (next, out)) : run step state [call] = .ok (next, [out]) := by
  simp only [run, stepped]

/-- Calls after calls. -/
theorem run_append {step : S → C → Except E (S × O)} {calls more : List C} {final next : S}
    {outs outs' : List O} (then_ : run step final more = .ok (next, outs')) :
    ∀ {state : S}, run step state calls = .ok (final, outs) →
      run step state (calls ++ more) = .ok (next, outs ++ outs') := by
  induction calls generalizing outs with
  | nil =>
    intro state ran
    cases ran
    exact then_
  | cons call calls ih =>
    intro state ran
    rw [run] at ran
    split at ran
    · cases ran
    · rename_i first out stepped
      split at ran
      · cases ran
      · rename_i last rest ran'
        cases ran
        rw [List.cons_append, run, stepped]
        simp only [ih ran', List.cons_append]

/-- **Simulation**, with outputs that are related. -/
theorem run_refines {P : Type} {step : S → C → Except E (S × O)} {model : T → C → T × P}
    {R : S → T → Prop} {Q : O → P → Prop} {allowed : T → C → Prop}
    (refines : ∀ state state' call, R state state' → allowed state' call → ∃ next out,
      step state call = .ok (next, out) ∧ Q out (model state' call).2 ∧
        R next (model state' call).1)
    {calls : List C} :
    ∀ {state : S} {state' : T}, R state state' → Allowed allowed model state' calls →
      ∃ final outs, run step state calls = .ok (final, outs) ∧
        List.Forall₂ Q outs (answers model state' calls).2 ∧
          R final (answers model state' calls).1 := by
  induction calls with
  | nil => exact fun related _ => ⟨_, _, rfl, .nil, related⟩
  | cons call calls ih =>
    intro state state' related ok
    obtain ⟨next, out, stepped, told, related'⟩ := refines state state' call related ok.1
    obtain ⟨final, outs, ran, told', related''⟩ := ih related' ok.2
    refine ⟨final, out :: outs, ?_, .cons told told', related''⟩
    simp only [run, stepped, ran]

/-- **Simulation.** -/
theorem run_simulates {step : S → C → Except E (S × O)} {model : T → C → T × O} {R : S → T → Prop}
    {allowed : T → C → Prop}
    (simulates : ∀ state state' call, R state state' → allowed state' call →
      ∃ next, step state call = .ok (next, (model state' call).2) ∧ R next (model state' call).1)
    {calls : List C} {state : S} {state' : T} (related : R state state')
    (ok : Allowed allowed model state' calls) :
    ∃ final, run step state calls = .ok (final, (answers model state' calls).2) ∧
      R final (answers model state' calls).1 := by
  obtain ⟨final, outs, ran, same, related'⟩ :=
    run_refines (Q := Eq) (fun state state' call related ok => by
    obtain ⟨next, stepped, related'⟩ := simulates state state' call related ok
    exact ⟨next, _, stepped, rfl, related'⟩) related ok
  rw [List.forall₂_eq_eq_eq] at same
  exact ⟨final, same ▸ ran, related'⟩

theorem run_along {step : S → C → Except E (S × O)} {condition : S → C → Prop} {I : S → Prop}
    (kept : ∀ state call, I state → condition state call →
      ∃ next out, step state call = .ok (next, out) ∧ I next) {calls : List C} :
    ∀ {state : S}, I state → Along condition step state calls →
      ∃ final outs, run step state calls = .ok (final, outs) ∧ I final := by
  induction calls with
  | nil => exact fun start _ => ⟨_, _, rfl, start⟩
  | cons call calls ih =>
    intro state start along
    obtain ⟨next, out, stepped, start'⟩ := kept state call start along.1
    have rest := along.2
    rw [stepped] at rest
    obtain ⟨final, outs, ran, finally_⟩ := ih start' rest
    refine ⟨final, out :: outs, ?_, finally_⟩
    simp only [run, stepped, ran]

/-- **Induction along a history**, for a machine that may fail: it does not. -/
theorem run_induction {step : S → C → Except E (S × O)} {P : List C → List O → S → Prop}
    (kept : ∀ done outs state call, P done outs state →
      ∃ next out, step state call = .ok (next, out) ∧ P (done ++ [call]) (outs ++ [out]) next)
    (calls : List C) :
    ∀ (done : List C) (outs : List O) {state : S}, P done outs state →
      ∃ final more, run step state calls = .ok (final, more) ∧
        P (done ++ calls) (outs ++ more) final := by
  induction calls with
  | nil =>
    intro done outs state start
    refine ⟨_, [], rfl, ?_⟩
    rw [List.append_nil, List.append_nil]
    exact start
  | cons call calls ih =>
    intro done outs state start
    obtain ⟨next, out, stepped, start'⟩ := kept done outs state call start
    obtain ⟨final, more, ran, finally_⟩ := ih _ _ start'
    refine ⟨final, out :: more, ?_, ?_⟩
    · simp only [run, stepped, ran]
    · rw [List.append_assoc, List.append_assoc] at finally_
      exact finally_

/-- The same for a property of the outputs alone. -/
theorem run_history {step : S → C → Except E (S × O)} {P : List O → S → Prop}
    (kept : ∀ outs state call, P outs state →
      ∃ next out, step state call = .ok (next, out) ∧ P (outs ++ [out]) next) (calls : List C)
    {outs : List O} {state : S} (start : P outs state) :
    ∃ final more, run step state calls = .ok (final, more) ∧ P (outs ++ more) final :=
  run_induction (P := fun _ outs state => P outs state) (fun _ => kept) calls [] outs start

theorem run_outputs {step : S → C → Except E (S × O)} {Q : C → O → Prop}
    (each : ∀ state call next out, step state call = .ok (next, out) → Q call out)
    {calls : List C} :
    ∀ {state final : S} {outs : List O}, run step state calls = .ok (final, outs) →
      List.Forall₂ Q calls outs := by
  induction calls with
  | nil =>
    intro state final outs ran
    cases ran
    exact .nil
  | cons call calls ih =>
    intro state final outs ran
    rw [run] at ran
    split at ran
    · cases ran
    · rename_i next out stepped
      split at ran
      · cases ran
      · rename_i final' outs' ran'
        cases ran
        exact .cons (each _ _ _ _ stepped) (ih ran')

theorem run_together {step : S → C → Except E (S × O)} {step' : T → C → Except E (T × O)}
    {condition : S → C → Prop} {R : S → T → Prop}
    (together : ∀ state state' call, R state state' → condition state call → ∃ next next' out,
      step state call = .ok (next, out) ∧ step' state' call = .ok (next', out) ∧ R next next')
    {calls : List C} :
    ∀ {state : S} {state' : T}, R state state' → Along condition step state calls →
      ∃ final final' outs, run step state calls = .ok (final, outs) ∧
        run step' state' calls = .ok (final', outs) ∧ R final final' := by
  induction calls with
  | nil => exact fun related _ => ⟨_, _, _, rfl, rfl, related⟩
  | cons call calls ih =>
    intro state state' related along
    obtain ⟨next, next', out, stepped, stepped', related'⟩ :=
      together state state' call related along.1
    have rest := along.2
    rw [stepped] at rest
    obtain ⟨final, final', outs, ran, ran', related''⟩ := ih related' rest
    refine ⟨final, final', out :: outs, ?_, ?_, related''⟩
    · simp only [run, stepped, ran]
    · simp only [run, stepped', ran']

/-- The calls of a machine on which every call is allowed. -/
theorem Allowed.always {step : T → C → T × O} (calls : List C) :
    ∀ state, Allowed (fun _ _ => True) step state calls := by
  induction calls with
  | nil => exact fun _ => trivial
  | cons call calls ih => exact fun state => ⟨trivial, ih _⟩

/-- The same for a machine that may fail. -/
theorem Along.always {step : S → C → Except E (S × O)} (calls : List C) :
    ∀ state, Along (fun _ _ => True) step state calls := by
  induction calls with
  | nil => exact fun _ => trivial
  | cons call calls ih =>
    intro state
    refine ⟨trivial, ?_⟩
    split
    · exact ih _
    · exact trivial

/-- Calls that are allowed in every state. -/
theorem Allowed.of_forall {step : T → C → T × O} {allowed : C → Prop} {calls : List C}
    (each : ∀ call ∈ calls, allowed call) :
    ∀ state, Allowed (fun _ call => allowed call) step state calls := by
  induction calls with
  | nil => exact fun _ => trivial
  | cons call calls ih =>
    intro state
    exact ⟨each call List.mem_cons_self,
      ih (fun c member => each c (List.mem_cons_of_mem _ member)) _⟩

/-- **A machine that stands for another one**, as long as not too many calls are made: what holds after
`k` calls tells that one more call does to the one what it does to the other. -/
theorem run_counted {P : Type} {step : S → C → Except E (S × O)} {step' : T → C → Except E (T × P)}
    {f : S → T} {g : O → P} {I : Nat → S → Prop} {allowed : C → Prop} {most : Nat}
    (kept : ∀ k state call, k < most → I k state → allowed call → ∃ next out,
      step state call = .ok (next, out) ∧ step' (f state) call = .ok (f next, g out) ∧ I (k + 1) next)
    {calls : List C} :
    ∀ {k : Nat} {state : S}, I k state → (∀ call ∈ calls, allowed call) → k + calls.length ≤ most →
      ∃ final outs, run step state calls = .ok (final, outs) ∧
        run step' (f state) calls = .ok (f final, outs.map g) ∧ I (k + calls.length) final := by
  induction calls with
  | nil => exact fun holds _ _ => ⟨_, [], rfl, rfl, holds⟩
  | cons call calls ih =>
    intro k state holds each few
    rw [List.length_cons] at few
    obtain ⟨next, out, stepped, stepped', holds'⟩ :=
      kept k state call (by omega) holds (each call List.mem_cons_self)
    obtain ⟨final, outs, ran, ran', holds''⟩ :=
      ih holds' (fun c member => each c (List.mem_cons_of_mem _ member)) (by omega)
    refine ⟨final, out :: outs, ?_, ?_, ?_⟩
    · simp only [run, stepped, ran]
    · simp only [run, stepped', ran', List.map_cons]
    · have count : k + 1 + calls.length = k + (call :: calls).length := by
        rw [List.length_cons]
        omega
      exact count ▸ holds''

/-- **Turns.** While `I` holds, every call keeps it or has an output in `Q`, no call raises the rank,
and every turn lowers it by one until it is zero. -/
theorem run_turns {step : S → C → Except E (S × O)} {I J : S → Prop} {allowed : C → Prop}
    {Q : O → Prop} {rank : S → Nat} {turn : C → Bool}
    (kept : ∀ state call, J state → ∃ next out, step state call = .ok (next, out) ∧ J next ∧
      (I state → allowed call → Q out ∨ I next ∧ rank next ≤ rank state - (turn call).toNat))
    {calls : List C} :
    ∀ {state : S}, J state → I state → (∀ call ∈ calls, allowed call) →
      ∃ final outs, run step state calls = .ok (final, outs) ∧ J final ∧
        ((∃ out ∈ outs, Q out) ∨ I final ∧ rank final ≤ rank state - calls.countP turn) := by
  induction calls with
  | nil => exact fun safe holds _ => ⟨_, [], rfl, safe, .inr ⟨holds, Nat.le_refl _⟩⟩
  | cons call calls ih =>
    intro state safe holds each
    obtain ⟨next, out, stepped, safe', goes⟩ := kept state call safe
    have later : ∀ call ∈ calls, allowed call := fun c member =>
      each c (List.mem_cons_of_mem _ member)
    rcases goes holds (each call List.mem_cons_self) with here | ⟨holds', falls⟩
    · have goes_on : ∀ state call, J state → True →
          ∃ next out, step state call = .ok (next, out) ∧ J next := by
        rintro state call safe -
        obtain ⟨next, out, stepped, safe', _⟩ := kept state call safe
        exact ⟨next, out, stepped, safe'⟩
      obtain ⟨final, outs, ran, safe''⟩ := run_along goes_on safe' (Along.always calls next)
      refine ⟨final, out :: outs, ?_, safe'', .inl ⟨out, List.mem_cons_self, here⟩⟩
      simp only [run, stepped, ran]
    · obtain ⟨final, outs, ran, safe'', reached⟩ := ih safe' holds' later
      refine ⟨final, out :: outs, ?_, safe'', ?_⟩
      · simp only [run, stepped, ran]
      · refine reached.imp (fun ⟨out', member, gives⟩ => ⟨out', List.mem_cons_of_mem _ member, gives⟩)
          fun ⟨holds'', le⟩ => ⟨holds'', ?_⟩
        rw [List.countP_cons]
        cases takes : turn call
        · simp only [takes, Bool.toNat_false, Bool.false_eq_true, if_false] at falls ⊢
          omega
        · simp only [takes, Bool.toNat_true, if_true] at falls ⊢
          omega

end Machine
