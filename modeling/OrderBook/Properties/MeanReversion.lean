/-
**Mean reversion over a history.**

The ticks are numbered, 1, 2, 3, …, those without a mid price left out (`mids`); `actedAt` are the
numbers of the ticks at which the strategy acted.

* `push_window`, `push_sum` — one mid price: the window stays the end of the history and the sum its
  sum.
* `tickWith_cases` — all that a tick can do.
* `answers_steady` — along every history, with any rule: the window holds the latest mid prices,
  nothing is done before it has filled and the cool-down is over, and two actions are more than the
  cool-down apart.
-/

import Mathlib.Algebra.Ring.Int.Defs
import OrderBook.Library.Machine
import OrderBook.Library.Pacing
import OrderBook.Source.MeanReversion

namespace Ob.MeanReversion

variable {side : Int → Float.Model → Option Side} {cfg : Config} {r : MeanReversion}

/-! ### The window -/

/-- The mid prices of the ticks that have one. -/
def mids (ticks : List MarketSnapshot) : List Int :=
  (ticks.map MarketSnapshot.mid).filter (· ≠ 0)

theorem mids_append (ticks more : List MarketSnapshot) :
    mids (ticks ++ more) = mids ticks ++ mids more := by
  rw [mids, List.map_append, List.filter_append]
  rfl

theorem mids_singleton (tick : MarketSnapshot) :
    mids [tick] = if tick.mid = 0 then [] else [tick.mid] := by
  rw [mids, List.map_singleton, List.filter_singleton]
  by_cases quiet : tick.mid = 0
  · rw [if_pos quiet, decide_eq_false (not_not.mpr quiet), cond_false]
  · rw [if_neg quiet, decide_eq_true quiet, cond_true]

theorem push_window {prices : List Int} (held : r.window = prices.rtake cfg.window) (mid : Int) :
    (r.push cfg mid).window = (prices ++ [mid]).rtake cfg.window := by
  rw [Pacing.rtake_snoc, ← held, push]
  split <;> rfl

theorem push_sum (held : r.sum = r.window.sum) (mid : Int) :
    (r.push cfg mid).sum = (r.push cfg mid).window.sum := by
  have total : r.sum + mid = (r.window ++ [mid]).sum := by
    rw [List.sum_append, List.sum_singleton, held]
  simp only [push]
  split
  · rename_i long
    cases pushed : r.window ++ [mid] with
    | nil => exact absurd pushed (List.append_ne_nil_of_right_ne_nil _ (List.cons_ne_nil _ _))
    | cons front rest =>
      rw [pushed, List.sum_cons] at total
      show r.sum + mid - front = rest.sum
      omega
  · exact total

@[simp] theorem push_sinceAction (cfg : Config) (r : MeanReversion) (mid : Int) :
    (r.push cfg mid).sinceAction = r.sinceAction := by
  simp only [push]
  split <;> rfl

/-! ### One tick -/

/-- A tick without a mid price. -/
theorem tickWith_quiet {tick : MarketSnapshot} (quiet : tick.mid = 0) :
    tickWith side cfg r tick = (none, r) := if_pos quiet

/-- **All that a tick with a mid price can do**: the window takes it in; before the window is full
the count of the ticks waited stands, later it goes on, and only when it has reached the cool-down
it may start again with an action. -/
theorem tickWith_cases (side : Int → Float.Model → Option Side) (cfg : Config) (r : MeanReversion)
    {tick : MarketSnapshot} (some_mid : tick.mid ≠ 0) :
    ∃ act since, tickWith side cfg r tick =
        (act, { r.push cfg tick.mid with sinceAction := since }) ∧
      (act = none ∧ since = r.sinceAction ∨
        cfg.window ≤ (r.push cfg tick.mid).window.length ∧
          (act = none ∧ since = r.sinceAction + 1 ∨
            cfg.coolDown ≤ r.sinceAction ∧ act.isSome ∧ since = 0)) := by
  rw [tickWith, if_neg some_mid]
  by_cases filling : (r.push cfg tick.mid).window.length < cfg.window
  · refine ⟨none, r.sinceAction, ?_, .inl ⟨rfl, rfl⟩⟩
    rw [if_pos filling, ← push_sinceAction cfg r tick.mid]
  · have full := Nat.not_lt.mp filling
    simp only [if_neg filling, push_sinceAction]
    by_cases cooling : r.sinceAction < cfg.coolDown
    · rw [if_pos cooling]
      exact ⟨none, _, rfl, .inr ⟨full, .inl ⟨rfl, rfl⟩⟩⟩
    · rw [if_neg cooling]
      split
      · exact ⟨_, 0, rfl, .inr ⟨full, .inr ⟨Nat.not_lt.mp cooling, rfl, rfl⟩⟩⟩
      · exact ⟨none, _, rfl, .inr ⟨full, .inl ⟨rfl, rfl⟩⟩⟩

/-! ### A history -/

/-- A tick and what the strategy answers to it. -/
def step (side : Int → Float.Model → Option Side) (cfg : Config) (r : MeanReversion)
    (tick : MarketSnapshot) : MeanReversion × Option StrategyAction :=
  (tickWith side cfg r tick).swap

/-- The numbers of the ticks with an action, after `n` ticks with a mid price. -/
def actedAt (n : Nat) : List (MarketSnapshot × Option StrategyAction) → List Nat
  | [] => []
  | (tick, act) :: rest =>
    let n := if tick.mid = 0 then n else n + 1
    if act.isSome then n :: actedAt n rest else actedAt n rest

theorem actedAt_cons (n : Nat) (tick : MarketSnapshot) (act : Option StrategyAction)
    (rest : List (MarketSnapshot × Option StrategyAction)) :
    actedAt n ((tick, act) :: rest) =
      (if act.isSome then [n + (mids [tick]).length] else []) ++
        actedAt (n + (mids [tick]).length) rest := by
  have number : (if tick.mid = 0 then n else n + 1) = n + (mids [tick]).length := by
    rw [mids_singleton]
    split <;> rfl
  rw [← number, actedAt]
  split <;> rfl

theorem actedAt_snoc (n : Nat) (done : List (MarketSnapshot × Option StrategyAction))
    (tick : MarketSnapshot) (act : Option StrategyAction) :
    actedAt n (done ++ [(tick, act)]) = actedAt n done ++
      if act.isSome then [n + (mids (done.map Prod.fst ++ [tick])).length] else [] := by
  induction done generalizing n with
  | nil =>
    rw [List.nil_append, actedAt_cons, actedAt, actedAt, List.append_nil]
    rfl
  | cons before done ih =>
    obtain ⟨first, answer⟩ := before
    have number : (mids (((first, answer) :: done).map Prod.fst ++ [tick])).length =
        (mids [first]).length + (mids (done.map Prod.fst ++ [tick])).length := by
      rw [← List.length_append, ← mids_append]
      rfl
    rw [List.cons_append, actedAt_cons, actedAt_cons, ih, List.append_assoc, number, Nat.add_assoc]

theorem actedAt_zip {ticks : List MarketSnapshot} {acts : List (Option StrategyAction)}
    (answered : acts.length = ticks.length) (tick : MarketSnapshot) (act : Option StrategyAction) :
    actedAt 0 ((ticks ++ [tick]).zip (acts ++ [act])) = actedAt 0 (ticks.zip acts) ++
      if act.isSome then [(mids (ticks ++ [tick])).length] else [] := by
  rw [List.zip_append answered.symm, List.zip_cons_cons, List.zip_nil_left, actedAt_snoc,
    List.map_fst_zip (Nat.le_of_eq answered.symm), Nat.zero_add]

/-- What a strategy keeps along a history of ticks: the window, its sum and its pace. -/
structure Follows (cfg : Config) (ticks : List MarketSnapshot) (acts : List (Option StrategyAction))
    (r : MeanReversion) : Prop where
  answered : acts.length = ticks.length
  window : r.window = (mids ticks).rtake cfg.window
  sum : r.sum = r.window.sum
  paced : Pacing.Paced cfg.window cfg.coolDown (actedAt 0 (ticks.zip acts)) (mids ticks).length
    r.sinceAction

theorem Follows.start (cfg : Config) : Follows cfg [] [] {} where
  answered := rfl
  window := (List.rtake_nil _).symm
  sum := rfl
  paced := .start _ _

/-- **One tick.** -/
theorem Follows.step {ticks : List MarketSnapshot} {acts : List (Option StrategyAction)}
    (follows : Follows cfg ticks acts r) (tick : MarketSnapshot) :
    Follows cfg (ticks ++ [tick]) (acts ++ [(step side cfg r tick).2])
      (step side cfg r tick).1 := by
  have answered : ∀ act, (acts ++ [act]).length = (ticks ++ [tick]).length := by
    intro act
    rw [List.length_append, List.length_append, follows.answered]
    rfl
  have acted := actedAt_zip follows.answered tick
  by_cases quiet : tick.mid = 0
  · have same : mids (ticks ++ [tick]) = mids ticks := by
      rw [mids_append, mids_singleton, if_pos quiet, List.append_nil]
    rw [MeanReversion.step, tickWith_quiet quiet]
    refine ⟨answered _, ?_, follows.sum, ?_⟩
    · rw [same]
      exact follows.window
    · rw [acted, same]
      exact (List.append_nil _).symm ▸ follows.paced
  · have more : mids (ticks ++ [tick]) = mids ticks ++ [tick.mid] := by
      rw [mids_append, mids_singleton, if_neg quiet]
    have number : (mids (ticks ++ [tick])).length = (mids ticks).length + 1 := by
      rw [more, List.length_append, List.length_singleton]
    have window := more ▸ push_window follows.window tick.mid
    have full : cfg.window ≤ (r.push cfg tick.mid).window.length →
        cfg.window ≤ (mids ticks).length + 1 := by
      rw [window, List.rtake, List.length_drop, number]
      omega
    obtain ⟨act, since, answer, branch⟩ := tickWith_cases side cfg r quiet
    rw [MeanReversion.step, answer, Prod.swap_prod_mk]
    refine ⟨answered _, window, push_sum follows.sum tick.mid, ?_⟩
    rw [acted, number]
    rcases branch with ⟨rfl, rfl⟩ | ⟨long, ⟨rfl, rfl⟩ | ⟨cooled, did, rfl⟩⟩
    · exact (List.append_nil _).symm ▸ follows.paced.wait (.inl rfl)
    · exact (List.append_nil _).symm ▸ follows.paced.wait (.inr ⟨full long, rfl⟩)
    · rw [if_pos did]
      exact follows.paced.act (full long) cooled

theorem answers_follow (side : Int → Float.Model → Option Side) (cfg : Config)
    (ticks : List MarketSnapshot) :
    Follows cfg ticks (Machine.answers (step side cfg) {} ticks).2
      (Machine.answers (step side cfg) {} ticks).1 :=
  Machine.answers_history (P := fun ticks acts r => Follows cfg ticks acts r) (.start cfg)
    (fun _ _ _ tick follows => follows.step tick) ticks

/-! ### What is promised -/

/-- After a history of ticks: the window and its sum, no early action, and no two actions close
together. The next tick, if it has no mid price, does nothing. -/
structure Steady (side : Int → Float.Model → Option Side) (cfg : Config)
    (ticks : List MarketSnapshot) (acts : List (Option StrategyAction)) (r : MeanReversion) :
    Prop where
  window : r.window = (mids ticks).rtake (min (mids ticks).length cfg.window)
  sum : r.sum = ((mids ticks).rtake (min (mids ticks).length cfg.window)).sum
  quiet : ∀ tick, tick.mid = 0 → tickWith side cfg r tick = (none, r)
  first : ∀ i ∈ actedAt 0 (ticks.zip acts), cfg.window + cfg.coolDown ≤ i
  apart : (actedAt 0 (ticks.zip acts)).Pairwise fun i j => j - i > cfg.coolDown

/-- **Along every history of ticks**, with any rule for what to do. -/
theorem answers_steady (side : Int → Float.Model → Option Side) (cfg : Config)
    (ticks : List MarketSnapshot) :
    Steady side cfg ticks (Machine.answers (step side cfg) {} ticks).2
      (Machine.answers (step side cfg) {} ticks).1 := by
  have follows := answers_follow side cfg ticks
  have latest : (mids ticks).rtake (min (mids ticks).length cfg.window) =
      (mids ticks).rtake cfg.window := by
    rw [List.rtake, List.rtake]
    congr 1
    omega
  refine ⟨?_, ?_, fun tick quiet => tickWith_quiet quiet, follows.paced.first, ?_⟩
  · rw [latest]
    exact follows.window
  · rw [latest, ← follows.window]
    exact follows.sum
  · refine follows.paced.apart.imp fun {i j} far => ?_
    omega

/-- The source's rule: two ticks at a price and then one that is a thousandth below it. -/
example :
    let tick (price : Int64) : MarketSnapshot := ⟨price, price, 0, 0, 0, 0⟩
    let cfg : Config := { window := 3, coolDown := 0 }
    (Machine.answers (fun r s => (onTick cfg r s).swap) {}
      [tick 10000, tick 10000, tick 9990]).2 =
      [none, none, some ⟨.buy, 1000⟩] := by decide +kernel

end Ob.MeanReversion
