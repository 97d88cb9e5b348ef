/-
**Computations that keep a log.**

A computation in `StateT (List ω) m` puts entries on a log. `Erases` says that it is a given
computation in `m` if the log is left out of account, and `Logs` that it besides adds given entries
to the log. Both compose (`Erases.bind`, `Logs.bind_silent`, `Logs.bind_known`).
-/

import Mathlib.Control.Monad.Basic

namespace Ob

variable {ω α β : Type} {m : Type → Type} [Monad m]

/-- Without the log, the computation is `plain`. -/
def Erases (logged : StateT (List ω) m α) (plain : m α) : Prop :=
  ∀ log, Prod.fst <$> logged.run log = plain

/-- The computation is `plain`, and it adds `calls` to the log. -/
def Logs (logged : StateT (List ω) m α) (plain : m α) (calls : List ω) : Prop :=
  ∀ log, logged.run log = (fun result => (result, log ++ calls)) <$> plain

/-- A computation that is put on the log before it starts. -/
def logCall (call : ω) (plain : m α) : StateT (List ω) m α := do
  modify (· ++ [call])
  plain

section

variable [LawfulMonad m] {logged : StateT (List ω) m α} {plain : m α} {calls : List ω}

theorem Logs.erases (logs : Logs logged plain calls) : Erases logged plain := by
  intro log
  rw [logs log, ← comp_map]
  exact id_map plain

theorem Erases.bind {f : α → StateT (List ω) m β} {g : α → m β} (first : Erases logged plain)
    (next : ∀ result, Erases (f result) (g result)) : Erases (logged >>= f) (plain >>= g) := by
  intro log
  calc Prod.fst <$> (logged >>= f).run log
      = logged.run log >>= fun p => Prod.fst <$> (f p.1).run p.2 := map_bind _ _ _
    _ = logged.run log >>= fun p => g p.1 := bind_congr fun p => next p.1 p.2
    _ = (Prod.fst <$> logged.run log) >>= g := (bind_map_left _ _ _).symm
    _ = plain >>= g := by rw [first log]

/-! ### What is logged -/

theorem Logs.pure (result : α) : Logs (ω := ω) (Pure.pure result) (Pure.pure result : m α) [] := by
  intro log
  rw [map_pure, List.append_nil]
  rfl

theorem Logs.lift (plain : m α) : Logs (ω := ω) (liftM plain) plain [] := by
  intro log
  simp only [List.append_nil]
  exact bind_pure_comp _ _

theorem Logs.call (call : ω) (plain : m α) : Logs (logCall call plain) plain [call] := by
  intro log
  calc (logCall call plain).run log
      = (Pure.pure (PUnit.unit, log ++ [call]) >>= fun p =>
          plain >>= fun result => Pure.pure (result, p.2)) := rfl
    _ = (fun result => (result, log ++ [call])) <$> plain := by rw [pure_bind, bind_pure_comp]

/-- What follows does not log. -/
theorem Logs.bind_silent {f : α → StateT (List ω) m β} {g : α → m β}
    (logs : Logs logged plain calls) (silent : ∀ result, Logs (f result) (g result) []) :
    Logs (logged >>= f) (plain >>= g) calls := by
  intro log
  calc (logged >>= f).run log
      = logged.run log >>= fun p => (f p.1).run p.2 := rfl
    _ = plain >>= fun result => (f result).run (log ++ calls) := by rw [logs log, bind_map_left]
    _ = plain >>= fun result => (fun r => (r, log ++ calls)) <$> g result := by
        refine bind_congr fun result => ?_
        rw [silent result, List.append_nil]
    _ = (fun r => (r, log ++ calls)) <$> (plain >>= g) := (map_bind _ _ _).symm

/-- The first computation is known to return `result`. -/
theorem Logs.bind_known {f : α → StateT (List ω) m β} {g : α → m β} {result : α} {later : List ω}
    (logs : Logs logged plain calls) (known : plain = Pure.pure result)
    (next : Logs (f result) (g result) later) :
    Logs (logged >>= f) (plain >>= g) (calls ++ later) := by
  intro log
  calc (logged >>= f).run log
      = logged.run log >>= fun p => (f p.1).run p.2 := rfl
    _ = (f result).run (log ++ calls) := by rw [logs log, known, map_pure, pure_bind]
    _ = (fun r => (r, log ++ (calls ++ later))) <$> g result := by
        rw [next (log ++ calls), List.append_assoc]
    _ = (fun r => (r, log ++ (calls ++ later))) <$> (plain >>= g) := by rw [known, pure_bind]

theorem Logs.bind_last {f : α → StateT (List ω) m β} {g : α → m β} {result : α}
    (logs : Logs logged plain calls) (known : plain = Pure.pure result)
    (silent : Logs (f result) (g result) []) : Logs (logged >>= f) (plain >>= g) calls := by
  have bound := logs.bind_known known silent
  rwa [List.append_nil] at bound

end

end Ob
