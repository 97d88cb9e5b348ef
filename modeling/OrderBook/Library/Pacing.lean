/-
**Pacing.**

A process counts its moments and acts at some of them. A counter of the moments it has waited, which
starts again with an action and may stand still otherwise, is what it goes by:

* `Paced` — no action before both the first `window` moments and a further `coolDown` are over, and
  more than `coolDown` moments between two actions.
* `Paced.wait`, `Paced.act` — a moment without an action and one with it.
* `rtake_snoc` — the last elements of a sequence, kept by dropping the oldest one.
-/

import Mathlib.Data.List.DropRight

namespace Pacing

/-- The actions taken by the `now`-th moment, and the counter. -/
structure Paced (window coolDown : Nat) (acted : List Nat) (now waited : Nat) : Prop where
  first : ∀ i ∈ acted, window + coolDown ≤ i
  apart : acted.Pairwise fun i j => i + coolDown < j
  latest : ∀ i ∈ acted, i + waited ≤ now
  filled : waited = 0 ∨ waited + window ≤ now + 1

variable {window coolDown now waited : Nat} {acted : List Nat}

theorem Paced.start (window coolDown : Nat) : Paced window coolDown [] 0 0 where
  first _ member := by cases member
  apart := .nil
  latest _ member := by cases member
  filled := .inl rfl

/-- A moment without an action. -/
theorem Paced.wait (paced : Paced window coolDown acted now waited) {waited' : Nat}
    (counts : waited' = waited ∨ window ≤ now + 1 ∧ waited' = waited + 1) :
    Paced window coolDown acted (now + 1) waited' where
  first := paced.first
  apart := paced.apart
  latest i member := by
    have := paced.latest i member
    omega
  filled := by
    have := paced.filled
    omega

/-- A moment with an action. -/
theorem Paced.act (paced : Paced window coolDown acted now waited) (full : window ≤ now + 1)
    (cooled : coolDown ≤ waited) : Paced window coolDown (acted ++ [now + 1]) (now + 1) 0 where
  first i member := by
    rcases List.mem_append.mp member with before | here
    · exact paced.first i before
    · have := paced.filled
      rw [List.mem_singleton.mp here]
      omega
  apart := by
    refine List.pairwise_append.mpr ⟨paced.apart, List.pairwise_singleton _ _, ?_⟩
    intro i before j here
    have := paced.latest i before
    rw [List.mem_singleton.mp here]
    omega
  latest i member := by
    rcases List.mem_append.mp member with before | here
    · have := paced.latest i before
      omega
    · exact Nat.le_of_eq (List.mem_singleton.mp here)
  filled := .inl rfl

/-- The last elements of a longer sequence: one more, and the first of them goes if they are too
many. -/
theorem rtake_snoc {α : Type*} (l : List α) (x : α) (n : Nat) :
    (l ++ [x]).rtake n = if (l.rtake n ++ [x]).length > n then (l.rtake n ++ [x]).tail
      else l.rtake n ++ [x] := by
  have size : (l.rtake n).length = min n l.length := by
    rw [List.rtake, List.length_drop]
    omega
  rw [List.length_append, size, List.length_singleton]
  by_cases full : n ≤ l.length
  · rw [if_pos (by omega), List.rtake, List.rtake, List.length_append, List.length_singleton,
      ← List.drop_append_of_le_length (by omega), List.tail_drop]
    congr 1
    omega
  · rw [if_neg (by omega), List.rtake, List.rtake, List.length_append, List.length_singleton,
      ← List.drop_append_of_le_length (by omega)]
    congr 1
    omega

end Pacing
