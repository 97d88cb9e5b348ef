/-
**Binary search for a partition point.**

`lowerBound before xs` is the search by halving over a sequence that is split into a part on which
`before` holds and a part on which it does not. `lowerBound_append`: on such a sequence it returns
the position of the split, whatever the two parts are. On a sequence that is not split the loop
still ends, at a position inside the sequence or at its end.
-/

import Mathlib.Data.List.Basic

namespace Search

variable {α : Type*} (before : α → Bool)

/-- The halving loop: `first` is the start of the range still searched, `len` its length. -/
def lowerBoundLoop (xs : List α) : Nat → Nat → Nat → Nat
  | 0, first, _ => first
  | fuel + 1, first, len =>
    if len = 0 then first
    else
      match xs[first + len / 2]? with
      | none => first
      | some x =>
        if before x then lowerBoundLoop xs fuel (first + len / 2 + 1) (len - len / 2 - 1)
        else lowerBoundLoop xs fuel first (len / 2)

/-- The first position whose element is not `before`. -/
def lowerBound (xs : List α) : Nat :=
  lowerBoundLoop before xs xs.length 0 xs.length

variable {before}

/-- The split stays inside the searched range until the range is empty. -/
theorem lowerBoundLoop_append {ys zs : List α} (low : ∀ y ∈ ys, before y = true)
    (high : ∀ z ∈ zs, before z = false) :
    ∀ fuel first len, len ≤ fuel → first ≤ ys.length → ys.length ≤ first + len →
      first + len ≤ (ys ++ zs).length →
        lowerBoundLoop before (ys ++ zs) fuel first len = ys.length := by
  intro fuel
  induction fuel with
  | zero =>
    intro first len small start stop _
    unfold lowerBoundLoop
    omega
  | succ fuel ih =>
    intro first len small start stop inside
    unfold lowerBoundLoop
    by_cases empty : len = 0
    · rw [if_pos empty]
      omega
    · rw [if_neg empty]
      have bound : first + len / 2 < (ys ++ zs).length := by omega
      rw [List.getElem?_eq_getElem bound]
      by_cases left : first + len / 2 < ys.length
      · have mid : before (ys ++ zs)[first + len / 2] = true := by
          rw [List.getElem_append_left left]
          exact low _ (List.getElem_mem left)
        simp only [mid, if_true]
        exact ih _ _ (by omega) (by omega) (by omega) (by omega)
      · have mid : before (ys ++ zs)[first + len / 2] = false := by
          rw [List.getElem_append_right (by omega)]
          exact high _ (List.getElem_mem _)
        simp only [mid, Bool.false_eq_true, if_false]
        exact ih _ _ (by omega) (by omega) (by omega) (by omega)

/-- The search finds the split of a partitioned sequence. -/
theorem lowerBound_append {ys zs : List α} (low : ∀ y ∈ ys, before y = true)
    (high : ∀ z ∈ zs, before z = false) : lowerBound before (ys ++ zs) = ys.length :=
  lowerBoundLoop_append low high _ _ _ (Nat.le_refl _) (Nat.zero_le _)
    (by rw [List.length_append]; omega) (by omega)

end Search
