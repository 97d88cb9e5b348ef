/-
**Rounding to the nearest.**

`Nearest S q x`: of the numbers in `S`, `x` is one that is closest to `q`. Nothing is said of ties, and
what follows holds whichever way they go.

* `Nearest.eq` — a number of `S` is rounded to itself.
* `Nearest.le`, `Nearest.ge` — rounding does not pass a number of `S`.
* `Nearest.mono` — rounding keeps the order.
* `nearest_int` — an integer at most half of one away is the nearest; `int_eq` — it is the only one, if
  it is less than half of one away.
* `away_near`, `away_mono` — the nearest integer with halves going away from zero.
-/

import Mathlib.Algebra.Order.Field.Basic
import Mathlib.Algebra.Order.Ring.Cast
import Mathlib.Algebra.Order.Round
import Mathlib.Data.Int.Cast.Lemmas
import Mathlib.Tactic.Linarith
import Mathlib.Tactic.Ring

namespace Rounding

variable {α : Type*} [Field α] [LinearOrder α] [IsStrictOrderedRing α] {S : Set α}
  {q q' x x' a : α}

structure Nearest (S : Set α) (q x : α) : Prop where
  mem : x ∈ S
  closest : ∀ y ∈ S, |x - q| ≤ |y - q|

/-- **A number of the set is rounded to itself.** -/
theorem Nearest.eq (nearest : Nearest S q x) (mem : q ∈ S) : x = q := by
  have none := nearest.closest q mem
  rw [sub_self, abs_zero] at none
  exact sub_eq_zero.mp (abs_eq_zero.mp (le_antisymm none (abs_nonneg _)))

/-- The lower of two numbers is not the closer one from their middle on. -/
theorem middle_le (lt : x' < x) (closer : |x - q| ≤ |x' - q|) : x' + x ≤ 2 * q := by
  have squares : (x - q) ^ 2 ≤ (x' - q) ^ 2 := sq_le_sq.mpr closer
  nlinarith

theorem le_middle (lt : x' < x) (closer : |x' - q| ≤ |x - q|) : 2 * q ≤ x' + x := by
  have squares : (x' - q) ^ 2 ≤ (x - q) ^ 2 := sq_le_sq.mpr closer
  nlinarith

/-- **Rounding does not pass a number of the set.** -/
theorem Nearest.le (nearest : Nearest S q x) (mem : a ∈ S) (le : q ≤ a) : x ≤ a := by
  by_contra past
  have middle := middle_le (not_le.mp past) (nearest.closest a mem)
  linarith

theorem Nearest.ge (nearest : Nearest S q x) (mem : a ∈ S) (ge : a ≤ q) : a ≤ x := by
  by_contra past
  have middle := le_middle (not_le.mp past) (nearest.closest a mem)
  linarith

/-- **Rounding keeps the order.** -/
theorem Nearest.mono (nearest : Nearest S q x) (nearest' : Nearest S q' x') (lt : q < q') :
    x ≤ x' := by
  by_contra past
  have below := middle_le (not_le.mp past) (nearest.closest x' nearest'.mem)
  have above := le_middle (not_le.mp past) (nearest'.closest x nearest.mem)
  linarith

/-! ### Integers -/

/-- Two integers are the same or at least one apart. -/
theorem one_le_abs {m n : ℤ} (ne : m ≠ n) : (1 : α) ≤ |(m : α) - n| := by
  have apart : 1 ≤ |m - n| := Int.one_le_abs (sub_ne_zero.mpr ne)
  exact_mod_cast apart

/-- **An integer at most half of one away is the nearest.** -/
theorem nearest_int {n : ℤ} (half : |(n : α) - q| ≤ 1 / 2) :
    Nearest (Set.range ((↑) : ℤ → α)) q n := by
  refine ⟨⟨n, rfl⟩, ?_⟩
  rintro _ ⟨m, rfl⟩
  by_cases same : m = n
  · rw [same]
  · have apart : (1 : α) ≤ |(m : α) - n| := one_le_abs same
    have way : |(m : α) - n| ≤ |(m : α) - q| + |(n : α) - q| := by
      rw [abs_sub_comm (n : α) q]
      exact abs_sub_le _ _ _
    linarith

theorem exists_nearest_int [FloorRing α] (q : α) : ∃ n : ℤ, |(n : α) - q| ≤ 1 / 2 := by
  refine ⟨round q, ?_⟩
  rw [abs_sub_comm]
  exact abs_sub_round q

/-- It is the only one, if it is less than half of one away. -/
theorem int_eq {m n : ℤ} (half : |(m : α) - q| ≤ 1 / 2) (less : |(n : α) - q| < 1 / 2) :
    m = n := by
  by_contra ne
  have apart : (1 : α) ≤ |(m : α) - n| := one_le_abs ne
  have way : |(m : α) - n| ≤ |(m : α) - q| + |(n : α) - q| := by
    rw [abs_sub_comm (n : α) q]
    exact abs_sub_le _ _ _
  linarith

/-! ### Halves away from zero -/

section

variable [FloorRing α]

/-- The nearest integer, of two the one further from zero. -/
def away (q : α) : ℤ := if q < 0 then -⌊-q + 1 / 2⌋ else ⌊q + 1 / 2⌋

theorem floor_half (q : α) : |((⌊q + 1 / 2⌋ : ℤ) : α) - q| ≤ 1 / 2 := by
  have low := Int.lt_floor_add_one (q + 1 / 2)
  have high := Int.floor_le (q + 1 / 2)
  rw [abs_le]
  constructor <;> linarith

theorem away_near (q : α) : |((away q : ℤ) : α) - q| ≤ 1 / 2 := by
  unfold away
  split
  · have near := floor_half (-q)
    rw [abs_sub_comm] at near
    rw [Int.cast_neg]
    convert near using 2
    ring
  · exact floor_half q

/-- **It keeps the order.** -/
theorem away_mono {q q' : α} (le : q ≤ q') : away q ≤ away q' := by
  unfold away
  by_cases negative : q < 0
  · rw [if_pos negative]
    split
    · exact neg_le_neg (Int.floor_mono (by linarith))
    · have below : 0 ≤ ⌊-q + 1 / 2⌋ := Int.floor_nonneg.mpr (by linarith)
      have above : 0 ≤ ⌊q' + 1 / 2⌋ := Int.floor_nonneg.mpr (by linarith)
      omega
  · rw [if_neg negative, if_neg (not_lt.mpr ((not_lt.mp negative).trans le))]
    exact Int.floor_mono (by linarith)

end

end Rounding
