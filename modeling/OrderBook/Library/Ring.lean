/-
**Ring counters.**

A counter that starts anywhere and wraps around at `2 ^ 64`, and the slot of a ring of `2 ^ k` slots
that it points to:

* `count_sub` — the distance between two counts that are not too far apart, across the wrap-around.
* `index_ne` — counts less than a turn of the ring apart point to different slots.
-/

import Mathlib.Algebra.Order.Ring.Nat
import Mathlib.Data.Nat.ModEq

namespace Ring

/-- A counter after so many steps. -/
def count (start : UInt64) (n : Nat) : UInt64 := start + UInt64.ofNat n

section Count

variable {start : UInt64} {a b : Nat}

theorem count_zero : count start 0 = start := UInt64.add_zero start

theorem count_succ : count start a + 1 = count start (a + 1) := by
  rw [count, count, UInt64.ofNat_add, UInt64.add_assoc]
  rfl

theorem count_add : count (count start a) b = count start (a + b) := by
  rw [count, count, count, UInt64.ofNat_add, UInt64.add_assoc]

theorem count_sub (le : a ≤ b) (near : b - a < 2 ^ 64) :
    (count start b - count start a).toNat = b - a := by
  obtain ⟨n, rfl⟩ := Nat.exists_eq_add_of_le le
  rw [← count_add, count, UInt64.add_comm, UInt64.add_sub_cancel, UInt64.toNat_ofNat']
  rw [Nat.add_sub_cancel_left] at near ⊢
  exact Nat.mod_eq_of_lt near

theorem count_inj (le : a ≤ b) (near : b - a < 2 ^ 64) : count start a = count start b ↔ a = b := by
  refine ⟨fun same => ?_, fun same => same ▸ rfl⟩
  have distance : (count start b - count start a).toNat = b - a := count_sub le near
  rw [same, UInt64.sub_self] at distance
  exact Nat.le_antisymm le (Nat.le_of_sub_eq_zero distance.symm)

end Count

section Index

theorem toNat_two_pow {k : Nat} (small : k ≤ 63) : (UInt64.ofNat (2 ^ k)).toNat = 2 ^ k := by
  rw [UInt64.toNat_ofNat']
  exact Nat.mod_eq_of_lt (Nat.pow_lt_pow_right (by decide) (Nat.lt_succ_of_le small))

variable {k : Nat} {start : UInt64} {a b : Nat}

/-- The mask of a ring. -/
def mask (k : Nat) : UInt64 := UInt64.ofNat (2 ^ k - 1)

theorem two_pow_shift (small : k ≤ 63) :
    UInt64.ofNat (2 ^ k) <<< 1 = UInt64.ofNat (2 ^ (k + 1)) := by
  apply UInt64.toNat_inj.mp
  rw [UInt64.toNat_shiftLeft, toNat_two_pow small, UInt64.toNat_ofNat', Nat.shiftLeft_eq]
  exact congrArg (· % 2 ^ 64) (Nat.pow_succ 2 k).symm

theorem two_pow_sub_one : UInt64.ofNat (2 ^ k) - 1 = mask k := by
  rw [mask, UInt64.ofNat_sub (Nat.two_pow_pos k)]
  rfl

theorem toNat_and_mask (small : k ≤ 64) (c : UInt64) : (c &&& mask k).toNat = c.toNat % 2 ^ k := by
  have bound : 2 ^ k - 1 < 2 ^ 64 :=
    Nat.lt_of_lt_of_le (Nat.sub_lt (Nat.two_pow_pos k) Nat.one_pos)
      (Nat.pow_le_pow_right (by decide) small)
  rw [UInt64.toNat_and, mask, UInt64.toNat_ofNat', Nat.mod_eq_of_lt bound,
    Nat.and_two_pow_sub_one_eq_mod]

theorem index_lt (small : k ≤ 64) (c : UInt64) : (c &&& mask k).toNat < 2 ^ k := by
  rw [toNat_and_mask small]
  exact Nat.mod_lt _ (Nat.two_pow_pos k)

theorem index_ne (small : k ≤ 64) (lt : a < b) (near : b - a < 2 ^ k) :
    (count start a &&& mask k).toNat ≠ (count start b &&& mask k).toNat := by
  have index : ∀ n, (count start n &&& mask k).toNat = (start.toNat + n) % 2 ^ k := by
    intro n
    rw [toNat_and_mask small, count, UInt64.toNat_add, UInt64.toNat_ofNat',
      Nat.mod_mod_of_dvd _ (Nat.pow_dvd_pow 2 small), Nat.add_mod,
      Nat.mod_mod_of_dvd _ (Nat.pow_dvd_pow 2 small), ← Nat.add_mod]
  rw [index, index]
  intro same
  have turns := Nat.sub_mod_eq_zero_of_mod_eq same.symm
  rw [Nat.add_sub_add_left, Nat.mod_eq_of_lt near] at turns
  exact absurd turns (Nat.sub_ne_zero_of_lt lt)

end Index

end Ring
