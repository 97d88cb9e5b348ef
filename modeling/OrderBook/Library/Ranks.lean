/-
**Order statistics.**

* `le_countP_iff` — at least `k` elements have a grade up to `t` exactly if the `k`-th smallest has,
  for any grade that grows with the element.
-/

import Mathlib.Order.Lattice

namespace Ranks

variable {α β : Type} [LinearOrder α] [LinearOrder β] {xs : List α} {k : Nat} {s : α}

/-- The `k`-th smallest element, counted from 1. -/
def kth (xs : List α) (k : Nat) : Option α := (xs.mergeSort (· ≤ ·))[k - 1]?

theorem sorted (xs : List α) : (xs.mergeSort (· ≤ ·)).Pairwise (· ≤ ·) := by
  refine List.Pairwise.imp of_decide_eq_true (List.pairwise_mergeSort ?_ ?_ xs)
  · intro a b c first second
    exact decide_eq_true (le_trans (of_decide_eq_true first) (of_decide_eq_true second))
  · intro a b
    rcases le_total a b with le | le
    · rw [decide_eq_true le, Bool.true_or]
    · rw [decide_eq_true le, Bool.or_true]

theorem exists_kth (some_k : 1 ≤ k) (le : k ≤ xs.length) : ∃ s, kth xs k = some s := by
  have lt : k - 1 < (xs.mergeSort (· ≤ ·)).length := by
    rw [List.length_mergeSort]
    omega
  exact ⟨_, List.getElem?_eq_getElem lt⟩

theorem kth_mem (is : kth xs k = some s) : s ∈ xs :=
  List.mem_mergeSort.mp (List.mem_of_getElem? is)

/-- Beyond a grade there is no smaller one in a sorted list. -/
theorem countP_eq_zero {f : α → β} (mono : ∀ a b, a ≤ b → f a ≤ f b) {x : α} {t : β}
    (beyond : t < f x) (upper : ∀ y ∈ xs, x ≤ y) : xs.countP (f · ≤ t) = 0 := by
  rw [List.countP_eq_zero]
  intro y member
  rw [decide_eq_true_eq, not_le]
  exact lt_of_lt_of_le beyond (mono x y (upper y member))

theorem le_countP_sorted {f : α → β} (mono : ∀ a b, a ≤ b → f a ≤ f b) (t : β) {j : Nat}
    (order : xs.Pairwise (· ≤ ·)) (is : xs[j]? = some s) :
    j + 1 ≤ xs.countP (f · ≤ t) ↔ f s ≤ t := by
  induction xs generalizing j with
  | nil => cases is
  | cons x rest ih =>
    obtain ⟨upper, order⟩ := List.pairwise_cons.mp order
    by_cases here : f x ≤ t
    · rw [List.countP_cons, if_pos (decide_eq_true here)]
      cases j with
      | zero =>
        obtain rfl := Option.some.inj is
        exact iff_of_true (Nat.le_add_left 1 _) here
      | succ j =>
        rw [← ih order is]
        exact Nat.add_le_add_iff_right
    · have none := countP_eq_zero mono (not_le.mp here) upper
      rw [List.countP_cons, if_neg (fun there => here (of_decide_eq_true there)), none]
      refine iff_of_false (Nat.not_succ_le_zero j) fun there => here (le_trans ?_ there)
      rcases List.mem_cons.mp (List.mem_of_getElem? is) with rfl | member
      · exact le_refl _
      · exact mono _ _ (upper _ member)

/-- **The count up to a grade** reaches `k` exactly where the grade of the `k`-th smallest does. -/
theorem le_countP_iff {f : α → β} (mono : ∀ a b, a ≤ b → f a ≤ f b) (some_k : 1 ≤ k)
    (is : kth xs k = some s) (t : β) : k ≤ xs.countP (f · ≤ t) ↔ f s ≤ t := by
  have counted := le_countP_sorted mono t (sorted xs) is
  rwa [Nat.sub_add_cancel some_k, (List.mergeSort_perm xs (· ≤ ·)).countP_eq] at counted

end Ranks
