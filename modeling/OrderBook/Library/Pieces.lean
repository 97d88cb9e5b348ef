/-
**The pieces of a text.**

A text is a list over any alphabet; some of its letters are blanks, one is the separator.

* `trim` takes the blanks from both ends; `trim_padded` — what stands between blanks and has none at
  its own ends is what is left of it, and `blank_or_padded` — every text is of that form or blank.
* `findIdx?_padded` — where the first letter stands that is no blank.
* `splitOn_first` — the first separator ends the first piece.
-/

import Mathlib.Data.List.DropRight

namespace Pieces

variable {α : Type*} {blank : α → Bool}

def trim (blank : α → Bool) (l : List α) : List α := (l.dropWhile blank).rdropWhile blank

/-- A text that neither begins nor ends with a blank, and is not empty. -/
structure Bare (blank : α → Bool) (core : List α) : Prop where
  nonempty : core ≠ []
  head : ∀ x ∈ core.head?, blank x = false
  last : ∀ x ∈ core.getLast?, blank x = false

theorem Bare.reverse {core : List α} (bare : Bare blank core) : Bare blank core.reverse where
  nonempty := mt List.reverse_eq_nil_iff.mp bare.nonempty
  head := List.head?_reverse ▸ bare.last
  last := List.getLast?_reverse ▸ bare.head

/-! ### Trimming -/

theorem trim_blank {l : List α} (blanks : ∀ x ∈ l, blank x) : trim blank l = [] := by
  rw [trim, List.dropWhile_eq_nil_iff.mpr blanks, List.rdropWhile_nil]

theorem dropWhile_padded {left core : List α} (bare : Bare blank core)
    (before : ∀ x ∈ left, blank x) (rest : List α) :
    (left ++ (core ++ rest)).dropWhile blank = core ++ rest := by
  rw [List.dropWhile_append_of_pos before]
  cases core with
  | nil => exact absurd rfl bare.nonempty
  | cons x core => exact List.dropWhile_cons_of_neg (by simp [bare.head x rfl])

theorem trim_padded {left core right : List α} (bare : Bare blank core)
    (before : ∀ x ∈ left, blank x) (after : ∀ x ∈ right, blank x) :
    trim blank (left ++ core ++ right) = core := by
  have mirrored := dropWhile_padded bare.reverse
    (fun x member => after x (List.mem_reverse.mp member)) []
  rw [List.append_nil] at mirrored
  rw [trim, List.append_assoc, dropWhile_padded bare before, List.rdropWhile, List.reverse_append,
    mirrored, List.reverse_reverse]

/-- Every text is blank, or something between blanks. -/
theorem blank_or_padded (blank : α → Bool) (l : List α) :
    (∀ x ∈ l, blank x) ∨ ∃ left core right, l = left ++ core ++ right ∧ Bare blank core ∧
      (∀ x ∈ left, blank x) ∧ ∀ x ∈ right, blank x := by
  by_cases all : ∀ x ∈ l, blank x
  · exact .inl all
  · have some_letter : l.dropWhile blank ≠ [] := mt List.dropWhile_eq_nil_iff.mp all
    have first := List.head_dropWhile_not blank some_letter
    have ends : (l.dropWhile blank).rdropWhile blank ≠ [] := by
      intro none
      have letter := List.rdropWhile_eq_nil_iff.mp none _ (List.head_mem some_letter)
      rw [first] at letter
      cases letter
    refine .inr ⟨l.takeWhile blank, (l.dropWhile blank).rdropWhile blank,
      (l.dropWhile blank).rtakeWhile blank, ?_, ⟨ends, ?_, ?_⟩, ?_, ?_⟩
    · rw [List.append_assoc, List.rdropWhile_append_rtakeWhile, List.takeWhile_append_dropWhile]
    · intro x here
      rw [List.head?_eq_some_head ends, Option.mem_some_iff,
        (List.rdropWhile_prefix blank _).head ends] at here
      exact here ▸ first
    · intro x here
      rw [List.getLast?_eq_some_getLast ends, Option.mem_some_iff] at here
      exact here ▸ eq_false_of_ne_true (List.rdropWhile_last_not blank _ ends)
    · exact fun x member => List.mem_takeWhile_imp member
    · exact fun x member => List.mem_rtakeWhile_imp member

/-! ### Searching -/

theorem findIdx?_padded {left core : List α} (bare : Bare blank core)
    (before : ∀ x ∈ left, blank x) (rest : List α) :
    (left ++ core ++ rest).findIdx? (fun x => !blank x) = some left.length := by
  have none : left.findIdx? (fun x => !blank x) = none := by
    refine List.findIdx?_eq_none_iff.mpr fun x member => ?_
    rw [before x member]
    rfl
  cases core with
  | nil => exact absurd rfl bare.nonempty
  | cons x core =>
    rw [List.append_assoc, List.findIdx?_append, none, List.cons_append, List.findIdx?_cons,
      bare.head x rfl]
    exact congrArg some (Nat.zero_add _)

theorem splitOn_first [BEq α] [LawfulBEq α] {separator : α} {l : List α} {i : Nat}
    (first : l.findIdx? (· == separator) = some i) :
    l.splitOn separator = l.take i :: (l.drop (i + 1)).splitOn separator := by
  obtain ⟨lt, here, before⟩ := List.findIdx?_eq_some_iff_getElem.mp first
  have none : separator ∉ l.take i := by
    intro member
    obtain ⟨j, small, there⟩ := List.mem_take_iff_getElem.mp member
    exact before j (by omega) (beq_iff_eq.mpr there)
  have whole : l = l.take i ++ separator :: l.drop (i + 1) := by
    rw [← beq_iff_eq.mp here, List.getElem_cons_drop, List.take_append_drop]
  conv_lhs => rw [whole]
  exact List.splitOn_append_cons_self_of_not_mem none _

end Pieces
