/-
**The list of symbols.**

* `pushTrimmed_eq` — the two searches of a piece find the ends of what is left of it without its
  blanks, and `substr` does not throw.
* `parseFrom_eq` — the loop, from any index on.
* `parseSymbols_eq` — the list is split at its commas, the pieces are trimmed, and what is empty
  then is left out; so a list of symbols, written with commas and with blanks around each, is read
  back as it was.
-/

import OrderBook.Library.Pieces
import OrderBook.Source.LiveTrade

namespace Ob.LiveTrade

/-! ### A piece -/

def isBlank (c : Char) : Bool := c ∈ blanks

theorem not_isBlank : (fun c => decide (c ∉ blanks)) = fun c => !isBlank c := by
  funext c
  exact decide_not

/-- What the searches find in a piece that is not blank. -/
theorem find_padded {left core right : List Char} (bare : Pieces.Bare isBlank core)
    (before : ∀ c ∈ left, isBlank c) (after : ∀ c ∈ right, isBlank c) :
    findFirstNotOf (left ++ core ++ right) blanks = some left.length ∧
      findLastNotOf (left ++ core ++ right) blanks = some (left.length + core.length - 1) := by
  constructor
  · rw [findFirstNotOf, not_isBlank]
    exact Pieces.findIdx?_padded bare before right
  · have mirrored := Pieces.findIdx?_padded bare.reverse
      (fun c member => after c (List.mem_reverse.mp member)) left.reverse
    rw [findLastNotOf, not_isBlank, List.reverse_append, List.reverse_append, ← List.append_assoc,
      mirrored, Option.map_some, List.length_reverse, List.length_append, List.length_append]
    congr 1
    omega

theorem pushTrimmed_eq (tok : List Char) (out : List (List Char)) :
    pushTrimmed tok out = some (out ++ [Pieces.trim isBlank tok].filter (· ≠ [])) := by
  rcases Pieces.blank_or_padded isBlank tok with
    blank | ⟨left, core, right, rfl, bare, before, after⟩
  · have none : findFirstNotOf tok blanks = none := by
      rw [findFirstNotOf, not_isBlank]
      refine List.findIdx?_eq_none_iff.mpr fun c member => ?_
      rw [blank c member]
      rfl
    rw [Pieces.trim_blank blank, pushTrimmed, none]
    exact congrArg some (List.append_nil out).symm
  · obtain ⟨first, last⟩ := find_padded bare before after
    have some_letter := List.length_pos_iff.mpr bare.nonempty
    have middle : substr (left ++ core ++ right) left.length
        (left.length + core.length - 1 - left.length + 1) = some core := by
      have size : left.length + core.length - 1 - left.length + 1 = core.length := by omega
      rw [substr, if_pos (by simp only [List.length_append]; omega), size, List.append_assoc,
        List.drop_left, List.take_left]
    rw [Pieces.trim_padded bare before after, pushTrimmed, first, last]
    simp only [Option.getD_some, middle]
    rw [List.filter_singleton, decide_eq_true bare.nonempty]
    rfl

/-! ### The loop -/

/-- What the text stands for. -/
def symbolsOf (csv : List Char) : List (List Char) :=
  ((csv.splitOn ',').map (Pieces.trim isBlank)).filter (· ≠ [])

theorem symbolsOf_last {csv : List Char} (none : csv.findIdx? (· = ',') = none) :
    symbolsOf csv = [Pieces.trim isBlank csv].filter (· ≠ []) := by
  have no_comma : ',' ∉ csv := fun member =>
    absurd (List.findIdx?_eq_none_iff.mp none _ member) (by decide)
  rw [symbolsOf, List.splitOn_eq_singleton no_comma]
  rfl

theorem symbolsOf_first {csv : List Char} {i : Nat} (first : csv.findIdx? (· = ',') = some i) :
    symbolsOf csv =
      [Pieces.trim isBlank (csv.take i)].filter (· ≠ []) ++ symbolsOf (csv.drop (i + 1)) := by
  have split : csv.splitOn ',' = _ := Pieces.splitOn_first first
  rw [symbolsOf, split, List.map_cons, ← List.singleton_append, List.filter_append]
  rfl

/-- **The loop**, by the length of what is left: from an index on, up to the end of the text and
including it, what is left is read as a text of its own. -/
theorem parseFrom_eq (csv : List Char) (start : Nat) (out : List (List Char))
    (inside : start ≤ csv.length) :
    parseFrom csv start out = some (out ++ symbolsOf (csv.drop start)) := by
  induction start, out using parseFrom.induct csv with
  | case2 start out outside => exact absurd inside outside
  | case1 start out _ ih =>
    rw [parseFrom, if_pos inside]
    cases found : find csv ',' start with
    | none =>
      have last := Option.map_eq_none_iff.mp found
      have piece : substr csv start (csv.length - start) = some (csv.drop start) := by
        rw [substr, if_pos inside, List.take_of_length_le (by rw [List.length_drop])]
      simp only [Option.getD_none, piece, Option.bind_eq_bind, Option.bind_some, pushTrimmed_eq]
      rw [symbolsOf_last last]
      rfl
    | some comma =>
      obtain ⟨i, first, rfl⟩ := Option.map_eq_some_iff.mp found
      have bounds := find_bounds found
      have piece : substr csv start (start + i - start) = some ((csv.drop start).take i) := by
        rw [substr, if_pos inside, Nat.add_sub_cancel_left]
      simp only [Option.getD_some, piece, Option.bind_eq_bind, Option.bind_some, pushTrimmed_eq]
      rw [ih _ _ found (by omega), symbolsOf_first first, List.append_assoc, List.drop_drop,
        Nat.add_assoc]

/-! ### Reading a list back -/

/-- A symbol as it may be written: with blanks before and after it. -/
structure Entry where
  left : List Char
  symbol : List Char
  right : List Char
  before : ∀ c ∈ left, c ∈ blanks
  after : ∀ c ∈ right, c ∈ blanks
  nonempty : symbol ≠ []
  no_comma : ',' ∉ symbol
  head : ∀ c ∈ symbol.head?, c ∉ blanks
  last : ∀ c ∈ symbol.getLast?, c ∉ blanks

def Entry.text (entry : Entry) : List Char := entry.left ++ entry.symbol ++ entry.right

theorem Entry.trim_text (entry : Entry) : Pieces.trim isBlank entry.text = entry.symbol := by
  have blank : ∀ c, isBlank c ↔ c ∈ blanks := fun c => decide_eq_true_iff
  refine Pieces.trim_padded ⟨entry.nonempty, ?_, ?_⟩ ?_ ?_
  · exact fun c here => eq_false_of_ne_true (mt (blank c).mp (entry.head c here))
  · exact fun c here => eq_false_of_ne_true (mt (blank c).mp (entry.last c here))
  · exact fun c member => (blank c).mpr (entry.before c member)
  · exact fun c member => (blank c).mpr (entry.after c member)

theorem Entry.comma_not_mem (entry : Entry) : ',' ∉ entry.text := by
  have no_blank : ',' ∉ blanks := by decide
  rw [text, List.mem_append, List.mem_append]
  rintro ((left | symbol) | right)
  · exact no_blank (entry.before _ left)
  · exact entry.no_comma symbol
  · exact no_blank (entry.after _ right)

theorem symbolsOf_entries (entries : List Entry) :
    symbolsOf ([','].intercalate (entries.map Entry.text)) = entries.map Entry.symbol := by
  by_cases none : entries = []
  · subst none
    decide
  · have split : ([','].intercalate (entries.map Entry.text)).splitOn ',' =
        entries.map Entry.text := by
      refine List.splitOn_intercalate _ ?_ (mt List.map_eq_nil_iff.mp none)
      intro text member
      obtain ⟨entry, _, rfl⟩ := List.mem_map.mp member
      exact entry.comma_not_mem
    have trimmed : Pieces.trim isBlank ∘ Entry.text = Entry.symbol := by
      funext entry
      exact entry.trim_text
    rw [symbolsOf, split, List.map_map, trimmed]
    refine List.filter_eq_self.mpr fun symbol member => ?_
    obtain ⟨entry, _, rfl⟩ := List.mem_map.mp member
    exact decide_eq_true entry.nonempty

/-- **Split, trim, filter**, for every text; and every list of symbols is read back. -/
theorem parseSymbols_eq :
    (∀ csv : List Char, parseSymbols csv =
      some (((csv.splitOn ',').map (Pieces.trim (· ∈ blanks))).filter (· ≠ []))) ∧
    ∀ entries : List Entry,
      parseSymbols ([','].intercalate (entries.map Entry.text)) =
        some (entries.map Entry.symbol) := by
  have read : ∀ csv, parseSymbols csv = some (symbolsOf csv) := by
    intro csv
    rw [parseSymbols, parseFrom_eq csv 0 [] (Nat.zero_le _)]
    rfl
  exact ⟨read, fun entries => by rw [read, symbolsOf_entries]⟩

/-- Two symbols, a space before one and a tab after the other. -/
theorem parseSymbols_two : parseSymbols [' ', 'B', 'T', ',', 'E', '\t'] =
    some [['B', 'T'], ['E']] :=
  parseSymbols_eq.2 [
    { left := [' '], symbol := ['B', 'T'], right := []
      before := List.forall_mem_singleton.mpr (by decide)
      after := List.forall_mem_nil _
      nonempty := by decide
      no_comma := by decide
      head := by rintro _ ⟨⟩; decide
      last := by rintro _ ⟨⟩; decide },
    { left := [], symbol := ['E'], right := ['\t']
      before := List.forall_mem_nil _
      after := List.forall_mem_singleton.mpr (by decide)
      nonempty := by decide
      no_comma := by decide
      head := by rintro _ ⟨⟩; decide
      last := by rintro _ ⟨⟩; decide }]

/-- Empty pieces, blank ones and a comma at the end. -/
example : parseSymbols [',', 'B', ' ', 'T', ' ', ',', ' ', ',', ',', 'E', ','] =
    some [['B', ' ', 'T'], ['E']] := by decide +kernel

end Ob.LiveTrade
