/-
**The list of symbols on the command line.**

`live_trade.cpp`. A `std::string` is the list of its characters, an index a natural number, and
`npos` is `none`. The functions of the standard library come first; the one of them that may throw
returns `none` where it throws `std::out_of_range`.
-/

import Mathlib.Data.List.Basic

namespace Ob.LiveTrade

/-- `s.find(c, pos)`. -/
def find (s : List Char) (c : Char) (pos : Nat) : Option Nat :=
  ((s.drop pos).findIdx? (· = c)).map (pos + ·)

/-- `s.substr(pos, n)`, which ends at the end of the string at the latest. -/
def substr (s : List Char) (pos n : Nat) : Option (List Char) :=
  if pos ≤ s.length then some ((s.drop pos).take n) else none

def findFirstNotOf (s set : List Char) : Option Nat := s.findIdx? (· ∉ set)

def findLastNotOf (s set : List Char) : Option Nat :=
  (s.reverse.findIdx? (· ∉ set)).map (s.length - 1 - ·)

theorem find_bounds {s : List Char} {c : Char} {pos i : Nat} (found : find s c pos = some i) :
    pos ≤ i ∧ i < s.length := by
  obtain ⟨j, there, rfl⟩ := Option.map_eq_some_iff.mp found
  obtain ⟨lt, _⟩ := List.findIdx?_eq_some_iff_getElem.mp there
  rw [List.length_drop] at lt
  omega

/-- `" \t"`. -/
def blanks : List Char := [' ', '\t']

/-- `std::string::npos`, where an index is calculated with. -/
def npos : Nat := 0xFFFFFFFFFFFFFFFF

/-- What is done with a piece. -/
def pushTrimmed (tok : List Char) (out : List (List Char)) : Option (List (List Char)) :=
  let b := findFirstNotOf tok blanks
  let e := findLastNotOf tok blanks
  match b with
  | none => some out
  | some b => do
    let symbol ← substr tok b (e.getD npos - b + 1)
    return out ++ [symbol]

/-- The loop of `parse_symbols`, from `start` on. -/
def parseFrom (csv : List Char) (start : Nat) (out : List (List Char)) :
    Option (List (List Char)) :=
  if start ≤ csv.length then do
    let stop := (find csv ',' start).getD csv.length
    let tok ← substr csv start (stop - start)
    let out ← pushTrimmed tok out
    match _found : find csv ',' start with
    | none => return out
    | some comma => parseFrom csv (comma + 1) out
  else some out
termination_by csv.length + 1 - start
decreasing_by
  have := find_bounds _found
  omega

def parseSymbols (csv : List Char) : Option (List (List Char)) := parseFrom csv 0 []

end Ob.LiveTrade
