/-
**What a JSON text must hold.**

* `value_takes` — a value is never read from a text that is shorter than its size.
* `parse_members` — the first members of an object are read whatever comes after them.
-/

import Mathlib.Algebra.Order.Ring.Nat
import OrderBook.Library.JsonTexts

namespace Json

/-! ### Sizes -/

/-- No text of a value is shorter. -/
def size : Json → Nat
  | null | bool true => 4
  | bool false => 5
  | num lexeme => lexeme.length
  | str text => text.length + 2
  | arr vs => (vs.map fun v => v.size + 1).sum + 1
  | obj members => (members.map fun m => m.1.length + 3 + m.2.size + 1).sum + 1
decreasing_by
  · rename_i inside
    have below := List.sizeOf_lt_of_mem inside
    rw [arr.sizeOf_spec]
    omega
  · rename_i inside
    have below := List.sizeOf_lt_of_mem inside
    obtain ⟨key, v⟩ := m
    rw [Prod.mk.sizeOf_spec] at below
    rw [obj.sizeOf_spec]
    dsimp only
    omega

/-- A reader uses up at least the size of what it reads. -/
def Takes {α : Type} (item : List Char → Option (α × List Char)) (size : α → Nat) : Prop :=
  ∀ text a rest, item text = some (a, rest) → size a + rest.length ≤ text.length

theorem length_skip_le (text : List Char) : (skip text).length ≤ text.length :=
  (List.dropWhile_sublist _).length_le

theorem codeUnit_takes : Takes codeUnit fun _ => 0 := by
  intro text a rest read
  match text with
  | [] | [_] | [_, _] | [_, _, _] => cases read
  | a :: b :: c :: d :: text =>
    simp only [codeUnit, Option.bind_eq_bind, Option.bind_eq_some_iff, Option.pure_def,
      Option.some.injEq, Prod.mk.injEq] at read
    obtain ⟨_, _, _, _, _, _, _, _, _, rfl⟩ := read
    simp only [List.length_cons]
    omega

theorem unicode_takes : Takes unicode fun _ => 0 := by
  intro text a rest read
  simp only [unicode, Option.bind_eq_bind, Option.bind_eq_some_iff, Option.pure_def] at read
  obtain ⟨⟨high, rest'⟩, first, read⟩ := read
  have used := codeUnit_takes text high rest' first
  dsimp only at used read
  split at read
  · split at read
    · simp only [Option.bind_eq_some_iff] at read
      obtain ⟨⟨low, rest''⟩, second, read⟩ := read
      have used' := codeUnit_takes _ low rest'' second
      split at read
      · obtain ⟨-, rfl⟩ := Prod.mk.inj (Option.some.inj read)
        dsimp only at used used' ⊢
        rw [List.length_cons, List.length_cons] at used
        omega
      · cases read
    · cases read
  · split at read
    · cases read
    · obtain ⟨-, rfl⟩ := Prod.mk.inj (Option.some.inj read)
      exact used

theorem escape_takes : Takes escape fun _ => 0 := by
  intro text a rest read
  unfold escape at read
  split at read
  case h_9 rest' =>
    have used := unicode_takes rest' a rest read
    rw [List.length_cons]
    exact Nat.le_succ_of_le used
  case h_10 => cases read
  all_goals
    cases read
    rw [Nat.zero_add, List.length_cons]
    exact Nat.le_succ _

/-- The closing quote is used up with the string. -/
theorem string_takes : ∀ fuel, Takes (string fuel) fun text => text.length + 1 := by
  intro fuel
  induction fuel with
  | zero =>
    intro text a rest read
    cases read
  | succ fuel ih =>
    intro text a rest read
    cases text with
    | nil => cases read
    | cons c text =>
      rw [string] at read
      split at read
      · cases read
        simp only [List.length_nil, List.length_cons]
        omega
      split at read
      · simp only [Option.bind_eq_bind, Option.bind_eq_some_iff, Option.pure_def] at read
        obtain ⟨⟨c', rest'⟩, escaped, ⟨tail, rest''⟩, read', same⟩ := read
        obtain ⟨rfl, rfl⟩ := Prod.mk.inj (Option.some.inj same)
        have used := escape_takes text c' rest' escaped
        have used' := ih rest' tail rest'' read'
        simp only [List.length_cons] at used used' ⊢
        omega
      split at read
      · cases read
      · simp only [Option.bind_eq_bind, Option.bind_eq_some_iff, Option.pure_def] at read
        obtain ⟨⟨tail, rest''⟩, read', same⟩ := read
        obtain ⟨rfl, rfl⟩ := Prod.mk.inj (Option.some.inj same)
        have used' := ih text tail rest'' read'
        simp only [List.length_cons] at used' ⊢
        omega

theorem optional_length (allowed text : List Char) :
    (optional allowed text).1.length + (optional allowed text).2.length = text.length := by
  cases text with
  | nil => rfl
  | cons c text =>
    rw [optional]
    split
    · exact Nat.add_comm 1 _
    · exact Nat.zero_add _

theorem digits_takes : Takes digits List.length := by
  intro text a rest read
  rw [digits] at read
  split at read
  · cases read
  · cases read
    exact Nat.le_of_eq (by rw [← List.length_append, List.takeWhile_append_dropWhile])

theorem whole_takes : Takes whole List.length := by
  intro text a rest read
  unfold whole at read
  split at read
  · cases read
    exact Nat.le_of_eq (Nat.add_comm 1 _)
  · exact digits_takes _ a rest read

theorem part_takes (marks signs : List Char) : Takes (part marks signs) List.length := by
  intro text a rest read
  have mark := optional_length marks text
  have sign := optional_length signs (optional marks text).2
  simp only [part, Option.bind_eq_bind, Option.pure_def] at read
  split at read
  · obtain ⟨rfl, rfl⟩ := Prod.mk.inj (Option.some.inj read)
    rw [List.length_nil]
    omega
  · simp only [Option.bind_eq_some_iff] at read
    obtain ⟨⟨ds, rest'⟩, read', same⟩ := read
    obtain ⟨rfl, rfl⟩ := Prod.mk.inj (Option.some.inj same)
    have used := digits_takes _ ds _ read'
    dsimp only at used ⊢
    rw [List.length_append, List.length_append]
    omega

theorem number_takes : Takes number List.length := by
  intro text a rest read
  have sign := optional_length ['-'] text
  simp only [number, Option.bind_eq_bind, Option.bind_eq_some_iff, Option.pure_def] at read
  obtain ⟨⟨w, rest₁⟩, read₁, ⟨f, rest₂⟩, read₂, ⟨e, rest₃⟩, read₃, same⟩ := read
  obtain ⟨rfl, rfl⟩ := Prod.mk.inj (Option.some.inj same)
  have used₁ := whole_takes _ w _ read₁
  have used₂ := part_takes _ _ _ f _ read₂
  have used₃ := part_takes _ _ _ e _ read₃
  dsimp only at used₁ used₂ used₃ ⊢
  rw [List.length_append, List.length_append, List.length_append]
  omega

/-- What is read becomes a value that is longer by a bracket, a quote or a letter. -/
theorem Takes.map {α : Type} {item : List Char → Option (α × List Char)} {length : α → Nat}
    (takes : Takes item length) {f : α → Json} (longer : ∀ a, (f a).size = length a + 1)
    {text rest : List Char} {v : Json} (read : (item text).map (Prod.map f id) = some (v, rest)) :
    v.size + rest.length ≤ text.length + 1 := by
  obtain ⟨⟨a, rest'⟩, inner, same⟩ := Option.map_eq_some_iff.mp read
  obtain ⟨rfl, rfl⟩ := Prod.mk.inj same
  have used := takes text a rest' inner
  rw [longer, id]
  omega

theorem word_takes {letters text rest : List Char} {v v' : Json}
    (longer : v.size = letters.length + 1) (read : word letters v text = some (v', rest)) :
    v'.size + rest.length ≤ text.length + 1 := by
  rw [word] at read
  split at read
  · rename_i spelled
    cases read
    have := (List.isPrefixOf_iff_prefix.mp spelled).length_le
    rw [List.length_drop]
    omega
  · cases read

theorem items_takes {α : Type} {item : List Char → Option (α × List Char)} {size : α → Nat}
    (takes : Takes item size) (close : Char) :
    ∀ fuel, Takes (items item close fuel) fun as => (as.map fun a => size a + 1).sum := by
  intro fuel
  induction fuel with
  | zero =>
    intro text as rest read
    cases read
  | succ fuel ih =>
    intro text as rest read
    simp only [items, Option.bind_eq_bind, Option.bind_eq_some_iff, Option.pure_def] at read
    obtain ⟨⟨a, rest'⟩, first, read⟩ := read
    have used := takes text a rest' first
    have skipped := length_skip_le rest'
    dsimp only at read
    split at read
    · cases read
    rename_i c rest'' after
    rw [after, List.length_cons] at skipped
    split at read
    · obtain ⟨rfl, rfl⟩ := Prod.mk.inj (Option.some.inj read)
      simp only [List.map_cons, List.map_nil, List.sum_cons, List.sum_nil]
      omega
    split at read
    · simp only [Option.bind_eq_some_iff] at read
      obtain ⟨⟨as', rest₃⟩, more, same⟩ := read
      obtain ⟨rfl, rfl⟩ := Prod.mk.inj (Option.some.inj same)
      have used' := ih rest'' as' rest₃ more
      simp only [List.map_cons, List.sum_cons]
      dsimp only at used'
      omega
    · cases read

theorem list_takes {α : Type} {item : List Char → Option (α × List Char)} {size : α → Nat}
    (takes : Takes item size) (close : Char) (fuel : Nat) :
    Takes (list item close fuel) fun as => (as.map fun a => size a + 1).sum := by
  intro text as rest read
  have skipped := length_skip_le text
  rw [list] at read
  split at read
  · cases read
  rename_i c rest' after
  rw [after, List.length_cons] at skipped
  split at read
  · cases read
    dsimp only
    rw [List.map_nil, List.sum_nil]
    omega
  · exact items_takes takes close fuel text as rest read

theorem member_takes {read : List Char → Option (Json × List Char)} (takes : Takes read size) :
    Takes (member read) fun m => m.1.length + 3 + m.2.size := by
  intro text m rest done
  have skipped := length_skip_le text
  rw [member] at done
  split at done
  · rename_i rest₁ after
    rw [after, List.length_cons] at skipped
    simp only [Option.bind_eq_bind, Option.bind_eq_some_iff, Option.pure_def] at done
    obtain ⟨⟨key, rest₂⟩, key_read, done⟩ := done
    have used := string_takes _ rest₁ key rest₂ key_read
    have skipped' := length_skip_le rest₂
    dsimp only at used done
    split at done
    · rename_i rest₃ after'
      rw [after', List.length_cons] at skipped'
      simp only [Option.bind_eq_some_iff] at done
      obtain ⟨⟨v, rest₄⟩, v_read, same⟩ := done
      obtain ⟨rfl, rfl⟩ := Prod.mk.inj (Option.some.inj same)
      have used' := takes rest₃ v rest₄ v_read
      dsimp only
      omega
    · cases done
  · cases done

/-- **A value is read from no text shorter than its size**, by induction on the nesting. -/
theorem value_takes : ∀ fuel, Takes (value fuel) size := by
  intro fuel
  induction fuel with
  | zero =>
    intro text v rest read
    cases read
  | succ fuel ih =>
    intro text v rest read
    have skipped := length_skip_le text
    rw [value] at read
    split at read
    case h_7 =>
      obtain ⟨⟨lexeme, rest'⟩, inner, same⟩ := Option.map_eq_some_iff.mp read
      obtain ⟨rfl, rfl⟩ := Prod.mk.inj same
      have used := number_takes _ lexeme rest' inner
      rw [size, id]
      exact Nat.le_trans used skipped
    all_goals
      rename_i rest' after
      rw [after, List.length_cons] at skipped
      refine Nat.le_trans ?_ skipped
    · exact (string_takes rest'.length).map (fun _ => by rw [size]) read
    · exact (list_takes ih ']' fuel).map (fun _ => by rw [size]) read
    · exact (list_takes (member_takes ih) '}' fuel).map (fun _ => by rw [size]) read
    · exact word_takes (by rw [size]; rfl) read
    · exact word_takes (by rw [size]; rfl) read
    · exact word_takes (by rw [size]; rfl) read

/-! ### Texts that begin like an object -/

/-- An object that begins with a key does not end there. -/
theorem start_key {texts : List (List Char)} {members : List (List Char × Json)}
    (each : List.Forall₂ SpellsMember texts members) (key text : List Char) :
    ¬∀ c ∈ (skip (texts.flatMap (· ++ [',']) ++ (keyText key ++ text))).head?, c = '}' := by
  intro closed
  cases each with
  | nil =>
    have quote : skip ('"' :: (key ++ (['"', ':'] ++ text))) = _ := skip_cons (by decide) _
    rw [List.flatMap_nil, List.nil_append, keyText, List.cons_append, List.cons_append,
      List.append_assoc, quote] at closed
    cases closed '"' rfl
  | @cons first m texts members here _ =>
    have read := here first.length (Nat.le_refl _)
      (',' :: (texts.flatMap (· ++ [',']) ++ (keyText key ++ text))) (delimits_cons (by decide))
    rw [List.flatMap_cons, List.append_assoc, List.append_assoc, List.singleton_append] at closed
    rw [member_closes.refuses _ closed] at read
    cases read

theorem length_le_commas (texts : List (List Char)) :
    texts.length ≤ (texts.flatMap (· ++ [','])).length ∧
      ∀ text ∈ texts, text.length ≤ (texts.flatMap (· ++ [','])).length := by
  induction texts with
  | nil => exact ⟨Nat.le_refl _, List.forall_mem_nil _⟩
  | cons text texts ih =>
    rw [List.flatMap_cons, List.length_append, List.length_append, List.length_cons]
    refine ⟨by simp only [List.length_singleton]; omega, List.forall_mem_cons.mpr ⟨by omega, ?_⟩⟩
    exact fun other member => Nat.le_add_left_of_le (ih.2 other member)

/-- Members that begin with a key are read if its value is, and something comes after that. -/
theorem items_key {read : List Char → Option (Json × List Char)} {key : List Char}
    (plain : Plain key) {text rest : List Char} {members : List (List Char × Json)} :
    ∀ {fuel : Nat},
      items (member read) '}' fuel (keyText key ++ text) = some (members, rest) →
      ∃ v rest' more, read text = some (v, rest') ∧ rest' ≠ [] ∧ members = (key, v) :: more
  | 0, tail => by cases tail
  | fuel + 1, tail => by
    simp only [items, member_key plain, Option.bind_eq_bind, Option.bind_eq_some_iff,
      Option.map_eq_some_iff] at tail
    obtain ⟨⟨m, rest₁⟩, ⟨⟨v, rest₂⟩, here, same⟩, tail⟩ := tail
    obtain ⟨rfl, rfl⟩ := Prod.mk.inj same
    refine ⟨v, rest₂, members.tail, here, ?_⟩
    dsimp only [Prod.map, id] at tail
    split at tail
    · cases tail
    rename_i after
    have remains : rest₂ ≠ [] := by
      rintro rfl
      cases after
    refine ⟨remains, ?_⟩
    -- after the value comes the end or a comma, and the member stands first either way
    split at tail
    · cases tail
      rfl
    split at tail
    · obtain ⟨⟨more, rest₃⟩, _, same⟩ := Option.bind_eq_some_iff.mp tail
      cases same
      rfl
    · cases tail

/-- **The members before a key are read whatever comes after it**, and its value from what comes
next. -/
theorem parse_members {texts : List (List Char)} {members : List (List Char × Json)}
    (each : List.Forall₂ SpellsMember texts members) {key : List Char} (plain : Plain key)
    {text : List Char} {v : Json}
    (read : parse ('{' :: (texts.flatMap (· ++ [',']) ++ (keyText key ++ text))) = some v) :
    ∃ fuel w rest more, value fuel text = some (w, rest) ∧ rest ≠ [] ∧
      v = obj (members ++ (key, w) :: more) := by
  obtain ⟨count, lengths⟩ := length_le_commas texts
  have start := start_key each key text
  generalize same_body : texts.flatMap (· ++ [',']) ++ (keyText key ++ text) = body at read start
  have enough : (texts.flatMap (· ++ [','])).length ≤ body.length := by
    rw [← same_body, List.length_append]
    exact Nat.le_add_right _ _
  have short : ∀ t ∈ texts, t.length ≤ body.length := fun t member =>
    Nat.le_trans (lengths t member) enough
  have inner : List.Forall₂ (Item (member (value body.length))) texts members :=
    ((List.forall₂_and_left texts members).mpr ⟨short, each⟩).imp fun t m within =>
      within.2 _ within.1
  have bracket : skip ('{' :: body) = _ := skip_cons (by decide) _
  simp only [parse, List.length_cons, value, bracket, list_items start, Option.bind_eq_bind,
    Option.bind_eq_some_iff, Option.map_eq_some_iff] at read
  obtain ⟨⟨v', rest⟩, ⟨⟨ms, rest'⟩, listed, same⟩, ends⟩ := read
  obtain ⟨rfl, rfl⟩ := Prod.mk.inj same
  obtain rfl : obj ms = v := by
    split at ends
    · exact Option.some.inj ends
    · cases ends
  obtain ⟨fuel, shape⟩ := Nat.exists_eq_add_of_le (Nat.le_trans count enough)
  have between := items_between inner (show '}' ≠ ',' by decide) fuel (keyText key ++ text)
  rw [same_body, ← shape] at between
  rw [between] at listed
  obtain ⟨⟨ms', rest''⟩, tail, same⟩ := Option.map_eq_some_iff.mp listed
  obtain ⟨rfl, rfl⟩ := Prod.mk.inj same
  obtain ⟨w, rest₃, more, here, remains, rfl⟩ := items_key plain tail
  exact ⟨_, w, rest₃, more, here, remains, rfl⟩

end Json
