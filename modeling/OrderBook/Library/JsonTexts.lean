/-
**Texts that spell JSON values.**

`Spells text v`: wherever a value may stand, `text` is read as `v`. The rules are those of texts
without escapes and without white space:

* `spells_str`, `spells_num`, `spells_arr`, `spells_member`, `spells_obj` — by the kind of value.
* `number_whole`, `number_fraction` — the numbers that are integers and decimal fractions.
* `parse_spells` — the whole text.
-/

import OrderBook.Library.Json

namespace Json

/-! ### Strings -/

/-- No character that a string needs an escape for. -/
def Plain (text : List Char) : Prop :=
  ∀ c ∈ text, c ≠ '"' ∧ c ≠ '\\' ∧ ' '.toNat ≤ c.toNat

instance (text : List Char) : Decidable (Plain text) :=
  List.decidableBAll (fun c => c ≠ '"' ∧ c ≠ '\\' ∧ ' '.toNat ≤ c.toNat) text

theorem string_plain {text : List Char} (plain : Plain text) (rest : List Char) :
    ∀ {fuel : Nat}, text.length < fuel → string fuel (text ++ '"' :: rest) = some (text, rest) := by
  induction text with
  | nil =>
    intro fuel enough
    obtain ⟨fuel, rfl⟩ := Nat.exists_eq_add_of_lt enough
    rfl
  | cons c text ih =>
    intro fuel enough
    obtain ⟨fuel, rfl⟩ := Nat.exists_eq_add_of_lt enough
    obtain ⟨quote, backslash, printed⟩ := plain c List.mem_cons_self
    have tail : Plain text := fun c member => plain c (List.mem_cons_of_mem _ member)
    have read : string ((c :: text).length + fuel) (text ++ '"' :: rest) = some (text, rest) :=
      ih tail (by rw [List.length_cons]; omega)
    rw [List.cons_append, string, if_neg quote, if_neg backslash, if_neg (Nat.not_lt.mpr printed),
      read]
    rfl

/-! ### Numbers -/

/-- What comes next does not continue a number. -/
def Delimits (rest : List Char) : Prop :=
  ∀ c ∈ rest.head?, c.isDigit = false ∧ c ∉ ['.', 'e', 'E']

/-- Digits without a leading zero. -/
structure Whole (ds : List Char) : Prop where
  nonempty : ds ≠ []
  digits : ∀ d ∈ ds, d.isDigit
  leading : ds.head? = some '0' → ds = ['0']

theorem digits_append {ds rest : List Char} (nonempty : ds ≠ []) (each : ∀ d ∈ ds, d.isDigit)
    (ends : ∀ c ∈ rest.head?, c.isDigit = false) : digits (ds ++ rest) = some (ds, rest) := by
  have taken : (ds ++ rest).takeWhile Char.isDigit = ds := by
    rw [List.takeWhile_append_of_pos each]
    cases rest with
    | nil => exact List.append_nil ds
    | cons c rest => rw [List.takeWhile_cons, ends c rfl]; exact List.append_nil ds
  have dropped : (ds ++ rest).dropWhile Char.isDigit = rest := by
    rw [List.dropWhile_append_of_pos each]
    cases rest with
    | nil => rfl
    | cons c rest => rw [List.dropWhile_cons, ends c rfl]; rfl
  rw [digits, taken, dropped, List.isEmpty_eq_false_iff.mpr nonempty]
  rfl

theorem whole_append {ds rest : List Char} (spelled : Whole ds)
    (ends : ∀ c ∈ rest.head?, c.isDigit = false) : whole (ds ++ rest) = some (ds, rest) := by
  cases ds with
  | nil => exact absurd rfl spelled.nonempty
  | cons d ds =>
    by_cases zero : d = '0'
    · have alone := spelled.leading (congrArg some zero)
      rw [alone]
      rfl
    · rw [List.cons_append, whole]
      · exact digits_append spelled.nonempty spelled.digits ends
      · rintro rest' ⟨⟩
        exact zero rfl

theorem optional_none {allowed rest : List Char} (ends : ∀ c ∈ rest.head?, c ∉ allowed) :
    optional allowed rest = ([], rest) := by
  cases rest with
  | nil => rfl
  | cons c rest => rw [optional, if_neg (ends c rfl)]

theorem part_none {marks signs rest : List Char} (ends : ∀ c ∈ rest.head?, c ∉ marks) :
    part marks signs rest = some ([], rest) := by
  simp only [part, optional_none ends, List.isEmpty_nil, if_true]

/-- The sign of a number. -/
def sign (negative : Bool) : List Char := if negative then ['-'] else []

theorem optional_sign (negative : Bool) {ds : List Char} (spelled : Whole ds) (rest : List Char) :
    optional ['-'] (sign negative ++ (ds ++ rest)) = (sign negative, ds ++ rest) := by
  cases negative with
  | true => rfl
  | false =>
    refine optional_none fun c first => ?_
    obtain ⟨d, ds, rfl⟩ := List.exists_cons_of_ne_nil spelled.nonempty
    have digit := spelled.digits c (by cases first; exact List.mem_cons_self)
    rintro minus
    rw [List.mem_singleton.mp minus] at digit
    cases digit

/-- An integer. -/
theorem number_whole {ds rest : List Char} (negative : Bool) (spelled : Whole ds)
    (delimits : Delimits rest) :
    number (sign negative ++ ds ++ rest) = some (sign negative ++ ds, rest) := by
  have ends : ∀ c ∈ rest.head?, c.isDigit = false := fun c first => (delimits c first).1
  have no_point : ∀ c ∈ rest.head?, c ∉ ['.'] := fun c first point =>
    (delimits c first).2 (List.mem_cons.mpr (.inl (List.mem_singleton.mp point)))
  have no_exponent : ∀ c ∈ rest.head?, c ∉ ['e', 'E'] := fun c first exponent =>
    (delimits c first).2 (List.mem_cons_of_mem _ exponent)
  rw [List.append_assoc, number, optional_sign negative spelled]
  simp only [whole_append spelled ends, part_none no_point, part_none no_exponent,
    Option.bind_eq_bind, Option.bind_some, Option.pure_def, List.append_nil]

/-- A decimal fraction. -/
theorem number_fraction {ds fs rest : List Char} (negative : Bool) (spelled : Whole ds)
    (nonempty : fs ≠ []) (each : ∀ f ∈ fs, f.isDigit) (delimits : Delimits rest) :
    number (sign negative ++ ds ++ '.' :: fs ++ rest) =
      some (sign negative ++ ds ++ '.' :: fs, rest) := by
  have ends : ∀ c ∈ rest.head?, c.isDigit = false := fun c first => (delimits c first).1
  have no_exponent : ∀ c ∈ rest.head?, c ∉ ['e', 'E'] := fun c first exponent =>
    (delimits c first).2 (List.mem_cons_of_mem _ exponent)
  have point : ∀ c ∈ ('.' :: (fs ++ rest)).head?, c.isDigit = false := by
    rintro c ⟨⟩
    rfl
  have no_sign : optional [] (fs ++ rest) = ([], fs ++ rest) :=
    optional_none fun c _ => List.not_mem_nil
  have fraction : part ['.'] [] ('.' :: (fs ++ rest)) = some ('.' :: fs, rest) := by
    rw [part, show optional ['.'] ('.' :: (fs ++ rest)) = (['.'], fs ++ rest) from rfl]
    simp only [no_sign, digits_append nonempty each ends]
    rfl
  rw [List.append_assoc, List.append_assoc, List.cons_append, number,
    optional_sign negative spelled]
  simp only [whole_append spelled point, fraction, part_none no_exponent, Option.bind_eq_bind,
    Option.bind_some, Option.pure_def, List.append_nil, List.append_assoc]

/-- A number starts with a sign or a digit. -/
theorem number_head {c : Char} {rest : List Char} (sign : c ≠ '-') (digit : c.isDigit = false) :
    number (c :: rest) = none := by
  have no_sign : optional ['-'] (c :: rest) = ([], c :: rest) :=
    optional_none (by rintro c ⟨⟩ minus; exact sign (List.mem_singleton.mp minus))
  have no_digit : whole (c :: rest) = none := by
    rw [whole]
    · simp only [digits, List.takeWhile_cons, digit, Bool.false_eq_true, if_false,
        List.isEmpty_nil, if_true]
    · rintro rest' ⟨⟩
      cases digit
  rw [number, no_sign]
  simp only [no_digit, Option.bind_eq_bind, Option.bind_none]

/-! ### Texts with commas between them -/

theorem intercalate_singleton (text : List Char) : [','].intercalate [text] = text :=
  List.append_nil text

theorem intercalate_cons_cons (text other : List Char) (texts : List (List Char)) :
    [','].intercalate (text :: other :: texts) =
      text ++ ',' :: [','].intercalate (other :: texts) := by
  simp only [List.intercalate, List.intersperse_cons_cons, List.flatten_cons,
    List.singleton_append]

theorem intercalate_cons (text : List Char) (texts : List (List Char)) :
    [','].intercalate (text :: texts) = text ++ texts.flatMap (',' :: ·) := by
  induction texts generalizing text with
  | nil => rw [intercalate_singleton, List.flatMap_nil, List.append_nil]
  | cons other texts ih =>
    rw [intercalate_cons_cons, ih, List.flatMap_cons, List.cons_append]

theorem mem_intercalate {c : Char} {texts : List (List Char)}
    (member : c ∈ [','].intercalate texts) : c = ',' ∨ ∃ text ∈ texts, c ∈ text := by
  cases texts with
  | nil => cases member
  | cons text texts =>
    rw [intercalate_cons] at member
    rcases List.mem_append.mp member with here | later
    · exact .inr ⟨text, List.mem_cons_self, here⟩
    obtain ⟨other, inside, there⟩ := List.mem_flatMap.mp later
    rcases List.mem_cons.mp there with comma | there
    · exact .inl comma
    · exact .inr ⟨other, List.mem_cons_of_mem _ inside, there⟩

/-- The length of a list of texts with commas is enough fuel for it. -/
theorem length_le_intercalate (texts : List (List Char)) :
    texts.length ≤ ([','].intercalate texts).length + 1 ∧
      ∀ text ∈ texts, text.length ≤ ([','].intercalate texts).length := by
  induction texts with
  | nil => exact ⟨Nat.zero_le _, List.forall_mem_nil _⟩
  | cons text texts ih =>
    cases texts with
    | nil =>
      rw [intercalate_singleton]
      exact ⟨Nat.le_add_left 1 _, List.forall_mem_singleton.mpr (Nat.le_refl _)⟩
    | cons other texts =>
      simp only [intercalate_cons_cons, List.length_append, List.length_cons] at ih ⊢
      refine ⟨by omega, List.forall_mem_cons.mpr ⟨by omega, fun t member => ?_⟩⟩
      have := ih.2 t member
      omega

/-! ### Items -/

section Items

variable {α : Type} {item : List Char → Option (α × List Char)} {close : Char}

/-- `text` is an item, whatever delimiter follows. -/
def Item (item : List Char → Option (α × List Char)) (text : List Char) (a : α) : Prop :=
  ∀ rest, Delimits rest → item (text ++ rest) = some (a, rest)

theorem delimits_cons {c : Char} {rest : List Char}
    (delimiter : c.isDigit = false ∧ c ∉ ['.', 'e', 'E']) : Delimits (c :: rest) := by
  rintro c ⟨⟩
  exact delimiter

theorem skip_cons {c : Char} (visible : ¬(c = ' ' ∨ c = '\t' ∨ c = '\n' ∨ c = '\r'))
    (rest : List Char) : skip (c :: rest) = c :: rest := by
  rw [skip, List.dropWhile_cons, if_neg (by simpa using visible)]

theorem items_step {text : List Char} {a : α} (here : Item item text a) (open_ : close ≠ ',')
    (fuel : Nat) (rest : List Char) :
    items item close (fuel + 1) (text ++ ',' :: rest) =
      (items item close fuel rest).map (Prod.map (a :: ·) id) := by
  have comma : skip (',' :: rest) = ',' :: rest := skip_cons (by decide) rest
  rw [items, here _ (delimits_cons (by decide))]
  simp only [Option.bind_eq_bind, Option.bind_some, comma, if_neg open_.symm, if_true]
  cases items item close fuel rest <;> rfl

/-- Items that are each followed by a comma are read whatever comes after them. -/
theorem items_between {texts : List (List Char)} {as : List α}
    (each : List.Forall₂ (Item item) texts as) (open_ : close ≠ ',') (fuel : Nat)
    (rest : List Char) :
    items item close (texts.length + fuel) (texts.flatMap (· ++ [',']) ++ rest) =
      (items item close fuel rest).map (Prod.map (as ++ ·) id) := by
  induction each with
  | nil =>
    simp only [List.length_nil, Nat.zero_add, List.flatMap_nil, List.nil_append]
    cases items item close fuel rest <;> rfl
  | @cons text a texts as here _ ih =>
    rw [List.flatMap_cons, List.append_assoc, List.append_assoc, List.singleton_append,
      List.length_cons, Nat.add_right_comm, items_step here open_, ih]
    cases items item close fuel rest <;> rfl

/-- The brackets that close lists. -/
structure Closes (item : List Char → Option (α × List Char)) (close : Char) : Prop where
  bracket : close = ']' ∨ close = '}'
  refuses : ∀ text, (∀ c ∈ (skip text).head?, c = close) → item text = none

variable {texts : List (List Char)} {as : List α}

theorem Closes.skip (closes : Closes item close) (rest : List Char) :
    Json.skip (close :: rest) = close :: rest := by
  obtain rfl | rfl := closes.bracket <;> exact skip_cons (by decide) rest

theorem Closes.delimits (closes : Closes item close) (rest : List Char) :
    Delimits (close :: rest) := by
  obtain rfl | rfl := closes.bracket <;> exact delimits_cons (by decide)

theorem Closes.ne_comma (closes : Closes item close) : close ≠ ',' := by
  obtain rfl | rfl := closes.bracket <;> decide

theorem items_spelled (closes : Closes item close) (each : List.Forall₂ (Item item) texts as)
    (some_text : texts ≠ []) (rest : List Char) :
    ∀ {fuel : Nat}, texts.length ≤ fuel →
      items item close fuel ([','].intercalate texts ++ close :: rest) = some (as, rest) := by
  induction each with
  | nil => exact absurd rfl some_text
  | @cons text a texts as here each ih =>
    intro fuel enough
    obtain ⟨fuel, rfl⟩ := Nat.exists_eq_add_of_lt enough
    cases each with
    | nil =>
      rw [intercalate_singleton, items, here _ (closes.delimits rest)]
      simp only [Option.bind_eq_bind, Option.bind_some, closes.skip, if_true]
      rfl
    | @cons other b texts as there each =>
      have next := @ih (List.cons_ne_nil _ _) ((other :: texts).length + fuel)
        (Nat.le_add_right _ _)
      rw [intercalate_cons_cons, List.append_assoc, List.cons_append,
        items_step here closes.ne_comma, next]
      rfl

/-- A list that does not start with the bracket has an item. -/
theorem list_items {fuel : Nat} {text : List Char}
    (start : ¬∀ c ∈ (skip text).head?, c = close) :
    list item close fuel text = items item close fuel text := by
  rw [list]
  cases first : skip text with
  | nil => exact absurd (by simp [first]) start
  | cons c rest =>
    have other : c ≠ close := fun same => start (by simp [first, same])
    exact if_neg other

theorem list_spelled (closes : Closes item close) (each : List.Forall₂ (Item item) texts as)
    (rest : List Char) {fuel : Nat} (enough : texts.length ≤ fuel) :
    list item close fuel ([','].intercalate texts ++ close :: rest) = some (as, rest) := by
  by_cases some_text : texts = []
  · subst some_text
    cases each
    have empty : [','].intercalate [] ++ close :: rest = close :: rest := rfl
    rw [empty, list, closes.skip]
    exact if_pos rfl
  have read := items_spelled closes each some_text rest enough
  generalize [','].intercalate texts ++ close :: rest = text at read
  obtain ⟨fuel, rfl⟩ := Nat.exists_eq_add_of_lt
    (Nat.lt_of_lt_of_le (List.length_pos_iff.mpr some_text) enough)
  refine (list_items fun closed => ?_).trans read
  rw [items, closes.refuses text closed] at read
  cases read

end Items

/-! ### Values -/

/-- Wherever a value may stand, this text is read as this value. -/
def Spells (text : List Char) (v : Json) : Prop :=
  ∀ fuel, text.length ≤ fuel → Item (value fuel) text v

theorem spells_str {text : List Char} (plain : Plain text) :
    Spells ('"' :: text ++ ['"']) (str text) := by
  intro fuel enough rest _
  obtain ⟨fuel, rfl⟩ := Nat.exists_eq_add_of_lt (Nat.lt_of_lt_of_le (Nat.zero_lt_succ _) enough)
  have quote : skip ('"' :: (text ++ '"' :: rest)) = _ := skip_cons (by decide) _
  have read : string (text ++ '"' :: rest).length (text ++ '"' :: rest) = some (text, rest) :=
    string_plain plain rest (by rw [List.length_append, List.length_cons]; omega)
  rw [List.cons_append, List.cons_append, List.append_assoc, List.singleton_append, Nat.zero_add,
    value, quote]
  simp only [read]
  rfl

/-- A reader of numbers reads it, and so does the reader of values. -/
theorem spells_num {lexeme : List Char} (read : Item number lexeme lexeme) :
    Spells lexeme (num lexeme) := by
  intro fuel enough rest delimits
  have here := read rest delimits
  cases lexeme with
  | nil => cases read [] (by rintro c ⟨⟩)
  | cons c lexeme =>
    obtain ⟨fuel, rfl⟩ := Nat.exists_eq_add_of_lt (Nat.lt_of_lt_of_le (Nat.zero_lt_succ _) enough)
    rw [List.cons_append] at here ⊢
    have start : c = '-' ∨ c.isDigit = true := by
      by_contra other
      rw [not_or, Bool.not_eq_true] at other
      rw [number_head other.1 other.2] at here
      cases here
    have visible : ¬(c = ' ' ∨ c = '\t' ∨ c = '\n' ∨ c = '\r') := by
      rintro (rfl | rfl | rfl | rfl) <;> simp at start
    rw [Nat.zero_add, value, skip_cons visible]
    -- neither a quote nor a bracket nor the first letter of a word
    split
    case h_7 =>
      rw [here]
      rfl
    all_goals
      rename_i same
      cases same
      simp at start

theorem value_closes {close : Char} (bracket : close = ']' ∨ close = '}') (fuel : Nat) :
    Closes (value fuel) close where
  bracket := bracket
  refuses text closed := by
    cases fuel with
    | zero => rfl
    | succ fuel =>
      rw [value]
      cases first : skip text with
      | nil => rfl
      | cons c rest =>
        obtain rfl : c = close := closed c (by rw [first]; rfl)
        obtain rfl | rfl := bracket <;>
          exact congrArg (Option.map _) (number_head (by decide) (by decide))

theorem member_closes {read : List Char → Option (Json × List Char)} :
    Closes (member read) '}' where
  bracket := .inr rfl
  refuses text closed := by
    rw [member]
    cases first : skip text with
    | nil => rfl
    | cons c rest =>
      obtain rfl : c = '}' := closed c (by rw [first]; rfl)
      rfl

/-- A list whose items are read with enough fuel. -/
theorem list_within {α : Type} {item : Nat → List Char → Option (α × List Char)} {close : Char}
    {texts : List (List Char)} {as : List α} {fuel : Nat} (closes : Closes (item fuel) close)
    (each : List.Forall₂ (fun text a => ∀ fuel, text.length ≤ fuel → Item (item fuel) text a) texts
      as)
    (enough : ([','].intercalate texts).length < fuel) (rest : List Char) :
    list (item fuel) close fuel ([','].intercalate texts ++ close :: rest) = some (as, rest) := by
  obtain ⟨count, lengths⟩ := length_le_intercalate texts
  have short : ∀ text ∈ texts, text.length ≤ fuel := fun text member =>
    Nat.le_trans (lengths text member) (Nat.le_of_lt enough)
  have inner := (List.forall₂_and_left texts as).mpr ⟨short, each⟩
  exact list_spelled closes (inner.imp fun text a within => within.2 fuel within.1) rest
    (Nat.le_trans count enough)

theorem spells_arr {texts : List (List Char)} {vs : List Json}
    (each : List.Forall₂ Spells texts vs) :
    Spells ('[' :: [','].intercalate texts ++ [']']) (arr vs) := by
  intro fuel enough rest _
  obtain ⟨fuel, rfl⟩ := Nat.exists_eq_add_of_lt (Nat.lt_of_lt_of_le (Nat.zero_lt_succ _) enough)
  simp only [List.length_append, List.length_cons, List.length_nil] at enough
  have read := list_within (value_closes (.inl rfl) fuel) each (by omega) rest
  have bracket : skip ('[' :: ([','].intercalate texts ++ ']' :: rest)) = _ :=
    skip_cons (by decide) _
  rw [List.cons_append, List.cons_append, List.append_assoc, List.singleton_append, Nat.zero_add,
    value, bracket]
  simp only [read]
  rfl

/-- Wherever a member may stand, this text is read as this member. -/
def SpellsMember (text : List Char) (m : List Char × Json) : Prop :=
  ∀ fuel, text.length ≤ fuel → Item (member (value fuel)) text m

/-- The text of a key and its colon. -/
def keyText (key : List Char) : List Char := '"' :: key ++ ['"', ':']

theorem member_key {key : List Char} (plain : Plain key)
    (read : List Char → Option (Json × List Char)) (text : List Char) :
    member read (keyText key ++ text) = (read text).map (Prod.map (key, ·) id) := by
  have quote : skip ('"' :: (key ++ '"' :: ':' :: text)) = _ := skip_cons (by decide) _
  have colon : skip (':' :: text) = _ := skip_cons (by decide) _
  have string_read : string (key ++ '"' :: ':' :: text).length (key ++ '"' :: ':' :: text) =
      some (key, ':' :: text) :=
    string_plain plain _ (by rw [List.length_append, List.length_cons]; omega)
  rw [keyText, List.cons_append, List.cons_append, List.append_assoc, List.cons_append,
    List.singleton_append, member, quote]
  simp only [string_read, Option.bind_eq_bind, Option.bind_some,
    colon]
  cases read text <;> rfl

theorem spells_member {key text : List Char} {v : Json} (plain : Plain key)
    (spells : Spells text v) : SpellsMember (keyText key ++ text) (key, v) := by
  intro fuel enough rest delimits
  rw [List.length_append] at enough
  rw [List.append_assoc, member_key plain, spells fuel (by omega) rest delimits]
  rfl

theorem spells_obj {texts : List (List Char)} {members : List (List Char × Json)}
    (each : List.Forall₂ SpellsMember texts members) :
    Spells ('{' :: [','].intercalate texts ++ ['}']) (obj members) := by
  intro fuel enough rest _
  obtain ⟨fuel, rfl⟩ := Nat.exists_eq_add_of_lt (Nat.lt_of_lt_of_le (Nat.zero_lt_succ _) enough)
  simp only [List.length_append, List.length_cons, List.length_nil] at enough
  have read : list (member (value fuel)) '}' fuel _ = _ :=
    @list_within _ (fun fuel => member (value fuel)) _ _ _ _ member_closes each (by omega) rest
  have bracket : skip ('{' :: ([','].intercalate texts ++ '}' :: rest)) = _ :=
    skip_cons (by decide) _
  rw [List.cons_append, List.cons_append, List.append_assoc, List.singleton_append, Nat.zero_add,
    value, bracket]
  simp only [read]
  rfl

/-- The text of a string or a number. -/
def scalarText : Json → List Char
  | str text => '"' :: text ++ ['"']
  | num lexeme => lexeme
  | _ => []

/-- The members of an object whose values are strings and numbers. -/
theorem spells_scalars {members : List (List Char × Json)}
    (each : ∀ m ∈ members, Plain m.1 ∧ Spells (scalarText m.2) m.2) :
    List.Forall₂ SpellsMember (members.map fun m => keyText m.1 ++ scalarText m.2) members := by
  refine List.forall₂_map_left_iff.mpr (List.forall₂_same.mpr fun m member => ?_)
  exact spells_member (each m member).1 (each m member).2

/-- **The whole text.** -/
theorem parse_spells {text : List Char} {v : Json} (spells : Spells text v) :
    parse text = some v := by
  have read := spells text.length (Nat.le_refl _) [] (by rintro c ⟨⟩)
  rw [List.append_nil] at read
  rw [parse, read]
  rfl

end Json
