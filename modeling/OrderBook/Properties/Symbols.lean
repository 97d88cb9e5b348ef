/-
**The names that telemetry gives to symbols.**

`NamesSymbols`: the meta line of a list of symbols is JSON that lists them, and every status and
fill line of a pipeline is JSON that names its symbol, so a reader can tell the pipelines apart
(`NamesSymbols.apart`). Names go through fields of fixed size, which cut what is too long:
`names_symbols_iff` gives the lists of which nothing is lost. Two symbols that agree as far as the
field goes have the same lines (`PipelineLine.merged`).

The source and the feed are any two tags without quotes, backslashes and control characters.
-/

import OrderBook.Telemetry.Lines

namespace Ob

open Json TelemetryRecord LiveTrade

/-- The lines that are published for the pipeline of a symbol. -/
inductive PipelineLine (symbol : List Char) : Option (List Char) → Prop
  | status (tsNs : UInt64) (p : Position) (mid : Price) (later : Position) :
      PipelineLine symbol (statusRecord tsNs symbol p mid later).toJsonLine
  | fill (tsNs : UInt64) (f : Fill) : PipelineLine symbol (fillRecord tsNs symbol f).toJsonLine

/-- The meta line lists the symbols, and every line of a pipeline names its symbol. -/
structure NamesSymbols (source feedKind : List Char) (symbols : List (List Char)) : Prop where
  metadata : ∀ tsNs, Tells (metaRecord tsNs source feedKind symbols).toJsonLine
    "symbols".toList (.arr (symbols.map .str))
  pipeline : ∀ symbol ∈ symbols, ∀ line, PipelineLine symbol line →
    Tells line "sym".toList (.str symbol)

/-- A line belongs to one pipeline. -/
theorem NamesSymbols.apart {source feedKind symbol other : List Char} {symbols : List (List Char)}
    (names : NamesSymbols source feedKind symbols) (member : symbol ∈ symbols)
    (member' : other ∈ symbols) {line : Option (List Char)} (published : PipelineLine symbol line)
    (published' : PipelineLine other line) : symbol = other :=
  str.inj ((names.pipeline symbol member line published).unique
    (names.pipeline other member' line published'))

/-! ### Names in fields -/

/-- ASCII letters and digits. -/
def Alphanumeric (symbol : List Char) : Prop := ∀ c ∈ symbol, c.isAlphanum = true

instance (symbol : List Char) : Decidable (Alphanumeric symbol) :=
  List.decidableBAll (fun c : Char => c.isAlphanum = true) symbol

theorem Alphanumeric.plain {symbol : List Char} (letters : Alphanumeric symbol) : Plain symbol := by
  intro c member
  have letter := letters c member
  refine ⟨?_, ?_, ?_⟩
  · rintro rfl
    cases letter
  · rintro rfl
    cases letter
  · -- each of the three ranges begins above the space
    simp only [Char.isAlphanum, Char.isAlpha, Char.isUpper, Char.isLower, Char.isDigit,
      Bool.or_eq_true, Bool.and_eq_true, decide_eq_true_eq, ge_iff_le] at letter
    rcases letter with (⟨above, _⟩ | ⟨above, _⟩) | ⟨above, _⟩ <;>
      exact Nat.le_trans (by decide) (UInt32.le_iff_toNat_le.mp above)

theorem plain_printed {text : List Char} (plain : Plain text) : '\x00' ∉ text := fun member =>
  absurd (plain _ member).2.2 (by decide)

theorem plain_take {text : List Char} (plain : Plain text) (n : Nat) : Plain (text.take n) :=
  fun c member => plain c (List.mem_of_mem_take member)

theorem plain_field {n : Nat} {src : List Char} (dst : Field (n + 1)) (plain : Plain (src.take n)) :
    Plain (setField dst src).text := by
  rw [setField_text dst (plain_printed plain)]
  exact plain

theorem joined_printed {symbols : List (List Char)} (plain : ∀ s ∈ symbols, Plain s) :
    '\x00' ∉ joined symbols := by
  intro member
  rw [joined_eq] at member
  rcases mem_intercalate member with comma | ⟨text, inside, here⟩
  · cases comma
  obtain ⟨symbol, listed, rfl⟩ := List.mem_map.mp inside
  have printed := plain_printed (plain symbol listed)
  rw [quoted, List.cons_append, List.mem_cons, List.mem_append, List.mem_singleton] at here
  rcases here with quote | here | quote
  · cases quote
  · exact printed here
  · cases quote

/-! ### Lines of a pipeline -/

/-- A line of a pipeline names as much of the symbol as its field has room for. -/
theorem PipelineLine.tells {symbol : List Char} (plain : Plain symbol) {line : Option (List Char)}
    (published : PipelineLine symbol line) : Tells line "sym".toList (.str (symbol.take 15)) := by
  have cut : (setField (.zero 15) symbol).text = symbol.take 15 :=
    setField_text (.zero 15) (plain_printed (plain_take plain 15))
  have printed : Plain (setField (.zero 15) symbol).text := cut ▸ plain_take plain 15
  rw [← cut]
  cases published with
  | status tsNs p mid later =>
    exact statusLine_tells rfl (statusRecord_printable tsNs symbol p mid later) printed
  | fill tsNs f => exact fillLine_tells rfl (fillRecord_printable tsNs symbol f) printed

/-- Symbols that agree as far as the field goes have the same lines. -/
theorem PipelineLine.merged {symbol other : List Char} (same : symbol.take 15 = other.take 15)
    {line : Option (List Char)} (published : PipelineLine symbol line) :
    PipelineLine other line := by
  have field : setField (.zero 15) symbol = setField (.zero 15) other := by
    rw [← setField_take _ symbol, same, setField_take]
  cases published with
  | status tsNs p mid later =>
    have record :
        statusRecord tsNs symbol p mid later = statusRecord tsNs other p mid later := by
      unfold statusRecord TelemetryPublisher.makeStatus
      simp only [field]
    rw [record]
    exact .status tsNs p mid later
  | fill tsNs f =>
    have record : fillRecord tsNs symbol f = fillRecord tsNs other f := by
      unfold fillRecord TelemetryPublisher.makeFill
      simp only [field]
    rw [record]
    exact .fill tsNs f

/-! ### Lists of symbols -/

section Lists

variable {source feedKind : List Char} {symbols : List (List Char)}

theorem meta_source (plain : Plain (source.take 15)) (tsNs : UInt64) :
    Plain (metaRecord tsNs source feedKind symbols).metaSource.text :=
  plain_field (.zero 15) plain

theorem meta_feed (plain : Plain (feedKind.take 7)) (tsNs : UInt64) :
    Plain (metaRecord tsNs source feedKind symbols).metaFeed.text :=
  plain_field (.zero 7) plain

/-- The size of a list of symbols is that of its text. -/
theorem size_symbols (symbols : List (List Char)) :
    (Json.arr (symbols.map .str)).size = (symbols.map fun s => s.length + 3).sum + 1 := by
  rw [size, List.map_map]
  congr 3
  funext s
  rw [Function.comp, size]

theorem NamesSymbols.short (names : NamesSymbols source feedKind symbols) {symbol : List Char}
    (member : symbol ∈ symbols) (plain : Plain symbol) : symbol.length ≤ 15 := by
  have published : PipelineLine symbol _ := .status 0 {} 0 {}
  have whole : symbol = symbol.take 15 :=
    str.inj ((names.pipeline symbol member _ published).unique (published.tells plain))
  rw [whole, List.length_take]
  exact Nat.min_le_left _ _

theorem NamesSymbols.room (names : NamesSymbols source feedKind symbols)
    (plain_source : Plain (source.take 15)) (plain_feed : Plain (feedKind.take 7)) :
    (symbols.map fun s => s.length + 3).sum ≤ 256 := by
  have room := metaLine_room rfl (meta_source plain_source 0) (meta_feed plain_feed 0)
    (names.metadata 0)
  have field := (metaRecord 0 source feedKind symbols).metaSymbols.text_length
  rw [size_symbols] at room
  omega

/-- **Names are kept if there is room for them, and only then.** -/
theorem names_symbols_iff (plain_source : Plain (source.take 15))
    (plain_feed : Plain (feedKind.take 7)) (letters : ∀ s ∈ symbols, Alphanumeric s) :
    NamesSymbols source feedKind symbols ↔
      (∀ s ∈ symbols, s.length ≤ 15) ∧ (symbols.map fun s => s.length + 3).sum ≤ 256 := by
  have plain : ∀ s ∈ symbols, Plain s := fun s member => (letters s member).plain
  constructor
  · exact fun names => ⟨fun s member => names.short member (plain s member),
      names.room plain_source plain_feed⟩
  · rintro ⟨short, room⟩
    refine ⟨fun tsNs => ?_, fun s member line published => ?_⟩
    · have fits : (joined symbols).length ≤ 255 := by
        by_cases none : symbols = []
        · subst none
          decide
        · have := joined_length none
          omega
      have printed := joined_printed plain
      rw [← List.take_of_length_le fits] at printed
      have whole : (metaRecord tsNs source feedKind symbols).metaSymbols.text = joined symbols :=
        (setField_text (.zero 255) printed).trans (List.take_of_length_le fits)
      exact metaLine_tells rfl (meta_source plain_source tsNs) (meta_feed plain_feed tsNs) plain
        whole
    · have tells := published.tells (plain s member)
      rwa [List.take_of_length_le (short s member)] at tells

end Lists

theorem names_symbols_listed :
    NamesSymbols "binance".toList "ws".toList ["BTCUSDT".toList, "1000000MOGUSDT".toList] :=
  (names_symbols_iff (by decide) (by decide) (by decide)).mpr (by decide)

/-- **Names that are cut.** Two symbols of 16 characters that differ in the last one; 26 symbols of
seven characters, of which the last is cut, so that the line is not JSON. -/
theorem names_symbols_cut :
    ¬NamesSymbols "binance".toList "ws".toList
        ["1000000PEPEUSDT1".toList, "1000000PEPEUSDT2".toList] ∧
      ¬NamesSymbols "binance".toList "ws".toList
        ((List.range 26).map fun i => Char.ofNat (65 + i) :: "BCUSDT".toList) ∧
      ((metaRecord 0 "binance".toList "ws".toList
        ((List.range 26).map fun i => Char.ofNat (65 + i) :: "BCUSDT".toList)).toJsonLine.bind
          parse).isNone := by
  refine ⟨fun names => ?_, fun names => ?_, ?_⟩
  · exact absurd (names.short List.mem_cons_self (by decide)) (by decide)
  · exact absurd (names.room (by decide) (by decide)) (by decide)
  · decide +kernel

end Ob
