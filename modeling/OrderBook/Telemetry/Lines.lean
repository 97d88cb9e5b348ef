/-
**The lines of telemetry records.**

* `setField_text` — a field prints as much of a string as it has room for.
* `joined_eq`, `joined_length` — the joined list of symbols, and its length.
* `metaLine`, `statusLine`, `fillLine` — a line fits its buffer and is the text of its record.
* `statusLine_tells`, `fillLine_tells` — these lines are JSON and tell the symbol of the record;
  `metaLine_tells` — a meta line tells the symbols that its field holds in full. `metaLine_room` —
  it never tells more than the field has room for.
-/

import OrderBook.Library.JsonSizes
import OrderBook.Source.Telemetry

namespace Ob

open Json TelemetryRecord

/-! ### Fields -/

theorem Field.text_length {n : Nat} (field : Field n) : field.text.length < n := by
  have parts := congrArg List.length (List.takeWhile_append_dropWhile
    (p := fun c => decide (c ≠ '\x00')) (l := field.chars))
  have ends : field.chars.dropWhile (fun c => decide (c ≠ '\x00')) ≠ [] := by
    intro none
    exact of_decide_eq_true (List.dropWhile_eq_nil_iff.mp none _ field.terminated) rfl
  have some_left := List.length_pos_iff.mpr ends
  rw [List.length_append, field.size] at parts
  unfold Field.text
  omega

/-- A string without a zero, as far as there is room for it. -/
theorem setField_text {n : Nat} {src : List Char} (dst : Field (n + 1))
    (printed : '\x00' ∉ src.take n) : (setField dst src).text = src.take n := by
  have same : src.take (copied n src) = src.take n := by
    rw [copied_eq, Nat.min_comm, ← List.take_eq_take_min]
  have each : ∀ c ∈ src.take n, decide (c ≠ '\x00') = true := fun c member =>
    decide_eq_true fun zero => printed (zero ▸ member)
  have chars : (setField dst src).chars =
      src.take (copied n src) ++ '\x00' :: dst.chars.drop (copied n src + 1) := rfl
  rw [Field.text, chars, same, List.takeWhile_append_of_pos each, List.takeWhile_cons]
  exact List.append_nil _

/-- What a field has no room for is lost. -/
theorem setField_take {n : Nat} (dst : Field (n + 1)) (src : List Char) :
    setField dst (src.take n) = setField dst src := by
  have count : copied n (src.take n) = copied n src := by
    rw [copied_eq, copied_eq, List.length_take]
    omega
  have chars : (src.take n).take (copied n src) = src.take (copied n src) := by
    rw [List.take_take, copied_eq]
    congr 1
    omega
  simp only [setField, count, chars]

/-! ### The joined symbols -/

/-- A symbol in quotes. -/
def quoted (symbol : List Char) : List Char := '"' :: symbol ++ ['"']

theorem joined_eq (symbols : List (List Char)) :
    LiveTrade.joined symbols = [','].intercalate (symbols.map quoted) := by
  have later : ∀ (symbols : List (List Char)) (k : Nat) (joined : List Char),
      (symbols.zipIdx (k + 1)).foldl (fun joined entry =>
        (if entry.2 ≠ 0 then joined ++ [','] else joined) ++ ['"'] ++ entry.1 ++ ['"']) joined =
      joined ++ symbols.flatMap (fun symbol => ',' :: quoted symbol) := by
    intro symbols
    induction symbols with
    | nil => exact fun _ joined => (List.append_nil joined).symm
    | cons symbol symbols ih =>
      intro k joined
      rw [List.zipIdx_cons, List.foldl_cons, ih]
      simp [quoted]
  cases symbols with
  | nil => rfl
  | cons symbol symbols =>
    rw [List.map_cons, intercalate_cons, List.flatMap_map]
    exact later symbols 0 (quoted symbol)

theorem joined_length {symbols : List (List Char)} (some_symbol : symbols ≠ []) :
    (LiveTrade.joined symbols).length + 1 = (symbols.map fun s => s.length + 3).sum := by
  obtain ⟨symbol, symbols, rfl⟩ := List.exists_cons_of_ne_nil some_symbol
  have later : (symbols.flatMap fun s => ',' :: quoted s).length =
      (symbols.map fun s => s.length + 3).sum := by
    rw [List.length_flatMap]
    congr 2
    funext s
    simp [quoted]
  rw [joined_eq, List.map_cons, intercalate_cons, List.flatMap_map, List.length_append, later,
    List.map_cons, List.sum_cons]
  simp only [quoted, List.length_append, List.length_cons, List.length_nil]
  omega

/-! ### Lines that fit -/

theorem fromBuffer_fits {size : Nat} {text : List Char} (fits : text.length < size) :
    fromBuffer size text = some text := by
  rw [fromBuffer, if_pos (Nat.le_of_lt fits), List.take_of_length_le (Nat.le_sub_one_of_lt fits),
    List.take_left]

theorem unsigned_length (n : UInt64) : (unsigned n).length ≤ 20 :=
  (Nat.length_toDigits_le_iff (by decide) (by decide)).mpr
    (Nat.lt_of_lt_of_le n.toNat_lt (by decide))

variable {r : TelemetryRecord}

/-- The numbers of a record are finite and not too large for a line. -/
structure TelemetryRecord.Printable (r : TelemetryRecord) : Prop where
  mid : Double.Below 7 r.mid.unpack
  bid : Double.Below 7 r.bid.unpack
  ask : Double.Below 7 r.ask.unpack
  posBtc : Double.Below 7 r.posBtc.unpack
  cash : Double.Below 7 r.cash.unpack
  equity : Double.Below 7 r.equity.unpack
  px : Double.Below 7 r.px.unpack
  qty : Double.Below 7 r.qty.unpack
  latUs : Double.Below 7 r.latUs.unpack

theorem fixed_length_le {places : Nat} {x : Float.Model} (below : Double.Below 7 x.unpack)
    (some_places : 0 < places) : (Double.fixed places x).length ≤ 21 + places :=
  Nat.le_trans (Double.fixed_length below some_places (show 0 < 19 by decide) (by decide))
    (by omega)

/-- The fields of a meta line bound its length. -/
theorem TelemetryRecord.metaText_length (r : TelemetryRecord) : r.metaText.length ≤ 353 := by
  have ts := unsigned_length r.tsNs
  have source := r.metaSource.text_length
  have feed := r.metaFeed.text_length
  have symbols := r.metaSymbols.text_length
  unfold metaText
  simp only [List.length_append, String.reduceToList, List.length_cons, List.length_nil]
  omega

theorem metaLine (kind : r.kind = .metadata) : r.toJsonLine = some r.metaText := by
  rw [toJsonLine, kind]
  exact fromBuffer_fits (Nat.lt_of_le_of_lt (metaText_length r) (by decide))

theorem statusLine (kind : r.kind = .status) (printable : r.Printable) :
    r.toJsonLine = some r.statusText := by
  have ts := unsigned_length r.tsNs
  have fills := unsigned_length r.fills
  have sym := r.sym.text_length
  have mid := fixed_length_le printable.mid (show 0 < 2 by decide)
  have bid := fixed_length_le printable.bid (show 0 < 2 by decide)
  have ask := fixed_length_le printable.ask (show 0 < 2 by decide)
  have posBtc := fixed_length_le printable.posBtc (show 0 < 6 by decide)
  have cash := fixed_length_le printable.cash (show 0 < 2 by decide)
  have equity := fixed_length_le printable.equity (show 0 < 2 by decide)
  rw [toJsonLine, kind]
  refine fromBuffer_fits ?_
  unfold statusText
  simp only [List.length_append, String.reduceToList, List.length_cons, List.length_nil]
  omega

theorem fillLine (kind : r.kind = .fill) (printable : r.Printable) :
    r.toJsonLine = some r.fillText := by
  have ts := unsigned_length r.tsNs
  have sym := r.sym.text_length
  have px := fixed_length_le printable.px (show 0 < 2 by decide)
  have qty := fixed_length_le printable.qty (show 0 < 6 by decide)
  have latUs := fixed_length_le printable.latUs (show 0 < 3 by decide)
  have side : r.side.tag.length ≤ 4 := by cases r.side <;> decide
  rw [toJsonLine, kind]
  refine fromBuffer_fits ?_
  unfold fillText
  simp only [List.length_append, String.reduceToList, List.length_cons, List.length_nil]
  omega

/-! ### The numbers of the trader -/

/-- A word as a double, signed or not, divided by one of the scales. -/
theorem scaled_below {n scale : Int} (word : n.natAbs < 2 ^ 64)
    (known : scale = priceScale ∨ scale = quantityScale ∨ scale = 1000) :
    Double.Below 7 (Float.Model.ofInt n / Float.Model.ofInt scale).unpack := by
  have below := Double.ofInt_below word
  obtain rfl | rfl | rfl := known
  · have price : (Float.Model.ofInt priceScale).unpack =
        .finite .positive (100 * 2 ^ 46) (-46) (by decide) := rfl
    exact (Double.div_below below price (by decide) (by decide) (by decide)).mono (by decide)
  · have quantity : (Float.Model.ofInt quantityScale).unpack =
        .finite .positive (1000000 * 2 ^ 33) (-33) (by decide) := rfl
    exact (Double.div_below below quantity (by decide) (by decide) (by decide)).mono (by decide)
  · have thousand : (Float.Model.ofInt 1000).unpack =
        .finite .positive (1000 * 2 ^ 43) (-43) (by decide) := rfl
    exact (Double.div_below below thousand (by decide) (by decide) (by decide)).mono (by decide)

theorem int64_word (x : Int64) : x.toInt.natAbs < 2 ^ 64 := by
  have low := x.le_toInt
  have high := x.toInt_lt
  omega

theorem uint64_word (x : UInt64) : (x.toNat : Int).natAbs < 2 ^ 64 := x.toNat_lt

theorem zero_below : Double.Below 7 (Float.Model.ofInt 0).unpack := by
  have zero : (Float.Model.ofInt 0).unpack = .zero .positive := rfl
  rw [zero]
  trivial

theorem statusRecord_printable (tsNs : UInt64) (symbol : List Char) (p : Position) (mid : Price)
    (later : Position) : (LiveTrade.statusRecord tsNs symbol p mid later).Printable where
  mid := scaled_below (int64_word mid) (.inl rfl)
  bid := scaled_below (int64_word mid) (.inl rfl)
  ask := scaled_below (int64_word mid) (.inl rfl)
  posBtc := scaled_below (int64_word _) (.inr (.inl rfl))
  cash := scaled_below (int64_word _) (.inl rfl)
  equity := scaled_below (int64_word _) (.inl rfl)
  px := zero_below
  qty := zero_below
  latUs := zero_below

theorem fillRecord_printable (tsNs : UInt64) (symbol : List Char) (f : Fill) :
    (LiveTrade.fillRecord tsNs symbol f).Printable where
  mid := zero_below
  bid := zero_below
  ask := zero_below
  posBtc := zero_below
  cash := zero_below
  equity := zero_below
  px := scaled_below (int64_word f.price) (.inl rfl)
  qty := scaled_below (uint64_word _) (.inr (.inl rfl))
  latUs := scaled_below (uint64_word _) (.inr (.inr rfl))

/-! ### Lines that are JSON objects -/

/-- A line is JSON, and the member of this key has this value. -/
def Tells (line : Option (List Char)) (key : List Char) (v : Json) : Prop :=
  ∃ text object, line = some text ∧ parse text = some object ∧ object.field key = some v

theorem Tells.unique {line : Option (List Char)} {key : List Char} {v w : Json}
    (tells : Tells line key v) (tells' : Tells line key w) : v = w := by
  obtain ⟨text, object, rfl, parsed, here⟩ := tells
  obtain ⟨text', object', same, parsed', here'⟩ := tells'
  obtain rfl := Option.some.inj same
  obtain rfl := Option.some.inj (parsed.symm.trans parsed')
  exact Option.some.inj (here.symm.trans here')

/-- The members of a status line. -/
def statusMembers (r : TelemetryRecord) : List (List Char × Json) :=
  [("t".toList, .str "status".toList), ("ts_ns".toList, .num (unsigned r.tsNs)),
    ("sym".toList, .str r.sym.text), ("mid".toList, .num (Double.fixed 2 r.mid)),
    ("bid".toList, .num (Double.fixed 2 r.bid)), ("ask".toList, .num (Double.fixed 2 r.ask)),
    ("pos_btc".toList, .num (Double.fixed 6 r.posBtc)),
    ("cash".toList, .num (Double.fixed 2 r.cash)),
    ("equity".toList, .num (Double.fixed 2 r.equity)), ("fills".toList, .num (unsigned r.fills))]

theorem statusLine_tells (kind : r.kind = .status) (printable : r.Printable)
    (plain : Plain r.sym.text) : Tells r.toJsonLine "sym".toList (.str r.sym.text) := by
  have text : r.statusText = '{' ::
      [','].intercalate ((statusMembers r).map fun m => keyText m.1 ++ scalarText m.2) ++
        ['}'] := by
    unfold statusText statusMembers
    simp only [keyText, scalarText, List.map_cons, List.map_nil, intercalate_cons_cons,
      intercalate_singleton, String.reduceToList, List.cons_append, List.nil_append,
      List.append_assoc]
  have each : ∀ m ∈ statusMembers r, Plain m.1 ∧ Spells (scalarText m.2) m.2 := by
    unfold statusMembers
    simp only [List.forall_mem_cons]
    exact ⟨⟨by decide, spells_str (by decide)⟩, ⟨by decide, Double.digits_spells _⟩,
      ⟨by decide, spells_str plain⟩, ⟨by decide, Double.fixed_spells printable.mid⟩,
      ⟨by decide, Double.fixed_spells printable.bid⟩,
      ⟨by decide, Double.fixed_spells printable.ask⟩,
      ⟨by decide, Double.fixed_spells printable.posBtc⟩,
      ⟨by decide, Double.fixed_spells printable.cash⟩,
      ⟨by decide, Double.fixed_spells printable.equity⟩, ⟨by decide, Double.digits_spells _⟩,
      List.forall_mem_nil _⟩
  have read := parse_spells (spells_obj (spells_scalars each))
  rw [← text] at read
  exact ⟨_, _, statusLine kind printable, read, rfl⟩

/-- The members of a fill line. -/
def fillMembers (r : TelemetryRecord) : List (List Char × Json) :=
  [("t".toList, .str "fill".toList), ("ts_ns".toList, .num (unsigned r.tsNs)),
    ("sym".toList, .str r.sym.text), ("side".toList, .str r.side.tag),
    ("px".toList, .num (Double.fixed 2 r.px)), ("qty".toList, .num (Double.fixed 6 r.qty)),
    ("lat_us".toList, .num (Double.fixed 3 r.latUs))]

theorem fillLine_tells (kind : r.kind = .fill) (printable : r.Printable)
    (plain : Plain r.sym.text) : Tells r.toJsonLine "sym".toList (.str r.sym.text) := by
  have text : r.fillText = '{' ::
      [','].intercalate ((fillMembers r).map fun m => keyText m.1 ++ scalarText m.2) ++ ['}'] := by
    unfold fillText fillMembers
    simp only [keyText, scalarText, List.map_cons, List.map_nil, intercalate_cons_cons,
      intercalate_singleton, String.reduceToList, List.cons_append, List.nil_append,
      List.append_assoc]
  have side : Plain r.side.tag := by cases r.side <;> decide
  have each : ∀ m ∈ fillMembers r, Plain m.1 ∧ Spells (scalarText m.2) m.2 := by
    unfold fillMembers
    simp only [List.forall_mem_cons]
    exact ⟨⟨by decide, spells_str (by decide)⟩, ⟨by decide, Double.digits_spells _⟩,
      ⟨by decide, spells_str plain⟩, ⟨by decide, spells_str side⟩,
      ⟨by decide, Double.fixed_spells printable.px⟩,
      ⟨by decide, Double.fixed_spells printable.qty⟩,
      ⟨by decide, Double.fixed_spells printable.latUs⟩, List.forall_mem_nil _⟩
  have read := parse_spells (spells_obj (spells_scalars each))
  rw [← text] at read
  exact ⟨_, _, fillLine kind printable, read, rfl⟩

/-- The members of a meta line before the list of symbols. -/
def metaMembers (r : TelemetryRecord) : List (List Char × Json) :=
  [("t".toList, .str "meta".toList), ("ts_ns".toList, .num (unsigned r.tsNs)),
    ("source".toList, .str r.metaSource.text), ("feed".toList, .str r.metaFeed.text)]

theorem metaMembers_spell (source : Plain r.metaSource.text) (feed : Plain r.metaFeed.text) :
    List.Forall₂ SpellsMember ((metaMembers r).map fun m => keyText m.1 ++ scalarText m.2)
      (metaMembers r) := by
  refine spells_scalars ?_
  unfold metaMembers
  simp only [List.forall_mem_cons]
  exact ⟨⟨by decide, spells_str (by decide)⟩, ⟨by decide, Double.digits_spells _⟩,
    ⟨by decide, spells_str source⟩, ⟨by decide, spells_str feed⟩, List.forall_mem_nil _⟩

theorem metaText_eq (r : TelemetryRecord) :
    r.metaText = '{' ::
      (((metaMembers r).map fun m => keyText m.1 ++ scalarText m.2).flatMap (· ++ [',']) ++
        (keyText "symbols".toList ++ ('[' :: r.metaSymbols.text ++ [']', '}']))) := by
  unfold metaText metaMembers
  simp only [keyText, scalarText, List.map_cons, List.map_nil, List.flatMap_cons, List.flatMap_nil,
    String.reduceToList, List.cons_append, List.nil_append, List.append_assoc]

/-- A meta line whose field of symbols holds all of them. -/
theorem metaLine_tells (kind : r.kind = .metadata) (source : Plain r.metaSource.text)
    (feed : Plain r.metaFeed.text) {symbols : List (List Char)}
    (plain : ∀ symbol ∈ symbols, Plain symbol)
    (whole : r.metaSymbols.text = LiveTrade.joined symbols) :
    Tells r.toJsonLine "symbols".toList (.arr (symbols.map .str)) := by
  have list : Spells ('[' :: LiveTrade.joined symbols ++ [']']) (.arr (symbols.map .str)) := by
    rw [joined_eq]
    refine spells_arr (List.forall₂_map_left_iff.mpr (List.forall₂_map_right_iff.mpr ?_))
    exact List.forall₂_same.mpr fun symbol member => spells_str (plain symbol member)
  have members := List.rel_append (metaMembers_spell source feed)
    (.cons (spells_member (show Plain "symbols".toList by decide) list) .nil)
  have text : r.metaText = '{' ::
      [','].intercalate (((metaMembers r).map fun m => keyText m.1 ++ scalarText m.2) ++
        [keyText "symbols".toList ++ ('[' :: LiveTrade.joined symbols ++ [']'])]) ++ ['}'] := by
    rw [metaText_eq, whole]
    simp only [metaMembers, List.map_cons, List.map_nil, List.cons_append, List.nil_append,
      List.flatMap_cons, List.flatMap_nil, intercalate_cons_cons, intercalate_singleton,
      List.append_assoc]
  have read := parse_spells (spells_obj members)
  rw [← text] at read
  exact ⟨_, _, metaLine kind, read, rfl⟩

/-- **A meta line cannot tell more of the symbols than its field holds.** -/
theorem metaLine_room (kind : r.kind = .metadata) (source : Plain r.metaSource.text)
    (feed : Plain r.metaFeed.text) {v : Json} (tells : Tells r.toJsonLine "symbols".toList v) :
    v.size ≤ r.metaSymbols.text.length + 2 := by
  obtain ⟨text, object, line, read, here⟩ := tells
  obtain rfl := Option.some.inj ((metaLine kind).symm.trans line)
  rw [metaText_eq] at read
  obtain ⟨fuel, w, rest, more, value_read, remains, rfl⟩ :=
    parse_members (metaMembers_spell source feed) (show Plain "symbols".toList by decide) read
  obtain rfl : w = v := Option.some.inj here
  have used := value_takes fuel _ w rest value_read
  have some_left := List.length_pos_iff.mpr remains
  simp only [List.length_append, List.length_cons, List.length_nil] at used
  omega

end Ob
