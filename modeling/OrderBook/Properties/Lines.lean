/-
**Lines and their buffer.**

* `statusText_length`, `fillText_length` — how long these texts are, by the digits and the signs of
  their numbers.
* `toJsonLine_iff` — the line of a record is its text, and nothing is read behind the buffer,
  exactly if these digits and signs fit. Nothing in the code sees to it: a finite number may have
  more than 300 digits (`overrun`), and the length that `snprintf` returns is used as it is.
* `room_of_small` — numbers of up to 55 digits always fit.
-/

import OrderBook.Telemetry.Lines

namespace Ob.TelemetryRecord

/-! ### Texts -/

/-- The text of a record, of whatever length. -/
def text (r : TelemetryRecord) : List Char :=
  match r.kind with
  | .metadata => r.metaText
  | .status => r.statusText
  | .fill => r.fillText

structure Finite (r : TelemetryRecord) : Prop where
  mid : r.mid.isFinite
  bid : r.bid.isFinite
  ask : r.ask.isFinite
  posBtc : r.posBtc.isFinite
  cash : r.cash.isFinite
  equity : r.equity.isFinite
  px : r.px.isFinite
  qty : r.qty.isFinite
  latUs : r.latUs.isFinite

/-- The decimal digits of a word. -/
def digits (n : UInt64) : Nat := Nat.log 10 n.toNat + 1

/-- The digits before the points and the signs of a status line, and its symbol. -/
def statusColumns (r : TelemetryRecord) : Nat :=
  digits r.tsNs + r.sym.text.length + Double.columns 2 r.mid + Double.columns 2 r.bid +
    Double.columns 2 r.ask + Double.columns 6 r.posBtc + Double.columns 2 r.cash +
    Double.columns 2 r.equity + digits r.fills

/-- The same of a fill line, with its side. -/
def fillColumns (r : TelemetryRecord) : Nat :=
  digits r.tsNs + r.sym.text.length + r.side.tag.length + Double.columns 2 r.px +
    Double.columns 6 r.qty + Double.columns 3 r.latUs

/-- What there is room for beside the punctuation, the keys and the decimal places. -/
def Room (r : TelemetryRecord) : Prop :=
  match r.kind with
  | .metadata => True
  | .status => r.statusColumns ≤ 398
  | .fill => r.fillColumns ≤ 434

variable {r : TelemetryRecord}

theorem unsigned_length_eq (n : UInt64) : (unsigned n).length = digits n :=
  Double.length_toDigits n.toNat

theorem digits_le (n : UInt64) : digits n ≤ 20 := unsigned_length_eq n ▸ unsigned_length n

theorem statusText_length (finite : r.Finite) : r.statusText.length = 113 + r.statusColumns := by
  have mid := Double.fixed_length_eq (show 0 < 2 by decide) finite.mid
  have bid := Double.fixed_length_eq (show 0 < 2 by decide) finite.bid
  have ask := Double.fixed_length_eq (show 0 < 2 by decide) finite.ask
  have posBtc := Double.fixed_length_eq (show 0 < 6 by decide) finite.posBtc
  have cash := Double.fixed_length_eq (show 0 < 2 by decide) finite.cash
  have equity := Double.fixed_length_eq (show 0 < 2 by decide) finite.equity
  unfold statusText statusColumns
  simp only [List.length_append, String.reduceToList, List.length_cons, List.length_nil,
    unsigned_length_eq]
  omega

theorem fillText_length (finite : r.Finite) : r.fillText.length = 77 + r.fillColumns := by
  have px := Double.fixed_length_eq (show 0 < 2 by decide) finite.px
  have qty := Double.fixed_length_eq (show 0 < 6 by decide) finite.qty
  have latUs := Double.fixed_length_eq (show 0 < 3 by decide) finite.latUs
  unfold fillText fillColumns
  simp only [List.length_append, String.reduceToList, List.length_cons, List.length_nil,
    unsigned_length_eq]
  omega

/-! ### Lines -/

theorem toJsonLine_eq (r : TelemetryRecord) : r.toJsonLine = fromBuffer 512 r.text := by
  unfold toJsonLine text
  cases r.kind <;> rfl

theorem text_length_le_iff (finite : r.Finite) : r.text.length ≤ 511 ↔ r.Room := by
  unfold text Room
  cases r.kind with
  | metadata => exact iff_true_intro (Nat.le_trans (metaText_length r) (by decide))
  | status =>
    rw [statusText_length finite]
    omega
  | fill =>
    rw [fillText_length finite]
    omega

/-- **The line of a record**: it is the text, and nothing is read behind the buffer, exactly if
there is room for the digits and the signs. -/
theorem toJsonLine_iff (finite : r.Finite) :
    (r.text.length ≤ 511 ∧ r.toJsonLine = some r.text) ↔ r.Room := by
  rw [← text_length_le_iff finite, toJsonLine_eq]
  exact ⟨fun fits => fits.1, fun le => ⟨le, fromBuffer_fits (Nat.lt_succ_of_le le)⟩⟩

/-- A trade at 65000.10. -/
def trade : TelemetryRecord where
  kind := .fill
  px := .ofInt 6500010 / .ofInt 100
  qty := .ofInt 1 / .ofInt 1000

theorem toJsonLine_trade : trade.text.length ≤ 511 ∧ trade.toJsonLine = some trade.text :=
  (toJsonLine_iff (by constructor <;> decide)).mpr (show trade.fillColumns ≤ 434 by decide +kernel)

/-- A trade of the largest numbers, each of 309 digits. -/
def largest : TelemetryRecord where
  kind := .fill
  px := .ofBits 0x7FEFFFFFFFFFFFFF
  qty := .ofBits 0x7FEFFFFFFFFFFFFF

theorem overrun : ¬∀ r : TelemetryRecord, r.Finite →
    r.text.length ≤ 511 ∧ r.toJsonLine = some r.text := by
  intro all
  have fits := (all largest (by constructor <;> decide)).1
  exact absurd fits (by decide +kernel)

/-- Numbers of up to 55 digits always fit. -/
theorem room_of_small
    (small : ∀ x ∈ [r.mid, r.bid, r.ask, r.posBtc, r.cash, r.equity, r.px, r.qty, r.latUs],
      Double.magnitude x + 1 ≤ 10 ^ 55) : r.Room := by
  have width : ∀ places, ∀ x ∈ [r.mid, r.bid, r.ask, r.posBtc, r.cash, r.equity, r.px, r.qty,
      r.latUs], Double.columns places x ≤ 56 := fun places x member =>
    Double.columns_le (by decide) (small x member)
  have two := width 2
  have three := width 3
  have six := width 6
  simp only [List.forall_mem_cons] at two three six
  have ts := digits_le r.tsNs
  have fills := digits_le r.fills
  have sym := r.sym.text_length
  have side : r.side.tag.length ≤ 4 := by cases r.side <;> decide
  unfold Room statusColumns fillColumns
  cases r.kind with
  | metadata => trivial
  | status => omega
  | fill => omega

end Ob.TelemetryRecord
