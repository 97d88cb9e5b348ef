/-
**Telemetry records and their lines.**

`TelemetryRecord`, `set_field`, `to_json_line` and the functions `make_meta`, `make_status` and
`make_fill` of `telemetry.hpp`, `from_price` and `from_qty` of `feed.cpp`, and what `live_trade.cpp`
puts into the records: the joined list of symbols, an engine's position and its fills.

A string is the list of its characters, and a `double` is a number of the kernel's model of
binary64. What `now_ns` reads is the argument `tsNs`.
-/

import OrderBook.Library.Double
import OrderBook.Source.Engine

namespace Ob

/-! ### Fields of fixed size -/

/-- A `char[n]` that holds a terminated string. -/
structure Field (n : Nat) where
  chars : List Char
  size : chars.length = n
  terminated : '\x00' ∈ chars

/-- A field that is initialized by `{}`. -/
def Field.zero (n : Nat) : Field (n + 1) where
  chars := List.replicate (n + 1) '\x00'
  size := List.length_replicate
  terminated := List.mem_replicate.mpr ⟨Nat.succ_ne_zero n, rfl⟩

/-- What `%s` prints of a field. -/
def Field.text {n : Nat} (field : Field n) : List Char := field.chars.takeWhile (· ≠ '\x00')

/-- How many characters `set_field` copies into a field of size `n + 1`. -/
def copied (n : Nat) (src : List Char) : Nat := if src.length < n then src.length else n

theorem copied_eq (n : Nat) (src : List Char) : copied n src = min src.length n := by
  unfold copied
  split <;> omega

def setField {n : Nat} (dst : Field (n + 1)) (src : List Char) : Field (n + 1) where
  chars := src.take (copied n src) ++ '\x00' :: dst.chars.drop (copied n src + 1)
  size := by
    rw [List.length_append, List.length_take, List.length_cons, List.length_drop, dst.size,
      copied_eq]
    omega
  terminated := List.mem_append_right _ List.mem_cons_self

/-! ### Records -/

/-- `metadata` is `Meta`. -/
inductive TelemetryRecord.Kind
  | metadata
  | status
  | fill
  deriving DecidableEq, Repr

structure TelemetryRecord where
  kind : TelemetryRecord.Kind := .status
  tsNs : UInt64 := 0
  sym : Field 16 := .zero 15
  mid : Float.Model := .ofInt 0
  bid : Float.Model := .ofInt 0
  ask : Float.Model := .ofInt 0
  posBtc : Float.Model := .ofInt 0
  cash : Float.Model := .ofInt 0
  equity : Float.Model := .ofInt 0
  fills : UInt64 := 0
  side : Side := .buy
  px : Float.Model := .ofInt 0
  qty : Float.Model := .ofInt 0
  latUs : Float.Model := .ofInt 0
  metaSource : Field 16 := .zero 15
  metaFeed : Field 8 := .zero 7
  metaSymbols : Field 256 := .zero 255

/-- `snprintf` into a buffer of this size, and the string of the length that it returns. The buffer
holds one character less of the text, and a zero after it; a string that is longer than the buffer
would be read from outside of it. -/
def fromBuffer (size : Nat) (text : List Char) : Option (List Char) :=
  if text.length ≤ size then some ((text.take (size - 1) ++ ['\x00']).take text.length) else none

def Side.tag : Side → List Char
  | .buy => "BUY".toList
  | .sell => "SELL".toList

namespace TelemetryRecord

/-- `%llu`. -/
def unsigned (n : UInt64) : List Char := Nat.toDigits 10 n.toNat

def metaText (r : TelemetryRecord) : List Char :=
  "\x7b\"t\":\"meta\",\"ts_ns\":".toList ++ unsigned r.tsNs ++
  ",\"source\":\"".toList ++ r.metaSource.text ++ "\",\"feed\":\"".toList ++ r.metaFeed.text ++
  "\",\"symbols\":[".toList ++ r.metaSymbols.text ++ "]\x7d".toList

def statusText (r : TelemetryRecord) : List Char :=
  "\x7b\"t\":\"status\",\"ts_ns\":".toList ++ unsigned r.tsNs ++
  ",\"sym\":\"".toList ++ r.sym.text ++ "\",\"mid\":".toList ++ Double.fixed 2 r.mid ++
  ",\"bid\":".toList ++ Double.fixed 2 r.bid ++ ",\"ask\":".toList ++ Double.fixed 2 r.ask ++
  ",\"pos_btc\":".toList ++ Double.fixed 6 r.posBtc ++ ",\"cash\":".toList ++
  Double.fixed 2 r.cash ++ ",\"equity\":".toList ++ Double.fixed 2 r.equity ++
  ",\"fills\":".toList ++ unsigned r.fills ++ "\x7d".toList

def fillText (r : TelemetryRecord) : List Char :=
  "\x7b\"t\":\"fill\",\"ts_ns\":".toList ++ unsigned r.tsNs ++
  ",\"sym\":\"".toList ++ r.sym.text ++ "\",\"side\":\"".toList ++ r.side.tag ++
  "\",\"px\":".toList ++ Double.fixed 2 r.px ++ ",\"qty\":".toList ++ Double.fixed 6 r.qty ++
  ",\"lat_us\":".toList ++ Double.fixed 3 r.latUs ++ "\x7d".toList

/-- The line of a record, if it fits its buffer. -/
def toJsonLine (r : TelemetryRecord) : Option (List Char) :=
  match r.kind with
  | .metadata => fromBuffer 512 r.metaText
  | .status => fromBuffer 512 r.statusText
  | .fill => fromBuffer 512 r.fillText

end TelemetryRecord

namespace TelemetryPublisher

def makeMeta (tsNs : UInt64) (source feed joinedSymbols : List Char) : TelemetryRecord :=
  let r : TelemetryRecord := { kind := .metadata, tsNs }
  { r with
    metaSource := setField r.metaSource source
    metaFeed := setField r.metaFeed feed
    metaSymbols := setField r.metaSymbols joinedSymbols }

def makeStatus (tsNs : UInt64) (sym : List Char) (mid bid ask posBtc cash equity : Float.Model)
    (fills : UInt64) : TelemetryRecord :=
  let r : TelemetryRecord := { kind := .status, tsNs }
  { r with sym := setField r.sym sym, mid, bid, ask, posBtc, cash, equity, fills }

def makeFill (tsNs : UInt64) (sym : List Char) (side : Side) (px qty latUs : Float.Model) :
    TelemetryRecord :=
  let r : TelemetryRecord := { kind := .fill, tsNs }
  { r with sym := setField r.sym sym, side, px, qty, latUs }

end TelemetryPublisher

/-! ### The records of the trader -/

/-- `kPriceScale`. -/
def priceScale : Int := 100

def fromPrice (p : Price) : Float.Model := .ofInt64 p / .ofInt priceScale

def fromQty (q : Quantity) : Float.Model := .ofUInt64 q / .ofInt quantityScale

namespace LiveTrade

open TelemetryPublisher

/-- The symbols in quotes, with commas between them. -/
def joined (symbols : List (List Char)) : List Char :=
  symbols.zipIdx.foldl (fun joined (symbol, i) =>
    (if i ≠ 0 then joined ++ [','] else joined) ++ ['"'] ++ symbol ++ ['"']) []

/-- What is published at the start. -/
def metaRecord (tsNs : UInt64) (source feedKind : List Char) (symbols : List (List Char)) :
    TelemetryRecord :=
  makeMeta tsNs source feedKind (joined symbols)

/-- What is published of a pipeline every two seconds. The engine's position and mid price are read
one after the other, and `equity_at` reads the position once more; the words that hold it are 64
bits long. -/
def statusRecord (tsNs : UInt64) (symbol : List Char) (p : Position) (mid : Price)
    (later : Position) : TelemetryRecord :=
  let eq := if mid > 0 then later.equityAt mid.toInt else p.cash
  let midUsd := fromPrice mid
  let posBtc := .ofInt64 (Int64.ofInt p.btcQty) / .ofInt quantityScale
  let cashUsd := .ofInt64 (Int64.ofInt p.cash) / .ofInt priceScale
  let equityUsd := .ofInt64 (Int64.ofInt eq) / .ofInt priceScale
  makeStatus tsNs symbol midUsd midUsd midUsd posBtc cashUsd equityUsd (UInt64.ofNat p.fills)

/-- What is published when an engine calls `on_fill`. -/
def fillRecord (tsNs : UInt64) (symbol : List Char) (f : Fill) : TelemetryRecord :=
  let latNs := if f.ts > f.eventTs then f.ts - f.eventTs else 0
  makeFill tsNs symbol f.side (fromPrice f.price) (fromQty (UInt64.ofNat f.qty))
    (.ofUInt64 latNs / .ofInt 1000)

end LiveTrade

end Ob
