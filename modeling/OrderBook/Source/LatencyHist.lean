/-
**The latency histogram.**

`latency_hist.hpp`: 64 counters, one for each position that the highest set bit of a sample can
have, and beside them the number, the sum and the two extremes of the samples. All of them are
64-bit words and wrap. A percentile is asked for with an exact rational number; its product with the
number of samples, which the source computes in a `double`, is exact here, and so is the quotient
that is the mean.
-/

import Mathlib.Data.Rat.Floor

namespace Ob

/-- One counter for each bit position. -/
abbrev kBuckets : Nat := 64

structure LatencyHistogram where
  buckets : Vector UInt64 kBuckets
  count_ : UInt64
  sum_ : UInt64
  min_ : UInt64
  max_ : UInt64
  deriving DecidableEq, Repr

namespace LatencyHistogram

def reset : LatencyHistogram where
  buckets := .replicate kBuckets 0
  count_ := 0
  sum_ := 0
  min_ := 0xFFFFFFFFFFFFFFFF
  max_ := 0

/-- `63 - __builtin_clzll(ns | 1)`. -/
def bucket (ns : UInt64) : Nat := 63 - (ns ||| 1).toBitVec.clz.toNat

theorem bucket_lt (ns : UInt64) : bucket ns < kBuckets :=
  Nat.lt_succ_of_le (Nat.sub_le 63 _)

/-- The range of the highest set bit is the range of the counters. -/
def add (h : LatencyHistogram) (ns : UInt64) : LatencyHistogram :=
  have := bucket_lt ns
  { buckets := h.buckets.set (bucket ns) (h.buckets[bucket ns] + 1)
    count_ := h.count_ + 1
    sum_ := h.sum_ + ns
    min_ := if ns < h.min_ then ns else h.min_
    max_ := if ns > h.max_ then ns else h.max_ }

def count (h : LatencyHistogram) : UInt64 := h.count_

protected def min (h : LatencyHistogram) : UInt64 := if h.count_ = 0 then 0 else h.min_

protected def max (h : LatencyHistogram) : UInt64 := if h.count_ = 0 then 0 else h.max_

/-- The quotient of the two accumulators, before they are converted to `double`. -/
def meanNs (h : LatencyHistogram) : ℚ :=
  if h.count_ = 0 then 0 else h.sum_.toNat / h.count_.toNat

/-- The rank that is asked for, between 1 and the number of samples. -/
def rank (p : ℚ) (count : UInt64) : UInt64 :=
  let target := UInt64.ofNat ⌊p * count.toNat + 1 / 2⌋₊
  if target = 0 then 1
  else if target > count then count
  else target

/-- The loop of `percentile_ns`: the first bucket, from `b` on, at which the running count reaches
the rank. -/
def walk (rank : UInt64) : (b : Nat) → (running : UInt64) → List UInt64 → Option Nat
  | _, _, [] => none
  | b, running, n :: rest =>
    if running + n ≥ rank then some b else walk rank (b + 1) (running + n) rest

/-- The lower edge of a bucket. Bucket 0 holds 0 and 1. -/
def edge (b : Nat) : UInt64 := if b = 0 then 0 else 1 <<< UInt64.ofNat b

/-- The rule between the ends: `none` where the loop finds no bucket. -/
def ranked (h : LatencyHistogram) (p : ℚ) : Option Nat :=
  walk (rank p h.count_) 0 0 h.buckets.toList

def percentileNs (h : LatencyHistogram) (p : ℚ) : UInt64 :=
  if h.count_ = 0 then 0
  else if p ≤ 0 then h.min_
  else if p ≥ 1 then h.max_
  else match h.ranked p with
    | some b => edge b
    | none => h.max_

/-- A histogram that these samples were added to, in this order. -/
def ofSamples (samples : List UInt64) : LatencyHistogram := samples.foldl add reset

/-- What a histogram is changed by. -/
inductive Update where
  | reset
  | add (ns : UInt64)
  deriving DecidableEq, Repr

def update (h : LatencyHistogram) : Update → LatencyHistogram
  | .reset => reset
  | .add ns => h.add ns

/-- The life of a histogram, from its construction on. -/
def updated (updates : List Update) : LatencyHistogram := updates.foldl update reset

end LatencyHistogram

end Ob
