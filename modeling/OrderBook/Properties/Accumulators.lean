/-
**The accumulators.**

* `counts` — after any life of fewer than `2^53` samples since the last reset the number of samples,
  the extremes and the counters of the buckets are exact.
* `tracks_iff` — the running sum, and with it the mean, is exact just as long as the true sum of the
  samples is a word: the sum is kept in 64 bits and nothing looks at its carry.
* `wrapped` — two samples of half the range make the mean 0.
-/

import OrderBook.Telemetry.Histogram

namespace Ob.LatencyHistogram

variable {samples : List UInt64} {updates : List Update}

/-! ### What is promised -/

/-- The samples of a bucket, by its range. -/
def InRange (b : Nat) (ns : UInt64) : Prop :=
  (if b = 0 then 0 else 2 ^ b) ≤ ns.toNat ∧ ns.toNat < 2 ^ (b + 1)

instance (b : Nat) (ns : UInt64) : Decidable (InRange b ns) :=
  inferInstanceAs (Decidable (_ ∧ _))

/-- The accumulators that count and compare agree with the samples. -/
structure Counts (samples : List UInt64) (h : LatencyHistogram) : Prop where
  count : h.count.toNat = samples.length
  min : h.min.toNat = (samples.map UInt64.toNat).min?.getD 0
  max : h.max.toNat = (samples.map UInt64.toNat).max?.getD 0
  buckets : ∀ b (lt : b < kBuckets), h.buckets[b].toNat = samples.countP (InRange b)
  total : (h.buckets.toList.map UInt64.toNat).sum = h.count.toNat

/-- All five accumulators agree with the samples, and so does the mean. -/
structure Tracks (samples : List UInt64) (h : LatencyHistogram) : Prop extends
    Counts samples h where
  sum : h.sum_.toNat = (samples.map UInt64.toNat).sum
  mean : h.meanNs = ((samples.map UInt64.toNat).sum : ℚ) / samples.length

/-! ### The counters and the extremes -/

theorem bucket_eq_iff {b : Nat} (lt : b < kBuckets) (ns : UInt64) :
    bucket ns = b ↔ InRange b ns := by
  have lower : (if b = 0 then 0 else 2 ^ b) ≤ ns.toNat ↔ b ≤ bucket ns := by
    rw [← edge_toNat lt, ← UInt64.le_iff_toNat_le]
    exact edge_le_iff lt ns
  have upper : ns.toNat < 2 ^ (b + 1) ↔ bucket ns < b + 1 := by
    rw [bucket_eq]
    by_cases none : ns.toNat = 0
    · rw [none, Nat.log2_zero]
      exact iff_of_true (Nat.two_pow_pos _) (Nat.succ_pos b)
    · exact (Nat.log2_lt none).symm
  rw [InRange, lower, upper]
  omega

section Holds

variable {h : LatencyHistogram} (holds : Holds samples h)
include holds

theorem Holds.least (some_samples : samples ≠ []) :
    (samples.map UInt64.toNat).min? = some h.min_.toNat := by
  have member := holds.min_mem.resolve_left fun none => some_samples none.1
  refine List.min?_eq_some_iff.mpr ⟨List.mem_map_of_mem member, ?_⟩
  intro x there
  obtain ⟨ns, here, rfl⟩ := List.mem_map.mp there
  exact UInt64.le_iff_toNat_le.mp (holds.min_le ns here)

theorem Holds.most (some_samples : samples ≠ []) :
    (samples.map UInt64.toNat).max? = some h.max_.toNat := by
  have member := holds.max_mem.resolve_left fun none => some_samples none.1
  refine List.max?_eq_some_iff.mpr ⟨List.mem_map_of_mem member, ?_⟩
  intro x there
  obtain ⟨ns, here, rfl⟩ := List.mem_map.mp there
  exact UInt64.le_iff_toNat_le.mp (holds.le_max ns here)

variable (few : samples.length < 2 ^ 53)
include few

theorem Holds.number : h.count_.toNat = samples.length := by
  rw [holds.count]
  exact UInt64.toNat_ofNat_of_lt' (Nat.lt_trans few (by decide))

theorem Holds.counter {b : Nat} (lt : b < kBuckets) :
    h.buckets[b].toNat = samples.countP fun ns => bucket ns = b := by
  have le : (samples.countP fun ns => bucket ns = b) ≤ samples.length := List.countP_le_length
  rw [holds.buckets b lt]
  exact UInt64.toNat_ofNat_of_lt' (Nat.lt_of_le_of_lt le (Nat.lt_trans few (by decide)))

/-- No sample is outside of the buckets. -/
theorem Holds.total : (h.buckets.toList.map UInt64.toNat).sum = samples.length := by
  have counters : h.buckets.toList.map UInt64.toNat =
      (List.range kBuckets).map fun b => samples.countP fun ns => bucket ns = b := by
    apply List.ext_getElem
    · rw [List.length_map, Vector.length_toList, List.length_map, List.length_range]
    · intro b lt _
      rw [List.length_map, Vector.length_toList] at lt
      rw [List.getElem_map, Vector.getElem_toList, List.getElem_map, List.getElem_range,
        holds.counter few lt]
  rw [counters, sum_counters]
  exact List.countP_eq_length.mpr fun ns _ => decide_eq_true (bucket_lt ns)

/-- A histogram of fewer samples than a word counts. -/
theorem Holds.counts : Counts samples h := by
  have number := holds.number few
  have none_iff : h.count_ = 0 ↔ samples = [] := by
    rw [← UInt64.toNat_inj, number]
    exact List.length_eq_zero_iff
  refine ⟨number, ?_, ?_, fun b lt => ?_, (holds.total few).trans number.symm⟩
  · rw [LatencyHistogram.min]
    by_cases none : samples = []
    · rw [if_pos (none_iff.mpr none), none]
      rfl
    · rw [if_neg (mt none_iff.mp none), holds.least none]
      rfl
  · rw [LatencyHistogram.max]
    by_cases none : samples = []
    · rw [if_pos (none_iff.mpr none), none]
      rfl
    · rw [if_neg (mt none_iff.mp none), holds.most none]
      rfl
  · rw [holds.counter few lt]
    refine List.countP_congr fun ns _ => ?_
    rw [decide_eq_true_eq, decide_eq_true_eq]
    exact bucket_eq_iff lt ns

end Holds

/-- **What counts and compares is exact**, after any life of a histogram. -/
theorem counts (few : (samplesSince updates).length < 2 ^ 53) :
    Counts (samplesSince updates) (updated updates) := by
  rw [updated_eq]
  exact (ofSamples_holds _).counts few

/-! ### The sum -/

theorem meanNs_eq {h : LatencyHistogram} (number : h.count_.toNat = samples.length)
    (sum : h.sum_.toNat = (samples.map UInt64.toNat).sum) :
    h.meanNs = ((samples.map UInt64.toNat).sum : ℚ) / samples.length := by
  rw [meanNs, sum, number]
  split
  · have none : samples.length = 0 := by
      rw [← number, ‹h.count_ = 0›]
      rfl
    rw [none, Nat.cast_zero, div_zero]
  · rfl

/-- **The sum and the mean** are exact just as long as the true sum is a word. -/
theorem tracks_iff (updates : List Update) (few : (samplesSince updates).length < 2 ^ 53) :
    Tracks (samplesSince updates) (updated updates) ↔
      ((samplesSince updates).map UInt64.toNat).sum < 2 ^ 64 := by
  constructor
  · intro tracks
    rw [← tracks.sum]
    exact (updated updates).sum_.toNat_lt
  · intro fits
    have counted := counts few
    have sum : (updated updates).sum_.toNat = ((samplesSince updates).map UInt64.toNat).sum := by
      rw [updated_eq, sum_ofSamples]
      exact UInt64.toNat_ofNat_of_lt' fits
    exact { counted with
      sum
      mean := meanNs_eq counted.count sum }

/-- Three samples after a reset. -/
theorem tracks_three : Tracks [3, 0, 1000] (updated [.add 7, .reset, .add 3, .add 0, .add 1000]) :=
  (tracks_iff [.add 7, .reset, .add 3, .add 0, .add 1000] (by decide)).mpr (by decide)

/-- Half the range twice. The sum is 0, and so is the mean. -/
theorem wrapped : ¬∀ updates : List Update, (samplesSince updates).length < 2 ^ 53 →
    Tracks (samplesSince updates) (updated updates) := by
  intro all
  have sum := (all [.add (2 ^ 63), .add (2 ^ 63)] (by decide)).sum
  rw [updated_eq, sum_ofSamples] at sum
  exact absurd sum (by decide +kernel)

end Ob.LatencyHistogram
