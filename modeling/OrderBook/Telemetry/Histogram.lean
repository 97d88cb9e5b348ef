/-
**What a histogram holds.**

* `bucket_eq` — the position of the highest set bit is the logarithm of the sample.
* `ofSamples_holds` — each counter holds the number of samples of its bucket and the extremes are
  the smallest and the largest sample, whatever the order of the samples; the numbers are words.
* `sum_ofSamples`, `sum_counters` — the running sum is the sum of the samples as a word, and the
  samples of all buckets together are all samples.
* `updated_eq` — a reset forgets everything: a histogram holds the samples since the last one.
* `ranked_eq_some` — so the loop of `percentile_ns` finds the first bucket up to which the number of
  samples, as a word, reaches the rank.
* `bucket_edge`, `edge_le` — the edge that is answered is the least sample of its bucket.
-/

import Mathlib.Algebra.Order.Floor.Ring
import Mathlib.Data.List.Induction
import Mathlib.Data.Nat.Log
import OrderBook.Library.Ranks
import OrderBook.Source.LatencyHist

namespace Ob.LatencyHistogram

/-! ### Buckets -/

theorem log2_or_one (n : Nat) : (n ||| 1).log2 = n.log2 := by
  have half : (n ||| 1) / 2 = n / 2 := by
    rw [Nat.or_div_two, Nat.or_zero]
  rw [Nat.log2_def, Nat.log2_def n, half]
  have same : 2 ≤ n ||| 1 ↔ 2 ≤ n := by omega
  simp only [same]

/-- **The bit trick.** -/
theorem bucket_eq (ns : UInt64) : bucket ns = ns.toNat.log2 := by
  have odd : (ns ||| 1).toBitVec.toNat = ns.toNat ||| 1 := UInt64.toNat_or ns 1
  have some_bit : ns.toNat ||| 1 ≠ 0 := by
    have := @Nat.right_le_or ns.toNat 1
    omega
  have set : (ns ||| 1).toBitVec ≠ 0#64 := by
    intro none
    rw [none] at odd
    exact some_bit odd.symm
  have lower := BitVec.two_pow_sub_clz_le_toNat_of_ne_zero (by decide) set
  have upper := BitVec.toNat_lt_two_pow_sub_clz (x := (ns ||| 1).toBitVec)
  rw [odd] at lower upper
  have few : (ns ||| 1).toBitVec.clz.toNat < 64 := by
    by_contra many
    rw [Nat.sub_eq_zero_of_le (Nat.not_lt.mp many)] at upper
    omega
  rw [← log2_or_one, eq_comm, Nat.log2_eq_iff some_bit]
  refine ⟨lower, ?_⟩
  rwa [bucket, show 63 - (ns ||| 1).toBitVec.clz.toNat + 1 = 64 - (ns ||| 1).toBitVec.clz.toNat by
    omega]

theorem bucket_mono {a b : UInt64} (le : a ≤ b) : bucket a ≤ bucket b := by
  rw [bucket_eq, bucket_eq, Nat.log2_eq_log_two, Nat.log2_eq_log_two]
  exact Nat.log_mono_right (UInt64.le_iff_toNat_le.mp le)

theorem edge_toNat {b : Nat} (lt : b < kBuckets) :
    (edge b).toNat = if b = 0 then 0 else 2 ^ b := by
  unfold edge
  split
  · rfl
  · have fits : 2 ^ b < 2 ^ 64 := Nat.pow_lt_pow_right (by decide) lt
    rw [UInt64.toNat_shiftLeft, UInt64.toNat_ofNat_of_lt' (Nat.lt_trans lt (by decide)),
      Nat.mod_eq_of_lt lt, UInt64.toNat_one, Nat.one_shiftLeft, Nat.mod_eq_of_lt fits]

/-- The samples of a bucket and of those above are the samples from its edge on. -/
theorem edge_le_iff {b : Nat} (lt : b < kBuckets) (ns : UInt64) :
    edge b ≤ ns ↔ b ≤ bucket ns := by
  rw [UInt64.le_iff_toNat_le, edge_toNat lt, bucket_eq]
  by_cases first : b = 0
  · rw [if_pos first]
    exact iff_of_true (Nat.zero_le _) (first ▸ Nat.zero_le _)
  · rw [if_neg first]
    by_cases none : ns.toNat = 0
    · rw [none, Nat.log2_zero]
      have := Nat.two_pow_pos b
      omega
    · exact (Nat.le_log2 none).symm

theorem edge_le (ns : UInt64) : edge (bucket ns) ≤ ns :=
  (edge_le_iff (bucket_lt ns) ns).mpr (Nat.le_refl _)

theorem bucket_edge {b : Nat} (lt : b < kBuckets) : bucket (edge b) = b := by
  have lower := (edge_le_iff lt (edge b)).mp UInt64.le_rfl
  refine Nat.le_antisymm ?_ lower
  rw [bucket_eq, edge_toNat lt]
  split
  · exact Nat.le_of_eq (Nat.log2_zero.trans ‹b = 0›.symm)
  · rw [Nat.log2_two_pow]

/-- A sample is less than twice the edge of its bucket, or less than 2. -/
theorem lt_two_edge (ns : UInt64) : ns.toNat < 2 * max (edge (bucket ns)).toNat 1 := by
  have upper : ns.toNat < 2 ^ (bucket ns + 1) := by
    rw [bucket_eq]
    exact Nat.lt_log2_self
  rw [edge_toNat (bucket_lt ns)]
  by_cases first : bucket ns = 0
  · rw [first] at upper
    rw [if_pos first]
    exact upper
  · rw [if_neg first, Nat.max_eq_left (Nat.one_le_two_pow), Nat.mul_comm]
    exact upper

/-- What is answered for a sample. -/
theorem edge_bucket (ns : UInt64) :
    (edge (bucket ns)).toNat = if ns.toNat ≤ 1 then 0 else 2 ^ ns.toNat.log2 := by
  rw [edge_toNat (bucket_lt ns), bucket_eq]
  have small : ns.toNat.log2 = 0 ↔ ns.toNat ≤ 1 := by
    rw [Nat.log2_eq_log_two, Nat.log_eq_zero_iff]
    omega
  simp only [small]

/-! ### The counters -/

/-- What a histogram shows of the samples added to it. -/
structure Holds (samples : List UInt64) (h : LatencyHistogram) : Prop where
  buckets : ∀ b (lt : b < kBuckets),
    h.buckets[b] = UInt64.ofNat (samples.countP fun ns => bucket ns = b)
  count : h.count_ = UInt64.ofNat samples.length
  min_le : ∀ ns ∈ samples, h.min_ ≤ ns
  min_mem : samples = [] ∧ h.min_ = 0xFFFFFFFFFFFFFFFF ∨ h.min_ ∈ samples
  le_max : ∀ ns ∈ samples, ns ≤ h.max_
  max_mem : samples = [] ∧ h.max_ = 0 ∨ h.max_ ∈ samples

theorem reset_holds : Holds [] reset where
  buckets b lt := Vector.getElem_replicate lt
  count := rfl
  min_le _ member := by cases member
  min_mem := .inl ⟨rfl, rfl⟩
  le_max _ member := by cases member
  max_mem := .inl ⟨rfl, rfl⟩

/-- One sample. -/
theorem Holds.add {samples : List UInt64} {h : LatencyHistogram} (holds : Holds samples h)
    (ns : UInt64) : Holds (samples ++ [ns]) (h.add ns) where
  buckets b lt := by
    have here := holds.buckets b lt
    have split : (samples ++ [ns]).countP (fun ns => bucket ns = b) =
        samples.countP (fun ns => bucket ns = b) + if bucket ns = b then 1 else 0 := by
      simp only [List.countP_append, List.countP_singleton, decide_eq_true_eq]
    rw [split, UInt64.ofNat_add, ← here]
    unfold LatencyHistogram.add
    by_cases same : bucket ns = b
    · subst same
      rw [Vector.getElem_set_self, if_pos rfl]
      rfl
    · rw [Vector.getElem_set_ne _ _ same, if_neg same]
      exact (UInt64.add_zero _).symm
  count := by
    rw [List.length_append, UInt64.ofNat_add, ← holds.count]
    rfl
  min_le x member := by
    have bound : x ∈ samples → h.min_ ≤ x := holds.min_le x
    simp only [LatencyHistogram.add, List.mem_append, List.mem_singleton,
      UInt64.le_iff_toNat_le, UInt64.lt_iff_toNat_lt] at member bound ⊢
    grind
  min_mem := by
    refine .inr ?_
    by_cases less : ns < h.min_
    · simp only [LatencyHistogram.add, if_pos less, List.mem_append, List.mem_singleton, or_true]
    · simp only [LatencyHistogram.add, if_neg less]
      rcases holds.min_mem with ⟨_, top⟩ | member
      · -- only the largest word is not less than the initial one
        have same : h.min_ = ns := by
          rw [top] at less ⊢
          have bound := ns.toNat_lt
          rw [UInt64.lt_iff_toNat_lt] at less
          exact UInt64.toNat_inj.mp (Nat.le_antisymm (Nat.not_lt.mp less) (Nat.le_of_lt_succ bound))
        rw [same]
        exact List.mem_append_right _ List.mem_cons_self
      · exact List.mem_append_left _ member
  le_max x member := by
    have bound : x ∈ samples → x ≤ h.max_ := holds.le_max x
    simp only [LatencyHistogram.add, List.mem_append, List.mem_singleton,
      UInt64.le_iff_toNat_le, gt_iff_lt, UInt64.lt_iff_toNat_lt] at member bound ⊢
    grind
  max_mem := by
    refine .inr ?_
    by_cases more : ns > h.max_
    · simp only [LatencyHistogram.add, if_pos more, List.mem_append, List.mem_singleton, or_true]
    · simp only [LatencyHistogram.add, if_neg more]
      rcases holds.max_mem with ⟨_, bottom⟩ | member
      · have same : h.max_ = ns := by
          rw [bottom] at more ⊢
          exact (UInt64.not_lt.mp more |> UInt64.le_zero_iff.mp).symm
        rw [same]
        exact List.mem_append_right _ List.mem_cons_self
      · exact List.mem_append_left _ member

theorem ofSamples_holds (samples : List UInt64) : Holds samples (ofSamples samples) := by
  induction samples using List.reverseRecOn with
  | nil => exact reset_holds
  | append_singleton samples ns ih =>
    rw [ofSamples, List.foldl_append]
    exact ih.add ns

/-- The running sum wraps as the words do. -/
theorem sum_ofSamples (samples : List UInt64) :
    (ofSamples samples).sum_ = UInt64.ofNat (samples.map UInt64.toNat).sum := by
  induction samples using List.reverseRecOn with
  | nil => rfl
  | append_singleton samples ns ih =>
    have step : (ofSamples (samples ++ [ns])).sum_ = (ofSamples samples).sum_ + ns := by
      rw [ofSamples, List.foldl_append]
      rfl
    rw [step, ih, List.map_append, List.sum_append, UInt64.ofNat_add, List.map_singleton,
      List.sum_singleton, UInt64.ofNat_toNat]

/-- The samples since the last reset. -/
def samplesSince (updates : List Update) : List UInt64 :=
  updates.foldl (fun samples update => match update with
    | .reset => []
    | .add ns => samples ++ [ns]) []

/-- Only the samples since the last reset are seen. -/
theorem updated_eq (updates : List Update) :
    updated updates = ofSamples (samplesSince updates) := by
  induction updates using List.reverseRecOn with
  | nil => rfl
  | append_singleton updates last ih =>
    have step : updated (updates ++ [last]) = (updated updates).update last := by
      rw [updated, List.foldl_append]
      rfl
    rw [step, ih]
    cases last with
    | reset =>
      have none : samplesSince (updates ++ [.reset]) = [] := by
        rw [samplesSince, List.foldl_append]
        rfl
      rw [none]
      rfl
    | add ns =>
      have more : samplesSince (updates ++ [.add ns]) = samplesSince updates ++ [ns] := by
        rw [samplesSince, List.foldl_append]
        rfl
      rw [more, ofSamples, ofSamples, List.foldl_append]
      rfl

/-! ### The walk -/

/-- How many samples lie in this bucket or a lower one. -/
def upTo (samples : List UInt64) (b : Nat) : Nat := samples.countP fun ns => bucket ns ≤ b

theorem upTo_mono (samples : List UInt64) {a b : Nat} (le : a ≤ b) :
    upTo samples a ≤ upTo samples b := by
  refine List.countP_mono_left fun ns _ here => ?_
  rw [decide_eq_true_eq] at here ⊢
  exact Nat.le_trans here le

/-- The last bucket completes the samples. -/
theorem upTo_last (samples : List UInt64) : upTo samples 63 = samples.length := by
  refine List.countP_eq_length.mpr fun ns _ => ?_
  exact decide_eq_true (Nat.le_of_lt_succ (bucket_lt ns))

theorem countP_lt_succ (samples : List UInt64) (b : Nat) :
    samples.countP (fun ns => bucket ns < b) + samples.countP (fun ns => bucket ns = b) =
      samples.countP (fun ns => bucket ns < b + 1) := by
  induction samples with
  | nil => rfl
  | cons ns samples ih =>
    simp only [List.countP_cons, decide_eq_true_eq]
    rw [← ih]
    grind

/-- Bucket by bucket the samples below the last bucket are counted. -/
theorem sum_counters (samples : List UInt64) (m : Nat) :
    ((List.range m).map fun b => samples.countP fun ns => bucket ns = b).sum =
      samples.countP fun ns => bucket ns < m := by
  induction m with
  | zero => exact (List.countP_eq_zero.mpr fun ns _ => by simp).symm
  | succ m ih =>
    rw [List.range_succ, List.map_append, List.sum_append, ih, List.map_singleton,
      List.sum_singleton, countP_lt_succ]

theorem countP_lt (samples : List UInt64) (b : Nat) :
    samples.countP (fun ns => bucket ns < b + 1) = upTo samples b := by
  simp only [upTo, Nat.lt_succ_iff]

/-- The loop with the counters from `b` on, the samples below having been counted. -/
theorem walk_eq (samples : List UInt64) (rank : UInt64) (b m : Nat) :
    walk rank b (UInt64.ofNat (samples.countP fun ns => bucket ns < b))
      ((List.range' b m).map fun i => UInt64.ofNat (samples.countP fun ns => bucket ns = i)) =
      (List.range' b m).find? fun i => rank ≤ UInt64.ofNat (upTo samples i) := by
  induction m generalizing b with
  | zero => rfl
  | succ m ih =>
    rw [List.range'_succ, List.map_cons, walk, ← UInt64.ofNat_add, countP_lt_succ, List.find?_cons,
      ← countP_lt]
    by_cases reached : rank ≤ UInt64.ofNat (samples.countP fun ns => bucket ns < b + 1)
    · rw [if_pos reached, decide_eq_true reached]
    · rw [if_neg reached, decide_eq_false reached, ih]

/-- **The loop of `percentile_ns`** finds the first bucket up to which the count reaches the
rank. -/
theorem ranked_eq_some {samples : List UInt64} {p : ℚ} {b : Nat} :
    (ofSamples samples).ranked p = some b ↔
      b < kBuckets ∧ rank p (UInt64.ofNat samples.length) ≤ UInt64.ofNat (upTo samples b) ∧
      ∀ i < b, ¬rank p (UInt64.ofNat samples.length) ≤ UInt64.ofNat (upTo samples i) := by
  have holds := ofSamples_holds samples
  have counters : (ofSamples samples).buckets.toList = (List.range' 0 kBuckets).map fun i =>
      UInt64.ofNat (samples.countP fun ns => bucket ns = i) := by
    refine List.ext_getElem ?_ fun i lt _ => ?_
    · rw [Vector.length_toList, List.length_map, List.length_range']
    · rw [Vector.length_toList] at lt
      rw [Vector.getElem_toList, List.getElem_map, List.getElem_range', holds.buckets i lt,
        Nat.zero_add, Nat.one_mul]
  have start : (0 : UInt64) = UInt64.ofNat (samples.countP fun ns => bucket ns < 0) := by
    rw [List.countP_eq_zero.mpr (fun ns _ => by simp)]
    rfl
  rw [ranked, counters, holds.count, start, walk_eq, ← List.range_eq_range',
    List.find?_range_eq_some]
  simp only [decide_eq_true_eq, List.mem_range, Bool.not_eq_true', decide_eq_false_iff_not]
  exact ⟨fun ⟨reached, lt, before⟩ => ⟨lt, reached, before⟩,
    fun ⟨lt, reached, before⟩ => ⟨reached, lt, before⟩⟩

/-! ### Ranks -/

/-- The rank of a percentile, `p * n` rounded half up and limited to the samples there are. -/
def rankOf (p : ℚ) (n : Nat) : Nat := max 1 (min n ⌊p * n + 1 / 2⌋₊)

theorem rankOf_pos (p : ℚ) (n : Nat) : 1 ≤ rankOf p n := Nat.le_max_left _ _

theorem rankOf_le (p : ℚ) {n : Nat} (some_samples : n ≠ 0) : rankOf p n ≤ n :=
  Nat.max_le.mpr ⟨Nat.one_le_iff_ne_zero.mpr some_samples, Nat.min_le_left _ _⟩

theorem rankOf_mono {p q : ℚ} (le : p ≤ q) (n : Nat) : rankOf p n ≤ rankOf q n := by
  have grows : ⌊p * n + 1 / 2⌋₊ ≤ ⌊q * n + 1 / 2⌋₊ := by
    refine Nat.floor_mono (add_le_add_left ?_ _)
    exact mul_le_mul_of_nonneg_right le (Nat.cast_nonneg n)
  unfold rankOf
  omega

/-- Below 1 the rounded product does not exceed the number of samples. -/
theorem floor_le {p : ℚ} (below : p < 1) (n : Nat) : ⌊p * n + 1 / 2⌋₊ ≤ n := by
  rw [← Nat.lt_succ_iff]
  refine Nat.floor_lt' (Nat.succ_ne_zero n) |>.mpr ?_
  have product : p * n ≤ n := mul_le_of_le_one_left (Nat.cast_nonneg n) below.le
  push_cast
  linarith

theorem rank_toNat {p : ℚ} (below : p < 1) (count : UInt64) :
    (rank p count).toNat = rankOf p count.toNat := by
  have le := floor_le below count.toNat
  have bound := count.toNat_lt
  have fits : (UInt64.ofNat ⌊p * count.toNat + 1 / 2⌋₊).toNat = ⌊p * count.toNat + 1 / 2⌋₊ :=
    UInt64.toNat_ofNat_of_lt' (by rw [UInt64.size]; omega)
  have not_more : ¬UInt64.ofNat ⌊p * count.toNat + 1 / 2⌋₊ > count := by
    rw [gt_iff_lt, UInt64.lt_iff_toNat_lt, fits]
    exact Nat.not_lt.mpr le
  rw [rankOf, Nat.min_eq_right le, rank]
  by_cases none : UInt64.ofNat ⌊p * count.toNat + 1 / 2⌋₊ = 0
  · rw [if_pos none, ← fits, none]
    rfl
  · have some_rank : (UInt64.ofNat ⌊p * count.toNat + 1 / 2⌋₊).toNat ≠ 0 :=
      fun zero => none (UInt64.toNat_inj.mp zero)
    rw [if_neg none, if_neg not_more, fits]
    omega

end Ob.LatencyHistogram
