/-
**Percentiles.**

* `percentileNs_kth` — between the ends a percentile is the lower edge of the bucket of an order
  statistic, and the loop that looks for it finds it.
* `ordered_iff` — percentiles lie between the smallest and the largest sample and grow with what is
  asked for, exactly if the smallest sample is an edge itself or is left behind by every rank asked
  for between the ends: the ends are exact samples, everything else is an edge.
* `covers_iff` — a percentile covers its share of the samples exactly if its rank was not rounded
  down, or the next sample lies in the same bucket.
-/

import OrderBook.Telemetry.Histogram

namespace Ob.LatencyHistogram

variable {samples : List UInt64} {p q : ℚ}

/-! ### Between the ends -/

theorem count_ofSamples (samples : List UInt64) :
    (ofSamples samples).count_.toNat = samples.length % 2 ^ 64 := by
  rw [(ofSamples_holds samples).count, UInt64.toNat_ofNat']

theorem count_ne_zero (some_count : samples.length % 2 ^ 64 ≠ 0) :
    (ofSamples samples).count_ ≠ 0 := by
  intro none
  rw [← count_ofSamples, none] at some_count
  exact some_count rfl

/-- What is answered between the ends: the edge of the first bucket up to which there are as many
samples as the rank. -/
theorem percentileNs_found (some_count : samples.length % 2 ^ 64 ≠ 0) (positive : 0 < p)
    (below : p < 1) : ∃ b, (ofSamples samples).ranked p = some b ∧
      (ofSamples samples).percentileNs p = edge b ∧ b < kBuckets ∧
      rankOf p (samples.length % 2 ^ 64) ≤ upTo samples b % 2 ^ 64 ∧
      ∀ i < b, upTo samples i % 2 ^ 64 < rankOf p (samples.length % 2 ^ 64) := by
  have shown : ∀ b, rank p (UInt64.ofNat samples.length) ≤ UInt64.ofNat (upTo samples b) ↔
      rankOf p (samples.length % 2 ^ 64) ≤ upTo samples b % 2 ^ 64 := by
    intro b
    rw [UInt64.le_iff_toNat_le, rank_toNat below, UInt64.toNat_ofNat', UInt64.toNat_ofNat']
  have at_last : rankOf p (samples.length % 2 ^ 64) ≤ upTo samples 63 % 2 ^ 64 := by
    rw [upTo_last]
    exact rankOf_le p some_count
  have reaches : ∃ b, rankOf p (samples.length % 2 ^ 64) ≤ upTo samples b % 2 ^ 64 := ⟨63, at_last⟩
  have last := Nat.find_min' reaches at_last
  have found : (ofSamples samples).ranked p = some (Nat.find reaches) := by
    refine ranked_eq_some.mpr ⟨Nat.lt_succ_of_le last, (shown _).mpr (Nat.find_spec reaches), ?_⟩
    exact fun i lt there => Nat.find_min reaches lt ((shown i).mp there)
  refine ⟨_, found, ?_, Nat.lt_succ_of_le last, Nat.find_spec reaches, fun i lt =>
    Nat.not_le.mp (Nat.find_min reaches lt)⟩
  rw [percentileNs, if_neg (count_ne_zero some_count), if_neg positive.not_ge,
    if_neg below.not_ge, found]

/-- The bucket found is not empty. -/
theorem exists_of_found {b k : Nat} (some_k : 1 ≤ k) (reached : k ≤ upTo samples b % 2 ^ 64)
    (before : ∀ i < b, upTo samples i % 2 ^ 64 < k) : ∃ ns ∈ samples, bucket ns = b := by
  by_contra none
  push Not at none
  have same : upTo samples b = samples.countP fun ns => bucket ns < b := by
    refine List.countP_congr fun ns member => ?_
    have := none ns member
    simp only [decide_eq_true_eq]
    omega
  cases b with
  | zero =>
    rw [same, List.countP_eq_zero.mpr (fun ns _ => by simp)] at reached
    omega
  | succ b =>
    rw [same, countP_lt] at reached
    exact absurd reached (Nat.not_le.mpr (before b (Nat.lt_succ_self b)))

/-! ### The order statistic -/

theorem upTo_eq (samples : List UInt64) (b : Nat) :
    upTo samples b = (samples.map UInt64.toNat).countP fun x => x.log2 ≤ b := by
  simp only [upTo, List.countP_map, Function.comp_def, bucket_eq]

/-- The samples reach a rank in the bucket of the order statistic. -/
theorem le_upTo_iff {k s : Nat} (some_k : 1 ≤ k)
    (is : Ranks.kth (samples.map UInt64.toNat) k = some s) (b : Nat) :
    k ≤ upTo samples b ↔ s.log2 ≤ b := by
  rw [upTo_eq]
  refine Ranks.le_countP_iff (fun x y le => ?_) some_k is b
  rw [Nat.log2_eq_log_two, Nat.log2_eq_log_two]
  exact Nat.log_mono_right le

/-- The bucket found is that of the order statistic. -/
theorem percentileNs_own (some_samples : samples ≠ []) (few : samples.length < 2 ^ 64)
    (positive : 0 < p) (below : p < 1) :
    ∃ ns, Ranks.kth (samples.map UInt64.toNat) (rankOf p samples.length) = some ns.toNat ∧
      (ofSamples samples).ranked p = some (bucket ns) ∧
      (ofSamples samples).percentileNs p = edge (bucket ns) := by
  have some_length : samples.length ≠ 0 := mt List.length_eq_zero_iff.mp some_samples
  have all := Nat.mod_eq_of_lt few
  obtain ⟨b, found, answer, _, reached, before⟩ :=
    percentileNs_found (all.symm ▸ some_length) positive below
  have counted : ∀ i, upTo samples i % 2 ^ 64 = upTo samples i := fun i =>
    Nat.mod_eq_of_lt (Nat.lt_of_le_of_lt List.countP_le_length few)
  rw [all, counted] at reached
  have some_rank := rankOf_pos p samples.length
  obtain ⟨s, is⟩ : ∃ s,
      Ranks.kth (samples.map UInt64.toNat) (rankOf p samples.length) = some s := by
    refine Ranks.exists_kth some_rank ?_
    rw [List.length_map]
    exact rankOf_le p some_length
  obtain ⟨ns, _, rfl⟩ := List.mem_map.mp (Ranks.kth_mem is)
  -- no lower bucket reaches the rank
  have own : b = bucket ns := by
    rw [bucket_eq]
    refine Nat.le_antisymm (Nat.not_lt.mp fun lower => ?_) ((le_upTo_iff some_rank is b).mp reached)
    have early := before _ lower
    rw [all, counted] at early
    exact Nat.not_le.mpr early ((le_upTo_iff some_rank is _).mpr (Nat.le_refl _))
  exact ⟨ns, is, own ▸ found, own ▸ answer⟩

/-- **A percentile is an order statistic**, up to the resolution of the buckets. -/
theorem percentileNs_kth (some_samples : samples ≠ []) (few : samples.length < 2 ^ 64)
    (positive : 0 < p) (below : p < 1) :
    ∃ s, Ranks.kth (samples.map UInt64.toNat) (rankOf p samples.length) = some s ∧
      ((ofSamples samples).percentileNs p).toNat = (if s ≤ 1 then 0 else 2 ^ s.log2) ∧
      ((ofSamples samples).percentileNs p).toNat ≤ s ∧
      s < 2 * max ((ofSamples samples).percentileNs p).toNat 1 ∧
      (ofSamples samples).ranked p ≠ none := by
  obtain ⟨ns, is, found, answer⟩ := percentileNs_own some_samples few positive below
  rw [answer, found]
  exact ⟨_, is, edge_bucket ns, UInt64.le_iff_toNat_le.mp (edge_le ns), lt_two_edge ns,
    Option.some_ne_none _⟩

/-- The median of three samples. -/
theorem percentileNs_kth_median :
    ∃ s, Ranks.kth [700, 9, 40] (rankOf (1 / 2) 3) = some s ∧
      ((ofSamples [700, 9, 40]).percentileNs (1 / 2)).toNat = (if s ≤ 1 then 0 else 2 ^ s.log2) :=
  have ⟨s, is, answer, _⟩ := @percentileNs_kth [700, 9, 40] (1 / 2) (by decide) (by decide)
    (by norm_num) (by norm_num)
  ⟨s, is, answer⟩

/-! ### Order -/

/-- Two percentiles are in order, between the extremes. -/
def Ordered (h : LatencyHistogram) (p q : ℚ) : Prop :=
  h.min ≤ h.percentileNs p ∧ h.percentileNs p ≤ h.percentileNs q ∧ h.percentileNs q ≤ h.max

section Order

variable (some_count : samples.length % 2 ^ 64 ≠ 0)
include some_count

theorem some_samples_of_count : samples ≠ [] := by
  rintro rfl
  exact some_count rfl

theorem min_mem : (ofSamples samples).min_ ∈ samples :=
  (ofSamples_holds samples).min_mem.resolve_left fun none =>
    some_samples_of_count some_count none.1

theorem percentileNs_zero : (ofSamples samples).percentileNs 0 = (ofSamples samples).min_ := by
  rw [percentileNs, if_neg (count_ne_zero some_count), if_pos (le_refl 0)]

theorem percentileNs_one : (ofSamples samples).percentileNs 1 = (ofSamples samples).max_ := by
  rw [percentileNs, if_neg (count_ne_zero some_count), if_neg (by norm_num), if_pos (le_refl 1)]

/-- No percentile is above the largest sample. -/
theorem percentileNs_le_max (nonneg : 0 ≤ p) (le : p ≤ 1) :
    (ofSamples samples).percentileNs p ≤ (ofSamples samples).max_ := by
  have holds := ofSamples_holds samples
  rcases nonneg.eq_or_lt with rfl | positive
  · rw [percentileNs_zero some_count]
    exact holds.le_max _ (min_mem some_count)
  rcases le.eq_or_lt with rfl | below
  · rw [percentileNs_one some_count]
    exact UInt64.le_rfl
  · obtain ⟨b, _, answer, _, reached, before⟩ := percentileNs_found some_count positive below
    obtain ⟨ns, member, rfl⟩ := exists_of_found (rankOf_pos p _) reached before
    rw [answer]
    exact UInt64.le_trans (edge_le ns) (holds.le_max ns member)

/-- Between the ends a higher percentile is not below a lower one. -/
theorem percentileNs_mono (positive : 0 < p) (le : p ≤ q) (below : q < 1) :
    (ofSamples samples).percentileNs p ≤ (ofSamples samples).percentileNs q := by
  obtain ⟨b, _, answer, lt, _, before⟩ :=
    percentileNs_found some_count positive (lt_of_le_of_lt le below)
  obtain ⟨b', _, answer', lt', reached', _⟩ :=
    percentileNs_found some_count (lt_of_lt_of_le positive le) below
  rw [answer, answer', edge_le_iff lt, bucket_edge lt']
  refine Nat.not_lt.mp fun lower => ?_
  have early := before b' lower
  have ranks := rankOf_mono le (samples.length % 2 ^ 64)
  omega

/-- **The smallest sample and the percentiles between the ends.** -/
theorem min_le_percentileNs_iff (positive : 0 < p) (below : p < 1) :
    (ofSamples samples).min_ ≤ (ofSamples samples).percentileNs p ↔
      edge (bucket (ofSamples samples).min_) = (ofSamples samples).min_ ∨
      upTo samples (bucket (ofSamples samples).min_) % 2 ^ 64 <
        rankOf p (samples.length % 2 ^ 64) := by
  obtain ⟨b, _, answer, lt, reached, before⟩ := percentileNs_found some_count positive below
  obtain ⟨ns, member, in_b⟩ := exists_of_found (rankOf_pos p _) reached before
  have lowest : bucket (ofSamples samples).min_ ≤ b :=
    in_b ▸ bucket_mono ((ofSamples_holds samples).min_le ns member)
  rw [answer]
  rcases lowest.eq_or_lt with same | lower
  · -- the edge of its own bucket is at most the smallest sample
    rw [← same] at reached ⊢
    have le := edge_le (ofSamples samples).min_
    constructor
    · exact fun ge => .inl (UInt64.le_antisymm le ge)
    · rintro (exact_edge | left_behind)
      · rw [exact_edge]
        exact UInt64.le_rfl
      · omega
  · refine iff_of_true ?_ (.inr (before _ lower))
    refine UInt64.le_of_lt (UInt64.not_le.mp fun ge => ?_)
    rw [edge_le_iff lt] at ge
    omega

end Order

/-- **Percentiles are in order exactly if** the number of samples is a word's 0, or the smallest
sample is the edge of its bucket, or every rank asked for between the ends is beyond the samples of
that bucket. -/
theorem ordered_iff (some_samples : samples ≠ []) (nonneg : 0 ≤ p) (le : p ≤ q) (upper : q ≤ 1) :
    Ordered (ofSamples samples) p q ↔
      samples.length % 2 ^ 64 = 0 ∨ ∃ least ∈ samples, (∀ ns ∈ samples, least ≤ ns) ∧
        (edge (bucket least) = least ∨ ∀ r, r = p ∨ r = q → 0 < r → r < 1 →
          upTo samples (bucket least) % 2 ^ 64 < rankOf r (samples.length % 2 ^ 64)) := by
  have holds := ofSamples_holds samples
  unfold Ordered LatencyHistogram.min LatencyHistogram.max
  by_cases none : samples.length % 2 ^ 64 = 0
  · have no_word : (ofSamples samples).count_ = 0 := by
      rw [← UInt64.toNat_inj, count_ofSamples, none]
      rfl
    simp only [percentileNs, no_word, if_true, none, UInt64.le_rfl, and_self, true_or]
  rw [if_neg (count_ne_zero none), if_neg (count_ne_zero none), or_iff_right none]
  have same_least : ∀ {least}, least ∈ samples → (∀ ns ∈ samples, least ≤ ns) →
      least = (ofSamples samples).min_ := fun member lower =>
    UInt64.le_antisymm (lower _ (min_mem none)) (holds.min_le _ member)
  constructor
  · rintro ⟨first, second, _⟩
    refine ⟨_, min_mem none, holds.min_le, or_iff_not_imp_left.mpr fun not_edge r asked positive
      below => ?_⟩
    refine ((min_le_percentileNs_iff none positive below).mp ?_).resolve_left not_edge
    rcases asked with rfl | rfl
    · exact first
    · exact UInt64.le_trans first second
  · rintro ⟨least, member, lower, either⟩
    obtain rfl := same_least member lower
    have above : ∀ r, r = p ∨ r = q → 0 ≤ r → r ≤ 1 →
        (ofSamples samples).min_ ≤ (ofSamples samples).percentileNs r := by
      intro r asked nonneg upper
      rcases nonneg.eq_or_lt with rfl | positive
      · rw [percentileNs_zero none]
        exact UInt64.le_rfl
      rcases upper.eq_or_lt with rfl | below
      · rw [percentileNs_one none]
        exact holds.min_le _ (holds.max_mem.resolve_left fun empty => some_samples empty.1)
      · refine (min_le_percentileNs_iff none positive below).mpr ?_
        exact either.imp_right fun behind => behind r asked positive below
    refine ⟨above p (.inl rfl) nonneg (le_trans le upper), ?_,
      percentileNs_le_max none (le_trans nonneg le) upper⟩
    rcases nonneg.eq_or_lt with rfl | positive
    · rw [percentileNs_zero none]
      exact above q (.inr rfl) le upper
    rcases upper.eq_or_lt with rfl | below
    · rw [percentileNs_one none]
      exact percentileNs_le_max none nonneg le
    · exact percentileNs_mono none positive le below

/-- The smallest sample is a power of two. -/
theorem ordered_edge : Ordered (ofSamples [1024, 5000]) (1 / 4) (3 / 4) := by
  refine (ordered_iff (by decide) (by norm_num) (by norm_num) (by norm_num)).mpr (.inr ?_)
  refine ⟨1024, List.mem_cons_self, ?_, .inl (by decide +kernel)⟩
  simp only [List.forall_mem_cons, List.not_mem_nil, false_implies, implies_true, and_true]
  exact ⟨by decide +kernel, by decide +kernel⟩

/-- A single sample of 1500 ns: the lowest percentile is 1500, the median 1024. -/
theorem not_ordered : ∃ (samples : List UInt64) (p q : ℚ),
    samples ≠ [] ∧ 0 ≤ p ∧ p ≤ q ∧ q ≤ 1 ∧ (ofSamples samples).percentileNs p = 1500 ∧
      (ofSamples samples).percentileNs q = 1024 ∧ ¬Ordered (ofSamples samples) p q := by
  have lowest : (ofSamples [1500]).percentileNs 0 = 1500 := by decide +kernel
  have median : (ofSamples [1500]).percentileNs (1 / 2) = 1024 := by decide +kernel
  refine ⟨[1500], 0, 1 / 2, by decide, by norm_num, by norm_num, by norm_num, lowest, median,
    fun ordered => ?_⟩
  have between := ordered.2.1
  rw [lowest, median] at between
  exact absurd between (by decide)

/-! ### Coverage -/

/-- At least the share `p` of the samples lies in the bucket of the answer or below. -/
def Covers (samples : List UInt64) (p : ℚ) : Prop :=
  p * samples.length ≤ upTo samples (bucket ((ofSamples samples).percentileNs p))

/-- What a bucket found covers, another one that reaches the rank covers as well. -/
theorem covers_found {b : Nat} (answer : (ofSamples samples).percentileNs p = edge b)
    (lt : b < kBuckets) : Covers samples p ↔ p * samples.length ≤ upTo samples b := by
  rw [Covers, answer, bucket_edge lt]

/-- With fewer samples than words. -/
theorem covers_iff_few (some_samples : samples ≠ []) (few : samples.length < 2 ^ 64)
    (positive : 0 < p) (below : p < 1) :
    Covers samples p ↔ p * samples.length ≤ rankOf p samples.length ∨
      ∃ s t, Ranks.kth (samples.map UInt64.toNat) (rankOf p samples.length) = some s ∧
        Ranks.kth (samples.map UInt64.toNat) (rankOf p samples.length + 1) = some t ∧
        s.log2 = t.log2 := by
  obtain ⟨ns, is, _, answer⟩ := percentileNs_own some_samples few positive below
  have some_rank := rankOf_pos p samples.length
  have reached := (le_upTo_iff some_rank is (bucket ns)).mpr (bucket_eq ns).ge
  rw [covers_found answer (bucket_lt ns)]
  constructor
  · intro covers
    refine or_iff_not_imp_left.mpr fun down => ?_
    -- more than the rank are covered, and with them the sample after it
    have more : rankOf p samples.length + 1 ≤ upTo samples (bucket ns) := by
      have := lt_of_lt_of_le (not_le.mp down) covers
      exact_mod_cast this
    obtain ⟨t, next⟩ : ∃ t, Ranks.kth (samples.map UInt64.toNat) (rankOf p samples.length + 1) =
        some t := by
      refine Ranks.exists_kth (Nat.le_add_left 1 _) ?_
      rw [List.length_map]
      exact Nat.le_trans more List.countP_le_length
    have upper := (le_upTo_iff (Nat.le_add_left 1 _) next _).mp more
    have beyond := (le_upTo_iff (Nat.le_add_left 1 _) next _).mpr (Nat.le_refl _)
    have lower := (le_upTo_iff some_rank is _).mp (Nat.le_of_succ_le beyond)
    exact ⟨_, t, is, next, Nat.le_antisymm lower (bucket_eq ns ▸ upper)⟩
  · rintro (up | ⟨s, t, is', next, same⟩)
    · exact le_trans up (by exact_mod_cast reached)
    · obtain rfl := Option.some.inj (is.symm.trans is')
      have more := (le_upTo_iff (Nat.le_add_left 1 _) next (bucket ns)).mpr
        (same ▸ (bucket_eq ns).ge)
      have rounded : ⌊p * samples.length + 1 / 2⌋₊ ≤ rankOf p samples.length := by
        rw [rankOf, Nat.min_eq_right (floor_le below _)]
        exact Nat.le_max_right _ _
      have short := Nat.lt_floor_add_one (p * samples.length + 1 / 2)
      have rounded' : (⌊p * samples.length + 1 / 2⌋₊ : ℚ) ≤ rankOf p samples.length := by
        exact_mod_cast rounded
      have more' : (rankOf p samples.length : ℚ) + 1 ≤ upTo samples (bucket ns) := by
        exact_mod_cast more
      linarith

/-- **A percentile covers its share exactly if** its rank is not rounded down, or the sample after
it lies in the same bucket. Where the number of samples is not a word, it does so exactly if
every bucket does at which the running count, as a word, reaches the rank. -/
theorem covers_iff (some_samples : samples ≠ []) (positive : 0 < p) (below : p < 1) :
    (samples.length < 2 ^ 64 →
      (Covers samples p ↔ p * samples.length ≤ rankOf p samples.length ∨
        ∃ s t, Ranks.kth (samples.map UInt64.toNat) (rankOf p samples.length) = some s ∧
          Ranks.kth (samples.map UInt64.toNat) (rankOf p samples.length + 1) = some t ∧
          s.log2 = t.log2)) ∧
    (2 ^ 64 ≤ samples.length →
      (Covers samples p ↔ if samples.length % 2 ^ 64 = 0 then p * samples.length ≤ upTo samples 0
        else ∀ b < kBuckets, rankOf p (samples.length % 2 ^ 64) ≤ upTo samples b % 2 ^ 64 →
          p * samples.length ≤ upTo samples b)) := by
  refine ⟨fun few => covers_iff_few some_samples few positive below, fun _ => ?_⟩
  split
  · have no_word : (ofSamples samples).count_ = 0 := by
      rw [← UInt64.toNat_inj, count_ofSamples]
      assumption
    have answer : (ofSamples samples).percentileNs p = edge 0 := by
      rw [percentileNs, if_pos no_word]
      rfl
    exact covers_found answer (by decide)
  · obtain ⟨b, _, answer, lt, reached, before⟩ := percentileNs_found ‹_› positive below
    rw [covers_found answer lt]
    constructor
    · intro covers i _ there
      have le := upTo_mono samples (Nat.not_lt.mp fun lower =>
        Nat.not_le.mpr (before i lower) there)
      exact le_trans covers (by exact_mod_cast le)
    · exact fun every => every b lt reached

/-- The lower of two samples is the half of them. -/
theorem covers_half : Covers [3, 900] (1 / 2) := by
  refine ((covers_iff (by decide) (by norm_num) (by norm_num)).1 (by decide)).mpr (.inl ?_)
  norm_num [rankOf]

/-- Of four samples in different buckets three tenths are more than one, and only one is
covered. -/
theorem not_covers : ∃ (samples : List UInt64) (p : ℚ),
    samples ≠ [] ∧ 0 < p ∧ p < 1 ∧ ¬Covers samples p := by
  have answer : (ofSamples [1, 2, 4, 8]).percentileNs (3 / 10) = 0 := by decide +kernel
  refine ⟨[1, 2, 4, 8], 3 / 10, by decide, by norm_num, by norm_num, ?_⟩
  have lowest : upTo [1, 2, 4, 8] (bucket 0) = 1 := by decide +kernel
  rw [Covers, answer, lowest]
  norm_num

end Ob.LatencyHistogram
