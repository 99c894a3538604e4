import CodingGateway.Proofs.MetricsPage
import Mathlib.Tactic.Linarith
set_option autoImplicit false

/-!
# The exported latency histogram

Recording adds a sample to every bucket that bounds it, and the page adds the buckets up
again.

* `latencyBucket_recorded` — what is stored is already cumulative.
* `isHistogram_iff` — so the page is right only when all buckets but the last are empty.
* `bucketLines_infix_page` — the lines meant are those on the page.
-/

namespace CodingGateway.Proofs.Histogram

open CodingGateway.Model CodingGateway.Library.Printf

variable {m : Metrics} {samples : List UInt64}

/-- The number of samples of at most `bound` milliseconds. -/
def countWithin (bound : ℕ) (samples : List UInt64) : ℕ :=
  samples.countP fun us => us.toNat ≤ 1000 * bound

def recorded (samples : List UInt64) : Metrics := samples.foldl metricsRecordLatency zeroMetrics

/-- The page shows, for every bound, how many samples are within it. -/
structure IsHistogram (samples : List UInt64) : Prop where
  lines : bucketLines (recorded samples) 0 (List.range metricsLatencyBuckets) =
    metricsLatencyBounds.map fun bound => bucketLine (decimal bound) (countWithin bound samples)
  increasing : (metricsLatencyBounds.map fun bound => countWithin bound samples).Pairwise (· ≤ ·)
  bounded : ∀ bound ∈ metricsLatencyBounds,
    countWithin bound samples ≤ (recorded samples).latencyCount.toNat

/-! ## What is stored -/

theorem foldl_bump (p : ℕ → Prop) [DecidablePred p] (bucket : ℕ → UInt64) (n i : ℕ) :
    (List.range n).foldl (fun bucket i => if p i then bump bucket i else bucket) bucket i =
      if i < n ∧ p i then bucket i + 1 else bucket i := by
  induction n with
  | zero => simp
  | succ n ih =>
      rw [List.range_succ, List.foldl_append, List.foldl_cons, List.foldl_nil]
      by_cases hp : p n
      · rw [if_pos hp, bump, Function.update_apply]
        by_cases hi : i = n
        · subst hi
          rw [if_pos rfl, ih, if_neg fun h => Nat.lt_irrefl i h.1,
            if_pos ⟨Nat.lt_succ_self i, hp⟩]
        · rw [if_neg hi, ih]
          have hiff : i < n + 1 ↔ i < n := by omega
          simp only [hiff]
      · rw [if_neg hp, ih]
        have hiff : i < n + 1 ∧ p i ↔ i < n ∧ p i := by
          constructor
          · rintro ⟨hlt, hpi⟩
            have hne : i ≠ n := fun h => hp (h ▸ hpi)
            exact ⟨by omega, hpi⟩
          · rintro ⟨hlt, hpi⟩
            exact ⟨Nat.lt_succ_of_lt hlt, hpi⟩
        simp only [hiff]

theorem latencyBucket_record (m : Metrics) (us : UInt64) {i : ℕ} (hi : i < metricsLatencyBuckets) :
    (metricsRecordLatency m us).latencyBucket i =
      m.latencyBucket i +
        UInt64.ofNat (if us.toNat ≤ 1000 * metricsLatencyBounds.getD i 0 then 1 else 0) := by
  have hms : (us.toNat : ℚ) / 1000 ≤ (metricsLatencyBounds.getD i 0 : ℕ) ↔
      us.toNat ≤ 1000 * metricsLatencyBounds.getD i 0 := by
    rw [div_le_iff₀ (by norm_num), mul_comm]
    exact_mod_cast Iff.rfl
  unfold metricsRecordLatency
  dsimp only
  rw [foldl_bump]
  by_cases hle : us.toNat ≤ 1000 * metricsLatencyBounds.getD i 0
  · rw [if_pos ⟨hi, hms.mpr hle⟩, if_pos hle]
    rfl
  · rw [if_neg fun h => hle (hms.mp h.2), if_neg hle]
    exact (UInt64.add_zero _).symm

theorem latencyBucket_foldl (m : Metrics) (samples : List UInt64) {i : ℕ}
    (hi : i < metricsLatencyBuckets) :
    (samples.foldl metricsRecordLatency m).latencyBucket i =
      m.latencyBucket i + UInt64.ofNat (countWithin (metricsLatencyBounds.getD i 0) samples) := by
  induction samples generalizing m with
  | nil => exact (UInt64.add_zero _).symm
  | cons us samples ih =>
      rw [List.foldl_cons, ih, latencyBucket_record m us hi, UInt64.add_assoc, ← UInt64.ofNat_add,
        Nat.add_comm, countWithin, countWithin, List.countP_cons]
      simp only [decide_eq_true_eq]

theorem latencyBucket_recorded (samples : List UInt64) {i : ℕ} (hi : i < metricsLatencyBuckets) :
    (recorded samples).latencyBucket i =
      UInt64.ofNat (countWithin (metricsLatencyBounds.getD i 0) samples) := by
  rw [recorded, latencyBucket_foldl zeroMetrics samples hi]
  exact UInt64.zero_add _

theorem latencyCount_recorded (samples : List UInt64) :
    (recorded samples).latencyCount = UInt64.ofNat samples.length := by
  have hfoldl : ∀ m : Metrics, (samples.foldl metricsRecordLatency m).latencyCount =
      m.latencyCount + UInt64.ofNat samples.length := by
    induction samples with
    | nil => exact fun m => (UInt64.add_zero _).symm
    | cons us samples ih =>
        intro m
        rw [List.foldl_cons, ih, List.length_cons, Nat.add_comm, UInt64.ofNat_add,
          ← UInt64.add_assoc]
        rfl
  rw [recorded, hfoldl]
  exact UInt64.zero_add _

/-! ## What is printed -/

theorem bucketLine_inj {bound : List UInt8} {n n' : ℕ} :
    bucketLine bound n = bucketLine bound n' ↔ n = n' := by
  constructor
  · intro h
    have hdecimal := List.append_cancel_left (List.append_cancel_right h)
    exact decimal_injective hdecimal
  · rintro rfl
    rfl

/-- The lines of the histogram for the counts `c`. -/
def linesOf (c : ℕ → ℕ) (is : List ℕ) : List (List UInt8) :=
  is.map fun i => bucketLine (decimal (metricsLatencyBounds.getD i 0)) (c i)

theorem bucketLines_cons_eq_iff {c : ℕ → ℕ} {cum : UInt64} {i : ℕ} {is : List ℕ} :
    bucketLines m cum (i :: is) = linesOf c (i :: is) ↔
      (cum + m.latencyBucket i).toNat = c i ∧
        bucketLines m (cum + m.latencyBucket i) is = linesOf c is := by
  rw [bucketLines, linesOf, List.map_cons, List.cons.injEq, bucketLine_inj]
  rfl

theorem eq_zero_of_toNat_add {cum : UInt64} {n : ℕ} (h : (cum + UInt64.ofNat n).toNat = n) :
    cum = 0 := by
  have hadd : cum + UInt64.ofNat n = 0 + UInt64.ofNat n := by
    calc cum + UInt64.ofNat n = UInt64.ofNat (cum + UInt64.ofNat n).toNat :=
          UInt64.ofNat_toNat.symm
      _ = UInt64.ofNat n := by rw [h]
      _ = 0 + UInt64.ofNat n := (UInt64.zero_add _).symm
  exact (UInt64.add_left_inj (UInt64.ofNat n)).mp hadd

theorem toNat_ofNat_eq_iff {n : ℕ} : (UInt64.ofNat n).toNat = n ↔ n < 2 ^ 64 := by
  rw [UInt64.toNat_ofNat']
  exact Nat.mod_eq_iff_lt (by decide)

theorem bucketLines_eq_iff {c : ℕ → ℕ} (is : List ℕ) (last : ℕ)
    (hstored : ∀ i ∈ is ++ [last], m.latencyBucket i = UInt64.ofNat (c i)) :
    bucketLines m 0 (is ++ [last]) = linesOf c (is ++ [last]) ↔
      (∀ i ∈ is, c i = 0) ∧ c last < 2 ^ 64 := by
  induction is with
  | nil =>
      rw [List.nil_append, bucketLines_cons_eq_iff, hstored last (List.mem_singleton_self last),
        UInt64.zero_add, toNat_ofNat_eq_iff]
      simp [bucketLines, linesOf]
  | cons i is ih =>
      have hstored' : ∀ j ∈ is ++ [last], m.latencyBucket j = UInt64.ofNat (c j) :=
        fun j hj => hstored j (List.mem_cons_of_mem i hj)
      have hi := hstored i List.mem_cons_self
      rw [List.cons_append, bucketLines_cons_eq_iff, hi, UInt64.zero_add, List.forall_mem_cons,
        and_assoc, ← ih hstored']
      constructor
      · rintro ⟨hshown, hrest⟩
        -- The next line shows its own bucket, so this one added nothing to it.
        have hzero : UInt64.ofNat (c i) = 0 := by
          cases is with
          | nil =>
              have hnext := (bucketLines_cons_eq_iff.mp hrest).1
              rw [hstored' last (List.mem_singleton_self last)] at hnext
              exact eq_zero_of_toNat_add hnext
          | cons j js =>
              have hnext := (bucketLines_cons_eq_iff.mp hrest).1
              rw [hstored' j List.mem_cons_self] at hnext
              exact eq_zero_of_toNat_add hnext
        rw [hzero] at hshown hrest
        exact ⟨hshown.symm, hrest⟩
      · rintro ⟨hzero, hrest⟩
        rw [hzero]
        exact ⟨rfl, hrest⟩

theorem bucketLines_infix_page {pathNames : ℕ → List UInt8} {pathCount : ℤ}
    {lossRates rttMs : ℕ → FloatValue} {redundancyRatio : FloatValue}
    (h : MetricsPage.Widths m pathNames pathCount lossRates rttMs redundancyRatio)
    (body resp : Bytes) :
    ∃ page, metricsHandle m pathNames pathCount lossRates rttMs redundancyRatio body resp =
        some page ∧
      (bucketLines m 0 (List.range metricsLatencyBuckets)).flatten <:+: page := by
  refine ⟨_, MetricsPage.metricsHandle_eq h body resp, ?_⟩
  rw [responseText]
  refine List.IsInfix.trans ?_ (List.suffix_append _ _).isInfix
  rw [metricsLines]
  simp only [List.flatten_append]
  exact ((List.suffix_append _ _).isInfix).trans (List.prefix_append _ _).isInfix

/-! ## When the page is right -/

theorem countWithin_mono {low high : ℕ} (h : low ≤ high) (samples : List UInt64) :
    countWithin low samples ≤ countWithin high samples := by
  apply List.countP_mono_left
  intro us _ hle
  rw [decide_eq_true_eq] at hle ⊢
  omega

theorem countWithin_eq_zero_iff {bound : ℕ} :
    countWithin bound samples = 0 ↔ ∀ us ∈ samples, 1000 * bound < us.toNat := by
  rw [countWithin, List.countP_eq_zero]
  simp only [decide_eq_true_eq, Nat.not_le]

theorem lines_iff (samples : List UInt64) :
    bucketLines (recorded samples) 0 (List.range metricsLatencyBuckets) =
        (metricsLatencyBounds.map fun bound =>
          bucketLine (decimal bound) (countWithin bound samples)) ↔
      (∀ us ∈ samples, 250000 < us.toNat) ∧ countWithin 500 samples < 2 ^ 64 := by
  let c : ℕ → ℕ := fun i => countWithin (metricsLatencyBounds.getD i 0) samples
  have hiff := bucketLines_eq_iff (m := recorded samples) (c := c) (List.range 7) 7
    fun i hi => latencyBucket_recorded samples (List.mem_range.mp hi)
  have hbelow : (∀ i ∈ List.range 7, c i = 0) ↔ ∀ us ∈ samples, 250000 < us.toNat := by
    have hbounds : ∀ i ∈ List.range 7, metricsLatencyBounds.getD i 0 ≤ 250 := by decide
    constructor
    · intro h
      exact countWithin_eq_zero_iff.mp (h 6 (by decide))
    · intro h i hi
      have hle := countWithin_mono (hbounds i hi) samples
      have hzero : countWithin 250 samples = 0 := countWithin_eq_zero_iff.mpr h
      exact Nat.le_zero.mp (hzero ▸ hle)
  rw [hbelow] at hiff
  exact hiff

/-- The page is right when every sample is above 250 ms, and while the total has not fallen
behind the last bucket by wrapping. -/
theorem isHistogram_iff (samples : List UInt64) :
    IsHistogram samples ↔
      (∀ us ∈ samples, 250000 < us.toNat) ∧ countWithin 500 samples ≤ samples.length % 2 ^ 64 := by
  have hmax : ∀ bound ∈ metricsLatencyBounds, bound ≤ 500 := by decide
  have hcount : (recorded samples).latencyCount.toNat = samples.length % 2 ^ 64 := by
    rw [latencyCount_recorded, UInt64.toNat_ofNat']
  constructor
  · rintro ⟨hlines, -, hbounded⟩
    refine ⟨((lines_iff samples).mp hlines).1, ?_⟩
    rw [← hcount]
    exact hbounded 500 (by decide)
  · rintro ⟨habove, hle⟩
    have hlt : countWithin 500 samples < 2 ^ 64 :=
      Nat.lt_of_le_of_lt hle (Nat.mod_lt _ (by decide))
    refine ⟨(lines_iff samples).mpr ⟨habove, hlt⟩, ?_, ?_⟩
    · have hsorted : metricsLatencyBounds.Pairwise (· ≤ ·) := by decide
      rw [List.pairwise_map]
      exact hsorted.imp fun h => countWithin_mono h samples
    · intro bound hbound
      rw [hcount]
      exact (countWithin_mono (hmax bound hbound) samples).trans hle

/-- One latency of 3 ms: the bucket for 10 ms shows two samples. -/
theorem not_isHistogram_threeMilliseconds : ¬ IsHistogram [3000] := by
  intro h
  have habove := ((lines_iff [3000]).mp h.lines).1 3000 List.mem_cons_self
  exact absurd habove (by decide)

end CodingGateway.Proofs.Histogram
