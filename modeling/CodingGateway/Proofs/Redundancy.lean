import CodingGateway.Proofs.Credits
import Mathlib.Tactic.Linarith
import Mathlib.Tactic.Positivity
set_option autoImplicit false

/-!
# The redundancy of a block when a path dies

`strategy_compute_n` scales the base ratio by `n_total / n_alive` and caps the scaled
ratio at `MAX_REDUNDANCY`; the unscaled one is not capped.  So the number of shards
never falls when a path dies, except when the first path dies under a base ratio above
the cap.
-/

namespace CodingGateway.Proofs.Redundancy

open CodingGateway.Model
open CodingGateway.Proofs.Credits

variable {ctx ctx' : StrategyCtx} {i : ℕ}

/-! ## The number of shards as a function of the ratio -/

theorem strategyComputeN_eq (ctx : StrategyCtx) {k : ℤ} (hk : 1 ≤ k) :
    strategyComputeN ctx k = min (maxN : ℤ) (max k ⌈(k : ℚ) * ctx.ratio⌉) := by
  unfold strategyComputeN
  rw [if_neg (by omega)]
  dsimp only
  split_ifs <;> omega

theorem strategyComputeN_mono {k : ℤ} (hk : 1 ≤ k)
    (hratio : ctx.ratio ≤ ctx'.ratio ∨ ctx.ratio ≤ 1) :
    strategyComputeN ctx k ≤ strategyComputeN ctx' k := by
  have hkpos : (0 : ℚ) ≤ k := by
    exact_mod_cast (by omega : (0 : ℤ) ≤ k)
  rw [strategyComputeN_eq ctx hk, strategyComputeN_eq ctx' hk]
  apply min_le_min_left
  rcases hratio with hratio | hratio
  · exact max_le_max_left k (Int.ceil_mono (mul_le_mul_of_nonneg_left hratio hkpos))
  · have hceil : ⌈(k : ℚ) * ctx.ratio⌉ ≤ k := by
      rw [Int.ceil_le]
      exact mul_le_of_le_one_right hkpos hratio
    rw [max_eq_left hceil]
    exact le_max_left _ _

/-! ## The counts -/

def enabledPaths (ctx : StrategyCtx) : Finset ℕ :=
  (Finset.range ctx.pathCount).filter fun i => (ctx.paths i).cfg.enabled = true

theorem nAlive_eq_card (ctx : StrategyCtx) : ctx.nAlive = (usablePaths ctx).card := by
  calc ctx.nAlive
      = ((List.range ctx.pathCount).filter fun i => decide (ctx.usable i = true)).length := by
        simp only [StrategyCtx.nAlive, List.countP_eq_length_filter, Bool.decide_eq_true]
    _ = (usablePaths ctx).card := rfl

theorem nTotal_eq_card (ctx : StrategyCtx) : ctx.nTotal = (enabledPaths ctx).card := by
  calc ctx.nTotal
      = ((List.range ctx.pathCount).filter fun i =>
          decide ((ctx.paths i).cfg.enabled = true)).length := by
        simp only [StrategyCtx.nTotal, List.countP_eq_length_filter, Bool.decide_eq_true]
    _ = (enabledPaths ctx).card := rfl

theorem usablePaths_subset (ctx : StrategyCtx) : usablePaths ctx ⊆ enabledPaths ctx := by
  intro i hi
  obtain ⟨hlt, husable⟩ := mem_usablePaths.mp hi
  rw [StrategyCtx.usable, Bool.and_eq_true_iff] at husable
  exact Finset.mem_filter.mpr ⟨Finset.mem_range.mpr hlt, husable.1⟩

theorem nAlive_le_nTotal (ctx : StrategyCtx) : ctx.nAlive ≤ ctx.nTotal := by
  rw [nAlive_eq_card, nTotal_eq_card]
  exact Finset.card_le_card (usablePaths_subset ctx)

def SomeDead (ctx : StrategyCtx) : Prop :=
  ∃ i < ctx.pathCount, (ctx.paths i).cfg.enabled = true ∧ (ctx.paths i).alive = false

theorem nAlive_lt_iff : ctx.nAlive < ctx.nTotal ↔ SomeDead ctx := by
  rw [nAlive_eq_card, nTotal_eq_card]
  constructor
  · intro hlt
    obtain ⟨i, hi, hdead⟩ := Finset.exists_mem_notMem_of_card_lt_card hlt
    obtain ⟨hrange, henabled⟩ := Finset.mem_filter.mp hi
    refine ⟨i, Finset.mem_range.mp hrange, henabled, ?_⟩
    rw [mem_usablePaths, StrategyCtx.usable, henabled, Bool.true_and] at hdead
    exact Bool.eq_false_iff.mpr fun halive => hdead ⟨Finset.mem_range.mp hrange, halive⟩
  · rintro ⟨i, hlt, henabled, hdead⟩
    apply Finset.card_lt_card
    refine Finset.ssubset_iff_of_subset (usablePaths_subset ctx) |>.mpr ⟨i, ?_, fun hi => ?_⟩
    · exact Finset.mem_filter.mpr ⟨Finset.mem_range.mpr hlt, henabled⟩
    · have husable := (mem_usablePaths.mp hi).2
      rw [StrategyCtx.usable, hdead, Bool.and_false] at husable
      exact Bool.false_ne_true husable

/-! ## A path dies -/

/-- The enabled path `i` is alive in `ctx` and dead in `ctx'`, the other paths are as they
were. -/
structure Dies (ctx ctx' : StrategyCtx) (i : ℕ) : Prop where
  lt : i < ctx.pathCount
  usable : ctx.usable i = true
  pathCount : ctx'.pathCount = ctx.pathCount
  baseRedundancy : ctx'.baseRedundancy = ctx.baseRedundancy
  enabled : ∀ j, (ctx'.paths j).cfg.enabled = (ctx.paths j).cfg.enabled
  dead : (ctx'.paths i).alive = false
  others : ∀ j ≠ i, (ctx'.paths j).alive = (ctx.paths j).alive

theorem Dies.nTotal (h : Dies ctx ctx' i) : ctx'.nTotal = ctx.nTotal := by
  rw [StrategyCtx.nTotal, StrategyCtx.nTotal, h.pathCount]
  exact List.countP_congr fun j _ => by rw [h.enabled j]

theorem Dies.usablePaths (h : Dies ctx ctx' i) :
    usablePaths ctx' = (usablePaths ctx).erase i := by
  ext j
  rw [Finset.mem_erase, mem_usablePaths, mem_usablePaths, h.pathCount, StrategyCtx.usable,
    StrategyCtx.usable, h.enabled j]
  by_cases hj : j = i
  · subst hj
    simp [h.dead]
  · simp [hj, h.others j hj]

theorem Dies.nAlive (h : Dies ctx ctx' i) : ctx'.nAlive + 1 = ctx.nAlive := by
  rw [nAlive_eq_card, nAlive_eq_card, h.usablePaths]
  exact Finset.card_erase_add_one (mem_usablePaths.mpr ⟨h.lt, h.usable⟩)

theorem dies_updateProbe {rttUs : UInt64} {received : Bool} (hlt : i < ctx.pathCount)
    (husable : ctx.usable i = true)
    (hdead : ((strategyUpdateProbe ctx i rttUs received).paths i).alive = false) :
    Dies ctx (strategyUpdateProbe ctx i rttUs received) i := by
  obtain ⟨q, credit, hctx, hcfg, -, -⟩ := strategyUpdateProbe_credit ctx hlt rttUs received
  rw [hctx] at hdead ⊢
  refine ⟨hlt, husable, rfl, rfl, fun j => ?_, hdead, fun j hj => ?_⟩
  · by_cases hj : j = i
    · subst hj
      simp [hcfg]
    · simp [hj]
  · simp [hj]

/-! ## The ratio after the death of a path -/

theorem ratio_of_someDead (hsome : ctx.nAlive < ctx.nTotal) :
    ctx.ratio = if ctx.nAlive = 0 then maxRedundancy
      else min maxRedundancy (ctx.baseRedundancy * ((ctx.nTotal : ℚ) / ctx.nAlive)) := by
  unfold StrategyCtx.ratio
  split_ifs with hzero
  · rfl
  · dsimp only
    split_ifs with hcap
    · exact (min_eq_left hcap.le).symm
    · exact (min_eq_right (not_lt.mp hcap)).symm

theorem ratio_of_allAlive (hpos : ctx.nAlive ≠ 0) (hall : ¬ ctx.nAlive < ctx.nTotal) :
    ctx.ratio = ctx.baseRedundancy := by
  rw [StrategyCtx.ratio, if_neg hpos, if_neg hall]

/-- A ratio that is not negative never shrinks when it is scaled to fewer paths. -/
theorem scaled_le {base : ℚ} (hbase : 0 ≤ base) {total alive alive' : ℕ} (hpos : 0 < alive')
    (hle : alive' ≤ alive) :
    base * ((total : ℚ) / alive) ≤ base * ((total : ℚ) / alive') := by
  have halive' : (0 : ℚ) < alive' := by
    exact_mod_cast hpos
  have hcast : (alive' : ℚ) ≤ alive := by
    exact_mod_cast hle
  apply mul_le_mul_of_nonneg_left _ hbase
  exact div_le_div_of_nonneg_left (Nat.cast_nonneg total) halive' hcast

theorem ratio_of_dies (h : Dies ctx ctx' i) :
    ctx'.ratio = if ctx'.nAlive = 0 then maxRedundancy
      else min maxRedundancy (ctx.baseRedundancy * ((ctx.nTotal : ℚ) / ctx'.nAlive)) := by
  have halive := h.nAlive
  have hle := nAlive_le_nTotal ctx
  have hsome : ctx'.nAlive < ctx'.nTotal := by
    rw [h.nTotal]
    omega
  rw [ratio_of_someDead hsome, h.baseRedundancy, h.nTotal]

/-- A negative base ratio counts as the ratio one. -/
theorem ratio_le_one (hneg : ctx.baseRedundancy < 0) (hpos : ctx.nAlive ≠ 0) :
    ctx.ratio ≤ 1 := by
  by_cases hsome : ctx.nAlive < ctx.nTotal
  · have hfactor : (0 : ℚ) ≤ (ctx.nTotal : ℚ) / ctx.nAlive := by positivity
    rw [ratio_of_someDead hsome, if_neg hpos]
    calc min maxRedundancy (ctx.baseRedundancy * ((ctx.nTotal : ℚ) / ctx.nAlive))
        ≤ ctx.baseRedundancy * ((ctx.nTotal : ℚ) / ctx.nAlive) := min_le_right _ _
      _ ≤ 0 := mul_nonpos_of_nonpos_of_nonneg hneg.le hfactor
      _ ≤ 1 := zero_le_one
  · rw [ratio_of_allAlive hpos hsome]
    linarith

/-- Below the cap, and when a path is dead already, the ratio does not fall. -/
theorem ratio_le_of_dies (h : Dies ctx ctx' i) (hbase : 0 ≤ ctx.baseRedundancy)
    (hcap : ctx.baseRedundancy ≤ maxRedundancy ∨ SomeDead ctx) : ctx.ratio ≤ ctx'.ratio := by
  have halive := h.nAlive
  have hle := nAlive_le_nTotal ctx
  have hpos : ctx.nAlive ≠ 0 := by omega
  rw [ratio_of_dies h]
  by_cases hsome : ctx.nAlive < ctx.nTotal
  · rw [ratio_of_someDead hsome, if_neg hpos]
    split_ifs with hzero
    · exact min_le_left _ _
    · apply min_le_min_left
      apply scaled_le hbase <;> omega
  · have hbaseCap : ctx.baseRedundancy ≤ maxRedundancy :=
      hcap.resolve_right fun h => hsome (nAlive_lt_iff.mpr h)
    rw [ratio_of_allAlive hpos hsome]
    split_ifs with hzero
    · exact hbaseCap
    · have hfactor : (1 : ℚ) ≤ (ctx.nTotal : ℚ) / ctx'.nAlive := by
        rw [one_le_div (by positivity)]
        exact_mod_cast (by omega : ctx'.nAlive ≤ ctx.nTotal)
      exact le_min hbaseCap (le_mul_of_one_le_right hbase hfactor)

/-- When the first path dies under a base ratio above the cap, the ratio falls to the cap. -/
theorem ratio_of_first_death (h : Dies ctx ctx' i) (hcap : maxRedundancy < ctx.baseRedundancy)
    (hall : ¬ SomeDead ctx) : ctx.ratio = ctx.baseRedundancy ∧ ctx'.ratio = maxRedundancy := by
  have halive := h.nAlive
  have hle := nAlive_le_nTotal ctx
  have hsome : ¬ ctx.nAlive < ctx.nTotal := fun hlt => hall (nAlive_lt_iff.mp hlt)
  have hbase : (0 : ℚ) ≤ ctx.baseRedundancy := le_trans (by decide) hcap.le
  refine ⟨ratio_of_allAlive (by omega) hsome, ?_⟩
  rw [ratio_of_dies h]
  split_ifs with hzero
  · rfl
  · have hfactor : (1 : ℚ) ≤ (ctx.nTotal : ℚ) / ctx'.nAlive := by
      rw [one_le_div (by positivity)]
      exact_mod_cast (by omega : ctx'.nAlive ≤ ctx.nTotal)
    exact min_eq_left (hcap.le.trans (le_mul_of_one_le_right hbase hfactor))

/-! ## The number of shards -/

theorem strategyComputeN_drops (h : Dies ctx ctx' i) {k : ℤ} (hk : 1 ≤ k)
    (hcap : maxRedundancy < ctx.baseRedundancy) (hroom : maxRedundancy * k < maxN)
    (hall : ¬ SomeDead ctx) : strategyComputeN ctx' k < strategyComputeN ctx k := by
  obtain ⟨hratio, hratio'⟩ := ratio_of_first_death h hcap hall
  have hkpos : (0 : ℚ) < k := by
    exact_mod_cast (by omega : (0 : ℤ) < k)
  have hthree : ⌈(k : ℚ) * maxRedundancy⌉ = 3 * k := by
    rw [Int.ceil_eq_iff, maxRedundancy]
    push_cast
    constructor <;> linarith
  have hmore : 3 * k < ⌈(k : ℚ) * ctx.baseRedundancy⌉ := by
    rw [Int.lt_ceil]
    push_cast
    rw [mul_comm]
    exact mul_lt_mul_of_pos_left hcap hkpos
  have hfits : 3 * k < (maxN : ℤ) := by
    rw [maxRedundancy] at hroom
    exact_mod_cast hroom
  rw [strategyComputeN_eq ctx hk, strategyComputeN_eq ctx' hk, hratio, hratio', hthree]
  omega

theorem strategyComputeN_le (h : Dies ctx ctx' i) {k : ℤ} (hk : 1 ≤ k)
    (hcond : ctx.baseRedundancy ≤ maxRedundancy ∨ (maxN : ℚ) ≤ maxRedundancy * k ∨
      SomeDead ctx) : strategyComputeN ctx k ≤ strategyComputeN ctx' k := by
  have halive := h.nAlive
  rcases lt_or_ge ctx.baseRedundancy 0 with hneg | hbase
  · exact strategyComputeN_mono hk (Or.inr (ratio_le_one hneg (by omega)))
  · by_cases hcap : ctx.baseRedundancy ≤ maxRedundancy ∨ SomeDead ctx
    · exact strategyComputeN_mono hk (Or.inl (ratio_le_of_dies h hbase hcap))
    · obtain ⟨habove, hall⟩ := not_or.mp hcap
      have hfull : (maxN : ℚ) ≤ maxRedundancy * k := by
        rcases hcond with hle | hfull | hsome
        · exact absurd hle habove
        · exact hfull
        · exact absurd hsome hall
      have hratio' := (ratio_of_first_death h (not_le.mp habove) hall).2
      have hceil : (maxN : ℤ) ≤ ⌈(k : ℚ) * ctx'.ratio⌉ := by
        rw [hratio', mul_comm]
        exact_mod_cast hfull.trans (Int.le_ceil _)
      rw [strategyComputeN_eq ctx hk, strategyComputeN_eq ctx' hk,
        min_eq_left (hceil.trans (le_max_right _ _))]
      exact min_le_left _ _

/-- **Redundancy under failures.** Every block is sent in at least `k` and at most `MAX_N`
shards.  When an enabled path dies the number of shards does not fall exactly when the base
ratio is at most `MAX_REDUNDANCY`, or `MAX_REDUNDANCY` times `k` reaches `MAX_N` anyway, or
another path was dead before. -/
theorem strategyComputeN_le_iff (h : Dies ctx ctx' i) {k : ℕ} (hk : 1 ≤ k) (hmax : k ≤ maxK) :
    ((k : ℤ) ≤ strategyComputeN ctx k ∧ strategyComputeN ctx k ≤ maxN) ∧
      (strategyComputeN ctx k ≤ strategyComputeN ctx' k ↔
        ctx.baseRedundancy ≤ maxRedundancy ∨ (maxN : ℚ) ≤ maxRedundancy * k ∨ SomeDead ctx) := by
  have hk' : (1 : ℤ) ≤ k := by exact_mod_cast hk
  have hkN : (k : ℤ) ≤ maxN := by exact_mod_cast hmax.trans (by decide : maxK ≤ maxN)
  constructor
  · rw [strategyComputeN_eq ctx hk']
    exact ⟨le_min hkN (le_max_left _ _), min_le_left _ _⟩
  · constructor
    · intro hle
      by_contra hcond
      obtain ⟨hcap, hcond⟩ := not_or.mp hcond
      obtain ⟨hroom, hall⟩ := not_or.mp hcond
      have hdrop := strategyComputeN_drops h hk' (not_le.mp hcap)
        (by exact_mod_cast not_le.mp hroom) hall
      exact absurd hle (not_le.mpr hdrop)
    · intro hcond
      exact strategyComputeN_le h hk' (by exact_mod_cast hcond)

/-- Path 0 of a two-path gateway, before and after two lost probes. -/
def twoLost (ratio : ℚ) : StrategyCtx × StrategyCtx :=
  let ctx := strategyUpdateProbe (strategyInit (makeCfg 2 ratio)) 0 0 false
  (ctx, strategyUpdateProbe ctx 0 0 false)

theorem strategyComputeN_le_iff_twoLost :
    strategyComputeN (twoLost (3 / 2)).1 2 ≤ strategyComputeN (twoLost (3 / 2)).2 2 := by
  have hdies : Dies (twoLost (3 / 2)).1 (twoLost (3 / 2)).2 0 :=
    dies_updateProbe (by decide +kernel) (by decide +kernel) (by decide +kernel)
  have hbase : (twoLost (3 / 2)).1.baseRedundancy ≤ maxRedundancy := by
    decide +kernel
  have hk : 1 ≤ 2 ∧ 2 ≤ maxK := by
    decide
  exact (strategyComputeN_le_iff hdies hk.1 hk.2).2.mpr (Or.inl hbase)

/-- With a base ratio of four, the first of two paths to die takes a shard with it. -/
theorem strategyComputeN_drops_twoLost :
    Dies (twoLost 4).1 (twoLost 4).2 0 ∧ strategyComputeN (twoLost 4).1 1 = 4 ∧
      strategyComputeN (twoLost 4).2 1 = 3 := by
  refine ⟨dies_updateProbe ?_ ?_ ?_, ?_, ?_⟩
  all_goals decide +kernel

end CodingGateway.Proofs.Redundancy
