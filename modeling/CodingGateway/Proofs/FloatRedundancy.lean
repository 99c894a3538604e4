import CodingGateway.Proofs.Redundancy
set_option autoImplicit false

/-!
# The number of shards in floats

`strategy_compute_n` multiplies and divides `float`s.  The number of shards does not depend on
who is alive exactly when the base ratio alone gives as many as the cap of the scaled one
(`freeOfLiveness_iff`).
-/

namespace CodingGateway.Proofs.FloatRedundancy

open CodingGateway.Model
open CodingGateway.Library.FloatRounding
open CodingGateway.Proofs.Redundancy

/-- The context when `alive` says who is alive. -/
def withAlive (ctx : StrategyCtx) (alive : ℕ → Bool) : StrategyCtx :=
  { ctx with paths := fun i => { ctx.paths i with alive := alive i } }

/-- The number of shards does not depend on who is alive. -/
def FreeOfLiveness (ctx : StrategyCtx) (k : ℤ) : Prop :=
  ∀ alive alive',
    strategyComputeNFloat (withAlive ctx alive) k = strategyComputeNFloat (withAlive ctx alive') k

/-- The product of `k` and a ratio gives as many shards as the highest ratio does. -/
def FullProduct (k : ℤ) (product : ℚ) : Prop :=
  (11 ≤ k ∧ 31 < product ∧ product ≤ 2 ^ 31 - 1) ∨ 3 * k - 1 < product ∧ product ≤ 3 * k

/-- The number of shards is at its limit or invalid, no path is enabled, or the base ratio gives
as many shards as the highest one. -/
def FullAnyway (ctx : StrategyCtx) (k : ℤ) : Prop :=
  k < 1 ∨ maxN ≤ k ∨ (∀ i < ctx.pathCount, (ctx.paths i).cfg.enabled = false) ∨
    FullProduct k (toFloat (k * toFloat ctx.baseRedundancy))

variable {ctx : StrategyCtx} {k : ℤ}

/-! ## Values that a float holds -/

theorem toFloat_mono {x y : ℚ} (h : x ≤ y) : toFloat x ≤ toFloat y := round_mono h

@[simp] theorem toFloat_toFloat (x : ℚ) : toFloat (toFloat x) = toFloat x := round_round x

theorem toFloat_intCast {m : ℤ} (h : |m| ≤ 2 ^ 24) : toFloat m = m :=
  round_of_representable ⟨m, 0, by rw [zpow_zero, mul_one], h, by decide⟩

theorem toFloat_small (hk : 1 ≤ k) (hsmall : k < maxN) : toFloat k = k := by
  have hmax : (maxN : ℤ) = 32 := rfl
  apply toFloat_intCast
  rw [abs_le]
  constructor <;> omega

theorem toFloat_highest (hk : 1 ≤ k) (hsmall : k < maxN) :
    toFloat (k * maxRedundancy) = 3 * k := by
  have hmax : (maxN : ℤ) = 32 := rfl
  have hcast : (k : ℚ) * maxRedundancy = ((3 * k : ℤ) : ℚ) := by
    rw [maxRedundancy, mul_comm]
    push_cast
    rfl
  rw [hcast, toFloat_intCast (by rw [abs_le]; constructor <;> omega)]
  push_cast
  rfl

/-! ## The ratio in force -/

theorem nTotal_withAlive (ctx : StrategyCtx) (alive : ℕ → Bool) :
    (withAlive ctx alive).nTotal = ctx.nTotal := rfl

theorem nAlive_withAlive_true (ctx : StrategyCtx) :
    (withAlive ctx fun _ => true).nAlive = ctx.nTotal := by
  have husable : (withAlive ctx fun _ => true).usable = fun i => (ctx.paths i).cfg.enabled := by
    funext i
    exact Bool.and_true _
  rw [StrategyCtx.nAlive, husable]
  rfl

theorem nAlive_withAlive_false (ctx : StrategyCtx) :
    (withAlive ctx fun _ => false).nAlive = 0 := by
  simp [StrategyCtx.nAlive, StrategyCtx.usable, withAlive]

theorem nTotal_eq_zero_iff :
    ctx.nTotal = 0 ↔ ∀ i < ctx.pathCount, (ctx.paths i).cfg.enabled = false := by
  simp [StrategyCtx.nTotal]

theorem ratioFloat_of_noneAlive (h : ctx.nAlive = 0) : ctx.ratioFloat = maxRedundancy := if_pos h

theorem ratioFloat_of_allAlive (hsome : ctx.nAlive ≠ 0) (hall : ¬ ctx.nAlive < ctx.nTotal) :
    ctx.ratioFloat = toFloat ctx.baseRedundancy := by
  unfold StrategyCtx.ratioFloat
  rw [if_neg hsome, if_neg hall]

theorem one_le_quotient (hsome : ctx.nAlive ≠ 0) :
    1 ≤ toFloat (toFloat ctx.nTotal / toFloat ctx.nAlive) := by
  have hone : toFloat 1 = 1 := by
    exact_mod_cast toFloat_intCast (m := 1) (by norm_num)
  have hless : toFloat ctx.nAlive ≤ toFloat ctx.nTotal :=
    toFloat_mono (by exact_mod_cast nAlive_le_nTotal ctx)
  have hpos : 0 < toFloat ctx.nAlive := by
    have hle : toFloat 1 ≤ toFloat ctx.nAlive :=
      toFloat_mono (by exact_mod_cast Nat.one_le_iff_ne_zero.mpr hsome)
    rw [hone] at hle
    linarith
  calc (1 : ℚ) = toFloat 1 := hone.symm
    _ ≤ toFloat (toFloat ctx.nTotal / toFloat ctx.nAlive) :=
      toFloat_mono ((one_le_div hpos).mpr hless)

theorem ratioFloat_cases (hbase : 0 ≤ toFloat ctx.baseRedundancy) :
    ctx.ratioFloat = maxRedundancy ∨ ctx.ratioFloat = toFloat ctx.baseRedundancy ∨
      toFloat ctx.baseRedundancy ≤ ctx.ratioFloat ∧ ctx.ratioFloat ≤ maxRedundancy := by
  by_cases hzero : ctx.nAlive = 0
  · exact Or.inl (ratioFloat_of_noneAlive hzero)
  by_cases hsome : ctx.nAlive < ctx.nTotal
  · have hscaled : toFloat ctx.baseRedundancy ≤ toFloat (toFloat ctx.baseRedundancy *
        toFloat (toFloat ctx.nTotal / toFloat ctx.nAlive)) := by
      calc toFloat ctx.baseRedundancy = toFloat (toFloat ctx.baseRedundancy) :=
            (toFloat_toFloat _).symm
        _ ≤ _ := toFloat_mono (le_mul_of_one_le_right hbase (one_le_quotient hzero))
    unfold StrategyCtx.ratioFloat
    rw [if_neg hzero, if_pos hsome]
    dsimp only
    split_ifs with hcap
    · exact Or.inl rfl
    · exact Or.inr (Or.inr ⟨hscaled, not_lt.mp hcap⟩)
  · exact Or.inr (Or.inl (ratioFloat_of_allAlive hzero hsome))

/-! ## The number of shards -/

theorem strategyComputeNFloat_eq (ctx : StrategyCtx) (hk : 1 ≤ k) :
    strategyComputeNFloat ctx k =
      min (maxN : ℤ) (max k (toInt ⌈toFloat (toFloat k * ctx.ratioFloat)⌉)) := by
  unfold strategyComputeNFloat
  rw [if_neg (by omega)]
  dsimp only
  split_ifs <;> omega

theorem strategyComputeNFloat_eq_iff (hk : 1 ≤ k) (hsmall : k < maxN) :
    strategyComputeNFloat ctx k = min 32 (3 * k) ↔
      FullProduct k (toFloat (k * ctx.ratioFloat)) := by
  have hmax : (maxN : ℤ) = 32 := rfl
  rw [strategyComputeNFloat_eq ctx hk, toFloat_small hk hsmall, FullProduct]
  generalize toFloat (k * ctx.ratioFloat) = product
  have hcapped : 31 < product ↔ 32 ≤ ⌈product⌉ := by
    rw [Int.le_ceil_iff]
    norm_num
  have hrange : product ≤ 2 ^ 31 - 1 ↔ ⌈product⌉ ≤ 2 ^ 31 - 1 := by
    rw [Int.ceil_le]
    norm_num
  have hexact : 3 * (k : ℚ) - 1 < product ∧ product ≤ 3 * k ↔ ⌈product⌉ = 3 * k := by
    rw [Int.ceil_eq_iff]
    push_cast
    exact Iff.rfl
  rw [hcapped, hrange, hexact, toInt]
  split_ifs <;> omega

theorem fullProduct_highest (hk : 1 ≤ k) (hsmall : k < maxN) :
    FullProduct k (toFloat (k * maxRedundancy)) := by
  rw [toFloat_highest hk hsmall]
  exact Or.inr ⟨by linarith, le_rfl⟩

/-- A base ratio that gives as many shards as the highest does so however it is scaled. -/
theorem fullProduct_of_base (hk : 1 ≤ k) (hsmall : k < maxN)
    (h : FullProduct k (toFloat (k * toFloat ctx.baseRedundancy))) :
    FullProduct k (toFloat (k * ctx.ratioFloat)) := by
  have hkone : (1 : ℚ) ≤ k := by
    exact_mod_cast hk
  have hkpos : (0 : ℚ) < k := by linarith
  have hzero : toFloat 0 = 0 := round_zero
  have hbase : 0 ≤ toFloat ctx.baseRedundancy := by
    by_contra hneg
    have hproduct := toFloat_mono
      (mul_nonpos_of_nonneg_of_nonpos hkpos.le (not_le.mp hneg).le)
    rw [hzero] at hproduct
    rcases h with ⟨-, hcapped, -⟩ | ⟨hlow, -⟩ <;> linarith
  rcases ratioFloat_cases hbase with hratio | hratio | ⟨hlow, hhigh⟩
  · rw [hratio]
    exact fullProduct_highest hk hsmall
  · rw [hratio]
    exact h
  · have hmore := toFloat_mono (mul_le_mul_of_nonneg_left hlow hkpos.le)
    have hless := toFloat_mono (mul_le_mul_of_nonneg_left hhigh hkpos.le)
    rw [toFloat_highest hk hsmall] at hless
    have hbig : (k : ℚ) < 32 := by
      exact_mod_cast hsmall
    rcases h with ⟨hcap, hcapped, -⟩ | ⟨hexact, -⟩
    · exact Or.inl ⟨hcap, by linarith, by linarith⟩
    · exact Or.inr ⟨by linarith, hless⟩

theorem strategyComputeNFloat_of_fullAnyway (hk : 1 ≤ k) (hsmall : k < maxN)
    (hfull : FullAnyway ctx k) (alive : ℕ → Bool) :
    strategyComputeNFloat (withAlive ctx alive) k = min 32 (3 * k) := by
  rw [strategyComputeNFloat_eq_iff hk hsmall]
  rcases hfull with hneg | hbig | hnone | hbase
  · omega
  · omega
  · have hzero : (withAlive ctx alive).nAlive = 0 := by
      have hle := nAlive_le_nTotal (withAlive ctx alive)
      rw [nTotal_withAlive, nTotal_eq_zero_iff.mpr hnone] at hle
      exact Nat.le_zero.mp hle
    rw [ratioFloat_of_noneAlive hzero]
    exact fullProduct_highest hk hsmall
  · exact fullProduct_of_base hk hsmall hbase

/-- With all paths alive the base ratio is in force, and with none alive the highest one. -/
theorem fullProduct_of_freeOfLiveness (hk : 1 ≤ k) (hsmall : k < maxN)
    (hfree : FreeOfLiveness ctx k) (hsome : ctx.nTotal ≠ 0) :
    FullProduct k (toFloat (k * toFloat ctx.baseRedundancy)) := by
  have hdead : (withAlive ctx fun _ => false).ratioFloat = maxRedundancy :=
    ratioFloat_of_noneAlive (nAlive_withAlive_false ctx)
  have hall : (withAlive ctx fun _ => true).ratioFloat = toFloat ctx.baseRedundancy := by
    apply ratioFloat_of_allAlive
    · rw [nAlive_withAlive_true]
      exact hsome
    · rw [nAlive_withAlive_true, nTotal_withAlive]
      exact lt_irrefl _
  have hfull := (strategyComputeNFloat_eq_iff hk hsmall).mpr
    (hdead ▸ fullProduct_highest hk hsmall)
  rwa [← hfree (fun _ => true) fun _ => false, strategyComputeNFloat_eq_iff hk hsmall, hall]
    at hfull

theorem freeOfLiveness_iff (ctx : StrategyCtx) (k : ℤ) :
    FreeOfLiveness ctx k ↔ FullAnyway ctx k := by
  have hmax : (maxN : ℤ) = 32 := rfl
  by_cases hk : 1 ≤ k
  · by_cases hsmall : k < maxN
    · constructor
      · intro hfree
        by_cases hnone : ctx.nTotal = 0
        · exact Or.inr (Or.inr (Or.inl (nTotal_eq_zero_iff.mp hnone)))
        · exact Or.inr (Or.inr (Or.inr (fullProduct_of_freeOfLiveness hk hsmall hfree hnone)))
      · intro hfull alive alive'
        rw [strategyComputeNFloat_of_fullAnyway hk hsmall hfull,
          strategyComputeNFloat_of_fullAnyway hk hsmall hfull]
    · have hlimit : ∀ alive, strategyComputeNFloat (withAlive ctx alive) k = 32 := fun alive => by
        rw [strategyComputeNFloat_eq _ hk]
        omega
      exact iff_of_true (fun alive alive' => by rw [hlimit, hlimit])
        (Or.inr (Or.inl (not_lt.mp hsmall)))
  · have hneg : ∀ alive, strategyComputeNFloat (withAlive ctx alive) k = -1 := fun alive =>
      if_pos (not_le.mp hk)
    exact iff_of_true (fun alive alive' => by rw [hneg, hneg]) (Or.inl (not_le.mp hk))

end CodingGateway.Proofs.FloatRedundancy
