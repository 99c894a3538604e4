import CodingGateway.Proofs.Credits
import CodingGateway.Proofs.Flush
set_option autoImplicit false

/-!
# Rounds of the scheduler

Consecutive calls of `strategy_next_path` are a run of round robin by credits.

* `exactRounds_iff` — when, from full credits, every path is picked as often as its share says,
  in each round and in every stretch as long as a round;
* `covers_iff_inTurn` — with weights of one, a block in at least as many shards as there are
  paths reaches them all, unless echoes gave earlier paths their credit back.
-/

namespace CodingGateway.Proofs.Rounds

open CodingGateway.Model
open CodingGateway.Library
open CodingGateway.Proofs.Scheduler
open CodingGateway.Proofs.RoundRobin
open CodingGateway.Proofs.Credits
open CodingGateway.Proofs.Flush

/-! ## Consecutive calls -/

/-- What call number `t` returns. -/
def pickAt (ctx : StrategyCtx) (t : ℕ) : Option ℕ := (strategyNextPath (afterCalls ctx t)).2

/-- The usable paths in the order of their indices. -/
def usableList (ctx : StrategyCtx) : List ℕ := (List.range ctx.pathCount).filter ctx.usable

variable {ctx : StrategyCtx} {i : ℕ}

theorem mem_usableList : i ∈ usableList ctx ↔ i ∈ usablePaths ctx := by
  rw [usableList, List.mem_filter, List.mem_range, mem_usablePaths]

theorem pairwise_usableList (ctx : StrategyCtx) : (usableList ctx).Pairwise (· < ·) :=
  List.pairwise_lt_range.filter _

theorem creditsOnly_afterCalls (ctx : StrategyCtx) (n : ℕ) :
    CreditsOnly ctx (afterCalls ctx n) := by
  induction n with
  | zero => exact CreditsOnly.refl ctx
  | succ n ih =>
      rw [afterCalls_succ]
      exact ih.trans (creditsOnly_strategyNextPath _)

theorem run_afterCalls (hsome : (usablePaths ctx).Nonempty) :
    ∃ pick : ℕ → ℕ, (∀ t, pickAt ctx t = some (pick t)) ∧
      CreditScheduler.Run (usablePaths ctx) (shareOf ctx) (fun t => (afterCalls ctx t).pathCredit)
        pick := by
  have hstep : ∀ t, ∃ b, pickAt ctx t = some b ∧
      CreditScheduler.Step (usablePaths ctx) (shareOf ctx) (afterCalls ctx t).pathCredit b
        (afterCalls ctx (t + 1)).pathCredit := by
    intro t
    obtain ⟨credit, hctx⟩ := creditsOnly_afterCalls ctx t
    rw [afterCalls_succ, pickAt, hctx]
    exact @strategyNextPath_step { ctx with pathCredit := credit } hsome
  choose pick hpick using hstep
  exact ⟨pick, fun t => (hpick t).1, fun t => (hpick t).2⟩

theorem pickAt_of_none (hnone : ¬ (usablePaths ctx).Nonempty) (t : ℕ) : pickAt ctx t = none := by
  obtain ⟨credit, hctx⟩ := creditsOnly_afterCalls ctx t
  rw [pickAt, hctx]
  exact strategyNextPath_eq_none.mpr hnone

/-! ## Exact rounds -/

/-- Every usable path has the credit that initialisation and refill give it. -/
def FullCredits (ctx : StrategyCtx) : Prop :=
  ∀ i < ctx.pathCount, ctx.usable i = true →
    ctx.pathCredit i = creditOf (ctx.paths i).weightCurrent

theorem fullCredits_strategyInit (cfg : GatewayConfig) : FullCredits (strategyInit cfg) := by
  intro i hi _
  have hlt : i < cfg.pathCount := hi
  simp [strategyInit, hlt]

/-- The share that the weight of a path stands for. -/
def fairShare (ctx : StrategyCtx) (i : ℕ) : ℤ := max 1 (roundf (ctx.paths i).weightCurrent)

/-- The sum of the shares of the usable paths. -/
def roundLength (ctx : StrategyCtx) : ℕ := ∑ i ∈ usablePaths ctx, (fairShare ctx i).toNat

/-- How often path `i` is returned by the `n` calls from call number `s` on. -/
def timesPicked (ctx : StrategyCtx) (s n i : ℕ) : ℕ :=
  ((Finset.Ico s (s + n)).filter fun t => pickAt ctx t = some i).card

/-- A usable path has its share of every stretch as long as a round, so its share `m` times over
in the first `m` rounds; with all weights 1 the paths take turns in the order of their indices. -/
structure ExactRounds (ctx : StrategyCtx) : Prop where
  stretch : ∀ s, ∀ i < ctx.pathCount, ctx.usable i = true →
    (timesPicked ctx s (roundLength ctx) i : ℤ) = fairShare ctx i
  rounds : ∀ m : ℕ, ∀ i < ctx.pathCount, ctx.usable i = true →
    (timesPicked ctx 0 (m * roundLength ctx) i : ℤ) = m * fairShare ctx i
  cyclic : (∀ i < ctx.pathCount, ctx.usable i = true → (ctx.paths i).weightCurrent = 1) →
    ∀ t, pickAt ctx t = (usableList ctx)[t % (usableList ctx).length]?

/-- The shares of the usable paths fit an `int`, or are all the same. -/
def SharesKept (ctx : StrategyCtx) : Prop :=
  (∀ i < ctx.pathCount, ctx.usable i = true → roundf (ctx.paths i).weightCurrent < 2 ^ 31) ∨
    ∀ i < ctx.pathCount, ctx.usable i = true → ∀ j < ctx.pathCount, ctx.usable j = true →
      fairShare ctx i = fairShare ctx j

theorem fairShare_pos (ctx : StrategyCtx) (i : ℕ) : 0 < fairShare ctx i :=
  one_pos.trans_le (le_max_left _ _)

theorem shareOf_eq (ctx : StrategyCtx) (i : ℕ) :
    shareOf ctx i = if fairShare ctx i < 2 ^ 31 then fairShare ctx i else 1 := by
  rw [shareOf, creditOf_eq, fairShare]
  split_ifs <;> omega

theorem cast_roundLength (ctx : StrategyCtx) :
    (roundLength ctx : ℤ) = ∑ i ∈ usablePaths ctx, fairShare ctx i := by
  rw [roundLength, Nat.cast_sum]
  exact Finset.sum_congr rfl fun i _ => Int.toNat_of_nonneg (fairShare_pos ctx i).le

theorem creditOf_one : creditOf 1 = 1 := by
  have hround : roundf 1 = 1 := by
    unfold roundf
    norm_num
  rw [creditOf_eq, hround]
  rfl

theorem shareOf_eq_one (hweight : ∀ i < ctx.pathCount, ctx.usable i = true →
    (ctx.paths i).weightCurrent = 1) : ∀ i ∈ usablePaths ctx, shareOf ctx i = 1 := by
  intro i hi
  obtain ⟨hlt, husable⟩ := mem_usablePaths.mp hi
  rw [shareOf, hweight i hlt husable, creditOf_one]

section Full

variable (hfull : FullCredits ctx)
include hfull

theorem timesPicked_rounds {R : ℕ} (hround : (R : ℤ) = ∑ i ∈ usablePaths ctx, shareOf ctx i)
    (hi : i < ctx.pathCount) (husable : ctx.usable i = true) (s m : ℕ) :
    (timesPicked ctx s (m * R) i : ℤ) = m * shareOf ctx i := by
  have hmem : i ∈ usablePaths ctx := mem_usablePaths.mpr ⟨hi, husable⟩
  obtain ⟨pick, hpick, hrun⟩ := run_afterCalls ⟨i, hmem⟩
  have hstart : ∀ j ∈ usablePaths ctx, (afterCalls ctx 0).pathCredit j = shareOf ctx j := by
    intro j hj
    obtain ⟨hlt, hjusable⟩ := mem_usablePaths.mp hj
    exact hfull j hlt hjusable
  unfold timesPicked
  simp only [hpick, Option.some.injEq]
  exact CreditScheduler.picks_rounds hrun hstart hround (fun j _ => shareOf_pos ctx j) hmem s m

theorem pickAt_of_weightsOne (hweight : ∀ i < ctx.pathCount, ctx.usable i = true →
    (ctx.paths i).weightCurrent = 1) (t : ℕ) :
    pickAt ctx t = (usableList ctx)[t % (usableList ctx).length]? := by
  by_cases hsome : (usablePaths ctx).Nonempty
  · obtain ⟨pick, hpick, hrun⟩ := run_afterCalls hsome
    have hstart : ∀ i ∈ usablePaths ctx, (afterCalls ctx 0).pathCredit i = shareOf ctx i := by
      intro i hi
      obtain ⟨hlt, husable⟩ := mem_usablePaths.mp hi
      exact hfull i hlt husable
    have hrange : ∀ i ∈ usablePaths ctx, 0 ≤ (afterCalls ctx 0).pathCredit i ∧
        (afterCalls ctx 0).pathCredit i ≤ shareOf ctx i := by
      intro i hi
      rw [hstart i hi]
      exact ⟨(shareOf_pos ctx i).le, le_rfl⟩
    rw [hpick]
    exact (CreditScheduler.pick_of_full (fun _ => mem_usableList) (pairwise_usableList ctx)
      (shareOf_eq_one hweight) hrun hrange hstart t).symm
  · have hempty : usableList ctx = [] := by
      apply List.eq_nil_iff_forall_not_mem.mpr
      intro i hi
      exact hsome ⟨i, mem_usableList.mp hi⟩
    rw [pickAt_of_none hsome, hempty]
    rfl

theorem timesPicked_of_sharesKept (hkept : SharesKept ctx) (hi : i < ctx.pathCount)
    (husable : ctx.usable i = true) (s m : ℕ) :
    (timesPicked ctx s (m * roundLength ctx) i : ℤ) = m * fairShare ctx i := by
  by_cases hsmall : ∀ j < ctx.pathCount, ctx.usable j = true → fairShare ctx j < 2 ^ 31
  · have hsame : ∀ j ∈ usablePaths ctx, shareOf ctx j = fairShare ctx j := by
      intro j hj
      obtain ⟨hlt, hjusable⟩ := mem_usablePaths.mp hj
      rw [shareOf_eq, if_pos (hsmall j hlt hjusable)]
    have hround : (roundLength ctx : ℤ) = ∑ j ∈ usablePaths ctx, shareOf ctx j :=
      (cast_roundLength ctx).trans (Finset.sum_congr rfl fun j hj => (hsame j hj).symm)
    rw [timesPicked_rounds hfull hround hi husable, hsame i (mem_usablePaths.mpr ⟨hi, husable⟩)]
  · -- all shares are the same and too large, so that the code has ones in their place
    have hequal : ∀ j < ctx.pathCount, ctx.usable j = true →
        fairShare ctx j = fairShare ctx i := by
      rcases hkept with hsmall' | hequal
      · refine absurd (fun j hj hjusable => ?_) hsmall
        have hj' := hsmall' j hj hjusable
        rw [fairShare]
        omega
      · exact fun j hj hjusable => hequal j hj hjusable i hi husable
    have hlarge : ¬ fairShare ctx i < 2 ^ 31 := fun h =>
      hsmall fun j hj hjusable => (hequal j hj hjusable).trans_lt h
    have hone : ∀ j ∈ usablePaths ctx, shareOf ctx j = 1 := by
      intro j hj
      obtain ⟨hlt, hjusable⟩ := mem_usablePaths.mp hj
      rw [shareOf_eq, hequal j hlt hjusable, if_neg hlarge]
    have hround : ((usablePaths ctx).card : ℤ) = ∑ j ∈ usablePaths ctx, shareOf ctx j := by
      rw [Finset.sum_congr rfl hone, Finset.sum_const, nsmul_one]
    have hlength : m * roundLength ctx =
        m * (fairShare ctx i).toNat * (usablePaths ctx).card := by
      have hsum : roundLength ctx = (usablePaths ctx).card * (fairShare ctx i).toNat := by
        rw [roundLength, Finset.sum_congr rfl fun j hj => ?_, Finset.sum_const, smul_eq_mul]
        obtain ⟨hlt, hjusable⟩ := mem_usablePaths.mp hj
        rw [hequal j hlt hjusable]
      rw [hsum]
      ring
    rw [hlength, timesPicked_rounds hfull hround hi husable,
      hone i (mem_usablePaths.mpr ⟨hi, husable⟩), mul_one, Nat.cast_mul,
      Int.toNat_of_nonneg (fairShare_pos ctx i).le]

theorem fairShare_eq_of_exactRounds (h : ExactRounds ctx) (hi : i < ctx.pathCount)
    (husable : ctx.usable i = true) :
    (∑ j ∈ usablePaths ctx, shareOf ctx j) * fairShare ctx i =
      roundLength ctx * shareOf ctx i := by
  obtain ⟨R, hR⟩ := Int.eq_ofNat_of_zero_le
    (Finset.sum_nonneg fun j (_ : j ∈ usablePaths ctx) => (shareOf_pos ctx j).le)
  have hfair := h.rounds R i hi husable
  have hcode := timesPicked_rounds hfull hR.symm hi husable 0 (roundLength ctx)
  rw [Nat.mul_comm] at hcode
  rw [hR, ← hfair, ← hcode]

theorem sharesKept_of_exactRounds (h : ExactRounds ctx) : SharesKept ctx := by
  by_contra hnot
  rw [SharesKept, not_or] at hnot
  obtain ⟨hlarge, hdiffer⟩ := hnot
  push Not at hlarge
  obtain ⟨j, hj, hjusable, hjlarge⟩ := hlarge
  have hjfair : ¬ fairShare ctx j < 2 ^ 31 := by
    rw [fairShare]
    omega
  have hlength := fairShare_eq_of_exactRounds hfull h hj hjusable
  rw [shareOf_eq ctx j, if_neg hjfair, mul_one] at hlength
  have hsum : 0 < ∑ l ∈ usablePaths ctx, shareOf ctx l :=
    Finset.sum_pos (fun l _ => shareOf_pos ctx l) ⟨j, mem_usablePaths.mpr ⟨hj, hjusable⟩⟩
  have hshares : ∀ i < ctx.pathCount, ctx.usable i = true →
      fairShare ctx i = fairShare ctx j * shareOf ctx i := by
    intro i hi husable
    have heq := fairShare_eq_of_exactRounds hfull h hi husable
    rw [← hlength, mul_assoc] at heq
    exact mul_left_cancel₀ hsum.ne' heq
  have hall : ∀ i < ctx.pathCount, ctx.usable i = true → fairShare ctx i = fairShare ctx j := by
    intro i hi husable
    have heq := hshares i hi husable
    have hpos := fairShare_pos ctx i
    rw [shareOf_eq] at heq
    split_ifs at heq
    · have hjone : 1 * fairShare ctx i < fairShare ctx j * fairShare ctx i :=
        mul_lt_mul_of_pos_right (by omega) hpos
      omega
    · rw [heq, mul_one]
  exact hdiffer fun i hi husable l hl hlusable =>
    (hall i hi husable).trans (hall l hl hlusable).symm

end Full

/-- **Exact rounds.** From full credits every path is picked as often as its share says, exactly
if the shares survive the conversion to `int`. -/
theorem exactRounds_iff (hfull : FullCredits ctx) : ExactRounds ctx ↔ SharesKept ctx := by
  refine ⟨sharesKept_of_exactRounds hfull, fun hkept => ⟨fun s i hi husable => ?_,
    fun m i hi husable => timesPicked_of_sharesKept hfull hkept hi husable 0 m,
    pickAt_of_weightsOne hfull⟩⟩
  have hround := timesPicked_of_sharesKept hfull hkept hi husable s 1
  rwa [Nat.one_mul, Nat.cast_one, one_mul] at hround

def weighted (first second : ℚ) : StrategyCtx :=
  strategyInit { makeCfg 2 1 with
    paths := fun i => { (makeCfg 2 1).paths i with weight := if i = 0 then first else second } }

/-- Weights 2 and 1: every three calls pick path 0 twice and path 1 once. -/
theorem exactRounds_iff_two_to_one :
    FullCredits (weighted 2 1) ∧ (ExactRounds (weighted 2 1) ↔ SharesKept (weighted 2 1)) ∧
      SharesKept (weighted 2 1) := by
  have hkept : SharesKept (weighted 2 1) := by
    left
    decide +kernel
  exact ⟨fullCredits_strategyInit _, exactRounds_iff (fullCredits_strategyInit _), hkept⟩

/-- A weight of three thousand million counts as one, so that the paths alternate. -/
theorem not_exactRounds_tooLarge :
    FullCredits (weighted 3000000000 1) ∧ roundLength (weighted 3000000000 1) = 3000000001 ∧
      (List.range 4).map (pickAt (weighted 3000000000 1)) = [some 0, some 1, some 0, some 1] ∧
      ¬ ExactRounds (weighted 3000000000 1) := by
  refine ⟨fullCredits_strategyInit _, by decide +kernel, by decide +kernel, fun h => ?_⟩
  have hkept := sharesKept_of_exactRounds (fullCredits_strategyInit _) h
  revert hkept
  rw [SharesKept]
  decide +kernel

/-! ## Coverage of a block -/

/-- What happens on the link between reloads: a block is flushed, or a probe is answered. -/
inductive LinkEvent
  | flush (blk : TxBlock) (tctx : TransportCtx) (k : ℕ) (crypto : CryptoCtx) (metrics : Metrics)
      (env : FlushEnv)
  | echo (pathIdx : ℕ) (rttUs : UInt64)

def LinkEvent.apply (ctx : StrategyCtx) : LinkEvent → StrategyCtx
  | .flush blk tctx k crypto metrics env => (txBlockFlush blk tctx ctx k crypto metrics env).sctx
  | .echo pathIdx rttUs => strategyUpdateProbe ctx pathIdx rttUs true

/-- The next `n` calls pick every usable path. -/
def Covers (ctx : StrategyCtx) (n : ℕ) : Prop :=
  ∀ i < ctx.pathCount, ctx.usable i = true → ∃ t < n, pickAt ctx t = some i

def creditedCount (ctx : StrategyCtx) : ℕ :=
  (List.range ctx.pathCount).countP fun j => ctx.usable j && decide (0 < ctx.pathCredit j)

/-- For every usable path without credit, the paths with credit and the usable paths before it
are together fewer than `n`. -/
def InTurn (ctx : StrategyCtx) (n : ℕ) : Prop :=
  ∀ i < ctx.pathCount, ctx.usable i = true → ctx.pathCredit i ≤ 0 →
    (List.range i).countP ctx.usable + creditedCount ctx < n

theorem inRange_afterCalls {cfg : GatewayConfig} (h : InRange cfg ctx) (n : ℕ) :
    InRange cfg (afterCalls ctx n) := by
  induction n with
  | zero => exact h
  | succ n ih =>
      rw [afterCalls_succ]
      exact inRange_strategyNextPath ih

theorem inRange_linkEvents {cfg : GatewayConfig} {events : List LinkEvent} (h : InRange cfg ctx) :
    InRange cfg (events.foldl LinkEvent.apply ctx) := by
  induction events generalizing ctx with
  | nil => exact h
  | cons event events ih =>
      apply ih
      cases event with
      | flush blk tctx k crypto metrics env =>
          by_cases hempty : blk.pktCount = 0
          · have hkeep : txBlockFlush blk tctx ctx k crypto metrics env = ⟨blk, ctx, metrics, []⟩ :=
              if_pos hempty
            rw [LinkEvent.apply, hkeep]
            exact h
          · rw [LinkEvent.apply, sctx_txBlockFlush hempty]
            exact inRange_afterCalls h _
      | echo pathIdx rttUs => exact inRange_strategyUpdateProbe h pathIdx rttUs true

theorem idxOf_usableList (hi : i < ctx.pathCount) (husable : ctx.usable i = true) :
    (usableList ctx).idxOf i = (List.range i).countP ctx.usable := by
  obtain ⟨d, hd⟩ := Nat.exists_eq_add_of_lt hi
  have hnot : i ∉ (List.range i).filter ctx.usable := by
    intro hin
    exact absurd (List.mem_range.mp (List.mem_filter.mp hin).1) (lt_irrefl i)
  rw [usableList, hd, Nat.add_assoc, List.range_add, List.filter_append, List.range_succ_eq_map,
    List.map_cons, Nat.add_zero, List.filter_cons_of_pos husable,
    List.idxOf_append_of_notMem hnot, List.idxOf_cons_self, Nat.add_zero,
    List.countP_eq_length_filter]

theorem length_usableList (ctx : StrategyCtx) : (usableList ctx).length = ctx.nAlive :=
  List.countP_eq_length_filter.symm

theorem length_queue (ctx : StrategyCtx) :
    (CreditScheduler.queue (usableList ctx) ctx.pathCredit).length = creditedCount ctx := by
  rw [CreditScheduler.queue, usableList, List.filter_filter, ← List.countP_eq_length_filter,
    creditedCount]
  apply List.countP_congr
  intro j _
  rw [Bool.and_comm]

theorem covers_iff_of_inRange {cfg : GatewayConfig} (h : InRange cfg ctx)
    (hweight : ∀ i < ctx.pathCount, ctx.usable i = true → (ctx.paths i).weightCurrent = 1) {n : ℕ}
    (hn : ctx.nAlive ≤ n) : Covers ctx n ↔ InTurn ctx n := by
  by_cases hsome : (usablePaths ctx).Nonempty
  · obtain ⟨pick, hpick, hrun⟩ := run_afterCalls hsome
    have hbounded : CreditScheduler.Bounded (usablePaths ctx) (shareOf ctx)
        (afterCalls ctx 0).pathCredit := by
      intro i hi
      obtain ⟨hlt, husable⟩ := mem_usablePaths.mp hi
      rw [h.pathCount] at hlt
      exact h.credit i hlt (Bool.and_eq_true_iff.mp husable).1
    have hiff := CreditScheduler.all_picked_iff (fun _ => mem_usableList) (pairwise_usableList ctx)
      (shareOf_eq_one hweight) hrun hbounded (n := n) (by rw [length_usableList]; exact hn)
    unfold Covers InTurn
    simp only [hpick, Option.some.injEq]
    constructor
    · intro hall i hi husable hempty
      have hturn := hiff.mp (fun j hj => hall j (mem_usablePaths.mp hj).1 (mem_usablePaths.mp hj).2)
        i (mem_usablePaths.mpr ⟨hi, husable⟩) hempty
      rw [idxOf_usableList hi husable] at hturn
      exact (length_queue ctx) ▸ hturn
    · intro hturn i hi husable
      refine hiff.mpr (fun j hj hempty => ?_) i (mem_usablePaths.mpr ⟨hi, husable⟩)
      obtain ⟨hlt, hjusable⟩ := mem_usablePaths.mp hj
      rw [idxOf_usableList hlt hjusable]
      exact (length_queue ctx).symm ▸ hturn j hlt hjusable hempty
  · have hnone : ∀ i < ctx.pathCount, ¬ ctx.usable i = true := fun i hi husable =>
      hsome ⟨i, mem_usablePaths.mpr ⟨hi, husable⟩⟩
    exact iff_of_true (fun i hi husable => absurd husable (hnone i hi))
      fun i hi husable => absurd husable (hnone i hi)

/-- **Coverage of a block.** In every state that flushes and answered probes lead to, when the
usable paths have weight 1 and a block is sent in at least as many shards as there are such
paths, its calls pick every one of them exactly when the paths without credit have their turn. -/
theorem covers_iff_inTurn {cfg : GatewayConfig} {events : List LinkEvent} {ctx : StrategyCtx}
    (hctx : events.foldl LinkEvent.apply (strategyInit cfg) = ctx)
    (hweight : ∀ i < ctx.pathCount, ctx.usable i = true → (ctx.paths i).weightCurrent = 1) {k : ℤ}
    (hn : (ctx.nAlive : ℤ) ≤ strategyComputeN ctx k) :
    Covers ctx (strategyComputeN ctx k).toNat ↔ InTurn ctx (strategyComputeN ctx k).toNat := by
  have hrange : InRange cfg ctx := by
    rw [← hctx]
    exact inRange_linkEvents (inRange_strategyInit cfg)
  exact covers_iff_of_inRange hrange hweight (by omega)

/-- A block of two packets of one byte. -/
def twoPackets : TxBlock :=
  (txBlockAddPkt (txBlockAddPkt (txBlockInit 0) (fun _ => 7) 1 2 ⟨0, 0⟩).1 (fun _ => 8) 1 2
    ⟨0, 0⟩).1

/-- The block is sent over two open paths. -/
def flushTwo : LinkEvent :=
  .flush twoPackets ⟨fun i => ⟨3, i.toUInt32, true⟩, 2⟩ 2 (cryptoInit none) zeroMetrics
    ⟨fun _ _ => 0, fun _ => ⟨fun _ => 0, fun _ => 0, 0⟩, fun _ => true⟩

/-- Two paths of weight 1 after one block of two shards. -/
def oneFlush : StrategyCtx := [flushTwo].foldl LinkEvent.apply (strategyInit (makeCfg 2 1))

theorem covers_iff_inTurn_oneFlush :
    (∀ i < oneFlush.pathCount, oneFlush.usable i = true → (oneFlush.paths i).weightCurrent = 1) ∧
      (oneFlush.nAlive : ℤ) ≤ strategyComputeN oneFlush 2 ∧
      (Covers oneFlush (strategyComputeN oneFlush 2).toNat ↔
        InTurn oneFlush (strategyComputeN oneFlush 2).toNat) := by
  have hweight : ∀ i < oneFlush.pathCount, oneFlush.usable i = true →
      (oneFlush.paths i).weightCurrent = 1 := by
    decide +kernel
  have hn : (oneFlush.nAlive : ℤ) ≤ strategyComputeN oneFlush 2 := by
    decide +kernel
  have hctx : [flushTwo].foldl LinkEvent.apply (strategyInit (makeCfg 2 1)) = oneFlush := rfl
  exact ⟨hweight, hn, covers_iff_inTurn hctx hweight hn⟩

/-- A probe on path 0 is answered after the block: both shards of the next one go to path 0. -/
theorem not_covers_echoed :
    let ctx := [flushTwo, .echo 0 1000].foldl LinkEvent.apply (strategyInit (makeCfg 2 1))
    (∀ i < 2, ctx.usable i = true ∧ (ctx.paths i).weightCurrent = 1) ∧ ctx.nAlive = 2 ∧
      strategyComputeN ctx 2 = 2 ∧ ¬ Covers ctx 2 := by
  intro ctx
  have hpicks : (List.range 2).map (pickAt ctx) = [some 0, some 0] := by
    decide +kernel
  refine ⟨by decide +kernel, by decide +kernel, by decide +kernel, fun hcovers => ?_⟩
  obtain ⟨t, ht, hpick⟩ := hcovers 1 (by decide +kernel) (by decide +kernel)
  have hmem : pickAt ctx t ∈ (List.range 2).map (pickAt ctx) :=
    List.mem_map_of_mem (List.mem_range.mpr ht)
  rw [hpicks, hpick] at hmem
  simp at hmem

end CodingGateway.Proofs.Rounds
