import CodingGateway.Library.CreditScheduler
import CodingGateway.Model.ConfigLoad
import CodingGateway.Proofs.RoundRobin
set_option autoImplicit false

/-!
# The credits of the paths

`strategy_next_path` is a step of round robin by credits over the usable paths, with the
rounded weights as shares (`strategyNextPath_step`).  Whatever probes and reloads come in
between, the credit of an enabled path stays between zero and its share (`credits_in_range`).
-/

namespace CodingGateway.Proofs.Credits

open CodingGateway.Model
open CodingGateway.Library
open CodingGateway.Proofs.Scheduler
open CodingGateway.Proofs.RoundRobin

/-! ## The scheduler as round robin by credits -/

def usablePaths (ctx : StrategyCtx) : Finset ℕ :=
  (Finset.range ctx.pathCount).filter fun i => ctx.usable i = true

/-- The share of a path, `max(1, round(weight_current))`. -/
def shareOf (ctx : StrategyCtx) (i : ℕ) : ℤ := creditOf (ctx.paths i).weightCurrent

variable {ctx : StrategyCtx} {i : ℕ}

@[simp] theorem mem_usablePaths :
    i ∈ usablePaths ctx ↔ i < ctx.pathCount ∧ ctx.usable i = true := by
  simp [usablePaths]

theorem shareOf_pos (ctx : StrategyCtx) (i : ℕ) : 0 < shareOf ctx i := creditOf_pos _

theorem refillCredits_eq (ctx : StrategyCtx) :
    refillCredits ctx =
      { ctx with
        pathCredit := CreditScheduler.refill (usablePaths ctx) (shareOf ctx) ctx.pathCredit } := by
  unfold refillCredits CreditScheduler.refill
  by_cases hspent : CreditScheduler.Spent (usablePaths ctx) ctx.pathCredit
  · rw [if_pos hspent, if_neg]
    · congr 1
      funext i
      simp only [mem_usablePaths]
      rfl
    · intro hany
      obtain ⟨i, hi, hcredit⟩ := List.any_eq_true.mp hany
      rw [Bool.and_eq_true, decide_eq_true_iff] at hcredit
      have hle := hspent i (mem_usablePaths.mpr ⟨List.mem_range.mp hi, hcredit.1⟩)
      omega
  · rw [if_neg hspent, if_pos]
    by_contra hnone
    apply hspent
    intro i hi
    obtain ⟨hlt, husable⟩ := mem_usablePaths.mp hi
    by_contra hpos
    apply hnone
    apply List.any_eq_true.mpr
    refine ⟨i, List.mem_range.mpr hlt, ?_⟩
    rw [husable, Bool.true_and, decide_eq_true_iff]
    omega

theorem foldl_pickBest_first (ctx : StrategyCtx) (l : List ℕ) (hl : l.Pairwise (· < ·))
    (best : Option ℕ) {b : ℕ} (hearlier : ∀ c, best = some c → ∀ j ∈ l, c < j)
    (h : l.foldl (pickBest ctx) best = some b) :
    (∀ c, best = some c → c ≠ b → ctx.pathCredit c < ctx.pathCredit b) ∧
      ∀ j ∈ l, ctx.usable j = true → j < b → ctx.pathCredit j < ctx.pathCredit b := by
  induction l generalizing best with
  | nil =>
      rw [List.foldl_nil] at h
      refine ⟨fun c hc hne => absurd (Option.some.inj (hc.symm.trans h)) hne, fun j hj => ?_⟩
      cases hj
  | cons j l ih =>
      obtain ⟨hhead, htail⟩ := List.pairwise_cons.mp hl
      rw [List.foldl_cons] at h
      have hmax := foldl_pickBest_max ctx l (pickBest ctx best j) h
      by_cases husable : ctx.usable j = true
      · -- the path of this turn is compared with the best one so far
        have hcases : pickBest ctx best j = some j ∧
              (∀ c, best = some c → ctx.pathCredit c < ctx.pathCredit j) ∨
            ∃ c, best = some c ∧ pickBest ctx best j = some c ∧
              ctx.pathCredit j ≤ ctx.pathCredit c := by
          unfold pickBest
          rw [if_pos husable]
          cases best with
          | none => exact Or.inl ⟨rfl, fun c hc => by cases hc⟩
          | some c =>
              dsimp only
              split_ifs with hless
              · exact Or.inl ⟨rfl, fun d hd => by cases hd; exact hless⟩
              · exact Or.inr ⟨c, rfl, rfl, not_lt.mp hless⟩
        rcases hcases with ⟨hpick, hless⟩ | ⟨c, rfl, hpick, hle⟩
        · rw [hpick] at h hmax
          have hjb := hmax.1 j rfl
          have hnext : ∀ d, some j = some d → ∀ k ∈ l, d < k := by
            rintro d ⟨⟩ k hk
            exact hhead k hk
          obtain ⟨hbest, hrest⟩ := ih htail (some j) hnext h
          refine ⟨fun c hc _ => (hless c hc).trans_le hjb, fun k hk hkusable hkb => ?_⟩
          rcases List.mem_cons.mp hk with rfl | hk
          · exact hbest k rfl hkb.ne
          · exact hrest k hk hkusable hkb
        · rw [hpick] at h hmax
          obtain ⟨hbest, hrest⟩ := ih htail (some c)
            (fun d hd k hk => by cases hd; exact hearlier c rfl k (List.mem_cons_of_mem j hk)) h
          refine ⟨hbest, fun k hk hkusable hkb => ?_⟩
          rcases List.mem_cons.mp hk with rfl | hk
          · have hcj := hearlier c rfl k List.mem_cons_self
            exact hle.trans_lt (hbest c rfl (hcj.trans hkb).ne)
          · exact hrest k hk hkusable hkb
      · have hkeep : pickBest ctx best j = best := if_neg husable
        rw [hkeep] at h
        obtain ⟨hbest, hrest⟩ := ih htail best
          (fun c hc k hk => hearlier c hc k (List.mem_cons_of_mem j hk)) h
        refine ⟨hbest, fun k hk hkusable hkb => ?_⟩
        rcases List.mem_cons.mp hk with rfl | hk
        · exact absurd hkusable husable
        · exact hrest k hk hkusable hkb

theorem strategyNextPath_step (hsome : (usablePaths ctx).Nonempty) :
    ∃ b, (strategyNextPath ctx).2 = some b ∧
      CreditScheduler.Step (usablePaths ctx) (shareOf ctx) ctx.pathCredit b
        (strategyNextPath ctx).1.pathCredit := by
  obtain ⟨i, hi⟩ := hsome
  obtain ⟨hlt, husable⟩ := mem_usablePaths.mp hi
  obtain ⟨b, hb, hpick, hbusable, hcredit, hmax⟩ := strategyNextPath_credit hlt husable
  rw [refillCredits_eq] at hcredit hmax
  refine ⟨b, hpick,
    ⟨mem_usablePaths.mpr ⟨hb, hbusable⟩, fun j hj => ?_, fun j hj hjb => ?_⟩, hcredit⟩
  · obtain ⟨hjlt, hjusable⟩ := mem_usablePaths.mp hj
    exact hmax j hjlt hjusable
  · obtain ⟨hjlt, hjusable⟩ := mem_usablePaths.mp hj
    have hfold : (List.range (refillCredits ctx).pathCount).foldl
        (pickBest (refillCredits ctx)) none = some b := by
      unfold strategyNextPath at hpick
      split_ifs at hpick
      dsimp only at hpick
      cases hscan : (List.range (refillCredits ctx).pathCount).foldl
          (pickBest (refillCredits ctx)) none with
      | none =>
          rw [hscan] at hpick
          cases hpick
      | some c =>
          rw [hscan] at hpick
          exact hpick
    have hfirst := (foldl_pickBest_first _ _ List.pairwise_lt_range none
      (fun c hc => by cases hc) hfold).2 j
    rw [refillCredits_eq] at hfirst
    exact hfirst (List.mem_range.mpr hjlt) hjusable hjb

theorem strategyNextPath_of_none (hnone : ¬ (usablePaths ctx).Nonempty) :
    strategyNextPath ctx = (ctx, none) := by
  apply if_neg
  intro hany
  obtain ⟨i, hi, husable⟩ := List.any_eq_true.mp hany
  exact hnone ⟨i, mem_usablePaths.mpr ⟨List.mem_range.mp hi, husable⟩⟩

theorem strategyNextPath_eq_none :
    (strategyNextPath ctx).2 = none ↔ ¬ (usablePaths ctx).Nonempty := by
  constructor
  · intro hpick hsome
    obtain ⟨b, hb, _⟩ := strategyNextPath_step hsome
    rw [hpick] at hb
    cases hb
  · intro hnone
    rw [strategyNextPath_of_none hnone]

/-! ## Calls in any order -/

/-- A call on the strategy. -/
inductive StrategyCall
  | nextPath
  | updateProbe (pathIdx : ℕ) (rttUs : UInt64) (received : Bool)
  | reload (cfg : GatewayConfig)

def StrategyCall.apply (ctx : StrategyCtx) : StrategyCall → StrategyCtx
  | .nextPath => (strategyNextPath ctx).1
  | .updateProbe pathIdx rttUs received => strategyUpdateProbe ctx pathIdx rttUs received
  | .reload cfg => strategyReload ctx cfg

def StrategyCall.config (cfg : GatewayConfig) : StrategyCall → GatewayConfig
  | .reload new => new
  | _ => cfg

def latestConfig (cfg : GatewayConfig) (calls : List StrategyCall) : GatewayConfig :=
  calls.foldl StrategyCall.config cfg

/-- What every call keeps, the configuration in force being `cfg`. -/
structure InRange (cfg : GatewayConfig) (ctx : StrategyCtx) : Prop where
  pathCount : ctx.pathCount = cfg.pathCount
  enabled : ∀ i < cfg.pathCount, (ctx.paths i).cfg.enabled = (cfg.paths i).enabled
  credit : ∀ i < cfg.pathCount, (ctx.paths i).cfg.enabled = true →
    0 ≤ ctx.pathCredit i ∧ ctx.pathCredit i ≤ shareOf ctx i

variable {cfg : GatewayConfig}

theorem inRange_strategyInit (cfg : GatewayConfig) : InRange cfg (strategyInit cfg) := by
  refine ⟨rfl, fun i hi => ?_, fun i hi _ => ?_⟩
  · simp [strategyInit, hi]
  · have hcredit : (strategyInit cfg).pathCredit i = shareOf (strategyInit cfg) i := by
      simp [strategyInit, shareOf, hi]
    rw [hcredit]
    exact ⟨(shareOf_pos _ i).le, le_rfl⟩

theorem inRange_strategyNextPath (h : InRange cfg ctx) : InRange cfg (strategyNextPath ctx).1 := by
  by_cases hsome : (usablePaths ctx).Nonempty
  · obtain ⟨b, _, hstep⟩ := strategyNextPath_step hsome
    obtain ⟨credit, hctx⟩ := creditsOnly_strategyNextPath ctx
    have hbounded : CreditScheduler.Bounded (usablePaths ctx) (shareOf ctx) ctx.pathCredit := by
      intro i hi
      obtain ⟨hlt, husable⟩ := mem_usablePaths.mp hi
      rw [h.pathCount] at hlt
      exact h.credit i hlt (Bool.and_eq_true_iff.mp husable).1
    have hbounded' := hbounded.step (fun i _ => shareOf_pos ctx i) hstep
    rw [hctx] at hstep hbounded' ⊢
    refine ⟨h.pathCount, h.enabled, fun i hi henabled => ?_⟩
    by_cases husable : i ∈ usablePaths ctx
    · exact hbounded' i husable
    · have hne : i ≠ b := fun hib => husable (hib ▸ hstep.best.mem)
      rw [hstep.credit, Function.update_of_ne hne, CreditScheduler.refill_of_not_mem husable]
      exact h.credit i hi henabled
  · rw [strategyNextPath_of_none hsome]
    exact h

/-- A probe result leaves the configuration of its path alone, and the credits too unless it
sets the path's credit to its share. -/
theorem strategyUpdateProbeIn_credit (fl : ℚ → ℚ) (ctx : StrategyCtx) {p : ℕ}
    (hp : p < ctx.pathCount) (rttUs : UInt64) (received : Bool) :
    ∃ q credit, strategyUpdateProbeIn fl ctx p rttUs received =
        { ctx with paths := Function.update ctx.paths p q, pathCredit := credit } ∧
      q.cfg = (ctx.paths p).cfg ∧ q.weightCurrent = (ctx.paths p).weightCurrent ∧
      (credit = ctx.pathCredit ∨
        credit = Function.update ctx.pathCredit p (shareOf ctx p)) := by
  refine ⟨probedPathIn fl ctx p rttUs received, _,
    strategyUpdateProbeIn_eq fl ctx hp rttUs received, rfl, rfl, ?_⟩
  split_ifs
  · exact Or.inr rfl
  · exact Or.inl rfl

theorem inRange_strategyUpdateProbeIn (h : InRange cfg ctx) (fl : ℚ → ℚ) (p : ℕ)
    (rttUs : UInt64) (received : Bool) :
    InRange cfg (strategyUpdateProbeIn fl ctx p rttUs received) := by
  by_cases hp : p < ctx.pathCount
  · obtain ⟨q, credit, hctx, hcfg, hweight, hcredit⟩ :=
      strategyUpdateProbeIn_credit fl ctx hp rttUs received
    rw [hctx]
    have hpath : ∀ i, (Function.update ctx.paths p q i).cfg = (ctx.paths i).cfg ∧
        creditOf (Function.update ctx.paths p q i).weightCurrent = shareOf ctx i := by
      intro i
      by_cases hi : i = p
      · rw [hi, Function.update_self, hweight]
        exact ⟨hcfg, rfl⟩
      · rw [Function.update_of_ne hi]
        exact ⟨rfl, rfl⟩
    refine ⟨h.pathCount, fun i hi => ?_, fun i hi henabled => ?_⟩
    · change (Function.update ctx.paths p q i).cfg.enabled = _
      rw [(hpath i).1]
      exact h.enabled i hi
    · change (Function.update ctx.paths p q i).cfg.enabled = true at henabled
      rw [(hpath i).1] at henabled
      change 0 ≤ credit i ∧ credit i ≤ creditOf (Function.update ctx.paths p q i).weightCurrent
      rw [(hpath i).2]
      rcases hcredit with rfl | rfl
      · exact h.credit i hi henabled
      · by_cases hi : i = p
        · rw [hi, Function.update_self]
          exact ⟨(shareOf_pos ctx p).le, le_rfl⟩
        · rw [Function.update_of_ne hi]
          exact h.credit i ‹_› henabled
  · have hkeep : strategyUpdateProbeIn fl ctx p rttUs received = ctx := if_pos (not_lt.mp hp)
    rw [hkeep]
    exact h

theorem strategyUpdateProbe_credit (ctx : StrategyCtx) {p : ℕ} (hp : p < ctx.pathCount)
    (rttUs : UInt64) (received : Bool) :
    ∃ q credit, strategyUpdateProbe ctx p rttUs received =
        { ctx with paths := Function.update ctx.paths p q, pathCredit := credit } ∧
      q.cfg = (ctx.paths p).cfg ∧ q.weightCurrent = (ctx.paths p).weightCurrent ∧
      (credit = ctx.pathCredit ∨
        credit = Function.update ctx.pathCredit p (shareOf ctx p)) :=
  strategyUpdateProbeIn_credit id ctx hp rttUs received

theorem inRange_strategyUpdateProbe (h : InRange cfg ctx) (p : ℕ) (rttUs : UInt64)
    (received : Bool) : InRange cfg (strategyUpdateProbe ctx p rttUs received) :=
  inRange_strategyUpdateProbeIn h id p rttUs received

theorem inRange_strategyReload (h : InRange cfg ctx) {new : GatewayConfig}
    (hcount : new.pathCount = cfg.pathCount) : InRange new (strategyReload ctx new) := by
  have hin : ∀ i < new.pathCount, i < ctx.pathCount ∧ i < new.pathCount := fun i hi =>
    ⟨by rw [h.pathCount, ← hcount]; exact hi, hi⟩
  refine ⟨h.pathCount.trans hcount.symm, fun i hi => ?_, fun i hi henabled => ?_⟩
  · simp [strategyReload, hin i hi]
  · have henabled' : (new.paths i).enabled = true := by
      simpa [strategyReload, hin i hi] using henabled
    have hcredit : (strategyReload ctx new).pathCredit i = shareOf (strategyReload ctx new) i := by
      simp [strategyReload, shareOf, hin i hi, henabled']
    rw [hcredit]
    exact ⟨(shareOf_pos _ i).le, le_rfl⟩

/-- The path counts of all configurations loaded agree. -/
def SamePathCount (cfg : GatewayConfig) (calls : List StrategyCall) : Prop :=
  ∀ new, StrategyCall.reload new ∈ calls → new.pathCount = cfg.pathCount

theorem inRange_calls {calls : List StrategyCall} (h : InRange cfg ctx)
    (hcount : SamePathCount cfg calls) :
    InRange (latestConfig cfg calls) (calls.foldl StrategyCall.apply ctx) ∧
      (latestConfig cfg calls).pathCount = cfg.pathCount := by
  induction calls generalizing cfg ctx with
  | nil => exact ⟨h, rfl⟩
  | cons call calls ih =>
      cases call with
      | nextPath =>
          exact ih (inRange_strategyNextPath h) fun new hnew =>
            hcount new (List.mem_cons_of_mem _ hnew)
      | updateProbe pathIdx rttUs received =>
          exact ih (inRange_strategyUpdateProbe h pathIdx rttUs received) fun new hnew =>
            hcount new (List.mem_cons_of_mem _ hnew)
      | reload new =>
          have hnew := hcount new List.mem_cons_self
          obtain ⟨hrange, hlatest⟩ := ih (inRange_strategyReload h hnew) fun new' hnew' =>
            (hcount new' (List.mem_cons_of_mem _ hnew')).trans hnew.symm
          exact ⟨hrange, hlatest.trans hnew⟩

/-- A path that is enabled in the configuration and alive. -/
def InUse (cfg : GatewayConfig) (ctx : StrategyCtx) (i : ℕ) : Prop :=
  i < cfg.pathCount ∧ (cfg.paths i).enabled = true ∧ (ctx.paths i).alive = true

theorem mem_usablePaths_of_inRange (h : InRange cfg ctx) :
    i ∈ usablePaths ctx ↔ InUse cfg ctx i := by
  rw [mem_usablePaths, h.pathCount, StrategyCtx.usable, Bool.and_eq_true_iff]
  constructor
  · rintro ⟨hi, henabled, halive⟩
    exact ⟨hi, by rw [← h.enabled i hi]; exact henabled, halive⟩
  · rintro ⟨hi, henabled, halive⟩
    exact ⟨hi, by rw [h.enabled i hi]; exact henabled, halive⟩

/-- The credits are in range, and the next call picks a path in use, if there is one, that has
credit once the refill is done, and takes one from it. -/
structure SpendsCredits (cfg : GatewayConfig) (ctx : StrategyCtx) : Prop where
  bounds : ∀ i < cfg.pathCount, (cfg.paths i).enabled = true →
    0 ≤ ctx.pathCredit i ∧ ctx.pathCredit i ≤ max 1 (roundf (ctx.paths i).weightCurrent)
  none_iff : (strategyNextPath ctx).2 = none ↔ ∀ i, ¬ InUse cfg ctx i
  picked : ∀ b, (strategyNextPath ctx).2 = some b →
    InUse cfg ctx b ∧ 0 < (refillCredits ctx).pathCredit b ∧
      (strategyNextPath ctx).1 = { refillCredits ctx with
        pathCredit := Function.update (refillCredits ctx).pathCredit b
          ((refillCredits ctx).pathCredit b - 1) }

theorem spendsCredits_of_inRange (h : InRange cfg ctx) : SpendsCredits cfg ctx := by
  refine ⟨fun i hi henabled => ?_, ?_, fun b hb => ?_⟩
  · rw [← h.enabled i hi] at henabled
    obtain ⟨hnonneg, hle⟩ := h.credit i hi henabled
    exact ⟨hnonneg, hle.trans (creditOf_le _)⟩
  · rw [strategyNextPath_eq_none, Finset.not_nonempty_iff_eq_empty,
      Finset.eq_empty_iff_forall_notMem]
    exact forall_congr' fun i => not_congr (mem_usablePaths_of_inRange h)
  · have hsome : (usablePaths ctx).Nonempty := by
      by_contra hnone
      rw [strategyNextPath_of_none hnone] at hb
      cases hb
    obtain ⟨c, hc, hstep⟩ := strategyNextPath_step hsome
    obtain rfl : b = c := Option.some.inj (hb.symm.trans hc)
    obtain ⟨credit, hctx⟩ := creditsOnly_strategyNextPath ctx
    have hpos := hstep.pos fun i _ => shareOf_pos ctx i
    have hcredit := hstep.credit
    rw [hctx] at hcredit
    rw [refillCredits_eq, hctx]
    refine ⟨(mem_usablePaths_of_inRange h).mp hstep.best.mem, hpos, ?_⟩
    exact congrArg (fun c => { ctx with pathCredit := c }) hcredit

/-- **Credit invariant.** In every state that calls lead to from the start, whatever their order,
and under the latest configuration loaded. -/
theorem credits_in_range {cfg : GatewayConfig} {calls : List StrategyCall}
    (hcount : SamePathCount cfg calls) :
    SpendsCredits (latestConfig cfg calls) (calls.foldl StrategyCall.apply (strategyInit cfg)) :=
  spendsCredits_of_inRange (inRange_calls (inRange_strategyInit cfg) hcount).1

/-- `make_cfg` of `test_strategy.c`: paths `p0`, `p1` and so on, enabled and of weight 1. -/
def makeCfg (pathCount : ℕ) (ratio : ℚ) : GatewayConfig :=
  { configDefaults with
    redundancyRatio := ratio
    strategyType := chars "adaptive"
    pathCount := pathCount
    paths := fun i =>
      { zeroPathConfig with
        name := chars "p" ++ [UInt8.ofNat (48 + i)]
        weight := 1
        enabled := true } }

theorem credits_in_range_reloaded :
    SamePathCount (makeCfg 2 1) [.nextPath, .updateProbe 0 1000 false, .reload (makeCfg 2 3)] ∧
      SpendsCredits (makeCfg 2 3) ([.nextPath, .updateProbe 0 1000 false,
        .reload (makeCfg 2 3)].foldl StrategyCall.apply (strategyInit (makeCfg 2 1))) := by
  have hcount : SamePathCount (makeCfg 2 1)
      [.nextPath, .updateProbe 0 1000 false, .reload (makeCfg 2 3)] := by
    intro new hnew
    simp only [List.mem_cons, reduceCtorEq, StrategyCall.reload.injEq, List.not_mem_nil, or_false,
      false_or] at hnew
    rw [hnew]
    rfl
  exact ⟨hcount, credits_in_range hcount⟩

end CodingGateway.Proofs.Credits
