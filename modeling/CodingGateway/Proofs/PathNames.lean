import CodingGateway.Proofs.Credits
set_option autoImplicit false

/-!
# A reload goes by position

`strategy_reload` walks the running paths and the path sections of the new
configuration side by side and never reads a name.  So a path takes over what the
section at its own position says, whatever that section is called.
-/

namespace CodingGateway.Proofs.PathNames

open CodingGateway.Model
open CodingGateway.Proofs.Credits
open CodingGateway.Proofs.Scheduler

variable {ctx ctx' : StrategyCtx} {new : GatewayConfig} {calls : List StrategyCall} {i : ℕ}

def NoReload (calls : List StrategyCall) : Prop := ∀ cfg, StrategyCall.reload cfg ∉ calls

/-! ## What the other calls keep -/

/-- The paths of `ctx'` are configured as those of `ctx`. -/
structure SameConfig (ctx ctx' : StrategyCtx) : Prop where
  pathCount : ctx'.pathCount = ctx.pathCount
  cfg : ∀ i, (ctx'.paths i).cfg = (ctx.paths i).cfg

theorem sameConfig_strategyNextPath (ctx : StrategyCtx) :
    SameConfig ctx (strategyNextPath ctx).1 := by
  obtain ⟨credit, hctx⟩ := creditsOnly_strategyNextPath ctx
  rw [hctx]
  exact ⟨rfl, fun _ => rfl⟩

theorem sameConfig_strategyUpdateProbe (ctx : StrategyCtx) (p : ℕ) (rttUs : UInt64)
    (received : Bool) : SameConfig ctx (strategyUpdateProbe ctx p rttUs received) := by
  by_cases hp : p < ctx.pathCount
  · obtain ⟨q, credit, hctx, hcfg, -, -⟩ := strategyUpdateProbe_credit ctx hp rttUs received
    rw [hctx]
    refine ⟨rfl, fun i => ?_⟩
    show (Function.update ctx.paths p q i).cfg = (ctx.paths i).cfg
    by_cases hi : i = p
    · rw [hi, Function.update_self, hcfg]
    · rw [Function.update_of_ne hi]
  · have hkeep : strategyUpdateProbe ctx p rttUs received = ctx := if_pos (not_lt.mp hp)
    rw [hkeep]
    exact ⟨rfl, fun _ => rfl⟩

theorem sameConfig_calls (hno : NoReload calls) :
    SameConfig ctx (calls.foldl StrategyCall.apply ctx) := by
  induction calls generalizing ctx with
  | nil => exact ⟨rfl, fun _ => rfl⟩
  | cons call calls ih =>
      have hstep : SameConfig ctx (call.apply ctx) := by
        cases call with
        | nextPath => exact sameConfig_strategyNextPath ctx
        | updateProbe p rttUs received => exact sameConfig_strategyUpdateProbe ctx p rttUs received
        | reload cfg => exact absurd List.mem_cons_self (hno cfg)
      have hrest : SameConfig (call.apply ctx) (calls.foldl StrategyCall.apply (call.apply ctx)) :=
        ih fun cfg hmem => hno cfg (List.mem_cons_of_mem _ hmem)
      rw [List.foldl_cons]
      exact ⟨hrest.pathCount.trans hstep.pathCount, fun i => (hrest.cfg i).trans (hstep.cfg i)⟩

/-! ## The reload -/

/-- What a reload makes of the running path at position `i`. -/
structure TakesSection (ctx : StrategyCtx) (new : GatewayConfig) (i : ℕ) : Prop where
  given : i < new.pathCount →
    ((strategyReload ctx new).paths i).cfg.weight = (new.paths i).weight ∧
    ((strategyReload ctx new).paths i).weightCurrent = (new.paths i).weight ∧
    ((strategyReload ctx new).paths i).cfg.enabled = (new.paths i).enabled
  own : new.pathCount ≤ i → (strategyReload ctx new).paths i = ctx.paths i
  name : ((strategyReload ctx new).paths i).cfg.name = (ctx.paths i).cfg.name

theorem takesSection (hi : i < ctx.pathCount) : TakesSection ctx new i := by
  by_cases hnew : i < new.pathCount
  · refine ⟨fun _ => ?_, fun hle => absurd hnew (not_lt.mpr hle), ?_⟩
    all_goals simp [strategyReload, hi, hnew]
  · refine ⟨fun h => absurd h hnew, fun _ => ?_, ?_⟩
    all_goals simp [strategyReload, hnew]

theorem mem_usablePaths_of_picked {b : ℕ} (h : (strategyNextPath ctx).2 = some b) :
    b ∈ usablePaths ctx := by
  have hsome : (usablePaths ctx).Nonempty := by
    by_contra hnone
    rw [strategyNextPath_of_none hnone] at h
    cases h
  obtain ⟨c, hc, hstep⟩ := strategyNextPath_step hsome
  obtain rfl : b = c := Option.some.inj (h.symm.trans hc)
  exact hstep.best.mem

/-- The enabled flag that path `i` has after a reload. -/
def enabledAfter (ctx : StrategyCtx) (new : GatewayConfig) (i : ℕ) : Bool :=
  if i < new.pathCount then (new.paths i).enabled else (ctx.paths i).cfg.enabled

theorem enabled_strategyReload (hi : i < ctx.pathCount) :
    ((strategyReload ctx new).paths i).cfg.enabled = enabledAfter ctx new i := by
  unfold enabledAfter
  split_ifs with hnew
  · exact ((takesSection hi).given hnew).2.2
  · rw [(takesSection hi).own (not_lt.mp hnew)]

/-- **A reload by position.** Every running path takes the weight and the enabled flag of the
section at its position, or keeps its own beyond the last section, and keeps its name.  Until
the next reload, only paths enabled so are picked. -/
theorem reload_by_position (ctx : StrategyCtx) (new : GatewayConfig) {calls : List StrategyCall}
    (hno : NoReload calls) :
    (∀ i < ctx.pathCount, TakesSection ctx new i) ∧
      ∀ b, (strategyNextPath (calls.foldl StrategyCall.apply (strategyReload ctx new))).2 =
        some b → b < ctx.pathCount ∧ enabledAfter ctx new b = true := by
  refine ⟨fun i hi => takesSection hi, fun b hb => ?_⟩
  obtain ⟨hlt, husable⟩ := mem_usablePaths.mp (mem_usablePaths_of_picked hb)
  have hsame : SameConfig (strategyReload ctx new)
      (calls.foldl StrategyCall.apply (strategyReload ctx new)) :=
    sameConfig_calls hno
  have hb' : b < ctx.pathCount := hsame.pathCount ▸ hlt
  refine ⟨hb', ?_⟩
  rw [StrategyCtx.usable, Bool.and_eq_true_iff, hsame.cfg b, enabled_strategyReload hb'] at husable
  exact husable.1

/-- The two paths of `make_cfg` in the other order: `p1` of weight 3 and disabled, then `p0`. -/
def reordered : GatewayConfig :=
  { makeCfg 2 1 with
    paths := fun i =>
      { (makeCfg 2 1).paths (1 - i) with weight := if i = 0 then 3 else 1, enabled := i ≠ 0 } }

theorem reload_by_position_reordered :
    NoReload [.nextPath, .updateProbe 1 1000 true] ∧
      ∀ b, (strategyNextPath ([.nextPath, .updateProbe 1 1000 true].foldl StrategyCall.apply
        (strategyReload (strategyInit (makeCfg 2 1)) reordered))).2 = some b →
          enabledAfter (strategyInit (makeCfg 2 1)) reordered b = true := by
  have hno : NoReload [.nextPath, .updateProbe 1 1000 true] := by
    intro cfg hmem
    simp at hmem
  exact ⟨hno, fun b hb => ((reload_by_position _ _ hno).2 b hb).2⟩

/-- The law that goes by names: a running path takes the values given for its name, and is
not picked any more when its name is gone. -/
def FollowsNames (ctx : StrategyCtx) (new : GatewayConfig) : Prop :=
  ∀ i < ctx.pathCount,
    (∀ j < new.pathCount, (new.paths j).name = (ctx.paths i).cfg.name →
      ((strategyReload ctx new).paths i).cfg.weight = (new.paths j).weight ∧
      ((strategyReload ctx new).paths i).cfg.enabled = (new.paths j).enabled) ∧
    ((∀ j < new.pathCount, (new.paths j).name ≠ (ctx.paths i).cfg.name) →
      (strategyNextPath (strategyReload ctx new)).2 ≠ some i)

/-- Only the second path of `make_cfg` is left. -/
def shortened : GatewayConfig := { makeCfg 1 1 with paths := fun _ => (makeCfg 2 1).paths 1 }

/-- Swapped sections swap the values of the paths, and a path whose section is gone goes on. -/
theorem not_followsNames :
    ¬ FollowsNames (strategyInit (makeCfg 2 1)) reordered ∧
      ¬ FollowsNames (strategyInit (makeCfg 2 1)) shortened := by
  constructor
  · intro hfollows
    have hvalues := (hfollows 0 (by decide)).1 1 (by decide) (by decide +kernel)
    exact absurd hvalues.2 (by decide +kernel)
  · intro hfollows
    have hgone := (hfollows 0 (by decide)).2 (by decide +kernel)
    exact hgone (by decide +kernel)

end CodingGateway.Proofs.PathNames
