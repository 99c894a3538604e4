import CodingGateway.Library.Hysteresis
import CodingGateway.Proofs.PathNames
set_option autoImplicit false

/-!
# Loss rate and liveness of a path

Under the calls between two reloads a path is a monitor: its loss rate is the average
of its probe results and its `alive` flag the switch.

* `monitorOf_calls` — the calls follow the monitor, and only the results on the path count.
* `hysteretic_calls` — loss rate, flips and settling in every state that calls lead to.
-/

namespace CodingGateway.Proofs.ProbeHysteresis

open CodingGateway.Model
open CodingGateway.Library
open CodingGateway.Proofs.Credits
open CodingGateway.Proofs.PathNames
open CodingGateway.Proofs.RoundRobin
open CodingGateway.Proofs.Scheduler

variable {cfg : GatewayConfig} {ctx : StrategyCtx} {calls : List StrategyCall} {p n : ℕ}

def monitorOf (ctx : StrategyCtx) (p : ℕ) : Hysteresis.Monitor ℚ :=
  ⟨(ctx.paths p).lossRate, (ctx.paths p).alive⟩

def observedLoss (received : Bool) : ℚ := if received then 0 else 1

/-- The probe results on path `p` among the calls. -/
def results (p : ℕ) (calls : List StrategyCall) : List Bool :=
  calls.filterMap fun
    | .updateProbe q _ received => if q = p then some received else none
    | _ => none

theorem observedLoss_mem_unit (received : Bool) :
    0 ≤ observedLoss received ∧ observedLoss received ≤ 1 := by
  cases received
  · exact ⟨zero_le_one, le_rfl⟩
  · exact ⟨le_rfl, zero_le_one⟩

/-! ## One call -/

structure SameParameters (ctx ctx' : StrategyCtx) : Prop where
  pathCount : ctx'.pathCount = ctx.pathCount
  alpha : ctx'.ewmaAlpha = ctx.ewmaAlpha
  threshold : ctx'.lossThreshold = ctx.lossThreshold

theorem monitorOf_strategyNextPath (ctx : StrategyCtx) :
    SameParameters ctx (strategyNextPath ctx).1 ∧
      monitorOf (strategyNextPath ctx).1 p = monitorOf ctx p := by
  obtain ⟨credit, hctx⟩ := creditsOnly_strategyNextPath ctx
  rw [hctx]
  exact ⟨⟨rfl, rfl, rfl⟩, rfl⟩

theorem monitorOf_strategyUpdateProbe (hp : p < ctx.pathCount) (q : ℕ) (rttUs : UInt64)
    (received : Bool) :
    SameParameters ctx (strategyUpdateProbe ctx q rttUs received) ∧
      monitorOf (strategyUpdateProbe ctx q rttUs received) p =
        if q = p then
          Hysteresis.observe ctx.ewmaAlpha ctx.lossThreshold (monitorOf ctx p)
            (observedLoss received)
        else monitorOf ctx p := by
  by_cases hq : q < ctx.pathCount
  · rw [strategyUpdateProbe_eq ctx hq rttUs received]
    refine ⟨⟨rfl, rfl, rfl⟩, ?_⟩
    by_cases hqp : q = p
    · rw [if_pos hqp, hqp]
      simp only [monitorOf, Function.update_self]
      rfl
    · rw [if_neg hqp]
      simp only [monitorOf, Function.update_of_ne (Ne.symm hqp)]
  · have hkeep : strategyUpdateProbe ctx q rttUs received = ctx := if_pos (not_lt.mp hq)
    have hqp : q ≠ p := fun h => hq (h ▸ hp)
    rw [hkeep, if_neg hqp]
    exact ⟨⟨rfl, rfl, rfl⟩, rfl⟩

theorem monitorOf_apply (hp : p < ctx.pathCount) {call : StrategyCall}
    (hcall : ∀ new, call ≠ .reload new) :
    SameParameters ctx (call.apply ctx) ∧
      monitorOf (call.apply ctx) p =
        Hysteresis.run ctx.ewmaAlpha ctx.lossThreshold (monitorOf ctx p)
          ((results p [call]).map observedLoss) := by
  cases call with
  | nextPath => exact monitorOf_strategyNextPath ctx
  | updateProbe q rttUs received =>
      obtain ⟨hsame, hmonitor⟩ := monitorOf_strategyUpdateProbe hp q rttUs received
      refine ⟨hsame, hmonitor.trans ?_⟩
      by_cases hqp : q = p
      · simp [results, hqp, Hysteresis.run]
      · simp [results, hqp, Hysteresis.run]
  | reload new => exact absurd rfl (hcall new)

theorem monitorOf_calls (hp : p < ctx.pathCount) (hno : NoReload calls) :
    monitorOf (calls.foldl StrategyCall.apply ctx) p =
      Hysteresis.run ctx.ewmaAlpha ctx.lossThreshold (monitorOf ctx p)
        ((results p calls).map observedLoss) := by
  induction calls generalizing ctx with
  | nil => rfl
  | cons call calls ih =>
      have hcall : ∀ new, call ≠ .reload new := by
        rintro new rfl
        exact hno new List.mem_cons_self
      obtain ⟨hsame, hmonitor⟩ := monitorOf_apply hp hcall
      have hrest := ih (by rw [hsame.pathCount]; exact hp) fun new hnew =>
        hno new (List.mem_cons_of_mem call hnew)
      have hsplit : results p (call :: calls) = results p [call] ++ results p calls := by
        rw [results, results, results, ← List.filterMap_append]
        rfl
      rw [List.foldl_cons, hrest, hmonitor, hsame.alpha, hsame.threshold, hsplit, List.map_append]
      simp only [Hysteresis.run, List.foldl_append]

/-! ## Reachable states -/

/-- The smoothing factor is in `(0, 1]`, the threshold in `(0, 1)`. -/
structure ProbeConfig (cfg : GatewayConfig) : Prop where
  alpha : 0 < cfg.ewmaAlpha ∧ cfg.ewmaAlpha ≤ 1
  threshold : 0 < cfg.probeLossThreshold ∧ cfg.probeLossThreshold < 1

/-- What every call keeps; `n` is the path count of the first configuration. -/
structure Tuned (cfg : GatewayConfig) (n : ℕ) (ctx : StrategyCtx) : Prop where
  config : ProbeConfig cfg
  pathCount : ctx.pathCount = n
  alpha : ctx.ewmaAlpha = cfg.ewmaAlpha
  threshold : ctx.lossThreshold = cfg.probeLossThreshold
  level : ∀ p < n, 0 ≤ (ctx.paths p).lossRate ∧ (ctx.paths p).lossRate ≤ 1

theorem effectiveAlpha_of_probeConfig (h : ProbeConfig cfg) :
    effectiveAlpha cfg.ewmaAlpha = cfg.ewmaAlpha := if_pos h.alpha

theorem tuned_strategyInit (h : ProbeConfig cfg) : Tuned cfg cfg.pathCount (strategyInit cfg) where
  config := h
  pathCount := rfl
  alpha := effectiveAlpha_of_probeConfig h
  threshold := rfl
  level p hp := by
    simp only [strategyInit, if_pos hp]
    exact ⟨le_rfl, zero_le_one⟩

theorem tuned_apply (h : Tuned cfg n ctx) {call : StrategyCall}
    (hnew : ∀ new, call = .reload new → ProbeConfig new) :
    Tuned (call.config cfg) n (call.apply ctx) := by
  by_cases hcall : ∃ new, call = .reload new
  · obtain ⟨new, rfl⟩ := hcall
    have hconfig := hnew new rfl
    refine ⟨hconfig, h.pathCount, effectiveAlpha_of_probeConfig hconfig, rfl, fun p hp => ?_⟩
    have hkeep : ((StrategyCall.apply ctx (.reload new)).paths p).lossRate =
        (ctx.paths p).lossRate := by
      simp only [StrategyCall.apply, strategyReload]
      split_ifs <;> rfl
    rw [hkeep]
    exact h.level p hp
  · have hother : ∀ new, call ≠ .reload new := fun new hreload => hcall ⟨new, hreload⟩
    have hsame : call.config cfg = cfg := by
      cases call with
      | nextPath => rfl
      | updateProbe q rttUs received => rfl
      | reload new => exact absurd rfl (hother new)
    rw [hsame]
    have hparameters : SameParameters ctx (call.apply ctx) := by
      cases call with
      | nextPath => exact (monitorOf_strategyNextPath (p := 0) ctx).1
      | updateProbe q rttUs received =>
          by_cases hq : q < ctx.pathCount
          · exact (monitorOf_strategyUpdateProbe hq q rttUs received).1
          · have hkeep : strategyUpdateProbe ctx q rttUs received = ctx := if_pos (not_lt.mp hq)
            rw [StrategyCall.apply, hkeep]
            exact ⟨rfl, rfl, rfl⟩
      | reload new => exact absurd rfl (hother new)
    refine ⟨h.config, hparameters.pathCount.trans h.pathCount, hparameters.alpha.trans h.alpha,
      hparameters.threshold.trans h.threshold, fun p hp => ?_⟩
    have hmonitor := (monitorOf_apply (by rw [h.pathCount]; exact hp) hother).2
    have hlevel : ((call.apply ctx).paths p).lossRate =
        (Hysteresis.run ctx.ewmaAlpha ctx.lossThreshold (monitorOf ctx p)
          ((results p [call]).map observedLoss)).level := congrArg Hysteresis.Monitor.level hmonitor
    rw [hlevel]
    apply Hysteresis.mem_unit_run (by rw [h.alpha]; exact ⟨h.config.alpha.1.le, h.config.alpha.2⟩)
    · intro x hx
      obtain ⟨received, -, rfl⟩ := List.mem_map.mp hx
      exact observedLoss_mem_unit received
    · exact h.level p hp

/-- Every configuration loaded by the calls is in range. -/
def ReloadsInRange (calls : List StrategyCall) : Prop :=
  ∀ new, StrategyCall.reload new ∈ calls → ProbeConfig new

theorem tuned_calls (h : Tuned cfg n ctx) (hreload : ReloadsInRange calls) :
    Tuned (latestConfig cfg calls) n (calls.foldl StrategyCall.apply ctx) := by
  induction calls generalizing cfg ctx with
  | nil => exact h
  | cons call calls ih =>
      apply ih
      · apply tuned_apply h
        rintro new rfl
        exact hreload new List.mem_cons_self
      · intro new hnew
        exact hreload new (List.mem_cons_of_mem call hnew)

/-! ## Flips and settling -/

/-- Loss rate and liveness of path `p` with the parameters of `cfg`: the range of the loss rate,
where it stands when a call other than a reload flips the path, and how many equal results on
the path, with any other calls between them, settle it. -/
structure Hysteretic (cfg : GatewayConfig) (ctx : StrategyCtx) (p : ℕ) : Prop where
  lossRate : 0 ≤ (ctx.paths p).lossRate ∧ (ctx.paths p).lossRate ≤ 1
  dies : ∀ call : StrategyCall, (∀ new, call ≠ .reload new) → (ctx.paths p).alive = true →
    ((call.apply ctx).paths p).alive = false →
      cfg.probeLossThreshold < ((call.apply ctx).paths p).lossRate
  revives : ∀ call : StrategyCall, (∀ new, call ≠ .reload new) → (ctx.paths p).alive = false →
    ((call.apply ctx).paths p).alive = true →
      ((call.apply ctx).paths p).lossRate < cfg.probeLossThreshold / 2
  steady : ∀ call : StrategyCall, (∀ new, call ≠ .reload new) →
    cfg.probeLossThreshold / 2 ≤ ((call.apply ctx).paths p).lossRate →
    ((call.apply ctx).paths p).lossRate ≤ cfg.probeLossThreshold →
      ((call.apply ctx).paths p).alive = (ctx.paths p).alive
  lost : ∀ m, (1 - cfg.ewmaAlpha) ^ m < 1 - cfg.probeLossThreshold →
    ∀ probes, NoReload probes → results p probes = List.replicate m false →
      ((probes.foldl StrategyCall.apply ctx).paths p).alive = false
  received : ∀ m, (1 - cfg.ewmaAlpha) ^ m < cfg.probeLossThreshold / 2 →
    ∀ probes, NoReload probes → results p probes = List.replicate m true →
      ((probes.foldl StrategyCall.apply ctx).paths p).alive = true

theorem alive_apply (hp : p < ctx.pathCount) {call : StrategyCall}
    (hcall : ∀ new, call ≠ .reload new) :
    ((call.apply ctx).paths p).alive = (ctx.paths p).alive ∨
      ((call.apply ctx).paths p).alive =
        Hysteresis.switch ctx.lossThreshold (ctx.paths p).alive
          ((call.apply ctx).paths p).lossRate := by
  cases call with
  | nextPath =>
      left
      exact congrArg Hysteresis.Monitor.up (monitorOf_strategyNextPath ctx).2
  | updateProbe q rttUs received =>
      have hmonitor := (monitorOf_strategyUpdateProbe hp q rttUs received).2
      by_cases hqp : q = p
      · right
        rw [if_pos hqp] at hmonitor
        have hup := congrArg Hysteresis.Monitor.up hmonitor
        have hlevel := congrArg Hysteresis.Monitor.level hmonitor
        calc ((strategyUpdateProbe ctx q rttUs received).paths p).alive
            = Hysteresis.switch ctx.lossThreshold (ctx.paths p).alive
                (Hysteresis.average ctx.ewmaAlpha (ctx.paths p).lossRate
                  (observedLoss received)) := hup
          _ = _ := congrArg (Hysteresis.switch ctx.lossThreshold (ctx.paths p).alive) hlevel.symm
      · left
        rw [if_neg hqp] at hmonitor
        exact congrArg Hysteresis.Monitor.up hmonitor
  | reload new => exact absurd rfl (hcall new)

theorem alive_calls (hp : p < ctx.pathCount) {m : ℕ} {received : Bool} (hno : NoReload calls)
    (hresults : results p calls = List.replicate m received) :
    ((calls.foldl StrategyCall.apply ctx).paths p).alive =
      (Hysteresis.run ctx.ewmaAlpha ctx.lossThreshold (monitorOf ctx p)
        (List.replicate m (observedLoss received))).up := by
  have hmonitor := monitorOf_calls hp hno
  rw [hresults, List.map_replicate] at hmonitor
  exact congrArg Hysteresis.Monitor.up hmonitor

theorem hysteretic_of_tuned (h : Tuned cfg n ctx) (hp : p < n) : Hysteretic cfg ctx p := by
  have hcount : p < ctx.pathCount := by
    rw [h.pathCount]
    exact hp
  have hhalf : cfg.probeLossThreshold / 2 = cfg.probeLossThreshold * (1 / 2) := by ring
  have halpha := h.config.alpha
  have hthreshold := h.config.threshold
  refine ⟨h.level p hp, fun call hcall hup hdown => ?_, fun call hcall hdown hup => ?_,
    fun call hcall hlow hhigh => ?_, fun m hm probes hno hresults => ?_,
    fun m hm probes hno hresults => ?_⟩
  · rcases alive_apply hcount hcall with hkeep | hswitch
    · rw [hkeep, hup] at hdown
      cases hdown
    · rw [hswitch] at hdown
      rw [← h.threshold]
      exact Hysteresis.not_up_of_flip hup hdown
  · rcases alive_apply hcount hcall with hkeep | hswitch
    · rw [hkeep, hdown] at hup
      cases hup
    · rw [hswitch] at hup
      rw [hhalf, ← h.threshold]
      exact Hysteresis.up_of_flip hdown hup
  · rcases alive_apply hcount hcall with hkeep | hswitch
    · exact hkeep
    · rw [hhalf, ← h.threshold] at hlow
      rw [← h.threshold] at hhigh
      rw [hswitch]
      exact Hysteresis.switch_of_between hlow hhigh
  · rw [alive_calls hcount hno hresults, h.alpha, h.threshold]
    exact Hysteresis.up_run_ones halpha.2 hthreshold.1 (h.level p hp).1 hm
  · rw [alive_calls hcount hno hresults, h.alpha, h.threshold]
    rw [hhalf] at hm
    exact Hysteresis.up_run_zeros halpha.2 (by linarith) (h.level p hp).2 hm

/-- **EWMA and hysteresis.** In every state that calls lead to from the start, whatever their
order, if all configurations loaded have their probe parameters in range. -/
theorem hysteretic_calls (hcfg : ProbeConfig cfg) (hreload : ReloadsInRange calls)
    (hp : p < cfg.pathCount) :
    Hysteretic (latestConfig cfg calls) (calls.foldl StrategyCall.apply (strategyInit cfg)) p :=
  hysteretic_of_tuned (tuned_calls (tuned_strategyInit hcfg) hreload) hp

theorem probeConfig_makeCfg (n : ℕ) (ratio : ℚ) : ProbeConfig (makeCfg n ratio) where
  alpha := by norm_num [makeCfg, configDefaults]
  threshold := by norm_num [makeCfg, configDefaults]

theorem hysteretic_calls_twoLost :
    ProbeConfig (makeCfg 2 1) ∧ ReloadsInRange [.updateProbe 0 0 false, .updateProbe 1 0 false] ∧
      Hysteretic (makeCfg 2 1)
        ([StrategyCall.updateProbe 0 0 false, .updateProbe 1 0 false].foldl StrategyCall.apply
          (strategyInit (makeCfg 2 1))) 0 := by
  have hreload : ReloadsInRange [.updateProbe 0 0 false, .updateProbe 1 0 false] := by
    intro new hnew
    simp at hnew
  exact ⟨probeConfig_makeCfg 2 1, hreload,
    hysteretic_calls (probeConfig_makeCfg 2 1) hreload Nat.two_pos⟩

end CodingGateway.Proofs.ProbeHysteresis
