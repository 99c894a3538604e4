import CodingGateway.Library.Latch
import CodingGateway.Proofs.PathHealth
set_option autoImplicit false

/-!
# Dead paths

The event loop reports answered probes to `strategy_update_probe` and never a lost one.
So the loss rate of every path stays zero, and nothing but a reload that disables a path
makes it dead.
-/

namespace CodingGateway.Proofs.DeadPath

open CodingGateway.Model
open CodingGateway.Library
open CodingGateway.Proofs.EventLoop
open CodingGateway.Proofs.Scheduler
open CodingGateway.Proofs.PathHealth

/-! ## A gateway that sends -/

/-- No path has lost a probe as far as the strategy knows, and the threshold is positive. -/
structure Lossless (ctx : StrategyCtx) : Prop where
  loss : ∀ i, (ctx.paths i).lossRate = 0
  threshold : 0 < ctx.lossThreshold

/-- The configuration that the turn loads, if any, has a loss threshold in `(0,1)`. -/
def ValidReload (inp : MainInput) : Prop :=
  ∀ cfg, inp.reload = some (some cfg) →
    0 < cfg.probeLossThreshold ∧ cfg.probeLossThreshold < 1

/-- What a turn does to the health of the paths in a mode that sends. -/
structure HealthStep (st : MainState) (inp : MainInput) (st' : MainState) (out : MainOutput) :
    Prop where
  lossless : Lossless st'.sctx
  pathCount : st'.sctx.pathCount = st.sctx.pathCount
  alive : ∀ i < st.sctx.pathCount, (st'.sctx.paths i).alive = true ↔
    ((st.sctx.paths i).alive = true ∨ EchoOn st.tctx inp i) ∧ ¬ DisabledBy inp i
  probed : ∀ p ∈ out.probed, (st'.sctx.paths p).alive = true

theorem nextThreshold_pos {θ : ℚ} {inp : MainInput} (hθ : 0 < θ) (hvalid : ValidReload inp) :
    0 < nextThreshold θ inp := by
  unfold nextThreshold
  split
  · exact (hvalid _ ‹_›).1
  · exact hθ

theorem healthStep_mainStep {fuel : ℕ} {st st' : MainState} {inp : MainInput} {out : MainOutput}
    (htx : st.isTx = true) (hl : Lossless st.sctx) (hvalid : ValidReload inp)
    (h : mainStep fuel st inp = some (st', out)) : HealthStep st inp st' out := by
  have hstep := pathStep_mainStep hl.loss h
  refine ⟨⟨hstep.lossFree, ?_⟩, hstep.pathCount, fun i hi => ?_, fun p hp => ?_⟩
  · rw [hstep.threshold]
    exact nextThreshold_pos hl.threshold hvalid
  · have hecho : EchoOn st.tctx inp i → ¬ DisabledBy inp i := fun h => not_disabledBy h.1 i
    rw [hstep.alive i hi]
    simp only [Revives, Stops, htx, hl.threshold, hl.threshold.le.not_gt, true_and, and_true,
      and_false, or_false]
    tauto
  · exact ((hstep.probed p).mp hp).2.2.1

/-! ## Runs -/

/-- The number of probes that left on path `i`. -/
def probesOn (i : ℕ) (outs : List MainOutput) : ℕ := (outs.map fun out => out.probed.count i).sum

/-- Some turn loads a configuration in which path `i` is disabled, and no later turn reads an
echo on that path. -/
def DisabledLast (tctx : TransportCtx) (inputs : List MainInput) (i : ℕ) : Prop :=
  ∃ before inp after, inputs = before ++ inp :: after ∧ DisabledBy inp i ∧
    ∀ later ∈ after, ¬ EchoOn tctx later i

theorem disabledLast_concat {tctx : TransportCtx} {inputs : List MainInput} {inp : MainInput}
    {i : ℕ} : DisabledLast tctx (inputs ++ [inp]) i ↔
      DisabledBy inp i ∨ DisabledLast tctx inputs i ∧ ¬ EchoOn tctx inp i :=
  Latch.since_concat

/-- What holds of path `i` along a stretch of turns. -/
structure PathHistory (tctx : TransportCtx) (i : ℕ) (inputs : List MainInput) (st : MainState)
    (outs : List MainOutput) : Prop where
  isTx : st.isTx = true
  sockets : st.tctx = tctx
  inRange : i < st.sctx.pathCount
  lossless : Lossless st.sctx
  dead : DisabledLast tctx inputs i → (st.sctx.paths i).alive = false
  alive : ¬ DisabledLast tctx inputs i → 0 < probesOn i outs → (st.sctx.paths i).alive = true

theorem pathHistory_step {fuel : ℕ} {tctx : TransportCtx} {i : ℕ} {inputs : List MainInput}
    {st st' : MainState} {outs : List MainOutput} {inp : MainInput} {out : MainOutput}
    (hhist : PathHistory tctx i inputs st outs) (hvalid : ValidReload inp)
    (hstep : mainStep fuel st inp = some (st', out)) :
    PathHistory tctx i (inputs ++ [inp]) st' (outs ++ [out]) := by
  obtain ⟨htx, htctx, hi, hl, hdead, halive⟩ := hhist
  have hsetup := (mainStep_window hstep).1
  have hhealth := healthStep_mainStep htx hl hvalid hstep
  have hiff := hhealth.alive i hi
  rw [htctx] at hiff
  refine ⟨hsetup.isTx.trans htx, hsetup.tctx.trans htctx, by rw [hhealth.pathCount]; exact hi,
    hhealth.lossless, ?_, ?_⟩
  · rw [disabledLast_concat]
    rintro (hdis | ⟨hlast, hecho⟩)
    · exact Bool.eq_false_iff.mpr fun h => (hiff.mp h).2 hdis
    · refine Bool.eq_false_iff.mpr fun h => ?_
      rcases (hiff.mp h).1 with hold | hecho'
      · rw [hdead hlast] at hold
        cases hold
      · exact hecho hecho'
  · rw [disabledLast_concat]
    intro hnot hprobes
    have hdis : ¬ DisabledBy inp i := fun h => hnot (Or.inl h)
    by_cases hecho : EchoOn tctx inp i
    · exact hiff.mpr ⟨Or.inr hecho, hdis⟩
    · have hlast : ¬ DisabledLast tctx inputs i := fun h => hnot (Or.inr ⟨h, hecho⟩)
      by_cases hnew : i ∈ out.probed
      · exact hhealth.probed i hnew
      · have hzero : out.probed.count i = 0 := List.count_eq_zero.mpr hnew
        simp only [probesOn, List.map_append, List.map_cons, List.map_nil, List.sum_append,
          List.sum_singleton, hzero, Nat.add_zero] at hprobes
        exact hiff.mpr ⟨Or.inl (halive hlast hprobes), hdis⟩

theorem lossless_strategyInit {cfg : GatewayConfig} (hpos : 0 < cfg.probeLossThreshold) :
    Lossless (strategyInit cfg) := ⟨lossFree_strategyInit cfg, hpos⟩

theorem lossless_mainRun {fuel : ℕ} {cfg : GatewayConfig} {tctx : TransportCtx}
    {crypto : CryptoCtx} {now : Timeval} {inputs : List MainInput} {st : MainState}
    {outs : List MainOutput} (htx : cfg.mode = chars "tx" ∨ cfg.mode = chars "both")
    (hpos : 0 < cfg.probeLossThreshold) (hvalid : ∀ inp ∈ inputs, ValidReload inp)
    (hrun : mainRun fuel (mainInit cfg tctx crypto now) inputs = some (st, outs)) :
    st.isTx = true ∧ Lossless st.sctx ∧ st.sctx.pathCount = cfg.pathCount := by
  revert hvalid
  refine Machine.run_induction
    (P := fun inputs st _ => (∀ inp ∈ inputs, ValidReload inp) →
      st.isTx = true ∧ Lossless st.sctx ∧ st.sctx.pathCount = cfg.pathCount)
    (fun _ => ⟨decide_eq_true htx, lossless_strategyInit hpos, rfl⟩) ?_ hrun
  intro inputs st outs inp st' out _ ih hstep hvalid
  obtain ⟨hmode, hl, hcount⟩ := ih fun x hx => hvalid x (List.mem_append_left _ hx)
  have hlast : ValidReload inp := hvalid inp (List.mem_append_right _ (List.mem_singleton_self inp))
  have hhealth := healthStep_mainStep hmode hl hlast hstep
  exact ⟨(mainStep_window hstep).1.isTx.trans hmode, hhealth.lossless,
    hhealth.pathCount.trans hcount⟩

theorem pathHistory_mainRun {fuel i : ℕ} {st₀ st : MainState} {inputs : List MainInput}
    {outs : List MainOutput} (htx : st₀.isTx = true) (hl : Lossless st₀.sctx)
    (hi : i < st₀.sctx.pathCount) (hvalid : ∀ inp ∈ inputs, ValidReload inp)
    (hrun : mainRun fuel st₀ inputs = some (st, outs)) :
    PathHistory st₀.tctx i inputs st outs := by
  revert hvalid
  refine Machine.run_induction
    (P := fun inputs st outs => (∀ inp ∈ inputs, ValidReload inp) →
      PathHistory st₀.tctx i inputs st outs) (fun _ => ?_) ?_ hrun
  · refine ⟨htx, rfl, hi, hl, ?_, fun _ hprobes => ?_⟩
    · rintro ⟨before, inp, after, heq, _⟩
      exact absurd heq (by simp)
    · simp [probesOn] at hprobes
  · intro inputs st outs inp st' out _ ih hstep hvalid
    have hlast : ValidReload inp :=
      hvalid inp (List.mem_append_right _ (List.mem_singleton_self inp))
    exact pathHistory_step (ih fun x hx => hvalid x (List.mem_append_left _ hx)) hlast hstep

/-! ## What the scheduler sees -/

/-- Path `i` is not alive, is skipped by `strategy_next_path`, and is no member of the alive
paths that `strategy_compute_n` counts. -/
def CountedDead (ctx : StrategyCtx) (i : ℕ) : Prop :=
  (ctx.paths i).alive = false ∧ (strategyNextPath ctx).2 ≠ some i ∧ ctx.usable i = false

theorem countedDead_iff (ctx : StrategyCtx) (i : ℕ) :
    CountedDead ctx i ↔ (ctx.paths i).alive = false := by
  refine ⟨fun h => h.1, fun h => ?_⟩
  have husable : ctx.usable i = false := by simp [StrategyCtx.usable, h]
  refine ⟨h, fun hpick => ?_, husable⟩
  rw [usable_of_strategyNextPath hpick] at husable
  cases husable

/-- **Dead-path detection.** Take any run of the event loop in a mode that sends, and in its
last turns `m` probes that left on path `i`, enough for a loss rate of `1 - (1 - alpha) ^ m`
to exceed the threshold.  Then the path counts as dead exactly if one of these turns loaded a
configuration with the path disabled and no echo on it was read after that.  Whether the
probes were answered plays no other part. -/
theorem countedDead_iff_disabledLast {fuel m i : ℕ} {cfg : GatewayConfig} {tctx : TransportCtx}
    {crypto : CryptoCtx} {now : Timeval} {before inputs : List MainInput} {st₀ st : MainState}
    {outs₀ outs : List MainOutput} (htx : cfg.mode = chars "tx" ∨ cfg.mode = chars "both")
    (hthreshold : 0 < cfg.probeLossThreshold ∧ cfg.probeLossThreshold < 1)
    (hvalid : ∀ inp ∈ before ++ inputs, ValidReload inp)
    (hrun₀ : mainRun fuel (mainInit cfg tctx crypto now) before = some (st₀, outs₀))
    (hrun : mainRun fuel st₀ inputs = some (st, outs)) (hi : i < cfg.pathCount)
    (hprobes : m ≤ probesOn i outs)
    (hloss : (1 - st.sctx.ewmaAlpha) ^ m < 1 - st.sctx.lossThreshold) :
    CountedDead st.sctx i ↔ DisabledLast tctx inputs i := by
  obtain ⟨hmode, hl, hcount⟩ := lossless_mainRun htx hthreshold.1
    (fun x hx => hvalid x (List.mem_append_left _ hx)) hrun₀
  have hhist := pathHistory_mainRun hmode hl (by rw [hcount]; exact hi)
    (fun x hx => hvalid x (List.mem_append_right _ hx)) hrun
  have htctx : st₀.tctx = tctx := (sameSetup_mainRun hrun₀).tctx
  rw [htctx] at hhist
  have hm : 0 < m := by
    rcases Nat.eq_zero_or_pos m with rfl | hm
    · rw [pow_zero] at hloss
      have hpos := hhist.lossless.threshold
      linarith
    · exact hm
  rw [countedDead_iff]
  constructor
  · intro hdead
    by_contra hlast
    rw [hhist.alive hlast (by omega)] at hdead
    cases hdead
  · exact hhist.dead

/-! ## Two probes that nobody answers -/

/-- A sender with one path; two lost probes should raise its loss rate to `9 / 25`. -/
def onePathConfig : GatewayConfig where
  mode := chars "tx"
  tunName := chars "tun0"
  tunAddr := []
  k := 2
  redundancyRatio := 3 / 2
  blockTimeoutMs := 5
  maxPayload := 1400
  windowSize := 8
  strategyType := chars "weighted"
  probeIntervalMs := 500
  probeLossThreshold := 3 / 10
  ewmaAlpha := 1 / 5
  listenPort := 7000
  paths _ := ⟨[], [], [], 7000, 1, true⟩
  pathCount := 1
  metricsPort := 0
  logLevel := 0
  cryptoKey := []
  ipForward := false
  forwardRoutes _ := []
  forwardRouteCount := 0

/-- The probe timer is due and no datagram arrives. -/
def lostProbe (sec : ℤ) : MainInput := { quietTurn with probeTime := ⟨sec, 0⟩ }

def onePathSocket : TransportCtx := ⟨fun _ => ⟨0, 0, true⟩, 1⟩

/-- Two probes that left and were lost, a second apart. -/
def twoLostProbes : Option (MainState × List MainOutput) :=
  mainRun 4 (mainInit onePathConfig onePathSocket (cryptoInit none) ⟨0, 0⟩)
    [lostProbe 1, lostProbe 2]

theorem twoLostProbes_outcome :
    ∃ st outs, twoLostProbes = some (st, outs) ∧ probesOn 0 outs = 2 ∧
      (1 - st.sctx.ewmaAlpha) ^ 2 < 1 - st.sctx.lossThreshold ∧
      (strategyNextPath st.sctx).2 = some 0 := by
  have hcheck : twoLostProbes.map (fun r => (probesOn 0 r.2,
      decide ((1 - r.1.sctx.ewmaAlpha) ^ 2 < 1 - r.1.sctx.lossThreshold),
      (strategyNextPath r.1.sctx).2)) = some (2, true, some 0) := by
    decide +kernel
  cases hrun : twoLostProbes with
  | none =>
      rw [hrun] at hcheck
      cases hcheck
  | some r =>
      rw [hrun, Option.map_some, Option.some.injEq, Prod.mk.injEq, Prod.mk.injEq] at hcheck
      exact ⟨r.1, r.2, rfl, hcheck.1, of_decide_eq_true hcheck.2.1, hcheck.2.2⟩

/-- Nothing answered them, and the path is still scheduled. -/
theorem not_countedDead_twoLostProbes :
    ∃ st outs, twoLostProbes = some (st, outs) ∧ probesOn 0 outs = 2 ∧
      (1 - st.sctx.ewmaAlpha) ^ 2 < 1 - st.sctx.lossThreshold ∧ ¬ CountedDead st.sctx 0 := by
  obtain ⟨st, outs, hrun, hprobes, hloss, hpick⟩ := twoLostProbes_outcome
  exact ⟨st, outs, hrun, hprobes, hloss, fun h => h.2.1 hpick⟩

theorem countedDead_iff_disabledLast_twoLostProbes :
    ∃ st outs, twoLostProbes = some (st, outs) ∧
      (CountedDead st.sctx 0 ↔ DisabledLast onePathSocket [lostProbe 1, lostProbe 2] 0) := by
  obtain ⟨st, outs, hrun, hprobes, hloss, _⟩ := twoLostProbes_outcome
  have hvalid : ∀ inp ∈ [] ++ [lostProbe 1, lostProbe 2], ValidReload inp := by
    intro inp hinp cfg hcfg
    have hnone : inp.reload = none := by
      simp only [List.nil_append, List.mem_cons, List.not_mem_nil, or_false] at hinp
      rcases hinp with rfl | rfl
      · rfl
      · rfl
    rw [hnone] at hcfg
    cases hcfg
  have hthreshold : 0 < onePathConfig.probeLossThreshold ∧
      onePathConfig.probeLossThreshold < 1 := by
    norm_num [onePathConfig]
  have hstart : mainRun 4 (mainInit onePathConfig onePathSocket (cryptoInit none) ⟨0, 0⟩) [] =
      some (mainInit onePathConfig onePathSocket (cryptoInit none) ⟨0, 0⟩, []) := rfl
  exact ⟨st, outs, hrun, countedDead_iff_disabledLast (Or.inl rfl) hthreshold hvalid hstart hrun
    (by decide) hprobes.ge hloss⟩

end CodingGateway.Proofs.DeadPath
