import CodingGateway.Proofs.DeadPath
import CodingGateway.Proofs.RoundRobin
set_option autoImplicit false

/-!
# Paths that are enabled again

A reload that disables a path makes it dead, the probe timer passes over dead paths, and
only an echo makes a path alive.  So a path that is enabled again stays out of use until
an echo is read on it, however many probe intervals go by
(`backInUse_iff_revived`).
-/

namespace CodingGateway.Proofs.Reenabled

open CodingGateway.Model
open CodingGateway.Library
open CodingGateway.Proofs.EventLoop
open CodingGateway.Proofs.Scheduler
open CodingGateway.Proofs.PathHealth
open CodingGateway.Proofs.DeadPath
open CodingGateway.Proofs.RoundRobin

/-! ## The flags of a path over a run -/

/-- The gateway sends, so it probes its paths and listens for echoes. -/
def Sends (cfg : GatewayConfig) : Prop := cfg.mode = chars "tx" ∨ cfg.mode = chars "both"

/-- The turns, each beside the loss threshold that it starts with. -/
def stamped (θ : ℚ) : List MainInput → List (ℚ × MainInput)
  | [] => []
  | inp :: rest => (θ, inp) :: stamped (nextThreshold θ inp) rest

theorem stamped_concat (θ : ℚ) (inputs : List MainInput) (inp : MainInput) :
    stamped θ (inputs ++ [inp]) = stamped θ inputs ++ [(inputs.foldl nextThreshold θ, inp)] := by
  induction inputs generalizing θ with
  | nil => rfl
  | cons x inputs ih =>
      simp only [List.cons_append, stamped, List.foldl_cons]
      rw [ih]

theorem mem_stamped {θ : ℚ} {inputs : List MainInput} {inp : MainInput} (h : inp ∈ inputs) :
    ∃ θ', (θ', inp) ∈ stamped θ inputs := by
  induction inputs generalizing θ with
  | nil => cases h
  | cons x inputs ih =>
      rcases List.mem_cons.mp h with rfl | h
      · exact ⟨θ, List.mem_cons_self⟩
      · obtain ⟨θ', hmem⟩ := ih h
        exact ⟨θ', List.mem_cons_of_mem _ hmem⟩

/-- Some turn revives path `i`, and no later one stops it. -/
def Revived (cfg : GatewayConfig) (tctx : TransportCtx) (inputs : List MainInput) (i : ℕ) :
    Prop :=
  Latch.Since (Revives (Sends cfg) tctx i) (fun turn => ¬ Stops (Sends cfg) tctx i turn)
    (stamped cfg.probeLossThreshold inputs)

/-- Path `i` was enabled at the start and no turn stopped it, or it was revived. -/
def KeptAlive (cfg : GatewayConfig) (tctx : TransportCtx) (inputs : List MainInput) (i : ℕ) :
    Prop :=
  Latch.Latched (Revives (Sends cfg) tctx i) (fun turn => ¬ Stops (Sends cfg) tctx i turn)
    ((cfg.paths i).enabled = true) (stamped cfg.probeLossThreshold inputs)

section Run

variable {fuel i : ℕ} {cfg : GatewayConfig} {tctx : TransportCtx} {crypto : CryptoCtx}
  {now : Timeval} {inputs : List MainInput} {st : MainState} {outs : List MainOutput}

/-- What every run keeps: the mode, the sockets and the number of paths; no path loses a
probe, and the threshold is that of the last configuration loaded. -/
structure Steady (cfg : GatewayConfig) (tctx : TransportCtx) (inputs : List MainInput)
    (st : MainState) : Prop where
  isTx : st.isTx = true ↔ Sends cfg
  tctx : st.tctx = tctx
  lossFree : LossFree st.sctx
  threshold : st.sctx.lossThreshold = inputs.foldl nextThreshold cfg.probeLossThreshold
  pathCount : st.sctx.pathCount = cfg.pathCount
  beyond : ∀ i, cfg.pathCount ≤ i → (st.sctx.paths i).alive = false

theorem steady_mainInit : Steady cfg tctx [] (mainInit cfg tctx crypto now) :=
  ⟨decide_eq_true_iff, rfl, lossFree_strategyInit cfg, rfl, rfl, fun i hi => by
    change ((strategyInit cfg).paths i).alive = false
    simp only [strategyInit, if_neg (Nat.not_lt.mpr hi), zeroPath]⟩

theorem steady_mainStep {st' : MainState} {inp : MainInput} {out : MainOutput}
    (h : Steady cfg tctx inputs st) (hstep : mainStep fuel st inp = some (st', out)) :
    Steady cfg tctx (inputs ++ [inp]) st' := by
  have hsetup := (mainStep_window hstep).1
  have hpath := pathStep_mainStep h.lossFree hstep
  refine ⟨?_, hsetup.tctx.trans h.tctx, hpath.lossFree, ?_, hpath.pathCount.trans h.pathCount,
    fun i hi => ?_⟩
  · rw [hsetup.isTx]
    exact h.isTx
  · rw [hpath.threshold, h.threshold, List.foldl_append]
    rfl
  · rw [hpath.beyond i (by rw [h.pathCount]; exact hi)]
    exact h.beyond i hi

theorem enabled_mainInit (tctx : TransportCtx) (crypto : CryptoCtx) (now : Timeval)
    (hi : i < cfg.pathCount) :
    ((mainInit cfg tctx crypto now).sctx.paths i).cfg.enabled = (cfg.paths i).enabled := by
  change ((strategyInit cfg).paths i).cfg.enabled = _
  simp only [strategyInit, if_pos hi]

theorem alive_mainInit (tctx : TransportCtx) (crypto : CryptoCtx) (now : Timeval)
    (hi : i < cfg.pathCount) :
    ((mainInit cfg tctx crypto now).sctx.paths i).alive = (cfg.paths i).enabled := by
  change ((strategyInit cfg).paths i).alive = _
  simp only [strategyInit, if_pos hi]

theorem enabled_mainRun
    (hrun : mainRun fuel (mainInit cfg tctx crypto now) inputs = some (st, outs))
    (hi : i < cfg.pathCount) : (st.sctx.paths i).cfg.enabled = true ↔
      Latch.Latched (EnabledBy · i) (fun inp => ¬ DisabledBy inp i)
        ((cfg.paths i).enabled = true) inputs := by
  rw [← enabled_mainInit tctx crypto now hi]
  refine (Latch.latched_of_run (I := Steady cfg tctx)
    (F := fun st => (st.sctx.paths i).cfg.enabled = true) (E := id) rfl steady_mainInit
    (fun inputs st inp st' out h hstep => ⟨steady_mainStep h hstep, inp, rfl, ?_⟩) hrun).2
  exact (pathStep_mainStep h.lossFree hstep).enabled i (by rw [h.pathCount]; exact hi)

/-- A path is alive exactly if it was kept alive. -/
theorem alive_mainRun
    (hrun : mainRun fuel (mainInit cfg tctx crypto now) inputs = some (st, outs))
    (hi : i < cfg.pathCount) : Steady cfg tctx inputs st ∧
      ((st.sctx.paths i).alive = true ↔ KeptAlive cfg tctx inputs i) := by
  rw [KeptAlive, ← alive_mainInit tctx crypto now hi]
  refine Latch.latched_of_run (I := Steady cfg tctx)
    (F := fun st => (st.sctx.paths i).alive = true)
    (E := stamped cfg.probeLossThreshold) rfl steady_mainInit
    (fun inputs st inp st' out h hstep => ⟨steady_mainStep h hstep, _, stamped_concat _ _ _, ?_⟩)
    hrun
  have halive := (pathStep_mainStep h.lossFree hstep).alive i (by rw [h.pathCount]; exact hi)
  rw [h.isTx, h.tctx, h.threshold] at halive
  exact halive

end Run

/-! ## Back in use -/

/-- Path `i` is alive, and `strategy_next_path` gets to it. -/
def BackInUse (ctx : StrategyCtx) (i : ℕ) : Prop :=
  (ctx.paths i).alive = true ∧ Selectable ctx i

theorem backInUse_iff_alive {ctx : StrategyCtx} {i : ℕ} (hi : i < ctx.pathCount)
    (henabled : (ctx.paths i).cfg.enabled = true) :
    BackInUse ctx i ↔ (ctx.paths i).alive = true := by
  rw [BackInUse, selectable_iff_usable hi, StrategyCtx.usable, henabled, Bool.true_and, and_self]

theorem latched_enabled {on : Prop} {before after : List MainInput} {x : MainInput} {i : ℕ}
    (hon : EnabledBy x i) (hafter : ∀ later ∈ after, ¬ DisabledBy later i) :
    Latch.Latched (EnabledBy · i) (fun inp => ¬ DisabledBy inp i) on (before ++ x :: after) :=
  Or.inl ⟨before, x, after, rfl, hon, hafter⟩

theorem keptAlive_iff_revived {cfg : GatewayConfig} {tctx : TransportCtx}
    {inputs : List MainInput} {off : MainInput} {i : ℕ} (hmem : off ∈ inputs)
    (hoff : DisabledBy off i) : KeptAlive cfg tctx inputs i ↔ Revived cfg tctx inputs i := by
  obtain ⟨θ, hturn⟩ := mem_stamped (θ := cfg.probeLossThreshold) hmem
  exact Latch.latched_iff_since hturn fun hkeeps => hkeeps (Or.inl hoff)

/-- **Paths that are enabled again.** Take any run from the initial state.  If a reload
disables path `i` and a later one enables it for good, then, whatever was probed, answered or
waited for since, the path is alive and gets selected exactly if an echo revived it after it
was last disabled.  And in any state of any run a probe tick sends a probe on path `i`
exactly if the path was kept alive and its socket takes the probe, whether the current
configuration enables it or not. -/
theorem backInUse_iff_revived {fuel i : ℕ} {cfg : GatewayConfig} {tctx : TransportCtx}
    {crypto : CryptoCtx} {now : Timeval} {inputs : List MainInput} {st : MainState}
    {outs : List MainOutput}
    (hrun : mainRun fuel (mainInit cfg tctx crypto now) inputs = some (st, outs))
    (hi : i < cfg.pathCount) :
    (∀ before off between on after, inputs = before ++ off :: (between ++ on :: after) →
      DisabledBy off i → EnabledBy on i → (∀ later ∈ after, ¬ DisabledBy later i) →
      (BackInUse st.sctx i ↔ Revived cfg tctx inputs i)) ∧
    ∀ inp st' out, ProbeTick st inp → mainStep fuel st inp = some (st', out) →
      (i ∈ out.probed ↔
        KeptAlive cfg tctx (inputs ++ [inp]) i ∧ sendBuf tctx i (inp.probeAccepted i) = true) := by
  obtain ⟨hsteady, halive⟩ := alive_mainRun hrun hi
  constructor
  · intro before off between on after hsplit hoff hon hafter
    have henabled : (st.sctx.paths i).cfg.enabled = true := by
      rw [enabled_mainRun hrun hi, hsplit, List.append_cons, ← List.append_assoc]
      exact latched_enabled hon hafter
    have hmem : off ∈ inputs := by
      rw [hsplit]
      exact List.mem_append_right _ List.mem_cons_self
    have hcount : i < st.sctx.pathCount := by
      rw [hsteady.pathCount]
      exact hi
    rw [backInUse_iff_alive hcount henabled, halive, keptAlive_iff_revived hmem hoff]
  · intro inp st' out htick hstep
    have hnext := (alive_mainRun (Machine.run_concat_eq_some.mpr ⟨st, outs, out, hrun, hstep, rfl⟩)
      hi).2
    have hprobed := (pathStep_mainStep hsteady.lossFree hstep).probed i
    rw [and_iff_right htick, hsteady.pathCount, and_iff_right hi, hnext, hsteady.tctx] at hprobed
    exact hprobed

/-! ## A path that never comes back -/

/-- The configuration of the sender with one path, with that path disabled. -/
def pausedConfig : GatewayConfig :=
  { onePathConfig with paths := fun i => { onePathConfig.paths i with enabled := false } }

def reloadTurn (cfg : GatewayConfig) : MainInput := { quietTurn with reload := some (some cfg) }

def onePathStart : MainState := mainInit onePathConfig onePathSocket (cryptoInit none) ⟨0, 0⟩

/-- The path is disabled, it is enabled again, and the probe timer runs out `N` times, a
second apart. -/
def pausedAndResumed (N : ℕ) : List MainInput :=
  [reloadTurn pausedConfig, reloadTurn onePathConfig] ++
    (List.range N).map fun n : ℕ => lostProbe (n + 1)

/-- The sender after `N` probe intervals. -/
def resumedState (N : ℕ) : MainState :=
  { onePathStart with
    sctx := strategyReload (strategyReload onePathStart.sctx pausedConfig) onePathConfig
    lastProbeTv := ⟨N, 0⟩ }

theorem resumedState_dead (N : ℕ) : ((resumedState N).sctx.paths 0).alive = false := rfl

theorem probeTick_resumedState (N : ℕ) : ProbeTick (resumedState N) (lostProbe (N + 1)) := by
  refine ⟨rfl, rfl, rfl, ?_⟩
  have helapsed : elapsedMs ⟨(N : ℤ) + 1, 0⟩ ⟨N, 0⟩ = 1000 := by
    simp [elapsedMs]
  change (500 : ℤ) ≤ elapsedMs ⟨(N : ℤ) + 1, 0⟩ ⟨N, 0⟩
  omega

theorem mainStep_of_quiet {fuel : ℕ} {st : MainState} {inp : MainInput}
    (hreload : inp.reload = none) (hselect : inp.selectFailed = false)
    (hpacket : inp.packet = none) (hempty : st.tx.pktCount = 0) (harrival : inp.arrival = none) :
    mainStep fuel st inp = some ((mainProbe st inp).1,
      { idleOutput with
        sent := (mainProbe st inp).2.map fun p => (p, probeDatagram typeProbe inp.probeUs)
        probed := (mainProbe st inp).2 }) := by
  have hread : mainRead st inp = (st, [], []) := by
    rw [mainRead, hpacket, ite_self]
  have htimeout : mainTimeout st inp = (st, [], []) := by
    rw [mainTimeout, txBlockNeedsFlush, if_pos hempty, Bool.and_false]
    rfl
  have hrx : mainRx fuel st inp = some (st, none, []) := by
    rw [mainRx, harrival]
  simp only [mainStep, hreload, hselect, hread, htimeout, hrx]
  rfl

theorem mainStep_resumedState (N : ℕ) :
    mainStep 4 (resumedState N) (lostProbe (N + 1)) = some (resumedState (N + 1), idleOutput) := by
  have hprobe : mainProbe (resumedState N) (lostProbe (N + 1)) = (resumedState (N + 1), []) := by
    have hdue := (probeTick_resumedState N).2.2
    unfold mainProbe
    rw [if_pos (by rw [hdue.1, Bool.true_and]; exact decide_eq_true hdue.2)]
    rfl
  rw [mainStep_of_quiet rfl rfl rfl rfl rfl, hprobe]
  rfl

theorem mainRun_pausedAndResumed (N : ℕ) :
    mainRun 4 onePathStart (pausedAndResumed N) =
      some (resumedState N, List.replicate (N + 2) idleOutput) := by
  induction N with
  | zero => rfl
  | succ N ih =>
      have hsplit : pausedAndResumed (N + 1) = pausedAndResumed N ++ [lostProbe (N + 1)] := by
        rw [pausedAndResumed, pausedAndResumed, List.range_succ, List.map_append,
          List.map_singleton, List.append_assoc]
      rw [hsplit]
      refine Machine.run_concat_eq_some.mpr
        ⟨_, _, _, ih, mainStep_resumedState N, List.replicate_succ'⟩

/-- After any number of probe intervals the timer runs out once more, no probe has left that
could have gone unanswered, and the path that is enabled again is not back in use. -/
theorem not_backInUse_pausedAndResumed :
    (∀ N : ℕ, ∃ st outs, mainRun 4 onePathStart (pausedAndResumed N) = some (st, outs) ∧
      ProbeTick st (lostProbe (N + 1)) ∧ (∀ out ∈ outs, out.probed = []) ∧
      (st.sctx.paths 0).cfg.enabled = true) ∧
    ¬ ∃ N : ℕ, ∀ st outs, mainRun 4 onePathStart (pausedAndResumed N) = some (st, outs) →
      BackInUse st.sctx 0 := by
  constructor
  · intro N
    refine ⟨_, _, mainRun_pausedAndResumed N, probeTick_resumedState N, fun out hout => ?_, rfl⟩
    rw [List.eq_of_mem_replicate hout]
    rfl
  · rintro ⟨N, hback⟩
    have halive := (hback _ _ (mainRun_pausedAndResumed N)).1
    rw [resumedState_dead] at halive
    cases halive

theorem backInUse_iff_revived_pausedAndResumed :
    ∃ st outs, mainRun 4 onePathStart (pausedAndResumed 2) = some (st, outs) ∧
      (BackInUse st.sctx 0 ↔ Revived onePathConfig onePathSocket (pausedAndResumed 2) 0) := by
  have hticks : ∀ later ∈ [lostProbe 1, lostProbe 2], ¬ DisabledBy later 0 := by
    intro later hlater
    apply not_disabledBy
    rcases List.mem_pair.mp hlater with rfl | rfl
    · rfl
    · rfl
  refine ⟨_, _, mainRun_pausedAndResumed 2, ?_⟩
  exact (backInUse_iff_revived (mainRun_pausedAndResumed 2) (by decide)).1 [] _ [] _ _ rfl
    ⟨pausedConfig, rfl, by decide, rfl⟩ ⟨onePathConfig, rfl, by decide, rfl⟩ hticks

end CodingGateway.Proofs.Reenabled
