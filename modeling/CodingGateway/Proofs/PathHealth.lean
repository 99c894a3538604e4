import CodingGateway.Proofs.EventLoop
import CodingGateway.Proofs.Scheduler
import Mathlib.Tactic.Linarith
set_option autoImplicit false

/-!
# What a turn does to the paths

The event loop reports answered probes to `strategy_update_probe` and never a lost one, so
the loss rate of every path stays zero.  What is left are two flags for each path: reloads
set and clear `enabled`, they clear `alive`, and echoes set it (`pathStep_mainStep`).
-/

namespace CodingGateway.Proofs.PathHealth

open CodingGateway.Model
open CodingGateway.Library
open CodingGateway.Proofs.EventLoop
open CodingGateway.Proofs.Scheduler

/-! ## Probing leaves the path states alone -/

/-- The two contexts differ in the numbers of probes sent only. -/
def CountsOnly (ctx ctx' : StrategyCtx) : Prop :=
  ∃ sent : ℕ → UInt64, ctx' =
    { ctx with paths := fun i => { ctx.paths i with probesSent := sent i } }

theorem CountsOnly.refl (ctx : StrategyCtx) : CountsOnly ctx ctx :=
  ⟨fun i => (ctx.paths i).probesSent, rfl⟩

theorem CountsOnly.trans {a b c : StrategyCtx} (h₁ : CountsOnly a b) (h₂ : CountsOnly b c) :
    CountsOnly a c := by
  obtain ⟨_, rfl⟩ := h₁
  obtain ⟨sent, rfl⟩ := h₂
  exact ⟨sent, rfl⟩

theorem CountsOnly.sameHealth {ctx ctx' : StrategyCtx} (h : CountsOnly ctx ctx') :
    SameHealth ctx ctx' := by
  obtain ⟨_, rfl⟩ := h
  exact ⟨rfl, rfl, fun _ => rfl, fun _ => rfl, fun _ => rfl⟩

theorem countsOnly_probePath (tctx : TransportCtx) (inp : MainInput)
    (acc : StrategyCtx × List ℕ) (p : ℕ) : CountsOnly acc.1 (probePath tctx inp acc p).1 := by
  obtain ⟨sctx, probed⟩ := acc
  unfold probePath
  by_cases halive : (sctx.paths p).alive = true
  · simp only [if_pos halive]
    refine ⟨Function.update (fun i => (sctx.paths i).probesSent) p
      ((sctx.paths p).probesSent + 1), ?_⟩
    congr 1
    funext i
    dsimp only
    by_cases hi : i = p
    · rw [hi, Function.update_self, Function.update_self]
    · rw [Function.update_of_ne hi, Function.update_of_ne hi]
  · simp only [if_neg halive]
    exact CountsOnly.refl sctx

theorem probePath_probed (tctx : TransportCtx) (inp : MainInput) (acc : StrategyCtx × List ℕ)
    (p q : ℕ) : q ∈ (probePath tctx inp acc p).2 ↔ q ∈ acc.2 ∨
      q = p ∧ (acc.1.paths p).alive = true ∧ sendBuf tctx p (inp.probeAccepted p) = true := by
  obtain ⟨sctx, probed⟩ := acc
  unfold probePath
  dsimp only
  split_ifs with halive hsent
  · simp [halive, hsent]
  · simp [hsent]
  · simp [halive]

theorem foldl_probePath (tctx : TransportCtx) (inp : MainInput) (l : List ℕ)
    (sctx : StrategyCtx) (probed : List ℕ) :
    CountsOnly sctx (l.foldl (probePath tctx inp) (sctx, probed)).1 ∧
      ∀ q, q ∈ (l.foldl (probePath tctx inp) (sctx, probed)).2 ↔ q ∈ probed ∨ q ∈ l ∧
        (sctx.paths q).alive = true ∧ sendBuf tctx q (inp.probeAccepted q) = true := by
  induction l generalizing sctx probed with
  | nil => exact ⟨CountsOnly.refl sctx, fun q => by simp⟩
  | cons p l ih =>
      have hstep := countsOnly_probePath tctx inp (sctx, probed) p
      obtain ⟨hsame, hall⟩ := ih (probePath tctx inp (sctx, probed) p).1
        (probePath tctx inp (sctx, probed) p).2
      refine ⟨hstep.trans hsame, fun q => ?_⟩
      have hiff := hall q
      rw [hstep.sameHealth.alive, probePath_probed] at hiff
      refine hiff.trans ?_
      rw [List.mem_cons, or_assoc, or_and_right]
      refine or_congr_right (or_congr_left (and_congr_right ?_))
      rintro rfl
      exact Iff.rfl

/-- The probe timer of a gateway that sends has run out. -/
def ProbesDue (st : MainState) (inp : MainInput) : Prop :=
  st.isTx = true ∧ st.cfg.probeIntervalMs ≤ elapsedMs inp.probeTime st.lastProbeTv

theorem countsOnly_mainProbe (st : MainState) (inp : MainInput) :
    CountsOnly st.sctx (mainProbe st inp).1.sctx ∧
      ∀ q, q ∈ (mainProbe st inp).2 ↔ ProbesDue st inp ∧ q < st.sctx.pathCount ∧
        (st.sctx.paths q).alive = true ∧ sendBuf st.tctx q (inp.probeAccepted q) = true := by
  have hiff : (st.isTx && decide (st.cfg.probeIntervalMs ≤
      elapsedMs inp.probeTime st.lastProbeTv)) = true ↔ ProbesDue st inp := by
    rw [Bool.and_eq_true, decide_eq_true_iff, ProbesDue]
  unfold mainProbe
  split_ifs with hdue
  · have hfold := foldl_probePath st.tctx inp (List.range st.sctx.pathCount) st.sctx []
    refine ⟨hfold.1, fun q => (hfold.2 q).trans ?_⟩
    rw [and_iff_right (hiff.mp hdue), List.mem_range]
    exact or_iff_right List.not_mem_nil
  · rw [hiff] at hdue
    exact ⟨CountsOnly.refl _, fun q => iff_of_false List.not_mem_nil fun h => hdue h.1⟩

/-! ## What changes a path -/

/-- The turn reads an echo that `transport_recv` attributes to path `i`. -/
def EchoOn (tctx : TransportCtx) (inp : MainInput) (i : ℕ) : Prop :=
  inp.reload = none ∧ inp.selectFailed = false ∧ ∃ r ts, inp.arrival = some r ∧
    transportRecv tctx r.dgram r.garbage.shardIn = .probeEcho ts i

/-- The turn loads a configuration in which path `i` is disabled. -/
def DisabledBy (inp : MainInput) (i : ℕ) : Prop :=
  ∃ cfg, inp.reload = some (some cfg) ∧ i < cfg.pathCount ∧ (cfg.paths i).enabled = false

/-- The turn loads a configuration in which path `i` is enabled. -/
def EnabledBy (inp : MainInput) (i : ℕ) : Prop :=
  ∃ cfg, inp.reload = some (some cfg) ∧ i < cfg.pathCount ∧ (cfg.paths i).enabled = true

/-- The loss threshold after a turn that starts with `θ`. -/
def nextThreshold (θ : ℚ) (inp : MainInput) : ℚ :=
  match inp.reload with
  | some (some cfg) => cfg.probeLossThreshold
  | _ => θ

/-- A turn that starts with the given loss threshold makes path `i` alive: a gateway that
sends reads an echo on it, and the threshold is positive. -/
def Revives (sends : Prop) (tctx : TransportCtx) (i : ℕ) (turn : ℚ × MainInput) : Prop :=
  sends ∧ EchoOn tctx turn.2 i ∧ 0 < turn.1

/-- The turn makes path `i` dead: it loads a configuration in which the path is disabled, or
reads an echo on it while the threshold is negative. -/
def Stops (sends : Prop) (tctx : TransportCtx) (i : ℕ) (turn : ℚ × MainInput) : Prop :=
  DisabledBy turn.2 i ∨ sends ∧ EchoOn tctx turn.2 i ∧ turn.1 < 0

theorem not_disabledBy {inp : MainInput} (h : inp.reload = none) (i : ℕ) : ¬ DisabledBy inp i := by
  rintro ⟨cfg, hcfg, _⟩
  rw [h] at hcfg
  cases hcfg

theorem not_enabledBy {inp : MainInput} (h : inp.reload = none) (i : ℕ) : ¬ EnabledBy inp i := by
  rintro ⟨cfg, hcfg, _⟩
  rw [h] at hcfg
  cases hcfg

theorem not_echoOn {tctx : TransportCtx} {inp : MainInput} {newCfg : Option GatewayConfig}
    (h : inp.reload = some newCfg) (i : ℕ) : ¬ EchoOn tctx inp i := by
  rintro ⟨hnone, _⟩
  rw [h] at hnone
  cases hnone

theorem disabledBy_iff {inp : MainInput} {cfg : GatewayConfig} (h : inp.reload = some (some cfg))
    (i : ℕ) : DisabledBy inp i ↔ i < cfg.pathCount ∧ (cfg.paths i).enabled = false := by
  constructor
  · rintro ⟨cfg', hcfg', hi, hen⟩
    rw [h] at hcfg'
    cases hcfg'
    exact ⟨hi, hen⟩
  · exact fun hen => ⟨cfg, h, hen⟩

theorem enabledBy_iff {inp : MainInput} {cfg : GatewayConfig} (h : inp.reload = some (some cfg))
    (i : ℕ) : EnabledBy inp i ↔ i < cfg.pathCount ∧ (cfg.paths i).enabled = true := by
  constructor
  · rintro ⟨cfg', hcfg', hi, hen⟩
    rw [h] at hcfg'
    cases hcfg'
    exact ⟨hi, hen⟩
  · exact fun hen => ⟨cfg, h, hen⟩

/-- No path has lost a probe as far as the strategy knows. -/
def LossFree (ctx : StrategyCtx) : Prop := ∀ i, (ctx.paths i).lossRate = 0

theorem LossFree.congr {ctx ctx' : StrategyCtx} (h : LossFree ctx) (hsame : SameHealth ctx ctx') :
    LossFree ctx' := fun i => (hsame.lossRate i).trans (h i)

/-- What answered probes on the paths in `echo` do to the strategy. -/
structure EchoStep (ctx ctx' : StrategyCtx) (echo : ℕ → Prop) : Prop where
  lossFree : LossFree ctx'
  threshold : ctx'.lossThreshold = ctx.lossThreshold
  pathCount : ctx'.pathCount = ctx.pathCount
  enabled : ∀ i, (ctx'.paths i).cfg.enabled = (ctx.paths i).cfg.enabled
  alive : ∀ i < ctx.pathCount, (ctx'.paths i).alive = true ↔
    echo i ∧ 0 < ctx.lossThreshold ∨
      (ctx.paths i).alive = true ∧ ¬ (echo i ∧ ctx.lossThreshold < 0)
  beyond : ∀ i, ctx.pathCount ≤ i → (ctx'.paths i).alive = (ctx.paths i).alive

theorem EchoStep.refl {ctx : StrategyCtx} {echo : ℕ → Prop} (h : LossFree ctx)
    (hnone : ∀ i < ctx.pathCount, ¬ echo i) : EchoStep ctx ctx echo := by
  refine ⟨h, rfl, rfl, fun _ => rfl, fun i hi => ?_, fun _ _ => rfl⟩
  rw [or_iff_right fun hecho => hnone i hi hecho.1]
  exact (and_iff_left fun hecho => hnone i hi hecho.1).symm

theorem EchoStep.congr {ctx ctx' : StrategyCtx} {echo echo' : ℕ → Prop}
    (h : EchoStep ctx ctx' echo) (hiff : ∀ i, echo' i ↔ echo i) : EchoStep ctx ctx' echo' := by
  rw [show echo' = echo from funext fun i => propext (hiff i)]
  exact h

/-- What an answered probe makes of path `p`: the loss rate decays, and it decides together
with the old flag whether the path is alive. -/
structure AnsweredPath (ctx : StrategyCtx) (p : ℕ) (rttUs : UInt64) (q : PathState) : Prop where
  cfg : q.cfg = (ctx.paths p).cfg
  probesRecv : q.probesRecv = (ctx.paths p).probesRecv + 1
  rttMs : q.rttMs =
    ctx.ewmaAlpha * ((rttUs.toNat : ℚ) / 1000) + (1 - ctx.ewmaAlpha) * (ctx.paths p).rttMs
  lossRate : q.lossRate = (1 - ctx.ewmaAlpha) * (ctx.paths p).lossRate
  alive : q.alive = true ↔ q.lossRate < ctx.lossThreshold * (1 / 2) ∨
    (ctx.paths p).alive = true ∧ ¬ ctx.lossThreshold < q.lossRate

theorem strategyUpdateProbe_path (ctx : StrategyCtx) {p : ℕ} (hp : p < ctx.pathCount)
    (rttUs : UInt64) :
    ∃ q credit, strategyUpdateProbe ctx p rttUs true =
      { ctx with paths := Function.update ctx.paths p q, pathCredit := credit } ∧
      AnsweredPath ctx p rttUs q := by
  have hloss : probedLoss ctx p true = (1 - ctx.ewmaAlpha) * (ctx.paths p).lossRate := by
    rw [probedLoss, if_pos rfl, mul_zero, zero_add]
  refine ⟨probedPath ctx p rttUs true, _, strategyUpdateProbe_eq ctx hp rttUs true,
    rfl, rfl, rfl, hloss, ?_⟩
  show (if probedLoss ctx p true < ctx.lossThreshold * (1 / 2) then true
      else if ctx.lossThreshold < probedLoss ctx p true then false
      else (ctx.paths p).alive) = true ↔
    probedLoss ctx p true < ctx.lossThreshold * (1 / 2) ∨
      (ctx.paths p).alive = true ∧ ¬ ctx.lossThreshold < probedLoss ctx p true
  split_ifs with hlow hhigh
  · exact iff_of_true rfl (Or.inl hlow)
  · simp only [hlow, hhigh, not_true, and_false, or_false]
  · simp only [hlow, hhigh, not_false_iff, and_true, false_or]

theorem strategyUpdateProbe_received {ctx : StrategyCtx} (h : LossFree ctx) (p : ℕ)
    (rttUs : UInt64) : EchoStep ctx (strategyUpdateProbe ctx p rttUs true) (· = p) := by
  by_cases hp : p < ctx.pathCount
  · obtain ⟨q, credit, heq, hq⟩ := strategyUpdateProbe_path ctx hp rttUs
    have hloss : q.lossRate = 0 := by
      rw [hq.lossRate, h p, mul_zero]
    have halive : q.alive = true ↔
        0 < ctx.lossThreshold ∨ (ctx.paths p).alive = true ∧ ¬ ctx.lossThreshold < 0 := by
      have hhalf : 0 < ctx.lossThreshold * (1 / 2) ↔ 0 < ctx.lossThreshold := by
        constructor <;>
        · intro hpos
          linarith
      rw [hq.alive, hloss, hhalf]
    rw [heq]
    have hself : Function.update ctx.paths p q p = q := Function.update_self ..
    have hother : ∀ i, i ≠ p → Function.update ctx.paths p q i = ctx.paths i :=
      fun i hne => Function.update_of_ne hne ..
    refine ⟨fun i => ?_, rfl, rfl, fun i => ?_, fun i _ => ?_, fun i hi => ?_⟩ <;> dsimp only
    · rcases eq_or_ne i p with rfl | hne
      · rw [hself, hloss]
      · rw [hother i hne, h i]
    · rcases eq_or_ne i p with rfl | hne
      · rw [hself, hq.cfg]
      · rw [hother i hne]
    · rcases eq_or_ne i p with rfl | hne
      · rw [hself, halive]
        simp only [true_and]
      · rw [hother i hne]
        simp only [hne, false_and, false_or, not_false_iff, and_true]
    · rw [hother i (by omega)]
  · have hkeep : strategyUpdateProbe ctx p rttUs true = ctx := if_pos (by omega)
    rw [hkeep]
    exact EchoStep.refl h fun i hi => by omega

/-- The receive phase touches the strategy only when a gateway that sends reads an echo. -/
theorem echoStep_mainRx {fuel : ℕ} {st st' : MainState} {inp : MainInput}
    {rx : Option RxOutput} {sent : List (ℕ × List UInt8)} (hfree : LossFree st.sctx)
    (h : mainRx fuel st inp = some (st', rx, sent)) :
    EchoStep st.sctx st'.sctx fun i => st.isTx = true ∧ ∃ r ts, inp.arrival = some r ∧
      transportRecv st.tctx r.dgram r.garbage.shardIn = .probeEcho ts i := by
  have hother {r : RxInput} {x : Received} (harr : inp.arrival = some r)
      (hrecv : transportRecv st.tctx r.dgram r.garbage.shardIn = x)
      (hx : ∀ ts i, x ≠ .probeEcho ts i) :
      EchoStep st.sctx st.sctx fun i => st.isTx = true ∧ ∃ r ts, inp.arrival = some r ∧
        transportRecv st.tctx r.dgram r.garbage.shardIn = .probeEcho ts i := by
    refine EchoStep.refl hfree fun i _ hread => ?_
    obtain ⟨_, r', ts, harr', hecho⟩ := hread
    cases harr.symm.trans harr'
    exact hx ts i (hrecv.symm.trans hecho)
  cases rxPhase_of_mainRx h with
  | quiet harr => exact EchoStep.refl hfree fun i _ => by simp [harr]
  | refused harr hrecv => exact hother harr hrecv (by simp)
  | shard harr hrecv => exact hother harr hrecv (by simp)
  | shardIgnored harr hrecv => exact hother harr hrecv (by simp)
  | probe harr hrecv => exact hother harr hrecv (by simp)
  | echoIgnored _ _ htx => exact EchoStep.refl hfree fun i _ => by simp [htx]
  | @echo r ts path harr hrecv htx =>
      refine (strategyUpdateProbe_received hfree path (inp.echoUs - ts)).congr fun i => ?_
      constructor
      · rintro ⟨_, r', ts', harr', hecho⟩
        cases harr.symm.trans harr'
        rw [hrecv, Received.probeEcho.injEq] at hecho
        exact hecho.2.symm
      · rintro rfl
        exact ⟨htx, r, ts, harr, hrecv⟩

/-! ## One turn -/

/-- The probe timer runs out in a turn that `select` and the reload flag let through. -/
def ProbeTick (st : MainState) (inp : MainInput) : Prop :=
  inp.reload = none ∧ inp.selectFailed = false ∧ ProbesDue st inp

structure PathStep (st : MainState) (inp : MainInput) (st' : MainState) (out : MainOutput) :
    Prop where
  lossFree : LossFree st'.sctx
  threshold : st'.sctx.lossThreshold = nextThreshold st.sctx.lossThreshold inp
  pathCount : st'.sctx.pathCount = st.sctx.pathCount
  enabled : ∀ i < st.sctx.pathCount, (st'.sctx.paths i).cfg.enabled = true ↔
    EnabledBy inp i ∨ (st.sctx.paths i).cfg.enabled = true ∧ ¬ DisabledBy inp i
  alive : ∀ i < st.sctx.pathCount, (st'.sctx.paths i).alive = true ↔
    Revives (st.isTx = true) st.tctx i (st.sctx.lossThreshold, inp) ∨
      (st.sctx.paths i).alive = true ∧
        ¬ Stops (st.isTx = true) st.tctx i (st.sctx.lossThreshold, inp)
  beyond : ∀ i, st.sctx.pathCount ≤ i → (st'.sctx.paths i).alive = (st.sctx.paths i).alive
  probed : ∀ i, i ∈ out.probed ↔ ProbeTick st inp ∧ i < st.sctx.pathCount ∧
    (st'.sctx.paths i).alive = true ∧ sendBuf st.tctx i (inp.probeAccepted i) = true

theorem PathStep.refl {st : MainState} {inp : MainInput} (hfree : LossFree st.sctx)
    (hreload : ∀ cfg, inp.reload ≠ some (some cfg)) (hecho : ∀ i, ¬ EchoOn st.tctx inp i)
    (htick : ¬ ProbeTick st inp) : PathStep st inp st idleOutput := by
  have hdis (i : ℕ) : ¬ DisabledBy inp i := by
    rintro ⟨cfg, hcfg, _⟩
    exact hreload cfg hcfg
  have hen (i : ℕ) : ¬ EnabledBy inp i := by
    rintro ⟨cfg, hcfg, _⟩
    exact hreload cfg hcfg
  refine ⟨hfree, ?_, rfl, fun i _ => ?_, fun i _ => ?_, fun _ _ => rfl, fun i => ?_⟩
  · unfold nextThreshold
    split
    · exact absurd ‹_› (hreload _)
    · rfl
  · simp [hdis i, hen i]
  · simp [Revives, Stops, hdis i, hecho i]
  · exact iff_of_false List.not_mem_nil fun h => htick h.1

theorem pathStep_mainReload {st : MainState} {inp : MainInput} {cfg : GatewayConfig}
    (hfree : LossFree st.sctx) (hreload : inp.reload = some (some cfg)) :
    PathStep st inp (mainReload st (some cfg)) idleOutput := by
  have hdisabled := disabledBy_iff hreload
  have henabled := enabledBy_iff hreload
  refine ⟨fun i => ?_, ?_, rfl, fun i hi => ?_, fun i hi => ?_, fun i hi => ?_, fun i => ?_⟩
  · change ((strategyReload st.sctx cfg).paths i).lossRate = 0
    unfold strategyReload
    dsimp only
    split
    · exact hfree i
    · exact hfree i
  · simp only [nextThreshold, hreload]
    rfl
  · change ((strategyReload st.sctx cfg).paths i).cfg.enabled = true ↔ _
    rw [henabled, hdisabled]
    unfold strategyReload
    by_cases hin : i < cfg.pathCount
    · simp [hi, hin]
    · simp [hin]
  · change ((strategyReload st.sctx cfg).paths i).alive = true ↔ _
    simp only [Revives, Stops, not_echoOn hreload i, hdisabled, false_and, and_false, false_or,
      or_false]
    unfold strategyReload
    by_cases hin : i < cfg.pathCount
    · simp [hi, hin, and_comm]
    · simp [hin]
  · change ((strategyReload st.sctx cfg).paths i).alive = _
    have hout : ¬ (i < st.sctx.pathCount ∧ i < cfg.pathCount) := fun h => by omega
    simp only [strategyReload, if_neg hout]
  · refine iff_of_false List.not_mem_nil fun h => ?_
    have hnone := h.1.1
    rw [hreload] at hnone
    cases hnone

/-- What the first three phases leave to the probe timer. -/
structure SameTimer (st st' : MainState) : Prop where
  cfg : st'.cfg = st.cfg
  lastProbeTv : st'.lastProbeTv = st.lastProbeTv

theorem sameTimer_mainRead (st : MainState) (inp : MainInput) :
    SameTimer st (mainRead st inp).1 := by
  unfold mainRead
  split_ifs with htx
  · cases inp.packet with
    | none => exact ⟨rfl, rfl⟩
    | some pkt =>
        dsimp only
        split_ifs with hfull
        · exact ⟨rfl, rfl⟩
        · exact ⟨rfl, rfl⟩
  · exact ⟨rfl, rfl⟩

theorem sameTimer_mainTimeout (st : MainState) (inp : MainInput) :
    SameTimer st (mainTimeout st inp).1 := by
  unfold mainTimeout
  split_ifs with hflush
  · exact ⟨rfl, rfl⟩
  · exact ⟨rfl, rfl⟩

theorem sameTimer_mainRx {fuel : ℕ} {st st' : MainState} {inp : MainInput}
    {rx : Option RxOutput} {sent : List (ℕ × List UInt8)}
    (h : mainRx fuel st inp = some (st', rx, sent)) : SameTimer st st' := by
  cases rxPhase_of_mainRx h <;> exact ⟨rfl, rfl⟩

theorem sameTimer_received {fuel : ℕ} {st st' : MainState} {inp : MainInput} {out : MainOutput}
    (p : Phases fuel st inp st' out) : SameTimer st p.received := by
  have hread : SameTimer st p.read := by
    simpa only [p.read_eq] using sameTimer_mainRead st inp
  have htimeout : SameTimer p.read p.timeout := by
    simpa only [p.timeout_eq] using sameTimer_mainTimeout p.read inp
  have hrx := sameTimer_mainRx p.received_eq
  exact ⟨(hrx.cfg.trans htimeout.cfg).trans hread.cfg,
    (hrx.lastProbeTv.trans htimeout.lastProbeTv).trans hread.lastProbeTv⟩

theorem creditsOnly_timeout {fuel : ℕ} {st st' : MainState} {inp : MainInput} {out : MainOutput}
    (p : Phases fuel st inp st' out) : CreditsOnly st.sctx p.timeout.sctx := by
  have hread : CreditsOnly st.sctx p.read.sctx := by
    simpa only [p.read_eq] using creditsOnly_mainRead st inp
  have htimeout : CreditsOnly p.read.sctx p.timeout.sctx := by
    simpa only [p.timeout_eq] using creditsOnly_mainTimeout p.read inp
  exact hread.trans htimeout

theorem countsOnly_probe {fuel : ℕ} {st st' : MainState} {inp : MainInput} {out : MainOutput}
    (p : Phases fuel st inp st' out) : CountsOnly p.received.sctx st'.sctx ∧
      ∀ q, q ∈ p.probed ↔ ProbesDue p.received inp ∧ q < p.received.sctx.pathCount ∧
        (p.received.sctx.paths q).alive = true ∧
        sendBuf p.received.tctx q (inp.probeAccepted q) = true := by
  simpa only [p.probe_eq] using countsOnly_mainProbe p.received inp

theorem pathStep_mainStep {fuel : ℕ} {st st' : MainState} {inp : MainInput} {out : MainOutput}
    (hfree : LossFree st.sctx) (h : mainStep fuel st inp = some (st', out)) :
    PathStep st inp st' out := by
  rcases mainStep_cases h with ⟨newCfg, hreload, rfl, rfl⟩ | ⟨hreload, hselect, rfl, rfl⟩ |
    ⟨hreload, hselect, ⟨p⟩⟩
  · cases newCfg with
    | none =>
        refine PathStep.refl hfree (fun cfg hcfg => ?_) (not_echoOn hreload) fun htick => ?_
        · rw [hreload] at hcfg
          cases hcfg
        · have hnone := htick.1
          rw [hreload] at hnone
          cases hnone
    | some cfg => exact pathStep_mainReload hfree hreload
  · refine PathStep.refl hfree (fun cfg hcfg => ?_) (fun i hecho => ?_) fun htick => ?_
    · rw [hreload] at hcfg
      cases hcfg
    · have hok := hecho.2.1
      rw [hselect] at hok
      cases hok
    · have hok := htick.2.1
      rw [hselect] at hok
      cases hok
  · have hbefore := (creditsOnly_timeout p).sameHealth
    obtain ⟨hcounts, hprobed⟩ := countsOnly_probe p
    have hafter := hcounts.sameHealth
    have hsetup := p.sameSetup_timeout.1
    have hsetup' := hsetup.trans (mainRx_cases p.received_eq).1
    have htimer := sameTimer_received p
    have hecho : EchoStep p.timeout.sctx p.received.sctx
        fun i => st.isTx = true ∧ EchoOn st.tctx inp i := by
      refine (echoStep_mainRx (hfree.congr hbefore) p.received_eq).congr fun i => ?_
      rw [hsetup.isTx, hsetup.tctx, EchoOn, and_iff_right hreload, and_iff_right hselect]
    refine ⟨hecho.lossFree.congr hafter, ?_, ?_, fun i hi => ?_, fun i hi => ?_, fun i hi => ?_,
      fun i => ?_⟩
    · rw [hafter.threshold, hecho.threshold, hbefore.threshold, nextThreshold, hreload]
    · rw [hafter.pathCount, hecho.pathCount, hbefore.pathCount]
    · rw [hafter.enabled, hecho.enabled, hbefore.enabled,
        and_iff_left (not_disabledBy hreload i), or_iff_right (not_enabledBy hreload i)]
    · rw [hafter.alive, hecho.alive i (by rw [hbefore.pathCount]; exact hi), hbefore.alive,
        hbefore.threshold, Stops, or_iff_right (not_disabledBy hreload i), Revives, and_assoc,
        and_assoc]
    · rw [hafter.alive, hecho.beyond i (by rw [hbefore.pathCount]; exact hi), hbefore.alive]
    · rw [p.out_probed, hprobed, hafter.alive, hecho.pathCount, hbefore.pathCount,
        hsetup'.tctx, ProbeTick, and_iff_right hreload, and_iff_right hselect, ProbesDue,
        ProbesDue, hsetup'.isTx, htimer.cfg, htimer.lastProbeTv]

theorem lossFree_strategyInit (cfg : GatewayConfig) : LossFree (strategyInit cfg) := by
  intro i
  unfold strategyInit
  dsimp only
  split_ifs
  · rfl
  · rfl

end CodingGateway.Proofs.PathHealth
