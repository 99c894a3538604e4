import CodingGateway.Proofs.ConfigBounds
import CodingGateway.Proofs.PathHealth
import CodingGateway.Proofs.PhysicalLines
import CodingGateway.Proofs.ProcessRuns
import Mathlib.Algebra.Order.Ring.Abs
set_option autoImplicit false

/-!
# What the gateway shows of its paths

* `shown_of_configLoad` — the names that a file gives to its paths stand on one line each;
* `displays_processRun` — in every run the strategy keeps these names, a loss rate between 0 and
  1, and a round-trip time between 0 and what 64 bits of microseconds hold.
-/

namespace CodingGateway.Proofs.PathGauges

open CodingGateway.Model
open CodingGateway.Library
open CodingGateway.Proofs.ConfigBounds
open CodingGateway.Proofs.EventLoop
open CodingGateway.Proofs.PathHealth
open CodingGateway.Proofs.PhysicalLines
open CodingGateway.Proofs.ProcessRuns
open CodingGateway.Proofs.Scheduler

/-! ## Names in a file -/

/-- A name that fits its array and stands on one line. -/
structure Label (name : List UInt8) : Prop where
  length : name.length ≤ 31
  nul : 0 ∉ name
  newline : 10 ∉ name

/-- What a configuration shows: the names of its paths, and a ratio that is a finite `float`. -/
structure Shown (cfg : GatewayConfig) : Prop where
  name : ∀ i, Label (cfg.paths i).name
  ratio : |cfg.redundancyRatio| ≤ 2 ^ 128

theorem exists_line {acc : List UInt8} (hacc : 10 ∉ acc) (file : List UInt8) :
    ∀ piece ∈ fgetsLines acc file, ∃ l, 10 ∉ l ∧ (piece = l ∨ piece = l ++ [10]) := by
  induction file generalizing acc with
  | nil =>
      intro piece hpiece
      rw [fgetsLines] at hpiece
      split_ifs at hpiece
      · cases hpiece
      · rw [List.mem_singleton.mp hpiece]
        exact ⟨acc.reverse, by simpa using hacc, Or.inl rfl⟩
  | cons c file ih =>
      intro piece hpiece
      rw [fgetsLines] at hpiece
      by_cases hc : c = 10
      · rw [if_pos (Or.inl hc)] at hpiece
        rcases List.mem_cons.mp hpiece with rfl | hrest
        · refine ⟨acc.reverse, by simpa using hacc, Or.inr ?_⟩
          rw [hc, List.reverse_cons]
        · exact ih List.not_mem_nil piece hrest
      · have hcons : 10 ∉ c :: acc := by simp [Ne.symm hc, hacc]
        split_ifs at hpiece
        · rcases List.mem_cons.mp hpiece with rfl | hrest
          · exact ⟨_, fun hmem => hcons (List.mem_reverse.mp hmem), Or.inl rfl⟩
          · exact ih List.not_mem_nil piece hrest
        · exact ih hcons piece hpiece

section Lines

variable {num : NumberParser} {st : ConfigState}

theorem name_setPath (p : PathConfig) (key val : List UInt8) :
    (setPath num p key val).name = p.name := by
  unfold setPath
  split_ifs <;> rfl

theorem shown_assign (hfloat : ∀ s, |num.atof s| ≤ 2 ^ 128) (h : Shown st.cfg)
    (key val : List UInt8) : Shown (assign num st key val).cfg := by
  obtain ⟨hname, hratio⟩ := h
  unfold assign
  split_ifs
  · constructor
    · intro i
      unfold setGeneral
      split_ifs <;> exact hname i
    · unfold setGeneral
      split_ifs <;> exact hratio
  · constructor
    · intro i
      unfold setCoding
      split_ifs <;> exact hname i
    · unfold setCoding
      split_ifs
      · exact hratio
      · exact hfloat val
      · exact hratio
      · exact hratio
      · exact hratio
      · exact hratio
  · constructor
    · intro i
      unfold setStrategy
      split_ifs <;> exact hname i
    · unfold setStrategy
      split_ifs <;> exact hratio
  · constructor
    · intro i
      unfold setForward
      split_ifs <;> exact hname i
    · unfold setForward
      split_ifs <;> exact hratio
  · cases st.curPath with
    | none => exact ⟨hname, hratio⟩
    | some j =>
        refine ⟨fun i => ?_, hratio⟩
        dsimp only
        by_cases hi : i = j
        · subst hi
          rw [Function.update_self, name_setPath]
          exact hname i
        · rw [Function.update_of_ne hi]
          exact hname i

theorem shown_openSection (h : Shown st.cfg) {p : List UInt8} (hnul : 0 ∉ p) (hnewline : 10 ∉ p) :
    Shown (openSection st p).cfg := by
  have hlabel : Label ((((trim (p.takeWhile (· ≠ 93))).take 63).drop 5).take 31) := by
    have hmem : ∀ c ∈ (((trim (p.takeWhile (· ≠ 93))).take 63).drop 5).take 31, c ∈ p := by
      intro c hc
      have htrim := List.mem_of_mem_take (List.mem_of_mem_drop (List.mem_of_mem_take hc))
      exact (List.takeWhile_prefix _).mem (mem_of_mem_trim htrim)
    exact ⟨List.length_take_le .., fun h => hnul (hmem 0 h), fun h => hnewline (hmem 10 h)⟩
  unfold openSection
  dsimp only
  split_ifs
  · exact h
  · refine ⟨fun i => ?_, h.ratio⟩
    dsimp only
    by_cases hi : i = st.cfg.pathCount
    · subst hi
      rw [Function.update_self]
      exact hlabel
    · rw [Function.update_of_ne hi]
      exact h.name i
  · exact h
  · exact h

theorem shown_configLine (hfloat : ∀ s, |num.atof s| ≤ 2 ^ 128) (h : Shown st.cfg)
    {line : List UInt8} (hline : 10 ∉ line) : Shown (configLine num st line).cfg := by
  have hnul : 0 ∉ trim (cString line) := fun hmem =>
    zero_notMem_cString line (mem_of_mem_trim hmem)
  have hnewline : 10 ∉ trim (cString line) := fun hmem =>
    hline ((List.takeWhile_prefix _).mem (mem_of_mem_trim hmem))
  unfold configLine
  generalize trim (cString line) = text at hnul hnewline
  cases text with
  | nil => exact h
  | cons c rest =>
      dsimp only
      split_ifs
      · exact h
      · exact shown_openSection h (fun hmem => hnul (List.mem_cons_of_mem c hmem))
          fun hmem => hnewline (List.mem_cons_of_mem c hmem)
      · exact shown_assign hfloat h _ _
      · exact h

theorem shown_of_configLoad {file : Option (List UInt8)} {cfg : GatewayConfig}
    (hfloat : ∀ s, |num.atof s| ≤ 2 ^ 128) (h : configLoad num file = some cfg) : Shown cfg := by
  have hlines : ∀ (lines : List (List UInt8)) (st : ConfigState),
      (∀ piece ∈ lines, ∃ l, 10 ∉ l ∧ (piece = l ∨ piece = l ++ [10])) → Shown st.cfg →
      Shown (lines.foldl (configLine num) st).cfg := by
    intro lines
    induction lines with
    | nil => exact fun st _ hst => hst
    | cons piece lines ih =>
        intro st hpieces hst
        apply ih _ fun q hq => hpieces q (List.mem_cons_of_mem piece hq)
        obtain ⟨l, hl, rfl | rfl⟩ := hpieces piece List.mem_cons_self
        · exact shown_configLine hfloat hst hl
        · rw [configLine_newline]
          exact shown_configLine hfloat hst hl
  cases file with
  | none => cases h
  | some file =>
      cases h
      have hdefaults : Shown configDefaults :=
        ⟨fun _ => ⟨Nat.zero_le _, List.not_mem_nil, List.not_mem_nil⟩, by
          norm_num [configDefaults, abs_le]⟩
      have hloaded := hlines (fgetsLines [] file) ⟨configDefaults, [], none⟩
        (exists_line List.not_mem_nil file) hdefaults
      exact ⟨hloaded.name, hloaded.ratio⟩

end Lines

/-! ## Gauges in a run -/

/-- What the strategy keeps of the paths of `cfg`. -/
structure Gauged (cfg : GatewayConfig) (ctx : StrategyCtx) : Prop where
  pathCount : ctx.pathCount = cfg.pathCount
  name : ∀ i < cfg.pathCount, (ctx.paths i).cfg.name = (cfg.paths i).name
  alpha : 0 ≤ ctx.ewmaAlpha ∧ ctx.ewmaAlpha ≤ 1
  loss : ∀ i, 0 ≤ (ctx.paths i).lossRate ∧ (ctx.paths i).lossRate ≤ 1
  rtt : ∀ i, 0 ≤ (ctx.paths i).rttMs ∧ (ctx.paths i).rttMs ≤ 2 ^ 64

theorem effectiveAlpha_mem (alpha : ℚ) : 0 ≤ effectiveAlpha alpha ∧ effectiveAlpha alpha ≤ 1 := by
  unfold effectiveAlpha
  split_ifs with h
  · exact ⟨h.1.le, h.2⟩
  · norm_num

theorem average_mem {alpha x y b : ℚ} (halpha : 0 ≤ alpha ∧ alpha ≤ 1) (hx : 0 ≤ x ∧ x ≤ b)
    (hy : 0 ≤ y ∧ y ≤ b) : 0 ≤ alpha * x + (1 - alpha) * y ∧ alpha * x + (1 - alpha) * y ≤ b := by
  have hrest : 0 ≤ 1 - alpha := sub_nonneg.mpr halpha.2
  constructor
  · exact add_nonneg (mul_nonneg halpha.1 hx.1) (mul_nonneg hrest hy.1)
  · calc alpha * x + (1 - alpha) * y
        ≤ alpha * b + (1 - alpha) * b := by gcongr <;> tauto
      _ = b := by ring

section Run

variable {fuel : ℕ} {cfg : GatewayConfig} {ctx ctx' : StrategyCtx}

theorem gauged_strategyInit (cfg : GatewayConfig) : Gauged cfg (strategyInit cfg) := by
  refine ⟨rfl, fun i hi => ?_, effectiveAlpha_mem cfg.ewmaAlpha, fun i => ?_, fun i => ?_⟩
  · simp [strategyInit, hi]
  · simp only [strategyInit]
    split_ifs <;> norm_num [zeroPath]
  · simp only [strategyInit]
    split_ifs <;> norm_num [zeroPath]

theorem Gauged.creditsOnly (h : Gauged cfg ctx) (hsame : CreditsOnly ctx ctx') :
    Gauged cfg ctx' := by
  obtain ⟨credit, rfl⟩ := hsame
  exact ⟨h.pathCount, h.name, h.alpha, h.loss, h.rtt⟩

theorem Gauged.countsOnly (h : Gauged cfg ctx) (hsame : CountsOnly ctx ctx') :
    Gauged cfg ctx' := by
  obtain ⟨sent, rfl⟩ := hsame
  exact ⟨h.pathCount, h.name, h.alpha, h.loss, h.rtt⟩

theorem Gauged.updateProbe (h : Gauged cfg ctx) (p : ℕ) (rttUs : UInt64) :
    Gauged cfg (strategyUpdateProbe ctx p rttUs true) := by
  by_cases hp : p < ctx.pathCount
  · obtain ⟨q, credit, heq, hq⟩ := strategyUpdateProbe_path ctx hp rttUs
    have hus : (0 : ℚ) ≤ (rttUs.toNat : ℚ) / 1000 ∧ (rttUs.toNat : ℚ) / 1000 ≤ 2 ^ 64 := by
      have hlt : (rttUs.toNat : ℚ) ≤ 2 ^ 64 := by exact_mod_cast rttUs.toNat_lt.le
      have hnonneg : (0 : ℚ) ≤ rttUs.toNat := Nat.cast_nonneg _
      constructor
      · positivity
      · linarith
    have hrtt := average_mem h.alpha hus (h.rtt p)
    have hloss := average_mem (x := 0) h.alpha ⟨le_rfl, zero_le_one⟩ (h.loss p)
    rw [mul_zero, zero_add] at hloss
    rw [heq]
    refine ⟨h.pathCount, fun i hi => ?_, h.alpha, fun i => ?_, fun i => ?_⟩
    · dsimp only
      by_cases hip : i = p
      · subst hip
        rw [Function.update_self, hq.cfg]
        exact h.name i hi
      · rw [Function.update_of_ne hip]
        exact h.name i hi
    · dsimp only
      by_cases hip : i = p
      · subst hip
        rw [Function.update_self, hq.lossRate]
        exact hloss
      · rw [Function.update_of_ne hip]
        exact h.loss i
    · dsimp only
      by_cases hip : i = p
      · subst hip
        rw [Function.update_self, hq.rttMs]
        exact hrtt
      · rw [Function.update_of_ne hip]
        exact h.rtt i
  · have hidle : strategyUpdateProbe ctx p rttUs true = ctx := if_pos (Nat.not_lt.mp hp)
    rw [hidle]
    exact h

theorem Gauged.reload (h : Gauged cfg ctx) (new : GatewayConfig) :
    Gauged cfg (strategyReload ctx new) := by
  refine ⟨h.pathCount, fun i hi => ?_, effectiveAlpha_mem new.ewmaAlpha, fun i => ?_, fun i => ?_⟩
  · simp only [strategyReload]
    split_ifs <;> exact h.name i hi
  · simp only [strategyReload]
    split_ifs <;> exact h.loss i
  · simp only [strategyReload]
    split_ifs <;> exact h.rtt i

theorem gauged_mainRx {st st' : MainState} {inp : MainInput} {rx : Option RxOutput}
    {sent : List (ℕ × List UInt8)} (h : Gauged cfg st.sctx)
    (hrx : mainRx fuel st inp = some (st', rx, sent)) : Gauged cfg st'.sctx := by
  cases rxPhase_of_mainRx hrx with
  | echo => exact h.updateProbe _ _
  | _ => exact h

/-- What the gauges of a running gateway rest on. -/
structure Displays (cfg : GatewayConfig) (st : MainState) : Prop where
  gauged : Gauged cfg st.sctx
  ratio : |st.cfg.redundancyRatio| ≤ 2 ^ 128

/-- A reload takes its ratio from a file that shows one. -/
def ReloadsShown (inp : MainInput) : Prop := ∀ new, inp.reload = some (some new) → Shown new

theorem displays_mainStep {st st' : MainState} {inp : MainInput} {out : MainOutput}
    (h : Displays cfg st) (hreload : ReloadsShown inp)
    (hstep : mainStep fuel st inp = some (st', out)) : Displays cfg st' := by
  obtain ⟨hgauged, hratio⟩ := h
  have hcfg := cfg_mainStep hstep
  rcases mainStep_cases hstep with ⟨newCfg, hnew, rfl, rfl⟩ | ⟨-, -, rfl, rfl⟩ |
    ⟨hnone, -, ⟨p⟩⟩
  · cases newCfg with
    | none => exact ⟨hgauged, hratio⟩
    | some new => exact ⟨hgauged.reload new, (hreload new hnew).ratio⟩
  · exact ⟨hgauged, hratio⟩
  · have hprobe := (gauged_mainRx (hgauged.creditsOnly (creditsOnly_timeout p))
      p.received_eq).countsOnly (countsOnly_mainProbe p.received inp).1
    rw [p.probe_eq] at hprobe
    rw [hnone] at hcfg
    refine ⟨hprobe, ?_⟩
    rw [hcfg]
    exact hratio

theorem displays_mainRun {st st' : MainState} {inputs : List MainInput} {outs : List MainOutput}
    (h : Displays cfg st) (hreload : ∀ inp ∈ inputs, ReloadsShown inp)
    (hrun : mainRun fuel st inputs = some (st', outs)) : Displays cfg st' := by
  refine Machine.run_induction (P := fun inputs st' _ =>
    (∀ inp ∈ inputs, ReloadsShown inp) → Displays cfg st') (fun _ => h) ?_ hrun hreload
  intro pre s _ inp s' out _ ih hstep hall
  have hbefore := ih fun i hi => hall i (List.mem_append_left _ hi)
  exact displays_mainStep hbefore (hall inp (List.mem_append_right _ List.mem_cons_self)) hstep

theorem displays_mainDrain {st : MainState} (h : Displays cfg st) (env : FlushEnv) :
    Displays cfg (mainDrain st env).1 := by
  unfold mainDrain
  split_ifs
  · exact ⟨h.gauged.creditsOnly (creditsOnly_txBlockFlush ..), h.ratio⟩
  · exact h

/-- **Every run.** The paths keep their names, and the gauges stay in their ranges. -/
theorem displays_processRun {tctx : TransportCtx} {crypto : CryptoCtx} {now : Timeval}
    {inputs : List ProcessInput} {p : Process} {outs : List MainOutput} (hcfg : Shown cfg)
    (hreload : ∀ inp ∈ turns inputs, ReloadsShown inp)
    (hrun : processRun fuel (processInit cfg tctx crypto now) inputs = some (p, outs)) :
    Displays cfg p.st := by
  have hstart : Displays cfg (mainInit cfg tctx crypto now) :=
    ⟨gauged_strategyInit cfg, hcfg.ratio⟩
  obtain ⟨st, louts, hmain, hends⟩ := mainRun_of_processRun hrun
  have hloop := displays_mainRun hstart hreload hmain
  cases hends with
  | loop => exact hloop
  | drained env => exact displays_mainDrain hloop env

end Run

end CodingGateway.Proofs.PathGauges
