import CodingGateway.Model.Process
import CodingGateway.Proofs.EventLoop
import CodingGateway.Proofs.InOrder
import CodingGateway.Proofs.PathHealth
set_option autoImplicit false

/-!
# Runs of the process

A process that has not ended has made turns of the event loop; one that has ended has drained
its block after them.

* `mainRun_of_processRun` — the turns, and perhaps the drain;
* `rxRun_of_processRun` — the receive loop in a run of the process.
-/

namespace CodingGateway.Proofs.ProcessRuns

open CodingGateway.Model
open CodingGateway.Library
open CodingGateway.Proofs.EventLoop
open CodingGateway.Proofs.InOrder
open CodingGateway.Proofs.PathHealth
open CodingGateway.Proofs.ReceiveLoop

/-- The process and the outputs after a number of steps. -/
def processRun (fuel : ℕ) : Process → List ProcessInput → Option (Process × List MainOutput) :=
  Machine.run (processStep fuel)

/-- The turns of the loop among the steps. -/
def turns (inputs : List ProcessInput) : List MainInput :=
  inputs.filterMap fun
    | .turn inp => some inp
    | .shutdown _ => none

/-- What the end of the loop puts out. -/
def drainOutput (st : MainState) (env : FlushEnv) : MainOutput :=
  ⟨(mainDrain st env).2.1, (mainDrain st env).2.2, [], none⟩

/-- The process is in the loop, or it has left the loop and drained the pending block. -/
inductive LoopOrDrain (st : MainState) (louts : List MainOutput) : Process → List MainOutput → Prop
  | loop : LoopOrDrain st louts ⟨st, true⟩ louts
  | drained (env : FlushEnv) :
      LoopOrDrain st louts ⟨(mainDrain st env).1, false⟩ (louts ++ [drainOutput st env])

variable {fuel : ℕ} {st : MainState} {p p' : Process} {inputs : List ProcessInput}
  {outs : List MainOutput}

theorem processStep_cases {inp : ProcessInput} {out : MainOutput}
    (h : processStep fuel p inp = some (p', out)) :
    p.running = true ∧
      ((∃ turn, inp = .turn turn ∧ mainStep fuel p.st turn = some (p'.st, out) ∧
          p'.running = true) ∨
        ∃ env, inp = .shutdown env ∧ p' = ⟨(mainDrain p.st env).1, false⟩ ∧
          out = drainOutput p.st env) := by
  unfold processStep at h
  split_ifs at h with hrunning
  refine ⟨hrunning, ?_⟩
  cases inp with
  | turn turn =>
      obtain ⟨r, hstep, hr⟩ := Option.map_eq_some_iff.mp h
      cases hr
      exact Or.inl ⟨turn, rfl, hstep, rfl⟩
  | shutdown env =>
      cases h
      exact Or.inr ⟨env, rfl, rfl, rfl⟩

theorem mainRun_of_processRun (h : processRun fuel ⟨st, true⟩ inputs = some (p, outs)) :
    ∃ st' louts, mainRun fuel st (turns inputs) = some (st', louts) ∧
      LoopOrDrain st' louts p outs := by
  refine Machine.run_induction (P := fun inputs p outs => ∃ st' louts,
    mainRun fuel st (turns inputs) = some (st', louts) ∧ LoopOrDrain st' louts p outs)
    ⟨st, [], rfl, .loop⟩ ?_ h
  rintro pre q outs inp q' out _ ⟨st', louts, hrun, hends⟩ hstep
  obtain ⟨hrunning, hstep⟩ := processStep_cases hstep
  cases hends with
  | drained env => cases hrunning
  | loop =>
      rw [turns, List.filterMap_append, ← turns]
      obtain ⟨turn, rfl, hturn, hrun'⟩ | ⟨env, rfl, rfl, rfl⟩ := hstep
      · obtain ⟨st'', running⟩ := q'
        obtain rfl : running = true := hrun'
        exact ⟨st'', outs ++ [out],
          Machine.run_concat_eq_some.mpr ⟨st', outs, out, hrun, hturn, rfl⟩, .loop⟩
      · refine ⟨st', outs, ?_, .drained env⟩
        change mainRun fuel st (turns pre ++ []) = _
        rw [List.append_nil]
        exact hrun

/-! ## What no step changes, and what reaches the window -/

theorem sameSetup_mainDrain (st : MainState) (env : FlushEnv) :
    SameSetup st (mainDrain st env).1 ∧ (mainDrain st env).1.rxWin = st.rxWin := by
  unfold mainDrain
  split_ifs
  · exact ⟨⟨rfl, rfl, rfl, rfl, rfl, rfl⟩, rfl⟩
  · exact ⟨SameSetup.refl st, rfl⟩

theorem sameSetup_processRun (h : processRun fuel ⟨st, true⟩ inputs = some (p, outs)) :
    SameSetup st p.st := by
  obtain ⟨st', louts, hrun, hends⟩ := mainRun_of_processRun h
  cases hends with
  | loop => exact sameSetup_mainRun hrun
  | drained env => exact (sameSetup_mainRun hrun).trans (sameSetup_mainDrain st' env).1

theorem rxRun_of_processRun (h : processRun fuel ⟨st, true⟩ inputs = some (p, outs)) :
    rxRun fuel st.cfg.windowSize.toNat st.crypto st.rxWin ((turns inputs).filterMap (feed st)) =
      some (p.st.rxWin, rxOutputs outs) := by
  obtain ⟨st', louts, hrun, hends⟩ := mainRun_of_processRun h
  have hwindow := rxRun_of_mainRun hrun
  cases hends with
  | loop => exact hwindow
  | drained env =>
      have hnone : rxOutputs (louts ++ [drainOutput st' env]) = rxOutputs louts := by
        rw [rxOutputs, List.filterMap_append]
        exact List.append_nil _
      rw [hnone, (sameSetup_mainDrain st' env).2]
      exact hwindow

theorem mainProbe_cfg (st : MainState) (inp : MainInput) :
    (mainProbe st inp).1.cfg = st.cfg := by
  unfold mainProbe
  split_ifs <;> rfl

theorem cfg_mainStep {st' : MainState} {inp : MainInput} {out : MainOutput}
    (h : mainStep fuel st inp = some (st', out)) :
    st'.cfg = match inp.reload with
      | some newCfg => (mainReload st newCfg).cfg
      | none => st.cfg := by
  rcases mainStep_cases h with ⟨newCfg, hreload, rfl, rfl⟩ | ⟨hreload, -, rfl, rfl⟩ |
    ⟨hreload, -, ⟨p⟩⟩
  · rw [hreload]
  · rw [hreload]
  · have hprobe := mainProbe_cfg p.received inp
    rw [p.probe_eq] at hprobe
    rw [hreload]
    exact hprobe.trans (sameTimer_received p).cfg

/-! ## Steps that end -/

theorem exists_mainRx {inp : MainInput} (hstep : ∀ a, shardRead st inp = some a →
    ∃ r, rxStep fuel st.cfg.windowSize.toNat st.crypto st.rxWin a = some r) :
    ∃ r, mainRx fuel st inp = some r := by
  unfold mainRx
  cases harr : inp.arrival with
  | none => exact ⟨_, rfl⟩
  | some r =>
      dsimp only
      cases hrecv : transportRecv st.tctx r.dgram r.garbage.shardIn with
      | error => exact ⟨_, rfl⟩
      | probe ts path => exact ⟨_, rfl⟩
      | probeEcho ts path =>
          dsimp only
          split_ifs
          · exact ⟨_, rfl⟩
          · exact ⟨_, rfl⟩
      | data hdr shard path =>
          dsimp only
          split_ifs with hrx
          · obtain ⟨⟨win, out⟩, hrxStep⟩ :=
              hstep ⟨hdr, shard, r.garbage, r.insertUs, r.advanceUs⟩
                (by simp [shardRead, hrx, harr, arrivalOf, hrecv])
            rw [hrxStep]
            exact ⟨_, rfl⟩
          · exact ⟨_, rfl⟩

theorem exists_mainStep_of_feed {inp : MainInput} (hstep : ∀ a, feed st inp = some a →
    ∃ r, rxStep fuel st.cfg.windowSize.toNat st.crypto st.rxWin a = some r) :
    ∃ r, mainStep fuel st inp = some r := by
  unfold mainStep
  cases hreload : inp.reload with
  | some newCfg => exact ⟨_, rfl⟩
  | none =>
      dsimp only
      cases hselect : inp.selectFailed with
      | true => exact ⟨_, rfl⟩
      | false =>
          rw [if_neg Bool.false_ne_true]
          obtain ⟨hsame₁, hwin₁⟩ := sameSetup_mainRead st inp
          obtain ⟨hsame₂, hwin₂⟩ := sameSetup_mainTimeout (mainRead st inp).1 inp
          have hsame := hsame₁.trans hsame₂
          obtain ⟨⟨st₃, rx, sent₃⟩, hrx⟩ :
              ∃ r, mainRx fuel (mainTimeout (mainRead st inp).1 inp).1 inp = some r := by
            apply exists_mainRx
            intro a ha
            rw [hsame.windowSize, hsame.crypto, hwin₂.trans hwin₁]
            apply hstep
            rw [← feed_congr hsame, feed, hreload, hselect]
            exact ha
          rw [hrx]
          exact ⟨_, rfl⟩

end CodingGateway.Proofs.ProcessRuns
