import CodingGateway.Proofs.ProcessRuns
set_option autoImplicit false

/-!
# Both directions at once

A gateway in mode `both` is a sender and a receiver side by side: neither direction sees what the
other does.

* `mainStep_join` — a turn is a turn of the sender and one of the receiver;
* `processRun_both` — and so is a run.
-/

namespace CodingGateway.Proofs.Duplex

open CodingGateway.Model
open CodingGateway.Library
open CodingGateway.Proofs.EventLoop
open CodingGateway.Proofs.PathHealth
open CodingGateway.Proofs.ProcessRuns

/-! ## Two gateways in one -/

def inMode (mode : String) (cfg : GatewayConfig) : GatewayConfig := { cfg with mode := chars mode }

/-- The counters of the sender, and those of the receiver. -/
def joinMetrics (s r : Metrics) : Metrics :=
  { s with
    shardsReceived := r.shardsReceived
    decodeSuccess := r.decodeSuccess }

/-- The sender `s` with the window of the receiver `r`. -/
def joinState (s r : MainState) : MainState :=
  { s with
    isRx := true
    cfg := inMode "both" s.cfg
    rxWin := r.rxWin
    metrics := joinMetrics s.metrics r.metrics }

/-- What the sender sends, and what the receiver delivers. -/
def joinOutput (s r : MainOutput) : MainOutput := { s with rx := r.rx }

def joinProcess (s r : Process) : Process := ⟨joinState s.st r.st, s.running⟩

/-- A sender and a receiver that share everything but the mode. -/
structure Paired (s r : MainState) : Prop where
  sends : s.isTx = true
  deaf : s.isRx = false
  receives : r.isRx = true
  mute : r.isTx = false
  cfg : inMode "both" r.cfg = inMode "both" s.cfg
  tctx : r.tctx = s.tctx
  crypto : r.crypto = s.crypto

/-! ## Sending -/

section Send

variable (tctx : TransportCtx) (env : FlushEnv) (k n : ℕ) (shards : ℕ → Shard) (m : Metrics)

/-- The result of a flush with the counters of a receiver. -/
def joinResult (res : FlushResult) : FlushResult :=
  { res with metrics := joinMetrics res.metrics m }

theorem sendStep_join (res : FlushResult) (i : ℕ) :
    sendStep tctx env k n shards (joinResult m res) i =
      joinResult m (sendStep tctx env k n shards res i) := by
  unfold sendStep joinResult
  dsimp only
  rcases strategyNextPath res.sctx with ⟨sctx, pick⟩
  cases pick with
  | none => rfl
  | some path =>
      dsimp only
      split_ifs
      · rfl
      · rfl

theorem foldl_sendStep_join (l : List ℕ) (res : FlushResult) :
    l.foldl (sendStep tctx env k n shards) (joinResult m res) =
      joinResult m (l.foldl (sendStep tctx env k n shards) res) := by
  induction l generalizing res with
  | nil => rfl
  | cons i l ih => rw [List.foldl_cons, List.foldl_cons, sendStep_join, ih]

theorem txBlockFlush_join (blk : TxBlock) (sctx : StrategyCtx) (crypto : CryptoCtx)
    (metrics : Metrics) :
    txBlockFlush blk tctx sctx k crypto (joinMetrics metrics m) env =
      joinResult m (txBlockFlush blk tctx sctx k crypto metrics env) := by
  unfold txBlockFlush
  split_ifs
  · rfl
  · dsimp only
    have hfold := foldl_sendStep_join tctx env k (strategyComputeN sctx k).toNat
      (flushShards (fillSlots (padPackets blk) k) k (strategyComputeN sctx k).toNat crypto env) m
      (List.range (strategyComputeN sctx k).toNat)
      ⟨fillSlots (padPackets blk) k, sctx, metrics, []⟩
    unfold joinResult at hfold ⊢
    dsimp only at hfold
    rw [hfold]
    rfl

end Send

section Turn

variable {fuel : ℕ} {s r : MainState} {inp : MainInput}

/-- A phase that only the sender goes through. -/
def joinPhase (r : MainState) (phase : MainState × List TxBlock × List (ℕ × List UInt8)) :
    MainState × List TxBlock × List (ℕ × List UInt8) :=
  (joinState phase.1 r, phase.2)

theorem flushBlock_join (s r : MainState) (env : FlushEnv) :
    flushBlock (joinState s r) env = joinPhase r (flushBlock s env) := by
  have hflush : txBlockFlush (joinState s r).tx (joinState s r).tctx (joinState s r).sctx
      (joinState s r).cfg.k.toNat (joinState s r).crypto (joinState s r).metrics env =
        joinResult r.metrics
          (txBlockFlush s.tx s.tctx s.sctx s.cfg.k.toNat s.crypto s.metrics env) :=
    txBlockFlush_join ..
  unfold flushBlock
  rw [hflush]
  rfl

theorem mainFlush_join (s r : MainState) (env : FlushEnv) :
    mainFlush (joinState s r) env = joinPhase r (mainFlush s env) := by
  unfold mainFlush
  rw [flushBlock_join]
  rfl

theorem mainRead_join (s r : MainState) (inp : MainInput) :
    mainRead (joinState s r) inp = joinPhase r (mainRead s inp) := by
  unfold mainRead
  cases hpacket : inp.packet with
  | none =>
      change (if s.isTx = true then _ else _) = _
      split_ifs <;> rfl
  | some pkt =>
      rcases hadd : txBlockAddPkt s.tx (arrayOf pkt.bytes) (UInt16.ofNat pkt.bytes.length)
        s.cfg.k.toNat inp.addTime with ⟨tx, full⟩
      have hadd' : txBlockAddPkt (joinState s r).tx (arrayOf pkt.bytes)
          (UInt16.ofNat pkt.bytes.length) (joinState s r).cfg.k.toNat inp.addTime = (tx, full) :=
        hadd
      dsimp only
      rw [hadd', hadd]
      change (if s.isTx = true then _ else _) = _
      by_cases hsends : s.isTx = true
      · rw [if_pos hsends, if_pos hsends]
        cases full with
        | false => rfl
        | true => exact mainFlush_join { s with tx := tx } r inp.fullFlush
      · rw [if_neg hsends, if_neg hsends]
        rfl

theorem mainTimeout_join (s r : MainState) (inp : MainInput) :
    mainTimeout (joinState s r) inp = joinPhase r (mainTimeout s inp) := by
  unfold mainTimeout
  change (if (s.isTx && txBlockNeedsFlush s.tx s.cfg.blockTimeoutMs inp.flushTime) = true then _
    else _) = _
  split_ifs
  · exact mainFlush_join s r inp.timeoutFlush
  · rfl

theorem mainDrain_join (s r : MainState) (env : FlushEnv) :
    mainDrain (joinState s r) env = joinPhase r (mainDrain s env) := by
  unfold mainDrain
  change (if (s.isTx && decide (0 < s.tx.pktCount)) = true then _ else _) = _
  split_ifs
  · exact flushBlock_join s r env
  · rfl

theorem mainProbe_join (s r : MainState) (inp : MainInput) :
    mainProbe (joinState s r) inp =
      (joinState (mainProbe s inp).1 r, (mainProbe s inp).2) := by
  unfold mainProbe
  change (if (s.isTx && decide (s.cfg.probeIntervalMs ≤ elapsedMs inp.probeTime s.lastProbeTv)) =
    true then _ else _) = _
  split_ifs
  · rfl
  · rfl

/-- The receiver does nothing in the phases of the sender. -/
theorem mute_phases (hmute : r.isTx = false) (inp : MainInput) :
    mainRead r inp = (r, [], []) ∧ mainTimeout r inp = (r, [], []) ∧ mainProbe r inp = (r, []) := by
  simp [mainRead, mainTimeout, mainProbe, hmute]

/-- The receive phase of the two: shards go to the receiver, echoes to the sender, and probes are
answered once. -/
theorem mainRx_join (h : Paired s r) (inp : MainInput) :
    mainRx fuel (joinState s r) inp =
      Option.map₂ (fun a b => (joinState a.1 b.1, b.2.1, a.2.2)) (mainRx fuel s inp)
        (mainRx fuel r inp) := by
  obtain ⟨hsends, hdeaf, hreceives, hmute, hcfg, htctx, hcrypto⟩ := h
  have hwindow : (inMode "both" r.cfg).windowSize = (inMode "both" s.cfg).windowSize := by
    rw [hcfg]
  unfold mainRx
  cases inp.arrival with
  | none => rfl
  | some d =>
      dsimp only
      have hshared : (joinState s r).tctx = s.tctx := rfl
      rw [hshared, htctx]
      cases hrecv : transportRecv s.tctx d.dgram d.garbage.shardIn with
      | error => rfl
      | probe ts path => rfl
      | probeEcho ts path =>
          have hjoined : (joinState s r).isTx = true := hsends
          dsimp only
          rw [if_pos hjoined, if_pos hsends, hmute]
          rfl
      | data hdr shard path =>
          have hjoined : (joinState s r).isRx = true := rfl
          have hstep : rxStep fuel r.cfg.windowSize.toNat r.crypto r.rxWin
              ⟨hdr, shard, d.garbage, d.insertUs, d.advanceUs⟩ =
              rxStep fuel (joinState s r).cfg.windowSize.toNat (joinState s r).crypto
                (joinState s r).rxWin ⟨hdr, shard, d.garbage, d.insertUs, d.advanceUs⟩ := by
            change _ = rxStep fuel (inMode "both" s.cfg).windowSize.toNat s.crypto r.rxWin _
            rw [← hwindow, ← hcrypto]
            rfl
          dsimp only
          rw [if_pos hjoined, hdeaf, if_pos hreceives, hstep]
          cases rxStep fuel (joinState s r).cfg.windowSize.toNat (joinState s r).crypto
              (joinState s r).rxWin ⟨hdr, shard, d.garbage, d.insertUs, d.advanceUs⟩ with
          | none => rfl
          | some q => rfl

/-! ## One turn -/

theorem paired_of_sameSetup {s' r' : MainState} (h : Paired s r) (hs : SameSetup s s')
    (hr : SameSetup r r') (hcfg : inMode "both" r'.cfg = inMode "both" s'.cfg) : Paired s' r' where
  sends := hs.isTx.trans h.sends
  deaf := hs.isRx.trans h.deaf
  receives := hr.isRx.trans h.receives
  mute := hr.isTx.trans h.mute
  cfg := hcfg
  tctx := hr.tctx.trans (h.tctx.trans hs.tctx.symm)
  crypto := hr.crypto.trans (h.crypto.trans hs.crypto.symm)

theorem paired_timeout (h : Paired s r) (inp : MainInput) :
    Paired (mainTimeout (mainRead s inp).1 inp).1 r := by
  have hsame := (sameSetup_mainRead s inp).1.trans (sameSetup_mainTimeout (mainRead s inp).1 inp).1
  apply paired_of_sameSetup h hsame (SameSetup.refl r)
  rw [(sameTimer_mainTimeout (mainRead s inp).1 inp).cfg, (sameTimer_mainRead s inp).cfg]
  exact h.cfg

theorem mainStep_join (h : Paired s r) (inp : MainInput) :
    mainStep fuel (joinState s r) inp =
      Option.map₂ (fun a b => (joinState a.1 b.1, joinOutput a.2 b.2)) (mainStep fuel s inp)
        (mainStep fuel r inp) := by
  unfold mainStep
  cases inp.reload with
  | some newCfg =>
      cases newCfg with
      | none => rfl
      | some cfg => rfl
  | none =>
      dsimp only
      by_cases hselect : inp.selectFailed = true
      · simp only [if_pos hselect]
        rfl
      · obtain ⟨hread, htimeout, hprobe⟩ := mute_phases h.mute inp
        simp only [if_neg hselect, mainRead_join, hread, htimeout, joinPhase, mainTimeout_join]
        rw [mainRx_join (paired_timeout h inp)]
        cases hs : mainRx fuel (mainTimeout (mainRead s inp).1 inp).1 inp with
        | none => rfl
        | some a =>
            cases hr : mainRx fuel r inp with
            | none => rfl
            | some b =>
                have hmute : (mainProbe b.1 inp).1 = b.1 := by
                  have hsame := (mainRx_cases hr).1
                  rw [(mute_phases (hsame.isTx.trans h.mute) inp).2.2]
                simp only [Option.map₂_some_some, mainProbe_join]
                rw [hmute]
                rfl

theorem paired_mainStep (h : Paired s r) {s' r' : MainState} {o o' : MainOutput}
    (hs : mainStep fuel s inp = some (s', o)) (hr : mainStep fuel r inp = some (r', o')) :
    Paired s' r' := by
  apply paired_of_sameSetup h (mainStep_window hs).1 (mainStep_window hr).1
  have hcfg := h.cfg
  rw [cfg_mainStep hs, cfg_mainStep hr]
  cases inp.reload with
  | none => exact hcfg
  | some newCfg =>
      cases newCfg with
      | none => exact hcfg
      | some new =>
          change { inMode "both" r.cfg with
            redundancyRatio := new.redundancyRatio
            probeIntervalMs := new.probeIntervalMs
            probeLossThreshold := new.probeLossThreshold
            blockTimeoutMs := new.blockTimeoutMs } = _
          rw [hcfg]
          rfl

end Turn

/-! ## Runs -/

section Runs

variable {fuel : ℕ}

theorem processStep_join {s r : Process} (h : Paired s.st r.st) (hrunning : r.running = s.running)
    (inp : ProcessInput) :
    processStep fuel (joinProcess s r) inp =
      Option.map₂ (fun a b => (joinProcess a.1 b.1, joinOutput a.2 b.2)) (processStep fuel s inp)
        (processStep fuel r inp) := by
  obtain ⟨st, running⟩ := s
  obtain ⟨rt, running'⟩ := r
  obtain rfl : running' = running := hrunning
  cases running' with
  | false => rfl
  | true =>
      cases inp with
      | turn turn =>
          change (mainStep fuel (joinState st rt) turn).map _ = _
          rw [mainStep_join h]
          change _ = Option.map₂ _ ((mainStep fuel st turn).map _) ((mainStep fuel rt turn).map _)
          cases mainStep fuel st turn with
          | none => rfl
          | some a =>
              cases mainStep fuel rt turn with
              | none => rfl
              | some b => rfl
      | shutdown env =>
          have hoff : rt.isTx = false := h.mute
          have hmute : mainDrain rt env = (rt, [], []) := by
            simp [mainDrain, hoff]
          simp only [processStep, joinProcess, mainDrain_join, joinPhase, hmute]
          rfl

theorem mainDrain_cfg (st : MainState) (env : FlushEnv) : (mainDrain st env).1.cfg = st.cfg := by
  unfold mainDrain
  split_ifs <;> rfl

theorem paired_processStep {s r s' r' : Process} {inp : ProcessInput} {o o' : MainOutput}
    (h : Paired s.st r.st) (hs : processStep fuel s inp = some (s', o))
    (hr : processStep fuel r inp = some (r', o')) :
    Paired s'.st r'.st ∧ r'.running = s'.running := by
  obtain ⟨-, ⟨turn, rfl, hsTurn, hsRunning⟩ | ⟨env, rfl, rfl, -⟩⟩ := processStep_cases hs
  · obtain ⟨-, ⟨turn', hturn, hrTurn, hrRunning⟩ | ⟨env, hend, -, -⟩⟩ := processStep_cases hr
    · cases hturn
      exact ⟨paired_mainStep h hsTurn hrTurn, hrRunning.trans hsRunning.symm⟩
    · cases hend
  · obtain ⟨-, ⟨turn', hturn, -, -⟩ | ⟨env', hend, rfl, -⟩⟩ := processStep_cases hr
    · cases hturn
    · refine ⟨?_, rfl⟩
      apply paired_of_sameSetup h (sameSetup_mainDrain s.st env).1 (sameSetup_mainDrain r.st env').1
      rw [mainDrain_cfg, mainDrain_cfg]
      exact h.cfg

/-- **A gateway in mode `both` is a sender beside a receiver.** On the same inputs, with reloads,
failures and the final drain, it does what a gateway in mode `tx` and one in mode `rx` do, each on
its own: the packets read, the blocks flushed, the datagrams and probes sent and the health of the
paths are those of the sender, the window and the packets delivered those of the receiver. -/
theorem processRun_both (cfg : GatewayConfig) (tctx : TransportCtx) (crypto : CryptoCtx)
    (now : Timeval) (inputs : List ProcessInput) :
    processRun fuel (processInit (inMode "both" cfg) tctx crypto now) inputs =
      Option.map₂ (fun a b => (joinProcess a.1 b.1, List.zipWith joinOutput a.2 b.2))
        (processRun fuel (processInit (inMode "tx" cfg) tctx crypto now) inputs)
        (processRun fuel (processInit (inMode "rx" cfg) tctx crypto now) inputs) := by
  change processRun fuel (joinProcess (processInit (inMode "tx" cfg) tctx crypto now)
    (processInit (inMode "rx" cfg) tctx crypto now)) inputs = _
  apply Machine.run_join joinProcess joinOutput
    (fun s r => Paired s.st r.st ∧ r.running = s.running)
  · exact fun s r inp s' o r' o' h hs hr => paired_processStep h.1 hs hr
  · exact fun s r inp h => processStep_join h.1 h.2 inp
  · exact ⟨⟨rfl, rfl, rfl, rfl, rfl, rfl, rfl⟩, rfl⟩

end Runs

end CodingGateway.Proofs.Duplex
