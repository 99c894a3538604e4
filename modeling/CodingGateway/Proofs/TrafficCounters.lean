import CodingGateway.Proofs.DecodeAccounting
import CodingGateway.Proofs.OpenPaths
import CodingGateway.Proofs.ProcessRuns
import CodingGateway.Proofs.Sender
set_option autoImplicit false

/-!
# The counters count the traffic

In every run of the process the counters are those of the start plus what was sent, received,
decoded and flushed, modulo `2^64`.

* `metrics_mainStep` — what one turn adds;
* `metrics_processRun` — what a run adds, drained or not.
-/

namespace CodingGateway.Proofs.TrafficCounters

open CodingGateway.Model
open CodingGateway.Library
open CodingGateway.Proofs.DecodeAccounting
open CodingGateway.Proofs.EventLoop
open CodingGateway.Proofs.Flush
open CodingGateway.Proofs.OpenPaths
open CodingGateway.Proofs.ProcessRuns
open CodingGateway.Proofs.Sender
open CodingGateway.Proofs.Wire

/-! ## Traffic -/

/-- The shards that left on each path and those that were received on it, the blocks that were
decoded and those that were flushed. -/
@[ext]
structure Traffic where
  sent : ℕ → ℕ
  received : ℕ → ℕ
  decoded : ℕ
  flushed : ℕ

instance : Zero Traffic := ⟨⟨0, 0, 0, 0⟩⟩

instance : Add Traffic := ⟨fun a b =>
  ⟨a.sent + b.sent, a.received + b.received, a.decoded + b.decoded, a.flushed + b.flushed⟩⟩

@[simp] theorem Traffic.add_sent (a b : Traffic) : (a + b).sent = a.sent + b.sent := rfl

@[simp] theorem Traffic.add_received (a b : Traffic) :
    (a + b).received = a.received + b.received := rfl

@[simp] theorem Traffic.add_decoded (a b : Traffic) :
    (a + b).decoded = a.decoded + b.decoded := rfl

@[simp] theorem Traffic.add_flushed (a b : Traffic) :
    (a + b).flushed = a.flushed + b.flushed := rfl

/-- The counters when the traffic has been added to them. -/
def counted (m : Metrics) (t : Traffic) : Metrics :=
  { m with
    shardsSent := fun p => m.shardsSent p + UInt64.ofNat (t.sent p)
    shardsReceived := fun p => m.shardsReceived p + UInt64.ofNat (t.received p)
    decodeSuccess := m.decodeSuccess + UInt64.ofNat t.decoded
    blocksEncoded := m.blocksEncoded + UInt64.ofNat t.flushed }

theorem counted_zero (m : Metrics) : counted m 0 = m := by
  obtain ⟨sent, received, success, failure, encoded, bucket, count, sum⟩ := m
  have hzero : ∀ n : UInt64, n + UInt64.ofNat 0 = n := UInt64.add_zero
  change (⟨fun p => sent p + UInt64.ofNat 0, fun p => received p + UInt64.ofNat 0,
    success + UInt64.ofNat 0, failure, encoded + UInt64.ofNat 0, bucket, count, sum⟩ : Metrics) = _
  simp only [hzero]

theorem counted_add (m : Metrics) (a b : Traffic) :
    counted m (a + b) = counted (counted m a) b := by
  have hadd : ∀ (n : UInt64) (x y : ℕ),
      n + UInt64.ofNat (x + y) = n + UInt64.ofNat x + UInt64.ofNat y := by
    intro n x y
    rw [UInt64.ofNat_add, UInt64.add_assoc]
  change (⟨fun p => m.shardsSent p + UInt64.ofNat (a.sent p + b.sent p),
    fun p => m.shardsReceived p + UInt64.ofNat (a.received p + b.received p),
    m.decodeSuccess + UInt64.ofNat (a.decoded + b.decoded), m.decodeFailure,
    m.blocksEncoded + UInt64.ofNat (a.flushed + b.flushed), m.latencyBucket, m.latencyCount,
    m.latencySumMs⟩ : Metrics) = _
  simp only [hadd]
  rfl

/-- The shards among the datagrams that left on path `p`. -/
def shardsOn (sent : List (ℕ × List UInt8)) (p : ℕ) : ℕ :=
  sent.countP fun d => decide (d.1 = p) && isData d.2

/-- The path that `transport_recv` attributes a data shard to. -/
def pathOf (tctx : TransportCtx) (inp : RxInput) : Option ℕ :=
  match transportRecv tctx inp.dgram inp.garbage.shardIn with
  | .data _ _ path => some path
  | _ => none

/-- The path of the data shard that a datagram hands to the window, in a mode that receives. -/
def pathRead (st : MainState) (inp : MainInput) : Option ℕ :=
  if st.isRx then inp.arrival.bind (pathOf st.tctx) else none

/-- The path of the data shard that a whole turn hands to the window. -/
def feedPath (st : MainState) (inp : MainInput) : Option ℕ :=
  if inp.reload.isSome || inp.selectFailed then none else pathRead st inp

/-- What turns of a gateway read, and what they put out. -/
def traffic (st : MainState) (inputs : List MainInput) (outs : List MainOutput) : Traffic where
  sent := shardsOn (outs.flatMap MainOutput.sent)
  received p := inputs.countP fun inp => feedPath st inp = some p
  decoded := outs.countP fun out => (out.rx.bind RxOutput.delivery).isSome
  flushed := (outs.flatMap MainOutput.flushed).length

theorem shardsOn_append (sent more : List (ℕ × List UInt8)) :
    shardsOn (sent ++ more) = shardsOn sent + shardsOn more := by
  ext p
  exact List.countP_append

theorem shardsOn_of_none {sent : List (ℕ × List UInt8)} (h : ∀ d ∈ sent, isData d.2 = false) :
    shardsOn sent = 0 := by
  ext p
  apply List.countP_eq_zero.mpr
  intro d hd
  rw [h d hd, Bool.and_false]
  exact Bool.false_ne_true

theorem traffic_append (st : MainState) (inputs inputs' : List MainInput)
    (outs outs' : List MainOutput) :
    traffic st (inputs ++ inputs') (outs ++ outs') =
      traffic st inputs outs + traffic st inputs' outs' := by
  ext p
  · simp [traffic, shardsOn_append]
  · exact List.countP_append
  · exact List.countP_append
  · simp [traffic]

def flushTraffic (flushed : List TxBlock) (sent : List (ℕ × List UInt8)) : Traffic :=
  ⟨shardsOn sent, 0, 0, flushed.length⟩

/-! ## Sending -/

theorem bump_shardsOn (counter : ℕ → UInt64) (sent : List (ℕ × List UInt8)) (path : ℕ)
    {bytes : List UInt8} (h : isData bytes = true) :
    bump (fun p => counter p + UInt64.ofNat (shardsOn sent p)) path =
      fun p => counter p + UInt64.ofNat (shardsOn (sent ++ [(path, bytes)]) p) := by
  ext1 p
  rw [bump, shardsOn_append, Pi.add_apply]
  by_cases hp : p = path
  · subst hp
    have hone : shardsOn [(p, bytes)] p = 1 := by simp [shardsOn, h]
    rw [Function.update_self, hone, UInt64.ofNat_add, UInt64.add_assoc]
    rfl
  · have hnone : shardsOn [(path, bytes)] p = 0 := by simp [shardsOn, Ne.symm hp]
    rw [Function.update_of_ne hp, hnone, Nat.add_zero]

section Send

variable (tctx : TransportCtx) (env : FlushEnv) (k n : ℕ) (shards : ℕ → Shard)

theorem sendStep_metrics (res : FlushResult) (i : ℕ) {m : Metrics}
    (h : res.metrics = counted m (flushTraffic [] res.sent)) :
    (sendStep tctx env k n shards res i).metrics =
      counted m (flushTraffic [] (sendStep tctx env k n shards res i).sent) := by
  unfold sendStep
  rcases strategyNextPath res.sctx with ⟨sctx, pick⟩
  cases pick with
  | none => exact h
  | some path =>
      dsimp only
      split_ifs
      · have hbump := bump_shardsOn m.shardsSent res.sent path
          (isData_shardDatagram res.blk.blockId (UInt8.ofNat i) (UInt8.ofNat k) (UInt8.ofNat n)
            (shards i))
        have hsent : res.metrics.shardsSent =
            fun p => m.shardsSent p + UInt64.ofNat (shardsOn res.sent p) := by
          rw [h]
          rfl
        rw [hsent, hbump, h]
        rfl
      · exact h

theorem foldl_sendStep_metrics (l : List ℕ) (res : FlushResult) {m : Metrics}
    (h : res.metrics = counted m (flushTraffic [] res.sent)) :
    (l.foldl (sendStep tctx env k n shards) res).metrics =
      counted m (flushTraffic [] (l.foldl (sendStep tctx env k n shards) res).sent) := by
  induction l generalizing res with
  | nil => exact h
  | cons i l ih => exact ih _ (sendStep_metrics tctx env k n shards res i h)

end Send

section Turn

variable {fuel : ℕ} {st st' : MainState} {inp : MainInput} {out : MainOutput}

/-- A block with packets is counted, and so are its shards that leave. -/
theorem flushBlock_metrics (hpos : st.tx.pktCount ≠ 0) (env : FlushEnv) :
    (flushBlock st env).1.metrics =
      counted st.metrics (flushTraffic (flushBlock st env).2.1 (flushBlock st env).2.2) := by
  have hstart : st.metrics = counted st.metrics (flushTraffic [] []) :=
    (counted_zero st.metrics).symm
  unfold flushBlock txBlockFlush
  rw [if_neg hpos]
  dsimp only
  rw [foldl_sendStep_metrics _ _ _ _ _ _ _ hstart]
  unfold counted flushTraffic
  simp

theorem mainFlush_metrics (hpos : st.tx.pktCount ≠ 0) (env : FlushEnv) :
    (mainFlush st env).1.metrics =
      counted st.metrics (flushTraffic (mainFlush st env).2.1 (mainFlush st env).2.2) :=
  flushBlock_metrics hpos env

theorem mainRead_metrics (hk : 1 ≤ st.cfg.k.toNat) (inp : MainInput) :
    (mainRead st inp).1.metrics =
      counted st.metrics (flushTraffic (mainRead st inp).2.1 (mainRead st inp).2.2) := by
  have hidle : st.metrics = counted st.metrics (flushTraffic [] []) :=
    (counted_zero st.metrics).symm
  unfold mainRead
  split_ifs
  · cases inp.packet with
    | none => exact hidle
    | some pkt =>
        dsimp only
        split_ifs with hfull
        · apply mainFlush_metrics
          exact Nat.pos_iff_ne_zero.mp (hk.trans (le_pktCount_of_full hfull))
        · exact hidle
  · exact hidle

theorem mainTimeout_metrics (st : MainState) (inp : MainInput) :
    (mainTimeout st inp).1.metrics =
      counted st.metrics (flushTraffic (mainTimeout st inp).2.1 (mainTimeout st inp).2.2) := by
  unfold mainTimeout
  split_ifs with hflush
  · have hpos : st.tx.pktCount ≠ 0 := by
      intro hzero
      simp [txBlockNeedsFlush, hzero] at hflush
    exact mainFlush_metrics hpos inp.timeoutFlush
  · exact (counted_zero st.metrics).symm

theorem mainDrain_metrics (st : MainState) (env : FlushEnv) :
    (mainDrain st env).1.metrics =
      counted st.metrics (flushTraffic (mainDrain st env).2.1 (mainDrain st env).2.2) := by
  unfold mainDrain
  split_ifs with hdrain
  · have hpos : st.tx.pktCount ≠ 0 := by
      rw [Bool.and_eq_true, decide_eq_true_iff] at hdrain
      omega
    exact flushBlock_metrics hpos env
  · exact (counted_zero st.metrics).symm

/-- What the receive phase of a turn adds: a shard on its path, and a block if it was decoded. -/
def receivedTraffic (path : Option ℕ) (rx : Option RxOutput) : Traffic where
  sent := 0
  received p := if path = some p then 1 else 0
  decoded := if (rx.bind RxOutput.delivery).isSome then 1 else 0
  flushed := 0

theorem receivedTraffic_none : receivedTraffic none none = 0 := rfl

theorem bump_received (counter : ℕ → UInt64) (path : ℕ) :
    bump counter path =
      fun p => counter p + UInt64.ofNat (if some path = some p then 1 else 0) := by
  ext1 p
  rw [bump]
  by_cases hp : p = path
  · subst hp
    rw [Function.update_self, if_pos rfl]
    rfl
  · have hne : some path ≠ some p := fun h => hp (Option.some.inj h).symm
    rw [Function.update_of_ne hp, if_neg hne]
    exact (UInt64.add_zero _).symm

theorem counted_received (m : Metrics) (path : ℕ) (o : RxOutput) :
    counted m (receivedTraffic (some path) (some o)) =
      { m with
        shardsReceived := bump m.shardsReceived path
        decodeSuccess := if o.delivery.isSome then m.decodeSuccess + 1 else m.decodeSuccess } := by
  rw [bump_received]
  unfold counted receivedTraffic
  cases hdelivery : o.delivery with
  | none => simp [hdelivery]
  | some d => simp [hdelivery]

theorem mainRx_metrics {rx : Option RxOutput} {sent : List (ℕ × List UInt8)}
    (h : mainRx fuel st inp = some (st', rx, sent)) :
    st'.metrics = counted st.metrics (receivedTraffic (pathRead st inp) rx) := by
  have hidle : st.metrics = counted st.metrics (receivedTraffic none none) := by
    rw [receivedTraffic_none, counted_zero]
  unfold mainRx at h
  cases harr : inp.arrival with
  | none =>
      rw [harr] at h
      cases h
      simpa [pathRead, harr] using hidle
  | some r =>
      rw [harr] at h
      dsimp only at h
      cases hrecv : transportRecv st.tctx r.dgram r.garbage.shardIn with
      | error =>
          rw [hrecv] at h
          cases h
          simpa [pathRead, harr, pathOf, hrecv] using hidle
      | probe ts path =>
          rw [hrecv] at h
          cases h
          simpa [pathRead, harr, pathOf, hrecv] using hidle
      | probeEcho ts path =>
          rw [hrecv] at h
          dsimp only at h
          split_ifs at h
          · cases h
            simpa [pathRead, harr, pathOf, hrecv] using hidle
          · cases h
            simpa [pathRead, harr, pathOf, hrecv] using hidle
      | data hdr s path =>
          rw [hrecv] at h
          dsimp only at h
          split_ifs at h with hrx
          · have hpath : pathRead st inp = some path := by
              simp [pathRead, hrx, harr, pathOf, hrecv]
            cases hstep : rxStep fuel st.cfg.windowSize.toNat st.crypto st.rxWin
                ⟨hdr, s, r.garbage, r.insertUs, r.advanceUs⟩ with
            | none =>
                rw [hstep] at h
                cases h
            | some q =>
                rw [hstep] at h
                cases h
                rw [hpath, counted_received]
          · cases h
            simpa [pathRead, hrx] using hidle

theorem rest_not_data (p : Phases fuel st inp st' out) :
    ∀ d ∈ p.sent₃ ++ p.probed.map fun q => (q, probeDatagram typeProbe inp.probeUs),
      isData d.2 = false := by
  intro d hd
  have hecho := (mainRx_sender p.received_eq).2.2
  have hnone : ((p.sent₃ ++ p.probed.map fun q =>
      (q, probeDatagram typeProbe inp.probeUs)).map Prod.snd).filter isData = [] := by
    rw [List.map_append, List.filter_append, hecho, filter_isData_probes]
    rfl
  rw [List.filter_eq_nil_iff] at hnone
  simpa using hnone d.2 (List.mem_map_of_mem hd)

/-- **One turn.** The counters grow by the traffic of the turn. -/
theorem metrics_mainStep (hk : 1 ≤ st.cfg.k.toNat) (h : mainStep fuel st inp = some (st', out)) :
    st'.metrics = counted st.metrics (traffic st [inp] [out]) := by
  have hidle (hnone : feedPath st inp = none) : traffic st [inp] [idleOutput] = 0 := by
    ext p
    · rfl
    · simp [traffic, hnone]
      rfl
    · rfl
    · rfl
  rcases mainStep_cases h with ⟨newCfg, hreload, rfl, rfl⟩ | ⟨hreload, hselect, rfl, rfl⟩ |
    ⟨hreload, hselect, ⟨p⟩⟩
  · rw [hidle (by simp [feedPath, hreload]), counted_zero, mainReload_metrics]
  · rw [hidle (by simp [feedPath, hselect]), counted_zero]
  · have hread := mainRead_metrics hk inp
    rw [p.read_eq] at hread
    have htimeout := mainTimeout_metrics p.read inp
    rw [p.timeout_eq] at htimeout
    have hrx := mainRx_metrics p.received_eq
    have hprobe := mainProbe_metrics p.received inp
    rw [p.probe_eq] at hprobe
    have hpath : pathRead p.timeout inp = feedPath st inp := by
      have hsame := p.sameSetup_timeout.1
      simp [feedPath, pathRead, hreload, hselect, hsame.isRx, hsame.tctx]
    have hsum : traffic st [inp] [out] = flushTraffic p.flushed₁ p.sent₁ +
        flushTraffic p.flushed₂ p.sent₂ + receivedTraffic (feedPath st inp) p.rx := by
      have hout : shardsOn out.sent = shardsOn p.sent₁ + shardsOn p.sent₂ := by
        rw [p.out_sent, List.append_assoc (p.sent₁ ++ p.sent₂), shardsOn_append, shardsOn_append,
          shardsOn_of_none (rest_not_data p), add_zero]
      ext q
      · simp [traffic, flushTraffic, receivedTraffic, hout]
      · simp [traffic, flushTraffic, receivedTraffic, List.countP_singleton]
      · simp [traffic, flushTraffic, receivedTraffic, List.countP_singleton, p.out_rx]
      · simp [traffic, flushTraffic, receivedTraffic, p.out_flushed]
    calc st'.metrics = p.received.metrics := hprobe
      _ = counted p.timeout.metrics (receivedTraffic (feedPath st inp) p.rx) := by rw [hrx, hpath]
      _ = counted st.metrics (traffic st [inp] [out]) := by
          rw [hsum, counted_add, counted_add, htimeout, hread]

end Turn

/-! ## Runs -/

section Runs

variable {fuel : ℕ} {st : MainState}

theorem feedPath_congr {st' : MainState} (h : SameSetup st st') (inp : MainInput) :
    feedPath st' inp = feedPath st inp := by
  simp only [feedPath, pathRead, h.isRx, h.tctx]

theorem metrics_mainRun (hk : 1 ≤ st.cfg.k.toNat) {inputs : List MainInput} {st' : MainState}
    {outs : List MainOutput} (hrun : mainRun fuel st inputs = some (st', outs)) :
    st'.metrics = counted st.metrics (traffic st inputs outs) := by
  refine Machine.run_induction (P := fun inputs st' outs =>
    st'.metrics = counted st.metrics (traffic st inputs outs)) ?_ ?_ hrun
  · exact (counted_zero st.metrics).symm
  · intro pre s outs inp s' out hpre ih hstep
    have hsetup := sameSetup_mainRun hpre
    have hks : 1 ≤ s.cfg.k.toNat := by
      rw [hsetup.k]
      exact hk
    have hpaths : traffic s [inp] [out] = traffic st [inp] [out] := by
      unfold traffic
      simp only [feedPath_congr hsetup]
    rw [metrics_mainStep hks hstep, ih, hpaths, traffic_append, counted_add]

/-- **A run of the process.** The drained block is counted as well. -/
theorem metrics_processRun (hk : 1 ≤ st.cfg.k.toNat) {inputs : List ProcessInput} {p : Process}
    {outs : List MainOutput} (hrun : processRun fuel ⟨st, true⟩ inputs = some (p, outs)) :
    p.st.metrics = counted st.metrics (traffic st (turns inputs) outs) := by
  obtain ⟨st', louts, hmain, hends⟩ := mainRun_of_processRun hrun
  have hloop := metrics_mainRun hk hmain
  cases hends with
  | loop => exact hloop
  | drained env =>
      have hdrained : traffic st [] [drainOutput st' env] =
          flushTraffic (mainDrain st' env).2.1 (mainDrain st' env).2.2 := by
        ext p
        · simp [traffic, flushTraffic, drainOutput]
        · rfl
        · rfl
        · simp [traffic, flushTraffic, drainOutput]
      have hsplit := traffic_append st (turns inputs) [] louts [drainOutput st' env]
      rw [List.append_nil] at hsplit
      rw [hsplit, counted_add, ← hloop, hdrained]
      exact mainDrain_metrics st' env

end Runs

end CodingGateway.Proofs.TrafficCounters
