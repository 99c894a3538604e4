import CodingGateway.Proofs.ReceiveLoop
set_option autoImplicit false

/-!
# The event loop

One turn of the loop is a reload, a failed `select`, or the four phases in order;
`mainStep_cases` says so once.  No turn changes the mode, the block size, the window
size, the sockets or the key, and the window follows the receive loop on the data
shards that the turns read (`rxRun_of_mainRun`).
-/

namespace CodingGateway.Proofs.EventLoop

open CodingGateway.Model
open CodingGateway.Library
open CodingGateway.Proofs.ReceiveLoop

/-- The state and the outputs after a number of turns. -/
def mainRun (fuel : ℕ) : MainState → List MainInput → Option (MainState × List MainOutput) :=
  Machine.run (mainStep fuel)

/-- A turn that meets nothing, at time zero. -/
def quietTurn : MainInput where
  selectFailed := false
  reload := none
  packet := none
  addTime := ⟨0, 0⟩
  flushTime := ⟨0, 0⟩
  fullFlush := ⟨fun _ _ => 0, fun _ => zeroStack.shardIn, fun _ => true⟩
  timeoutFlush := ⟨fun _ _ => 0, fun _ => zeroStack.shardIn, fun _ => true⟩
  arrival := none
  echoAccepted := true
  echoUs := 0
  probeTime := ⟨0, 0⟩
  probeUs := 0
  probeAccepted _ := true

/-- The output of a turn that only reloads, or in which `select` fails. -/
def idleOutput : MainOutput := ⟨[], [], [], none⟩

/-- The four phases of a turn that `select` and the reload flag let through. -/
structure Phases (fuel : ℕ) (st : MainState) (inp : MainInput) (st' : MainState)
    (out : MainOutput) where
  read : MainState
  flushed₁ : List TxBlock
  sent₁ : List (ℕ × List UInt8)
  timeout : MainState
  flushed₂ : List TxBlock
  sent₂ : List (ℕ × List UInt8)
  received : MainState
  rx : Option RxOutput
  sent₃ : List (ℕ × List UInt8)
  probed : List ℕ
  read_eq : mainRead st inp = (read, flushed₁, sent₁)
  timeout_eq : mainTimeout read inp = (timeout, flushed₂, sent₂)
  received_eq : mainRx fuel timeout inp = some (received, rx, sent₃)
  probe_eq : mainProbe received inp = (st', probed)
  out_flushed : out.flushed = flushed₁ ++ flushed₂
  out_sent : out.sent = sent₁ ++ sent₂ ++ sent₃ ++
    probed.map fun p => (p, probeDatagram typeProbe inp.probeUs)
  out_probed : out.probed = probed
  out_rx : out.rx = rx

section Step

variable {fuel : ℕ} {st st' : MainState} {inp : MainInput} {out : MainOutput}

theorem mainStep_cases (h : mainStep fuel st inp = some (st', out)) :
    (∃ newCfg, inp.reload = some newCfg ∧ st' = mainReload st newCfg ∧ out = idleOutput) ∨
      (inp.reload = none ∧ inp.selectFailed = true ∧ st' = st ∧ out = idleOutput) ∨
      (inp.reload = none ∧ inp.selectFailed = false ∧ Nonempty (Phases fuel st inp st' out)) := by
  unfold mainStep at h
  cases hreload : inp.reload with
  | some newCfg =>
      rw [hreload] at h
      cases h
      exact Or.inl ⟨newCfg, rfl, rfl, rfl⟩
  | none =>
      rw [hreload] at h
      right
      by_cases hselect : inp.selectFailed = true
      · simp only [if_pos hselect, Option.some.injEq, Prod.mk.injEq] at h
        exact Or.inl ⟨rfl, hselect, h.1.symm, h.2.symm⟩
      · refine Or.inr ⟨rfl, by simpa using hselect, ?_⟩
        simp only [if_neg hselect] at h
        rcases hread : mainRead st inp with ⟨st₁, flushed₁, sent₁⟩
        rcases htimeout : mainTimeout st₁ inp with ⟨st₂, flushed₂, sent₂⟩
        simp only [hread, htimeout] at h
        cases hrx : mainRx fuel st₂ inp with
        | none => simp [hrx] at h
        | some r =>
            obtain ⟨st₃, rx, sent₃⟩ := r
            rcases hprobe : mainProbe st₃ inp with ⟨st₄, probed⟩
            simp only [hrx, hprobe, Option.some.injEq, Prod.mk.injEq] at h
            obtain ⟨rfl, rfl⟩ := h
            exact ⟨st₁, flushed₁, sent₁, st₂, flushed₂, sent₂, st₃, rx, sent₃, probed, hread,
              htimeout, hrx, hprobe, rfl, rfl, rfl, rfl⟩

/-! ## What a turn leaves alone -/

/-- The parts of the state that are set before the loop and never after. -/
structure SameSetup (st st' : MainState) : Prop where
  isTx : st'.isTx = st.isTx
  isRx : st'.isRx = st.isRx
  k : st'.cfg.k = st.cfg.k
  windowSize : st'.cfg.windowSize = st.cfg.windowSize
  tctx : st'.tctx = st.tctx
  crypto : st'.crypto = st.crypto

theorem SameSetup.refl (st : MainState) : SameSetup st st := ⟨rfl, rfl, rfl, rfl, rfl, rfl⟩

theorem SameSetup.trans {st₁ st₂ st₃ : MainState} (h₁ : SameSetup st₁ st₂)
    (h₂ : SameSetup st₂ st₃) : SameSetup st₁ st₃ :=
  ⟨h₂.isTx.trans h₁.isTx, h₂.isRx.trans h₁.isRx, h₂.k.trans h₁.k,
    h₂.windowSize.trans h₁.windowSize, h₂.tctx.trans h₁.tctx, h₂.crypto.trans h₁.crypto⟩

theorem sameSetup_mainReload (st : MainState) (newCfg : Option GatewayConfig) :
    SameSetup st (mainReload st newCfg) ∧ (mainReload st newCfg).rxWin = st.rxWin := by
  cases newCfg with
  | none => exact ⟨SameSetup.refl st, rfl⟩
  | some cfg => exact ⟨⟨rfl, rfl, rfl, rfl, rfl, rfl⟩, rfl⟩

theorem sameSetup_mainFlush (st : MainState) (env : FlushEnv) :
    SameSetup st (mainFlush st env).1 ∧ (mainFlush st env).1.rxWin = st.rxWin :=
  ⟨⟨rfl, rfl, rfl, rfl, rfl, rfl⟩, rfl⟩

theorem sameSetup_mainRead (st : MainState) (inp : MainInput) :
    SameSetup st (mainRead st inp).1 ∧ (mainRead st inp).1.rxWin = st.rxWin := by
  unfold mainRead
  split_ifs with htx
  · cases inp.packet with
    | none => exact ⟨SameSetup.refl st, rfl⟩
    | some pkt =>
        dsimp only
        split_ifs with hfull
        · exact ⟨⟨rfl, rfl, rfl, rfl, rfl, rfl⟩, rfl⟩
        · exact ⟨⟨rfl, rfl, rfl, rfl, rfl, rfl⟩, rfl⟩
  · exact ⟨SameSetup.refl st, rfl⟩

theorem sameSetup_mainTimeout (st : MainState) (inp : MainInput) :
    SameSetup st (mainTimeout st inp).1 ∧ (mainTimeout st inp).1.rxWin = st.rxWin := by
  unfold mainTimeout
  split_ifs with hflush
  · exact sameSetup_mainFlush st inp.timeoutFlush
  · exact ⟨SameSetup.refl st, rfl⟩

theorem sameSetup_mainProbe (st : MainState) (inp : MainInput) :
    SameSetup st (mainProbe st inp).1 ∧ (mainProbe st inp).1.rxWin = st.rxWin := by
  unfold mainProbe
  split_ifs with hdue
  · exact ⟨⟨rfl, rfl, rfl, rfl, rfl, rfl⟩, rfl⟩
  · exact ⟨SameSetup.refl st, rfl⟩

theorem Phases.sameSetup_read (p : Phases fuel st inp st' out) :
    SameSetup st p.read ∧ p.read.rxWin = st.rxWin := by
  simpa only [p.read_eq] using sameSetup_mainRead st inp

theorem Phases.sameSetup_timeout (p : Phases fuel st inp st' out) :
    SameSetup st p.timeout ∧ p.timeout.rxWin = st.rxWin := by
  have htimeout : SameSetup p.read p.timeout ∧ p.timeout.rxWin = p.read.rxWin := by
    simpa only [p.timeout_eq] using sameSetup_mainTimeout p.read inp
  exact ⟨p.sameSetup_read.1.trans htimeout.1, htimeout.2.trans p.sameSetup_read.2⟩

theorem Phases.sameSetup_probe (p : Phases fuel st inp st' out) :
    SameSetup p.received st' ∧ st'.rxWin = p.received.rxWin := by
  simpa only [p.probe_eq] using sameSetup_mainProbe p.received inp

/-- What the receive phase can do, by what it reads. -/
inductive RxPhase (fuel : ℕ) (st : MainState) (inp : MainInput) :
    MainState → Option RxOutput → List (ℕ × List UInt8) → Prop
  | quiet (harr : inp.arrival = none) : RxPhase fuel st inp st none []
  | refused {r : RxInput} (harr : inp.arrival = some r)
      (hrecv : transportRecv st.tctx r.dgram r.garbage.shardIn = .error) :
      RxPhase fuel st inp st none []
  | shard {r : RxInput} {hdr : WireHeader} {s : Shard} {path : ℕ} {win : RxWindow}
      {out : RxOutput} {metrics : Metrics} (harr : inp.arrival = some r)
      (hrecv : transportRecv st.tctx r.dgram r.garbage.shardIn = .data hdr s path)
      (hrx : st.isRx = true)
      (hstep : rxStep fuel st.cfg.windowSize.toNat st.crypto st.rxWin
        ⟨hdr, s, r.garbage, r.insertUs, r.advanceUs⟩ = some (win, out)) :
      RxPhase fuel st inp { st with rxWin := win, metrics := metrics } (some out) []
  | shardIgnored {r : RxInput} {hdr : WireHeader} {s : Shard} {path : ℕ}
      (harr : inp.arrival = some r)
      (hrecv : transportRecv st.tctx r.dgram r.garbage.shardIn = .data hdr s path)
      (hrx : st.isRx = false) : RxPhase fuel st inp st none []
  | probe {r : RxInput} {ts : UInt64} {path : ℕ} (harr : inp.arrival = some r)
      (hrecv : transportRecv st.tctx r.dgram r.garbage.shardIn = .probe ts path) :
      RxPhase fuel st inp st none (if sendBuf st.tctx path inp.echoAccepted then
        [(path, probeDatagram typeProbeEcho ts)] else [])
  | echo {r : RxInput} {ts : UInt64} {path : ℕ} (harr : inp.arrival = some r)
      (hrecv : transportRecv st.tctx r.dgram r.garbage.shardIn = .probeEcho ts path)
      (htx : st.isTx = true) :
      RxPhase fuel st inp
        { st with sctx := strategyUpdateProbe st.sctx path (inp.echoUs - ts) true } none []
  | echoIgnored {r : RxInput} {ts : UInt64} {path : ℕ} (harr : inp.arrival = some r)
      (hrecv : transportRecv st.tctx r.dgram r.garbage.shardIn = .probeEcho ts path)
      (htx : st.isTx = false) : RxPhase fuel st inp st none []

theorem rxPhase_of_mainRx {rx : Option RxOutput} {sent : List (ℕ × List UInt8)}
    (h : mainRx fuel st inp = some (st', rx, sent)) : RxPhase fuel st inp st' rx sent := by
  unfold mainRx at h
  cases harr : inp.arrival with
  | none =>
      rw [harr] at h
      cases h
      exact .quiet harr
  | some r =>
      rw [harr] at h
      dsimp only at h
      cases hrecv : transportRecv st.tctx r.dgram r.garbage.shardIn with
      | error =>
          rw [hrecv] at h
          cases h
          exact .refused harr hrecv
      | probe ts path =>
          rw [hrecv] at h
          cases h
          exact .probe harr hrecv
      | probeEcho ts path =>
          rw [hrecv] at h
          dsimp only at h
          split_ifs at h with htx
          · cases h
            exact .echo harr hrecv htx
          · cases h
            exact .echoIgnored harr hrecv (Bool.eq_false_iff.mpr htx)
      | data hdr s path =>
          rw [hrecv] at h
          dsimp only at h
          split_ifs at h with hrx
          · cases hstep : rxStep fuel st.cfg.windowSize.toNat st.crypto st.rxWin
                ⟨hdr, s, r.garbage, r.insertUs, r.advanceUs⟩ with
            | none =>
                rw [hstep] at h
                cases h
            | some q =>
                rw [hstep] at h
                cases h
                exact .shard harr hrecv hrx hstep
          · cases h
            exact .shardIgnored harr hrecv (Bool.eq_false_iff.mpr hrx)

/-- The data shard that a datagram hands to the window, in a mode that receives. -/
def shardRead (st : MainState) (inp : MainInput) : Option Arrival :=
  if st.isRx then inp.arrival.bind (arrivalOf st.tctx) else none

/-- The receive phase is a step of the receive loop when it reads a data shard. -/
theorem mainRx_cases {rx : Option RxOutput} {sent : List (ℕ × List UInt8)}
    (h : mainRx fuel st inp = some (st', rx, sent)) :
    SameSetup st st' ∧
      ((shardRead st inp = none ∧ st'.rxWin = st.rxWin ∧ rx = none) ∨
        ∃ a out, shardRead st inp = some a ∧ rx = some out ∧
          rxStep fuel st.cfg.windowSize.toNat st.crypto st.rxWin a = some (st'.rxWin, out)) := by
  have hrefl := SameSetup.refl st
  cases rxPhase_of_mainRx h with
  | quiet harr => exact ⟨hrefl, Or.inl ⟨by simp [shardRead, harr], rfl, rfl⟩⟩
  | refused harr hrecv =>
      exact ⟨hrefl, Or.inl ⟨by simp [shardRead, harr, arrivalOf, hrecv], rfl, rfl⟩⟩
  | shard harr hrecv hrx hstep =>
      refine ⟨⟨rfl, rfl, rfl, rfl, rfl, rfl⟩, Or.inr ⟨_, _, ?_, rfl, hstep⟩⟩
      simp [shardRead, hrx, harr, arrivalOf, hrecv]
  | shardIgnored harr hrecv hrx =>
      exact ⟨hrefl, Or.inl ⟨by simp [shardRead, hrx], rfl, rfl⟩⟩
  | probe harr hrecv =>
      exact ⟨hrefl, Or.inl ⟨by simp [shardRead, harr, arrivalOf, hrecv], rfl, rfl⟩⟩
  | echo harr hrecv htx =>
      refine ⟨⟨rfl, rfl, rfl, rfl, rfl, rfl⟩, Or.inl ⟨?_, rfl, rfl⟩⟩
      simp [shardRead, harr, arrivalOf, hrecv]
  | echoIgnored harr hrecv htx =>
      exact ⟨hrefl, Or.inl ⟨by simp [shardRead, harr, arrivalOf, hrecv], rfl, rfl⟩⟩

/-- The data shard that a whole turn hands to the window. -/
def feed (st : MainState) (inp : MainInput) : Option Arrival :=
  if inp.reload.isSome || inp.selectFailed then none else shardRead st inp

theorem feed_congr (h : SameSetup st st') (inp : MainInput) : feed st' inp = feed st inp := by
  simp only [feed, shardRead, h.isRx, h.tctx]

theorem mainStep_window (h : mainStep fuel st inp = some (st', out)) :
    SameSetup st st' ∧
      ((feed st inp = none ∧ st'.rxWin = st.rxWin ∧ out.rx = none) ∨
        ∃ a o, feed st inp = some a ∧ out.rx = some o ∧
          rxStep fuel st.cfg.windowSize.toNat st.crypto st.rxWin a = some (st'.rxWin, o)) := by
  rcases mainStep_cases h with ⟨newCfg, hreload, rfl, rfl⟩ | ⟨hreload, hselect, rfl, rfl⟩ |
    ⟨hreload, hselect, ⟨p⟩⟩
  · obtain ⟨hsame, hwin⟩ := sameSetup_mainReload st newCfg
    exact ⟨hsame, Or.inl ⟨by simp [feed, hreload], hwin, rfl⟩⟩
  · exact ⟨SameSetup.refl _, Or.inl ⟨by simp [feed, hselect], rfl, rfl⟩⟩
  · obtain ⟨hsame, hwin⟩ := p.sameSetup_timeout
    have hfeed : feed st inp = shardRead p.timeout inp := by
      simp only [feed, hreload, hselect, shardRead, hsame.isRx, hsame.tctx]
      rfl
    obtain ⟨hsame', hrx⟩ := mainRx_cases p.received_eq
    refine ⟨(hsame.trans hsame').trans p.sameSetup_probe.1, ?_⟩
    rw [hfeed, p.out_rx, p.sameSetup_probe.2]
    rw [hsame.windowSize, hsame.crypto, hwin] at hrx
    exact hrx

end Step

/-! ## Runs -/

theorem sameSetup_mainRun {fuel : ℕ} {st st' : MainState} {inputs : List MainInput}
    {outs : List MainOutput} (h : mainRun fuel st inputs = some (st', outs)) : SameSetup st st' :=
  Machine.run_induction (P := fun _ st' _ => SameSetup st st') (SameSetup.refl st)
    (fun _ _ _ _ _ _ _ hsame hstep => hsame.trans (mainStep_window hstep).1) h

/-- The window and its outputs in a run of the event loop are those of the receive loop on
the data shards that the turns read. -/
theorem rxRun_of_mainRun {fuel : ℕ} {st st' : MainState} {inputs : List MainInput}
    {outs : List MainOutput} (h : mainRun fuel st inputs = some (st', outs)) :
    rxRun fuel st.cfg.windowSize.toNat st.crypto st.rxWin (inputs.filterMap (feed st)) =
      some (st'.rxWin, outs.filterMap MainOutput.rx) := by
  refine Machine.run_project (SameSetup st) MainState.rxWin (feed st) MainOutput.rx ?_ ?_ ?_
    (SameSetup.refl st) h
  · intro s i s' o hsame hstep
    exact hsame.trans (mainStep_window hstep).1
  · intro s i s' o hsame hfeed hstep
    rw [← feed_congr hsame] at hfeed
    obtain ⟨_, ⟨_, hwin, hrx⟩ | ⟨a, o', ha, _⟩⟩ := mainStep_window hstep
    · exact ⟨hwin, hrx⟩
    · rw [hfeed] at ha
      cases ha
  · intro s i j s' o hsame hfeed hstep
    rw [← feed_congr hsame] at hfeed
    obtain ⟨_, ⟨hnone, _⟩ | ⟨a, o', ha, hrx, hrxStep⟩⟩ := mainStep_window hstep
    · rw [hfeed] at hnone
      cases hnone
    · rw [hfeed] at ha
      cases ha
      rw [hsame.windowSize, hsame.crypto] at hrxStep
      exact ⟨o', hrxStep, hrx⟩

end CodingGateway.Proofs.EventLoop
