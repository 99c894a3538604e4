import CodingGateway.Model.Rx
import CodingGateway.Model.Tx
set_option autoImplicit false

/-!
# The event loop (`main.c`)

One turn of the loop reads at most one packet from TUN, flushes the block when it
is full or old, processes at most one datagram and sends probes when they are due.
What a turn meets outside the code (clock readings, `rand()`, packets, datagrams,
signals) is its input.
-/

namespace CodingGateway.Model

/-- What `tun_read` returns when it returns a positive length. -/
structure TunPacket where
  bytes : List UInt8
  length_pos : 0 < bytes.length
  length_le : bytes.length ≤ maxPayload

/-- One datagram read from the receive socket, and what processing it meets: uninitialised
locals, the reading of `now_us()` if the shard is the first of its block, and those in
`rx_window_advance`. -/
structure RxInput where
  dgram : Datagram
  garbage : StackGarbage
  insertUs : UInt64
  advanceUs : ℕ → UInt64

/-- A data shard as `transport_recv` returns it, and what processing it meets. -/
structure Arrival where
  hdr : WireHeader
  shard : Shard
  garbage : StackGarbage
  insertUs : UInt64
  advanceUs : ℕ → UInt64

/-- A decoded block and the buffers written to TUN for it. -/
structure Delivery where
  blockId : UInt32
  writes : List (List UInt8)

/-- The delivery when `rx_window_try_decode` returned true, and how often `base_id` moved. -/
structure RxOutput where
  delivery : Option Delivery
  moves : ℕ

/-- The three calls on the receive window that `main` makes for a data shard. -/
def rxStep (fuel windowSize : ℕ) (crypto : CryptoCtx) (win : RxWindow) (a : Arrival) :
    Option (RxWindow × RxOutput) :=
  let win := rxWindowInsert win a.hdr a.shard windowSize crypto a.insertUs
  let (win, ok, writes) :=
    rxWindowTryDecode win a.hdr.blockId a.hdr.k.toNat windowSize a.garbage
  match rxWindowAdvance fuel win windowSize a.advanceUs with
  | none => none
  | some (win, moves) =>
      some (win, { delivery := if ok then some ⟨a.hdr.blockId, writes⟩ else none, moves := moves })

/-! ## The loop -/

/-- The variables of `main` that live across turns. -/
structure MainState where
  isTx : Bool
  isRx : Bool
  cfg : GatewayConfig
  tctx : TransportCtx
  sctx : StrategyCtx
  tx : TxBlock
  nextBlockId : UInt32
  rxWin : RxWindow
  lastProbeTv : Timeval
  metrics : Metrics
  crypto : CryptoCtx

/-- What one turn meets outside the code. -/
structure MainInput where
  /-- `select` returned a negative value. -/
  selectFailed : Bool
  /-- The reload flag is set, and this is what `config_load` yields. -/
  reload : Option (Option GatewayConfig)
  packet : Option TunPacket
  /-- `gettimeofday` in `tx_block_add_pkt` and in `tx_block_needs_flush`. -/
  addTime : Timeval
  flushTime : Timeval
  /-- The flush of a full block and the flush of an old one. -/
  fullFlush : FlushEnv
  timeoutFlush : FlushEnv
  arrival : Option RxInput
  echoAccepted : Bool
  echoUs : UInt64
  /-- The clock readings of the probe timer, and whether `sendto` takes the probe of a path. -/
  probeTime : Timeval
  probeUs : UInt64
  probeAccepted : ℕ → Bool

/-- What one turn does: the blocks flushed, the datagrams that left with their path, the
paths that a probe left on, and what became of a data shard. -/
structure MainOutput where
  flushed : List TxBlock
  sent : List (ℕ × List UInt8)
  probed : List ℕ
  rx : Option RxOutput

/-- The state in which the loop starts; `tctx` and `crypto` are what `transport_init` and
`crypto_init` made, `now` the first clock reading. -/
def mainInit (cfg : GatewayConfig) (tctx : TransportCtx) (crypto : CryptoCtx) (now : Timeval) :
    MainState where
  isTx := cfg.mode = chars "tx" ∨ cfg.mode = chars "both"
  isRx := cfg.mode = chars "rx" ∨ cfg.mode = chars "both"
  cfg := cfg
  tctx := tctx
  sctx := strategyInit cfg
  tx := txBlockInit 0
  nextBlockId := 1
  rxWin := rxWindowInit
  lastProbeTv := now
  metrics := zeroMetrics
  crypto := crypto

/-- The effect of `SIGHUP`; a configuration that does not load changes nothing. -/
def mainReload (st : MainState) : Option GatewayConfig → MainState
  | none => st
  | some newCfg =>
      { st with
        sctx := strategyReload st.sctx newCfg
        cfg := { st.cfg with
          redundancyRatio := newCfg.redundancyRatio
          probeIntervalMs := newCfg.probeIntervalMs
          probeLossThreshold := newCfg.probeLossThreshold
          blockTimeoutMs := newCfg.blockTimeoutMs } }

/-- `tx_block_flush` of the current block. -/
def flushBlock (st : MainState) (env : FlushEnv) :
    MainState × List TxBlock × List (ℕ × List UInt8) :=
  let res := txBlockFlush st.tx st.tctx st.sctx st.cfg.k.toNat st.crypto st.metrics env
  ({ st with tx := res.blk, sctx := res.sctx, metrics := res.metrics }, [st.tx], res.sent)

/-- `tx_block_flush`, then `tx_block_init` for the next block id. -/
def mainFlush (st : MainState) (env : FlushEnv) :
    MainState × List TxBlock × List (ℕ × List UInt8) :=
  let (st, flushed, sent) := flushBlock st env
  ({ st with tx := txBlockInit st.nextBlockId, nextBlockId := st.nextBlockId + 1 }, flushed, sent)

/-- TX: read packet from TUN. -/
def mainRead (st : MainState) (inp : MainInput) :
    MainState × List TxBlock × List (ℕ × List UInt8) :=
  if st.isTx then
    match inp.packet with
    | none => (st, [], [])
    | some pkt =>
        let (tx, full) := txBlockAddPkt st.tx (arrayOf pkt.bytes)
          (UInt16.ofNat pkt.bytes.length) st.cfg.k.toNat inp.addTime
        if full then mainFlush { st with tx := tx } inp.fullFlush
        else ({ st with tx := tx }, [], [])
  else (st, [], [])

/-- TX: block timeout flush. -/
def mainTimeout (st : MainState) (inp : MainInput) :
    MainState × List TxBlock × List (ℕ × List UInt8) :=
  if st.isTx && txBlockNeedsFlush st.tx st.cfg.blockTimeoutMs inp.flushTime then
    mainFlush st inp.timeoutFlush
  else (st, [], [])

/-- RX: receive UDP datagram. -/
def mainRx (fuel : ℕ) (st : MainState) (inp : MainInput) :
    Option (MainState × Option RxOutput × List (ℕ × List UInt8)) :=
  match inp.arrival with
  | none => some (st, none, [])
  | some r =>
      match transportRecv st.tctx r.dgram r.garbage.shardIn with
      | .error => some (st, none, [])
      | .data hdr shard path =>
          if st.isRx then
            match rxStep fuel st.cfg.windowSize.toNat st.crypto st.rxWin
              ⟨hdr, shard, r.garbage, r.insertUs, r.advanceUs⟩ with
            | none => none
            | some (win, out) =>
                some ({ st with
                  rxWin := win
                  metrics := { st.metrics with
                    shardsReceived := bump st.metrics.shardsReceived path
                    decodeSuccess := if out.delivery.isSome then st.metrics.decodeSuccess + 1
                      else st.metrics.decodeSuccess } }, some out, [])
          else some (st, none, [])
      | .probe ts path =>
          some (st, none, if sendBuf st.tctx path inp.echoAccepted then
            [(path, probeDatagram typeProbeEcho ts)] else [])
      | .probeEcho ts path =>
          if st.isTx then
            some ({ st with sctx := strategyUpdateProbe st.sctx path (inp.echoUs - ts) true },
              none, [])
          else some (st, none, [])

/-- Send a probe on path `p` if it is alive. -/
def probePath (tctx : TransportCtx) (inp : MainInput) (acc : StrategyCtx × List ℕ) (p : ℕ) :
    StrategyCtx × List ℕ :=
  let (sctx, probed) := acc
  let ps := sctx.paths p
  if ps.alive then
    ({ sctx with
        paths := Function.update sctx.paths p { ps with probesSent := ps.probesSent + 1 } },
      if sendBuf tctx p (inp.probeAccepted p) then probed ++ [p] else probed)
  else acc

/-- TX: send probes. -/
def mainProbe (st : MainState) (inp : MainInput) : MainState × List ℕ :=
  if st.isTx && decide (st.cfg.probeIntervalMs ≤ elapsedMs inp.probeTime st.lastProbeTv) then
    let (sctx, probed) :=
      (List.range st.sctx.pathCount).foldl (probePath st.tctx inp) (st.sctx, [])
    ({ st with sctx := sctx, lastProbeTv := inp.probeTime }, probed)
  else (st, [])

/-- One turn of the loop; `fuel` bounds the turns of `rx_window_advance`. -/
def mainStep (fuel : ℕ) (st : MainState) (inp : MainInput) : Option (MainState × MainOutput) :=
  match inp.reload with
  | some newCfg => some (mainReload st newCfg, ⟨[], [], [], none⟩)
  | none =>
      if inp.selectFailed then some (st, ⟨[], [], [], none⟩)
      else
        let (st, flushed₁, sent₁) := mainRead st inp
        let (st, flushed₂, sent₂) := mainTimeout st inp
        match mainRx fuel st inp with
        | none => none
        | some (st, rx, sent₃) =>
            let (st, probed) := mainProbe st inp
            some (st,
              { flushed := flushed₁ ++ flushed₂
                sent := sent₁ ++ sent₂ ++ sent₃ ++
                  probed.map fun p => (p, probeDatagram typeProbe inp.probeUs)
                probed := probed
                rx := rx })

/-- The drain of the pending block after the loop. -/
def mainDrain (st : MainState) (env : FlushEnv) :
    MainState × List TxBlock × List (ℕ × List UInt8) :=
  if st.isTx && decide (0 < st.tx.pktCount) then flushBlock st env else (st, [], [])

/-- `to_ms`: the timeout of `select`, in milliseconds. -/
def selectTimeoutMs (cfg : GatewayConfig) : ℤ :=
  let ms := cfg.blockTimeoutMs
  let ms := if cfg.probeIntervalMs < ms then cfg.probeIntervalMs else ms
  if ms < 1 then 1 else ms

end CodingGateway.Model
