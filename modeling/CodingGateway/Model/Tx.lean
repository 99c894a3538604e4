import CodingGateway.Model.Crypto
import CodingGateway.Model.Metrics
import CodingGateway.Model.Strategy
import CodingGateway.Model.Transport
set_option autoImplicit false

/-!
# Block assembly (`tx.c`)

Packets are collected into a block; a flush pads them, encodes the block and sends
its shards.
-/

namespace CodingGateway.Model

/-- `struct tx_block`. -/
structure TxBlock where
  blockId : UInt32
  pkts : ℕ → Bytes
  pktLen : ℕ → UInt16
  pktCount : ℕ
  firstPktTime : Timeval

/-- `tx_block_init`. -/
def txBlockInit (blockId : UInt32) : TxBlock where
  blockId := blockId
  pkts _ _ := 0
  pktLen _ := 0
  pktCount := 0
  firstPktTime := ⟨0, 0⟩

/-- `tx_block_add_pkt`: the block and whether it is full; `now` is what `gettimeofday` returns. -/
def txBlockAddPkt (blk : TxBlock) (pkt : Bytes) (len : UInt16) (k : ℕ) (now : Timeval) :
    TxBlock × Bool :=
  let blk := if blk.pktCount = 0 then { blk with firstPktTime := now } else blk
  let blk :=
    if blk.pktCount < k then
      { blk with
        pkts := Function.update blk.pkts blk.pktCount (memcpy (blk.pkts blk.pktCount) pkt len.toNat)
        pktLen := Function.update blk.pktLen blk.pktCount len
        pktCount := blk.pktCount + 1 }
    else blk
  (blk, decide (k ≤ blk.pktCount))

/-- Milliseconds between two times, as `tx.c` and `main.c` compute them. -/
def elapsedMs (now first : Timeval) : ℤ :=
  (now.tvSec - first.tvSec) * 1000 + (now.tvUsec - first.tvUsec).tdiv 1000

/-- `tx_block_needs_flush`. -/
def txBlockNeedsFlush (blk : TxBlock) (timeoutMs : ℤ) (now : Timeval) : Bool :=
  if blk.pktCount = 0 then false else decide (timeoutMs ≤ elapsedMs now blk.firstPktTime)

/-- Pad shorter packets with zeros to the longest one of the block. -/
def padPackets (blk : TxBlock) : TxBlock :=
  let len := maxLen blk.pktLen blk.pktCount
  { blk with
    pkts := fun j =>
      if j < blk.pktCount ∧ blk.pktLen j < len then
        memset (blk.pkts j) (blk.pktLen j).toNat 0 (len.toNat - (blk.pktLen j).toNat)
      else blk.pkts j }

/-- Fill the slots that got no packet with zeros. -/
def fillSlots (blk : TxBlock) (k : ℕ) : TxBlock :=
  { blk with
    pkts := fun j =>
      if blk.pktCount ≤ j ∧ j < k then memset (blk.pkts j) 0 0 maxPayload else blk.pkts j
    pktLen := fun j => if blk.pktCount ≤ j ∧ j < k then blk.pktLen 0 else blk.pktLen j }

/-- What a flush meets outside the code: the outcomes of `rand()` for shard `s` and
coefficient `i`, the uninitialised `shards` array, and whether `sendto` takes shard `i`. -/
structure FlushEnv where
  rand : ℕ → ℕ → ℕ
  shards : ℕ → Shard
  accepted : ℕ → Bool

/-- What a flush changes, and the datagrams that left, with the path of each. -/
structure FlushResult where
  blk : TxBlock
  sctx : StrategyCtx
  metrics : Metrics
  sent : List (ℕ × List UInt8)

/-- The shards of a block: encoded, and encrypted when crypto is enabled. -/
def flushShards (blk : TxBlock) (k n : ℕ) (crypto : CryptoCtx) (env : FlushEnv) : ℕ → Shard :=
  let shards := encodeBlock blk.pkts blk.pktLen k n env.rand env.shards
  fun i =>
    if crypto.enabled = true ∧ i < n then
      { shards i with
        data := cryptoXor crypto (shards i).data (shards i).len.toNat (shardNonce blk.blockId i) }
    else shards i

/-- One turn of the send loop: pick a path and send shard `i` on it. -/
def sendStep (tctx : TransportCtx) (env : FlushEnv) (k n : ℕ) (shards : ℕ → Shard)
    (res : FlushResult) (i : ℕ) : FlushResult :=
  match strategyNextPath res.sctx with
  | (sctx, none) => { res with sctx := sctx }
  | (sctx, some path) =>
      if sendBuf tctx path (env.accepted i) then
        { res with
          sctx := sctx
          metrics := { res.metrics with shardsSent := bump res.metrics.shardsSent path }
          sent := res.sent ++ [(path, shardDatagram res.blk.blockId (UInt8.ofNat i)
            (UInt8.ofNat k) (UInt8.ofNat n) (shards i))] }
      else { res with sctx := sctx }

/-- `tx_block_flush`. -/
def txBlockFlush (blk : TxBlock) (tctx : TransportCtx) (sctx : StrategyCtx) (k : ℕ)
    (crypto : CryptoCtx) (metrics : Metrics) (env : FlushEnv) : FlushResult :=
  if blk.pktCount = 0 then ⟨blk, sctx, metrics, []⟩
  else
    let blk := fillSlots (padPackets blk) k
    let n := (strategyComputeN sctx k).toNat
    let res := (List.range n).foldl
      (sendStep tctx env k n (flushShards blk k n crypto env)) ⟨blk, sctx, metrics, []⟩
    { res with
      metrics := { res.metrics with blocksEncoded := res.metrics.blocksEncoded + 1 } }

end CodingGateway.Model
