import CodingGateway.Proofs.Transfer
set_option autoImplicit false

/-!
# The blocks of one sender

A sender assembles blocks with different ids from packets and flushes each of them once.
While only datagrams of these flushes arrive, in whatever order and however often, the
window holds shards as the sender encoded them, and a delivery is one of the blocks.
-/

namespace CodingGateway.Proofs.SentBlocks

open CodingGateway.Model
open CodingGateway.Library
open CodingGateway.Proofs.Flush
open CodingGateway.Proofs.ReceiveLoop
open CodingGateway.Proofs.Transfer
open CodingGateway.Proofs.Window

/-- A block that is flushed once: the packets added to it with the readings of the clock, and
what its flush meets. -/
structure SentBlock where
  blockId : UInt32
  packets : List (TunPacket × Timeval)
  tctx : TransportCtx
  sctx : StrategyCtx
  metrics : Metrics
  env : FlushEnv

/-- `tx_block_init`, then `tx_block_add_pkt` for each packet. -/
def SentBlock.block (b : SentBlock) (k : ℕ) : TxBlock :=
  b.packets.foldl
    (fun blk p => (txBlockAddPkt blk (arrayOf p.1.bytes) (UInt16.ofNat p.1.bytes.length) k p.2).1)
    (txBlockInit b.blockId)

/-- `tx_block_flush` of the block. -/
def SentBlock.flush (b : SentBlock) (k : ℕ) (crypto : CryptoCtx) : FlushResult :=
  txBlockFlush (b.block k) b.tctx b.sctx k crypto b.metrics b.env

def SentBlock.shardCount (b : SentBlock) (k : ℕ) : ℕ := (strategyComputeN b.sctx k).toNat

def SentBlock.bytes (b : SentBlock) : List (List UInt8) := b.packets.map fun p => p.1.bytes

/-- The block holds between one packet and `k` of them. -/
structure SentBlock.Filled (b : SentBlock) (k : ℕ) : Prop where
  nonempty : b.packets ≠ []
  fits : b.packets.length ≤ k

section Block

variable {b : SentBlock} {k : ℕ}

theorem block_spec (hfits : b.packets.length ≤ k) :
    (b.block k).blockId = b.blockId ∧ Holds (b.block k) (b.packets.map Prod.fst) := by
  have hfold : ∀ (l : List (TunPacket × Timeval)) (blk : TxBlock) (packets : List TunPacket),
      Holds blk packets → packets.length + l.length ≤ k →
      (l.foldl (fun blk p => (txBlockAddPkt blk (arrayOf p.1.bytes)
        (UInt16.ofNat p.1.bytes.length) k p.2).1) blk).blockId = blk.blockId ∧
      Holds (l.foldl (fun blk p => (txBlockAddPkt blk (arrayOf p.1.bytes)
        (UInt16.ofNat p.1.bytes.length) k p.2).1) blk) (packets ++ l.map Prod.fst) := by
    intro l
    induction l with
    | nil =>
        intro blk packets h _
        rw [List.map_nil, List.append_nil]
        exact ⟨rfl, h⟩
    | cons p l ih =>
        intro blk packets h hroom
        rw [List.length_cons] at hroom
        have hadd := holds_txBlockAddPkt h (k := k) (by omega) p.1 p.2
        obtain ⟨hid, hholds⟩ := ih _ _ hadd (by rw [List.length_append]; simp; omega)
        rw [txBlockAddPkt_blockId] at hid
        rw [List.append_assoc, List.singleton_append] at hholds
        exact ⟨hid, hholds⟩
  exact hfold b.packets _ [] (holds_txBlockInit b.blockId) (by simpa using hfits)

variable (hfill : b.Filled k)
include hfill

theorem block_pktCount_ne_zero : (b.block k).pktCount ≠ 0 := by
  rw [(block_spec hfill.fits).2.count, List.length_map]
  exact (List.length_pos_iff.mpr hfill.nonempty).ne'

theorem block_shardLen_le : (shardLen (b.block k) k).toNat ≤ maxPayload :=
  shardLen_le (block_spec hfill.fits).2 (by simpa using hfill.nonempty)

theorem take_tunWrites {rb : RxBlock} {garbage : StackGarbage} {o : DecodeOut}
    (hcount : Counted rb) (hrestored : Restored (b.block k) k b.env rb)
    (hdec : Decodes rb k garbage o) (hip : ∀ p ∈ b.bytes, IsIpPacket p) :
    (tunWrites o k).take b.packets.length = b.bytes := by
  have hpackets : ∀ pkt ∈ b.packets.map Prod.fst, IsIpPacket pkt.bytes := by
    intro pkt hpkt
    obtain ⟨p, hp, rfl⟩ := List.mem_map.mp hpkt
    exact hip _ (List.mem_map_of_mem hp)
  have hwrites := tunWrites_of_restored (block_spec hfill.fits).2 (by simpa using hfill.nonempty)
    (by simpa using hfill.fits) hcount hrestored hdec hpackets
  rw [List.length_map, List.map_map] at hwrites
  exact hwrites

end Block

/-! ## Arrivals -/

/-- The datagram left in the flush of one of the blocks. -/
def FromSender (blocks : List SentBlock) (k : ℕ) (crypto : CryptoCtx) (inp : RxInput) : Prop :=
  ∃ b ∈ blocks, inp.dgram.bytes ∈ (b.flush k crypto).sent.map Prod.snd

/-- The arrival is a shard of one of the blocks. -/
def CarriesSome (blocks : List SentBlock) (k : ℕ) (crypto : CryptoCtx) (a : Arrival) : Prop :=
  ∃ b ∈ blocks, ∃ s < b.shardCount k, Carries (b.block k) k crypto b.env s a

theorem shardCount_bounds (b : SentBlock) {k : ℕ} (hk : 1 ≤ k ∧ k ≤ maxK) :
    k ≤ b.shardCount k ∧ b.shardCount k ≤ maxN :=
  strategyComputeN_bounds b.sctx hk.1 (hk.2.trans (by decide))

theorem carriesSome_of_fromSender {blocks : List SentBlock} {k : ℕ} {crypto : CryptoCtx}
    {tctx : TransportCtx} {inp : RxInput} {a : Arrival} (hk : 1 ≤ k ∧ k ≤ maxK)
    (hfill : ∀ b ∈ blocks, b.Filled k) (hsent : FromSender blocks k crypto inp)
    (ha : arrivalOf tctx inp = some a) : CarriesSome blocks k crypto a := by
  obtain ⟨b, hb, hmem⟩ := hsent
  obtain ⟨d, hd, hbytes⟩ := List.mem_map.mp hmem
  obtain ⟨s, hs, hdgram⟩ := mem_sent (block_pktCount_ne_zero (hfill b hb)) hd
  have hmax := (shardCount_bounds b hk).2
  obtain ⟨a', ha', hcarry, _⟩ := exists_carries hk.2 (hs.trans_le hmax)
    (block_shardLen_le (hfill b hb)) tctx (hbytes.symm.trans hdgram)
  rw [ha] at ha'
  cases ha'
  exact ⟨b, hb, s, hs, hcarry⟩

/-! ## Runs -/

/-- What is held under the id of a block are its shards. -/
def AgreesWith (blocks : List SentBlock) (k : ℕ) (id : UInt32) (rb : RxBlock) : Prop :=
  ∀ b ∈ blocks, b.blockId = id → Restored (b.block k) k b.env rb

section Runs

variable {fuel W k : ℕ} {crypto : CryptoCtx} {blocks : List SentBlock}
  (hids : (blocks.map SentBlock.blockId).Nodup) (hfill : ∀ b ∈ blocks, b.Filled k)

include hids hfill

theorem agreesWith_storeShard {a : Arrival} (ha : CarriesSome blocks k crypto a) {rb : RxBlock}
    (h : AgreesWith blocks k a.hdr.blockId rb) :
    AgreesWith blocks k a.hdr.blockId (storeShard rb a.hdr a.shard crypto a.insertUs) := by
  intro b hb hid
  obtain ⟨b', hb', s, _, hcarry⟩ := ha
  have hsame : b.blockId = b'.blockId := by
    rw [hid, hcarry.blockId, (block_spec (hfill b' hb').fits).1]
  obtain rfl := List.inj_on_of_nodup_map hids hb hb' hsame
  exact restored_storeShard (h b hb hid) hcarry

theorem agreesWith_inserted (hW : W ≤ maxWindow) {win : RxWindow} (hwf : WellFormed W win)
    (hold : ∀ id rb, held win W id = some rb → AgreesWith blocks k id rb) {a : Arrival}
    (ha : CarriesSome blocks k crypto a) :
    ∀ id rb, held (inserted W crypto win a) W id = some rb → AgreesWith blocks k id rb :=
  forall_held_insert hW hwf hold (fun _ _ _ => restored_zeroBlock _ k _ _)
    fun _ _ h => agreesWith_storeShard hids hfill ha h

theorem agreesWith_rxStep (hW : W ≤ maxWindow) {win win' : RxWindow} {a : Arrival}
    {out : RxOutput} (hwf : WellFormed W win)
    (hstep : rxStep fuel W crypto win a = some (win', out))
    (hold : ∀ id rb, held win W id = some rb → AgreesWith blocks k id rb)
    (ha : CarriesSome blocks k crypto a) :
    ∀ id rb, held win' W id = some rb → AgreesWith blocks k id rb :=
  forall_held_rxStep hW hwf hstep hold (fun _ _ _ => restored_zeroBlock _ k _ _)
    (fun _ _ h => agreesWith_storeShard hids hfill ha h) fun _ h => h

theorem agreesWith_rxRun (hW : W ≤ maxWindow) {win : RxWindow} {as : List Arrival}
    {outs : List RxOutput} (has : ∀ a ∈ as, CarriesSome blocks k crypto a)
    (hrun : rxRun fuel W crypto rxWindowInit as = some (win, outs)) :
    WellFormed W win ∧ ∀ id rb, held win W id = some rb → AgreesWith blocks k id rb := by
  revert has
  refine Machine.run_induction
    (P := fun as win _ => (∀ a ∈ as, CarriesSome blocks k crypto a) → WellFormed W win ∧
      ∀ id rb, held win W id = some rb → AgreesWith blocks k id rb) (fun _ => ?_) ?_ hrun
  · refine ⟨wellFormed_init W, fun id rb hheld => ?_⟩
    rw [held_init] at hheld
    cases hheld
  · intro as win outs a win' out _ ih hstep has
    obtain ⟨hwf, hold⟩ := ih fun x hx => has x (List.mem_append_left _ hx)
    have ha := has a (List.mem_append_right _ (List.mem_singleton_self a))
    exact ⟨wellFormed_rxStep hW hwf hstep, agreesWith_rxStep hids hfill hW hwf hstep hold ha⟩

theorem delivery_of_rxRun (hW : W ≤ maxWindow) (hk : 1 ≤ k) {win : RxWindow} {as : List Arrival}
    {outs : List RxOutput} (has : ∀ a ∈ as, CarriesSome blocks k crypto a)
    (hrun : rxRun fuel W crypto rxWindowInit as = some (win, outs)) {dl : Delivery}
    (hdl : dl ∈ deliveries outs) :
    ∃ b ∈ blocks, b.blockId = dl.blockId ∧ ∃ rb garbage o, Counted rb ∧
      Restored (b.block k) k b.env rb ∧ Decodes rb k garbage o ∧ dl.writes = tunWrites o k := by
  obtain ⟨out, hout, hdel⟩ := List.mem_filterMap.mp hdl
  obtain ⟨js, a, win₁, outs₁, win₂, hpre, hrun₁, hstep⟩ := Machine.exists_step_of_mem hrun hout
  have hmem : ∀ x ∈ js ++ [a], CarriesSome blocks k crypto x := fun x hx => has x (hpre.subset hx)
  obtain ⟨hwf, hold⟩ := agreesWith_rxRun hids hfill hW
    (fun x hx => hmem x (List.mem_append_left _ hx)) hrun₁
  have ha := hmem a (List.mem_append_right _ (List.mem_singleton_self a))
  obtain ⟨b, hb, s, _, hcarry⟩ := ha
  have hid : b.blockId = a.hdr.blockId := by
    rw [hcarry.blockId, (block_spec (hfill b hb).fits).1]
  obtain ⟨hblock, ⟨rb, o, hdelivers, hwrites⟩ | ⟨_, _, hzero⟩⟩ :=
    delivery_eq_some hW hwf hstep hdel
  · have hagrees := agreesWith_inserted hids hfill hW hwf hold ⟨b, hb, s, ‹_›, hcarry⟩
      _ rb hdelivers.held
    have hcount := counted_of_held (inserted_spec hW hwf crypto a).2.1 hdelivers.held
    have hdec := hdelivers.decodes
    rw [hcarry.blockSize] at hdec hwrites
    exact ⟨b, hb, hid.trans hblock.symm, rb, a.garbage, o, hcount, hagrees b hb hid, hdec, hwrites⟩
  · rw [hcarry.blockSize] at hzero
    omega

theorem delivery_of_receiveRun (hW : W ≤ maxWindow) (hk : 1 ≤ k ∧ k ≤ maxK) {tctx : TransportCtx}
    {win : RxWindow} {inputs : List RxInput} {outs : List RxOutput}
    (hinputs : ∀ inp ∈ inputs, FromSender blocks k crypto inp)
    (hrun : receiveRun fuel W crypto tctx rxWindowInit inputs = some (win, outs)) {dl : Delivery}
    (hdl : dl ∈ deliveries outs) {b : SentBlock} (hb : b ∈ blocks) (hid : dl.blockId = b.blockId) :
    dl.writes.length = k ∧
      ((∀ p ∈ b.bytes, IsIpPacket p) → dl.writes.take b.packets.length = b.bytes) := by
  have has : ∀ a ∈ inputs.filterMap (arrivalOf tctx), CarriesSome blocks k crypto a := by
    intro a ha
    obtain ⟨inp, hinp, harr⟩ := List.mem_filterMap.mp ha
    exact carriesSome_of_fromSender hk hfill (hinputs inp hinp) harr
  obtain ⟨b', hb', hid', rb, garbage, o, hcount, hrestored, hdec, hwrites⟩ :=
    delivery_of_rxRun hids hfill hW hk.1 has hrun hdl
  obtain rfl := List.inj_on_of_nodup_map hids hb hb' (hid.symm.trans hid'.symm)
  rw [hwrites]
  exact ⟨length_tunWrites o k, take_tunWrites (hfill b hb) hcount hrestored hdec⟩

end Runs

/-! ## A small block -/

/-- An IPv4 packet of a header and nothing else. -/
def shortPacket : TunPacket where
  bytes := [0x45, 0, 0, 20, 0, 0, 0, 0, 64, 17, 0, 0, 10, 0, 0, 1, 10, 0, 0, 2]
  length_pos := by decide
  length_le := by decide

/-- An IPv4 packet with an empty UDP datagram. -/
def longerPacket : TunPacket where
  bytes :=
    [0x45, 0, 0, 28, 0, 0, 0, 0, 64, 17, 0, 0, 10, 0, 0, 1, 10, 0, 0, 2, 1, 2, 3, 4, 0, 8, 0, 0]
  length_pos := by decide
  length_le := by decide

/-- A block of the short packet, once or more, sent without redundancy on a path that is up. -/
def shortBlock (blockId : UInt32) (count : ℕ) : SentBlock where
  blockId := blockId
  packets := List.replicate count (shortPacket, ⟨0, 0⟩)
  tctx := ⟨fun _ => ⟨0, 0, true⟩, 1⟩
  sctx := {
    paths := fun _ => { zeroPath with cfg := { zeroPath.cfg with enabled := true }, alive := true }
    pathCount := 1
    type := []
    baseRedundancy := 1
    lossThreshold := 3 / 10
    ewmaAlpha := 1 / 5
    pathCredit := fun _ => 1 }
  metrics := zeroMetrics
  env := ⟨fun _ _ => 0, fun _ => zeroStack.shardIn, fun _ => true⟩

end CodingGateway.Proofs.SentBlocks
