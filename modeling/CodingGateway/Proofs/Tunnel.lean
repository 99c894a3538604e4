import CodingGateway.Library.Network
import CodingGateway.Proofs.ReceivedBlocks
import CodingGateway.Proofs.SentDatagrams
set_option autoImplicit false

/-!
# Two gateways and a network

Two gateways, each in any mode, send to each other over a network that loses, repeats and
reorders datagrams and delivers them at any time, also after their sender has ended.

* `packets_in_order` — in every state of the tunnel, what either end has delivered are packets
  that the other end has read, in order and each at most once;
* `exists_processStep` — and no step of a gateway ever hangs.
-/

namespace CodingGateway.Proofs.Tunnel

open CodingGateway.Model
open CodingGateway.Library
open CodingGateway.Library.Network
open CodingGateway.Proofs.BlockAssembly
open CodingGateway.Proofs.DeadPath
open CodingGateway.Proofs.EventLoop
open CodingGateway.Proofs.Flush
open CodingGateway.Proofs.InOrder
open CodingGateway.Proofs.Lossless
open CodingGateway.Proofs.ProcessRuns
open CodingGateway.Proofs.ReceivedBlocks
open CodingGateway.Proofs.ReceiveLoop
open CodingGateway.Proofs.SentDatagrams
open CodingGateway.Proofs.Sender
open CodingGateway.Proofs.Transfer
open CodingGateway.Proofs.Window
open CodingGateway.Proofs.Wire

/-- The two ends of the tunnel. -/
inductive End
  | left
  | right
  deriving DecidableEq

def End.peer : End → End
  | .left => .right
  | .right => .left

/-- What a gateway is started with; the bounds are those of `config_load`. -/
structure Setup where
  cfg : GatewayConfig
  tctx : TransportCtx
  now : Timeval
  blockSize : 1 ≤ cfg.k.toNat ∧ cfg.k.toNat ≤ maxK
  window : cfg.windowSize.toNat ≤ maxWindow

def Setup.start (setup : Setup) (crypto : CryptoCtx) : Process :=
  processInit setup.cfg setup.tctx crypto setup.now

/-- The bytes of the datagram that a step may read. -/
def arrivingBytes : ProcessInput → Option (List UInt8)
  | .turn inp => inp.arrival.map fun r => r.dgram.bytes
  | .shutdown _ => none

/-- Two processes, each of which hears the other. -/
def tunnel (fuel : ℕ) : Protocol End Process ProcessInput MainOutput (List UInt8) where
  step _ := processStep fuel
  reads := arrivingBytes
  sends out := out.sent.map Prod.snd
  hears n m := m = n.peer

abbrev Gateway := Local Process ProcessInput MainOutput

def Gateway.packetsRead (g : Gateway) : List TunPacket := packetsTaken g.state.st.isTx g.inputs

def Gateway.flushed (g : Gateway) : List TxBlock := g.outputs.flatMap MainOutput.flushed

def Gateway.deliveries (g : Gateway) : List Delivery := ReceiveLoop.deliveries (rxOutputs g.outputs)

theorem shardOf_of_available {fuel : ℕ} {crypto : CryptoCtx} {sys : End → Gateway} {e : End}
    {records : List FlushRecord} {k : ℕ} (hk : k ≤ maxK)
    (hvalid : ∀ r ∈ records, r.Valid k)
    (htraced : Traced k crypto records ((sys e.peer).outputs.flatMap MainOutput.sent))
    {st : MainState} {inp : MainInput} (havail : (tunnel fuel).Available sys e (.turn inp))
    {a : Arrival} (ha : feed st inp = some a) : ShardOf records k crypto a := by
  unfold feed shardRead at ha
  split_ifs at ha
  obtain ⟨r, harr, hr⟩ := Option.bind_eq_some_iff.mp ha
  obtain ⟨m, rfl, hsent⟩ := havail r.dgram.bytes (by
    change inp.arrival.map _ = _
    rw [harr]
    rfl)
  have hmem : r.dgram.bytes ∈ ((sys e.peer).outputs.flatMap MainOutput.sent).map Prod.snd := by
    rw [List.map_flatMap]
    exact hsent
  exact shardOf_of_traced hk hvalid htraced hmem hr

theorem map_blockId_of_restores {records : List FlushRecord} {dls : List Delivery}
    (h : List.Forall₂ RestoresRecord records dls) :
    dls.map Delivery.blockId = records.map fun r => r.blk.blockId := by
  induction h with
  | nil => rfl
  | cons hr _ ih => rw [List.map_cons, List.map_cons, ih, hr.1]

section Ends

variable {fuel : ℕ} {setups : End → Setup} {crypto : CryptoCtx} {sys : End → Gateway}
  (h : Reachable (tunnel fuel) (fun e => (setups e).start crypto) sys)

include h

theorem processRun_of_reachable (e : End) :
    processRun fuel (processInit (setups e).cfg (setups e).tctx crypto (setups e).now)
      (sys e).inputs = some ((sys e).state, (sys e).outputs) :=
  run_of_reachable h e

theorem rxRun_of_reachable (e : End) :
    rxRun fuel (setups e).cfg.windowSize.toNat crypto rxWindowInit
      ((turns (sys e).inputs).filterMap
        (feed (mainInit (setups e).cfg (setups e).tctx crypto (setups e).now))) =
      some ((sys e).state.st.rxWin, rxOutputs (sys e).outputs) := by
  have hproject := rxRun_of_processRun (processRun_of_reachable h e)
  exact hproject

theorem exists_records (e : End) :
    ∃ records pending, (∀ r ∈ records, r.Valid (setups e).cfg.k.toNat) ∧
      records.map (fun r => r.blk.blockId) = (List.range records.length).map UInt32.ofNat ∧
      Posted (setups e).cfg.k.toNat crypto (sys e).packetsRead (sys e).flushed
        ((sys e).outputs.flatMap MainOutput.sent) records pending := by
  obtain ⟨records, pending, hvalid, hids, hposted, _⟩ :=
    posted_processRun (setups e).blockSize (processRun_of_reachable h e)
  rw [← (sameSetup_processRun (processRun_of_reachable h e)).isTx] at hposted
  exact ⟨records, pending, hvalid, hids, hposted⟩

theorem shards_of_reachable (e : End) {records : List FlushRecord}
    (hvalid : ∀ r ∈ records, r.Valid (setups e.peer).cfg.k.toNat)
    (htraced : Traced (setups e.peer).cfg.k.toNat crypto records
      ((sys e.peer).outputs.flatMap MainOutput.sent)) (st : MainState) :
    ∀ a ∈ (turns (sys e).inputs).filterMap (feed st),
      ShardOf records (setups e.peer).cfg.k.toNat crypto a := by
  intro a ha
  obtain ⟨inp, hinp, hfeed⟩ := List.mem_filterMap.mp ha
  obtain ⟨i, hi, hturn⟩ := List.mem_filterMap.mp hinp
  cases i with
  | shutdown env => cases hturn
  | turn inp' =>
      cases hturn
      exact shardOf_of_available (setups e.peer).blockSize.2 hvalid htraced
        (sent_of_read h e (.turn inp) hi) hfeed

/-- **Safety of the tunnel.** Whatever the network and the clocks do and however the steps of
the two ends interleave: as long as the other end has flushed fewer than `2 ^ 31` blocks, what
one end has delivered are blocks of the other end in the order of their flushes and each at most
once.  The first buffers of each delivery are the block's packets, and the others zeros, one for
each slot that was empty.  So the packets delivered are a subsequence of the packets read. -/
theorem packets_in_order (e : End) (hfew : (sys e.peer).flushed.length < 2 ^ 31) :
    ∃ sources : List TxBlock, sources.Sublist (sys e.peer).flushed ∧
      (sys e).deliveries.map Delivery.blockId = sources.map TxBlock.blockId ∧
      ((∀ pkt ∈ (sys e.peer).packetsRead, IsIpPacket pkt.bytes) →
        (List.zipWith (fun (blk : TxBlock) dl => dl.writes.take blk.pktCount) sources
          (sys e).deliveries).flatten = sources.flatMap blockPackets) ∧
      List.Forall₂ (fun (blk : TxBlock) dl => dl.writes.drop blk.pktCount =
        fillers (setups e.peer).cfg.k.toNat blk) sources (sys e).deliveries ∧
      (sources.flatMap blockPackets).Sublist ((sys e.peer).packetsRead.map TunPacket.bytes) := by
  obtain ⟨records, pending, hvalid, hids, hposted⟩ := exists_records h e.peer
  have hflush : Flushes records (setups e.peer).cfg.k.toNat := by
    refine ⟨hvalid, hids, ?_⟩
    rw [hposted.flushed_eq, List.length_map] at hfew
    exact hfew
  have hshards := shards_of_reachable h e hvalid hposted.traced
    (mainInit (setups e).cfg (setups e).tctx crypto (setups e).now)
  obtain ⟨sources, hsub, hdelivers⟩ := exists_sources hflush (setups e).window
    (setups e.peer).blockSize.1 hshards (rxRun_of_reachable h e)
  have hrestores : List.Forall₂ RestoresRecord sources (sys e).deliveries :=
    hdelivers.imp fun _ _ hr => hr.restores
  have hvalid' : ∀ r ∈ sources, r.Valid (setups e.peer).cfg.k.toNat := fun r hr =>
    hvalid r (hsub.subset hr)
  have hpackets : (sources.map FlushRecord.blk).flatMap blockPackets =
      (sources.flatMap FlushRecord.packets).map TunPacket.bytes := by
    rw [List.flatMap_map, List.map_flatMap]
    exact List.flatMap_congr fun r hr => blockPackets_of_holds (hvalid' r hr).holds
  refine ⟨sources.map FlushRecord.blk, ?_, ?_, fun hip => ?_, ?_, ?_⟩
  · rw [hposted.flushed_eq]
    exact hsub.map _
  · rw [List.map_map]
    exact map_blockId_of_restores hrestores
  · have hip' : ∀ r ∈ sources, ∀ pkt ∈ r.packets, IsIpPacket pkt.bytes := by
      intro r hr pkt hpkt
      apply hip
      rw [hposted.read_eq]
      exact List.mem_append_left _ (List.mem_flatMap_of_mem (hsub.subset hr) hpkt)
    rw [hpackets]
    exact (writes_of_restores hrestores hvalid' hip').2
  · rw [List.forall₂_map_left_iff]
    refine List.Forall₂.imp (fun r dl hr => ?_)
      (List.forall₂_and_left _ _ |>.mpr ⟨hvalid', hdelivers⟩)
    rw [hr.1.holds.count]
    exact hr.2.fillers
  · rw [hpackets, hposted.read_eq]
    apply List.Sublist.map
    exact (hsub.flatMap _).trans (List.sublist_append_left _ _)

/-- **No step hangs.** While an end runs, it can take every step whose datagram the other end
has sent: `rx_window_advance` ends within as many turns as the other end has flushed blocks. -/
theorem exists_processStep (e : End) (hfew : (sys e.peer).flushed.length < 2 ^ 31)
    (hfuel : (sys e.peer).flushed.length < fuel) (hrunning : (sys e).state.running = true)
    {i : ProcessInput} (havail : (tunnel fuel).Available sys e i) :
    ∃ p out, processStep fuel (sys e).state i = some (p, out) := by
  obtain ⟨records, pending, hvalid, hids, hposted⟩ := exists_records h e.peer
  have hlength : (sys e.peer).flushed.length = records.length := by
    rw [hposted.flushed_eq, List.length_map]
  rw [hlength] at hfew hfuel
  have hflush : Flushes records (setups e.peer).cfg.k.toNat := ⟨hvalid, hids, hfew⟩
  have hshards := shards_of_reachable h e hvalid hposted.traced
    (mainInit (setups e).cfg (setups e).tctx crypto (setups e).now)
  have htracks := tracks_rxRun hflush (setups e).window (setups e.peer).blockSize.1 hshards
    (rxRun_of_reachable h e)
  have hsetup := sameSetup_processRun (processRun_of_reachable h e)
  unfold processStep
  rw [if_pos hrunning]
  cases i with
  | shutdown env => exact ⟨_, _, rfl⟩
  | turn inp =>
      obtain ⟨r, hr⟩ : ∃ r, mainStep fuel (sys e).state.st inp = some r := by
        apply exists_mainStep_of_feed
        intro a ha
        have hshard := shardOf_of_available (setups e.peer).blockSize.2 hvalid hposted.traced
          havail ha
        have hid := toNat_blockId_of_shardOf hflush hshard
        rw [hsetup.windowSize, hsetup.crypto]
        obtain ⟨win, out, hstep⟩ := exists_rxStep hfew (setups e).window htracks.within hid hfuel
        exact ⟨(win, out), hstep⟩
      refine ⟨⟨r.1, true⟩, r.2, ?_⟩
      dsimp only
      rw [hr]
      rfl

end Ends

/-! ## Three packets from left to right -/

def demoSetup : Setup where
  cfg := { onePathConfig with mode := chars "both" }
  tctx := onePathSocket
  now := ⟨0, 0⟩
  blockSize := by decide
  window := by decide

def demoStart : Process := demoSetup.start (cryptoInit none)

/-- The packets of a full block, a packet more, and the drain. -/
def sendInputs : List ProcessInput :=
  List.replicate 3 (.turn packetTurn) ++ [.shutdown quietTurn.fullFlush]

def sentBytes : List (List UInt8) :=
  ((processRun 3 demoStart sendInputs).map fun r =>
    (r.2.flatMap MainOutput.sent).map Prod.snd).getD []

def readTurn (bytes : List UInt8) : ProcessInput :=
  .turn { quietTurn with arrival := some ⟨⟨0, bytes⟩, zeroStack, 0, fun _ => 0⟩ }

theorem reachable_sendInputs :
    ∃ sys : End → Gateway, Reachable (tunnel 3) (fun _ => demoStart) sys ∧
      (sys .left).flushed.length = 2 ∧ sys .right = Local.fresh demoStart ∧
      ∀ bytes ∈ sentBytes, (tunnel 3).Available sys .right (readTurn bytes) := by
  have hcheck : (processRun 3 demoStart sendInputs).map
      (fun r => (r.2.flatMap MainOutput.flushed).length) = some 2 := by
    decide +kernel
  obtain ⟨⟨p, outs⟩, hrun, hflushed⟩ := Option.map_eq_some_iff.mp hcheck
  have hread : ∀ i ∈ sendInputs,
      (tunnel 3).Available (fun _ => Local.fresh demoStart) End.left i := by
    intro i hi msg hmsg
    have hnone : ∀ j ∈ sendInputs, arrivingBytes j = none := by decide
    cases (hnone i hi).symm.trans hmsg
  have hsent : sentBytes = (outs.flatMap MainOutput.sent).map Prod.snd := by
    rw [sentBytes, hrun]
    rfl
  refine ⟨_, reachable_run .start End.left hread hrun, ?_, ?_, fun bytes hbytes => ?_⟩
  · rw [Function.update_self]
    exact hflushed
  · exact Function.update_of_ne (by decide) _ _
  · intro msg hmsg
    cases hmsg
    refine ⟨End.left, rfl, ?_⟩
    rw [Function.update_self]
    rw [hsent, List.map_flatMap] at hbytes
    exact hbytes

theorem exists_processStep_readTurn :
    ∃ sys : End → Gateway, Reachable (tunnel 3) (fun _ => demoStart) sys ∧
      ∀ bytes ∈ sentBytes,
        ∃ p out, processStep 3 (sys .right).state (readTurn bytes) = some (p, out) := by
  obtain ⟨sys, hsys, hflushed, hright, havail⟩ := reachable_sendInputs
  have hrunning : (sys .right).state.running = true := by rw [hright]; rfl
  refine ⟨sys, hsys, fun bytes hbytes => @exists_processStep 3 (fun _ => demoSetup) _ _ hsys
    .right ?_ ?_ hrunning _ (havail bytes hbytes)⟩
  · change (sys .left).flushed.length < 2 ^ 31
    omega
  · change (sys .left).flushed.length < 3
    omega

theorem packets_in_order_three :
    ∃ sys : End → Gateway, Reachable (tunnel 3) (fun _ => demoStart) sys ∧
      (sys .right).deliveries.length = 2 ∧
      ∃ sources : List TxBlock, sources.Sublist (sys .left).flushed ∧
        (sys .right).deliveries.map Delivery.blockId = sources.map TxBlock.blockId ∧
        ((∀ pkt ∈ (sys .left).packetsRead, IsIpPacket pkt.bytes) →
          (List.zipWith (fun (blk : TxBlock) dl => dl.writes.take blk.pktCount) sources
            (sys .right).deliveries).flatten = sources.flatMap blockPackets) ∧
        List.Forall₂ (fun (blk : TxBlock) dl => dl.writes.drop blk.pktCount = fillers 2 blk)
          sources (sys .right).deliveries ∧
        (sources.flatMap blockPackets).Sublist
          ((sys .left).packetsRead.map TunPacket.bytes) := by
  obtain ⟨sys, hsys, hflushed, hright, havail⟩ := reachable_sendInputs
  have hcheck : (processRun 3 demoStart (sentBytes.map readTurn)).map
      (fun r => (ReceiveLoop.deliveries (rxOutputs r.2)).length) = some 2 := by
    decide +kernel
  obtain ⟨⟨p, outs⟩, hrun, hdeliveries⟩ := Option.map_eq_some_iff.mp hcheck
  have hread : ∀ i ∈ sentBytes.map readTurn, (tunnel 3).Available sys .right i := by
    intro i hi
    obtain ⟨bytes, hbytes, rfl⟩ := List.mem_map.mp hi
    exact havail bytes hbytes
  have hstart : (sys .right).state = demoStart := by rw [hright]; rfl
  have hnext := reachable_run hsys End.right hread (by rw [hstart]; exact hrun)
  refine ⟨_, hnext, ?_, @packets_in_order 3 (fun _ => demoSetup) _ _ hnext .right ?_⟩
  · rw [Function.update_self, hright]
    exact hdeliveries
  · change (Function.update sys End.right _ End.left).flushed.length < 2 ^ 31
    rw [Function.update_of_ne (by decide)]
    omega

end CodingGateway.Proofs.Tunnel
