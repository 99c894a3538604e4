import CodingGateway.Proofs.DeadPath
import CodingGateway.Proofs.Sender
import CodingGateway.Proofs.SentBlocks
set_option autoImplicit false

/-!
# Block assembly

Whatever the turns of the event loop of a sender are, and whether or not anything can be
sent, the blocks it flushes have consecutive ids and hold the packets it reads.

* `blocks_hold_packetsRead` — the blocks of a run and of the drain after it.
-/

namespace CodingGateway.Proofs.BlockAssembly

open CodingGateway.Model
open CodingGateway.Library
open CodingGateway.Proofs.DeadPath
open CodingGateway.Proofs.EventLoop
open CodingGateway.Proofs.Flush
open CodingGateway.Proofs.SentBlocks
open CodingGateway.Proofs.Sender

def blockPackets (blk : TxBlock) : List (List UInt8) :=
  (List.range blk.pktCount).map fun j => prefixList (blk.pkts j) (blk.pktLen j).toNat

theorem blockPackets_of_holds {blk : TxBlock} {packets : List TunPacket} (h : Holds blk packets) :
    blockPackets blk = packets.map TunPacket.bytes := by
  apply List.ext_getElem
  · simp [blockPackets, h.count]
  · intro j hj hj'
    have hlt : j < packets.length := by simpa using hj'
    have hdata : prefixList (blk.pkts j) packets[j].bytes.length = packets[j].bytes := by
      rw [prefixList_congr (h.data j hlt), prefixList_arrayOf]
    simp [blockPackets, h.lens j hlt, hdata]

/-- The packets read so far are in the blocks flushed so far and in the block being filled,
which has room. -/
def Assembled (k : ℕ) (read : List TunPacket) (st : MainState) (flushed : List TxBlock) : Prop :=
  ∃ records pending, Ledger k st records pending ∧ pending.length < k ∧
    read = records.flatMap FlushRecord.packets ++ pending ∧ flushed = records.map FlushRecord.blk

section Turn

variable {fuel k : ℕ} {st st' : MainState} {read : List TunPacket} {flushed : List TxBlock}
  {records : List FlushRecord} {pending : List TunPacket}

theorem Assembled.congr (h : Assembled k read st flushed) (htx : st'.tx = st.tx)
    (hnext : st'.nextBlockId = st.nextBlockId) : Assembled k read st' flushed := by
  obtain ⟨records, pending, hledger, hrest⟩ := h
  exact ⟨records, pending, hledger.congr htx hnext, hrest⟩

theorem assembled_mainFlush (h : Ledger k st records pending) (hk : 1 ≤ k ∧ k ≤ maxK)
    (hne : pending ≠ []) (hroom : pending.length ≤ k) (env : FlushEnv) :
    Assembled k (records.flatMap FlushRecord.packets ++ pending) (mainFlush st env).1
      (records.map FlushRecord.blk ++ (mainFlush st env).2.1) := by
  refine ⟨records ++ [flushRecord k st pending env], [], ledger_mainFlush h hk hne hroom env, hk.1,
    ?_, ?_⟩
  · rw [List.flatMap_append, List.flatMap_singleton, List.append_nil]
    rfl
  · rw [List.map_append]
    rfl

theorem assembled_mainRead (h : Assembled k read st flushed) (hk : 1 ≤ k ∧ k ≤ maxK)
    (hcfg : st.cfg.k.toNat = k) (htx : st.isTx = true) (inp : MainInput) :
    Assembled k (read ++ inp.packet.toList) (mainRead st inp).1
      (flushed ++ (mainRead st inp).2.1) := by
  obtain ⟨records, pending, hledger, hroom, rfl, rfl⟩ := h
  obtain ⟨hnone, hread⟩ | ⟨pkt, tx, hpkt, hledger', hread⟩ :=
    mainRead_cases hledger hroom hcfg htx inp
  · rw [hnone, hread]
    exact ⟨records, pending, hledger, hroom, List.append_nil _, List.append_nil _⟩
  · have hlen : (pending ++ [pkt]).length = pending.length + 1 := by simp
    rw [hpkt, hread, Option.toList_some, List.append_assoc]
    split_ifs with hlast
    · exact assembled_mainFlush hledger' hk (by simp) (by omega) inp.fullFlush
    · exact ⟨records, pending ++ [pkt], hledger', by omega, rfl, List.append_nil _⟩

theorem assembled_mainTimeout (h : Assembled k read st flushed) (hk : 1 ≤ k ∧ k ≤ maxK)
    (inp : MainInput) :
    Assembled k read (mainTimeout st inp).1 (flushed ++ (mainTimeout st inp).2.1) := by
  obtain ⟨records, pending, hledger, hroom, rfl, rfl⟩ := h
  obtain hidle | ⟨hne, hflush⟩ := mainTimeout_cases hledger inp
  · rw [hidle]
    exact ⟨records, pending, hledger, hroom, rfl, List.append_nil _⟩
  · rw [hflush]
    exact assembled_mainFlush hledger hk hne hroom.le inp.timeoutFlush

theorem assembled_mainStep {inp : MainInput} {out : MainOutput} (h : Assembled k read st flushed)
    (hk : 1 ≤ k ∧ k ≤ maxK) (hcfg : st.cfg.k.toNat = k) (htx : st.isTx = true)
    (hstep : mainStep fuel st inp = some (st', out)) :
    Assembled k (read ++ (readPacket inp).toList) st' (flushed ++ out.flushed) := by
  rcases mainStep_cases hstep with ⟨newCfg, hreload, rfl, rfl⟩ | ⟨hreload, hselect, rfl, rfl⟩ |
    ⟨hreload, hselect, ⟨p⟩⟩
  · have hnone : readPacket inp = none := by simp [readPacket, hreload]
    have hsame : (mainReload st newCfg).tx = st.tx ∧
        (mainReload st newCfg).nextBlockId = st.nextBlockId := by
      cases newCfg <;> exact ⟨rfl, rfl⟩
    rw [hnone, Option.toList_none, List.append_nil]
    exact (List.append_nil flushed).symm ▸ h.congr hsame.1 hsame.2
  · have hnone : readPacket inp = none := by simp [readPacket, hselect]
    rw [hnone, Option.toList_none, List.append_nil]
    exact (List.append_nil flushed).symm ▸ h
  · have hpacket : readPacket inp = inp.packet := by simp [readPacket, hreload, hselect]
    have hread := assembled_mainRead h hk hcfg htx inp
    rw [p.read_eq] at hread
    have htimeout := assembled_mainTimeout hread hk inp
    rw [p.timeout_eq] at htimeout
    obtain ⟨hrxTx, hrxNext, _⟩ := mainRx_sender p.received_eq
    have hprobe : st'.tx = p.received.tx ∧ st'.nextBlockId = p.received.nextBlockId := by
      simpa only [p.probe_eq] using mainProbe_sender p.received inp
    rw [hpacket, p.out_flushed, ← List.append_assoc]
    exact htimeout.congr (hprobe.1.trans hrxTx) (hprobe.2.trans hrxNext)

/-- A turn in a mode that does not receive never waits for the window. -/
theorem exists_mainStep (hrx : st.isRx = false) (fuel : ℕ) (inp : MainInput) :
    ∃ st' out, mainStep fuel st inp = some (st', out) := by
  unfold mainStep
  cases inp.reload with
  | some newCfg => exact ⟨_, _, rfl⟩
  | none =>
      dsimp only
      split_ifs with hselect
      · exact ⟨_, _, rfl⟩
      · have hsetup := (sameSetup_mainRead st inp).1.trans
          (sameSetup_mainTimeout (mainRead st inp).1 inp).1
        have hmode := hsetup.isRx.trans hrx
        have hreceive : ∃ q, mainRx fuel (mainTimeout (mainRead st inp).1 inp).1 inp = some q := by
          unfold mainRx
          cases inp.arrival with
          | none => exact ⟨_, rfl⟩
          | some r =>
              dsimp only
              rw [hmode]
              cases transportRecv (mainTimeout (mainRead st inp).1 inp).1.tctx r.dgram
                r.garbage.shardIn with
              | error => exact ⟨_, rfl⟩
              | data hdr shard path => exact ⟨_, rfl⟩
              | probe ts path => exact ⟨_, rfl⟩
              | probeEcho ts path =>
                  dsimp only
                  split_ifs
                  · exact ⟨_, rfl⟩
                  · exact ⟨_, rfl⟩
        obtain ⟨⟨st₃, rx, sent₃⟩, hq⟩ := hreceive
        rw [hq]
        exact ⟨_, _, rfl⟩

end Turn

/-! ## Runs -/

section Runs

variable {cfg : GatewayConfig} {tctx : TransportCtx} {crypto : CryptoCtx} {now : Timeval}
  {inputs : List MainInput}

theorem assembled_mainRun (tctx : TransportCtx) (crypto : CryptoCtx) (now : Timeval)
    (inputs : List MainInput) (fuel : ℕ) (hmode : cfg.mode = chars "tx")
    (hk : 1 ≤ cfg.k.toNat ∧ cfg.k.toNat ≤ maxK) :
    ∃ st outs, mainRun fuel (mainInit cfg tctx crypto now) inputs = some (st, outs) ∧
      SameSetup (mainInit cfg tctx crypto now) st ∧
      Assembled cfg.k.toNat (packetsRead inputs) st (outs.flatMap MainOutput.flushed) := by
  refine Machine.exists_run
    (P := fun pre st outs => SameSetup (mainInit cfg tctx crypto now) st ∧
      Assembled cfg.k.toNat (packetsRead pre) st (outs.flatMap MainOutput.flushed)) ?_ ?_
  · exact ⟨SameSetup.refl _, [], [], ledger_mainInit cfg.k.toNat cfg tctx crypto now, hk.1, rfl,
      rfl⟩
  · rintro pre st outs inp _ _ ⟨hsetup, hassembled⟩
    have hrx : st.isRx = false := by
      rw [hsetup.isRx]
      simp only [mainInit, hmode]
      decide
    have htx : st.isTx = true := hsetup.isTx.trans (decide_eq_true (Or.inl hmode))
    have hcfg : st.cfg.k.toNat = cfg.k.toNat := by
      rw [hsetup.k]
      rfl
    obtain ⟨st', out, hstep⟩ := exists_mainStep hrx fuel inp
    refine ⟨st', out, hstep, hsetup.trans (mainStep_window hstep).1, ?_⟩
    rw [packetsRead_concat, List.flatMap_append, List.flatMap_singleton]
    exact assembled_mainStep hassembled hk hcfg htx hstep

/-- What the flushed blocks say about the packets read: consecutive ids from 0 on, one to `k`
packets in each, and all packets in order. -/
structure HoldsAll (k : ℕ) (read : List TunPacket) (flushed : List TxBlock) : Prop where
  ids : flushed.map TxBlock.blockId = (List.range flushed.length).map UInt32.ofNat
  count : ∀ blk ∈ flushed, 1 ≤ blk.pktCount ∧ blk.pktCount ≤ k
  packets : flushed.flatMap blockPackets = read.map TunPacket.bytes

theorem holdsAll_of_records {k : ℕ} {records : List FlushRecord} (hvalid : ∀ r ∈ records, r.Valid k)
    (hids : records.map (fun r => r.blk.blockId) = (List.range records.length).map UInt32.ofNat) :
    HoldsAll k (records.flatMap FlushRecord.packets) (records.map FlushRecord.blk) := by
  refine ⟨?_, fun blk hblk => ?_, ?_⟩
  · rw [List.map_map, List.length_map]
    exact hids
  · obtain ⟨r, hr, rfl⟩ := List.mem_map.mp hblk
    have hr' := hvalid r hr
    rw [hr'.holds.count]
    exact ⟨List.length_pos_iff.mpr hr'.nonempty, hr'.fits⟩
  · rw [List.flatMap_map, List.map_flatMap]
    exact List.flatMap_congr fun r hr => blockPackets_of_holds (hvalid r hr).holds

/-- **Lossless block assembly.** A sender never stops: after any turns, the drain included, its
flushed blocks hold exactly the packets that it read, and no turn starts with a full block. -/
theorem blocks_hold_packetsRead (fuel : ℕ) (hmode : cfg.mode = chars "tx")
    (hk : 1 ≤ cfg.k.toNat ∧ cfg.k.toNat ≤ maxK) (env : FlushEnv) :
    ∃ st outs, mainRun fuel (mainInit cfg tctx crypto now) inputs = some (st, outs) ∧
      st.tx.pktCount < cfg.k.toNat ∧
      HoldsAll cfg.k.toNat (packetsRead inputs)
        (outs.flatMap MainOutput.flushed ++ (mainDrain st env).2.1) := by
  obtain ⟨st, outs, hrun, hsetup, records, pending, hledger, hroom, hread, hflushed⟩ :=
    assembled_mainRun tctx crypto now inputs fuel hmode hk
  have htx : st.isTx = true := hsetup.isTx.trans (decide_eq_true (Or.inl hmode))
  refine ⟨st, outs, hrun, by rw [hledger.holds.count]; exact hroom, ?_⟩
  rw [hread, hflushed]
  obtain ⟨rfl, hdrain⟩ | ⟨hne, hdrain⟩ := mainDrain_cases hledger htx env
  · rw [hdrain, List.append_nil, List.append_nil]
    exact holdsAll_of_records hledger.valid hledger.ids
  · have hall := holdsAll_of_records
      (valid_concat hledger (valid_flushRecord hledger hk hne hroom.le env))
      (ids_concat hledger rfl)
    rw [List.flatMap_append, List.flatMap_singleton, List.map_append] at hall
    rw [hdrain]
    exact hall

/-- A full block, a packet that waits, the turn in which its block is old, and a last packet. -/
def assemblyTurns : List MainInput :=
  [{ quietTurn with packet := some shortPacket },
    { quietTurn with packet := some longerPacket },
    { quietTurn with packet := some longerPacket },
    { quietTurn with flushTime := ⟨0, 5500⟩ },
    { quietTurn with packet := some shortPacket, addTime := ⟨0, 5500⟩, flushTime := ⟨0, 5500⟩ }]

theorem blocks_hold_packetsRead_five :
    ∃ st outs, mainRun 1 (mainInit onePathConfig onePathSocket (cryptoInit none) ⟨0, 0⟩)
        assemblyTurns = some (st, outs) ∧
      (outs.flatMap MainOutput.flushed ++ (mainDrain st quietTurn.fullFlush).2.1).map
        TxBlock.pktCount = [2, 1, 1] ∧
      st.tx.pktCount < 2 ∧
      HoldsAll 2 [shortPacket, longerPacket, longerPacket, shortPacket]
        (outs.flatMap MainOutput.flushed ++ (mainDrain st quietTurn.fullFlush).2.1) := by
  have hcheck : (mainRun 1 (mainInit onePathConfig onePathSocket (cryptoInit none) ⟨0, 0⟩)
      assemblyTurns).map (fun r => (r.2.flatMap MainOutput.flushed ++
        (mainDrain r.1 quietTurn.fullFlush).2.1).map TxBlock.pktCount) = some [2, 1, 1] := by
    decide +kernel
  obtain ⟨st, outs, hrun, hblocks⟩ := @blocks_hold_packetsRead onePathConfig
    onePathSocket (cryptoInit none) ⟨0, 0⟩ assemblyTurns 1 rfl ⟨by decide, by decide⟩
    quietTurn.fullFlush
  rw [hrun, Option.map_some, Option.some.injEq] at hcheck
  exact ⟨st, outs, hrun, hcheck, hblocks⟩

end Runs

end CodingGateway.Proofs.BlockAssembly
