import CodingGateway.Proofs.BlockAssembly
import CodingGateway.Proofs.ProcessRuns
import CodingGateway.Proofs.ReceivedBlocks
set_option autoImplicit false

/-!
# The datagrams of a gateway

In every run of the process, with any path going down at any time, the shards that leave are
those of its flushes, and the flushes hold the packets that were read.

* `inLoop_mainStep` — what one turn adds;
* `posted_processRun` — what a process has sent, drained or not.
-/

namespace CodingGateway.Proofs.SentDatagrams

open CodingGateway.Model
open CodingGateway.Library
open CodingGateway.Proofs.EventLoop
open CodingGateway.Proofs.Flush
open CodingGateway.Proofs.ProcessRuns
open CodingGateway.Proofs.ReceivedBlocks
open CodingGateway.Proofs.ReceiveLoop
open CodingGateway.Proofs.Sender
open CodingGateway.Proofs.Transfer
open CodingGateway.Proofs.Wire

/-- The packet that a turn takes from TUN, in a mode that sends. -/
def packetTaken (isTx : Bool) (inp : MainInput) : Option TunPacket :=
  if isTx then readPacket inp else none

/-- Every datagram with a shard is one of the flushes'. -/
def Traced (k : ℕ) (crypto : CryptoCtx) (records : List FlushRecord)
    (sent : List (ℕ × List UInt8)) : Prop :=
  ∀ d ∈ sent, isData d.2 = true → ∃ r ∈ records, d.2 ∈ r.datagrams k crypto

/-- What was read is in the flushes and in the block being filled, and what was sent comes from
the flushes. -/
structure Posted (k : ℕ) (crypto : CryptoCtx) (read : List TunPacket) (flushed : List TxBlock)
    (sent : List (ℕ × List UInt8)) (records : List FlushRecord) (pending : List TunPacket) :
    Prop where
  read_eq : read = records.flatMap FlushRecord.packets ++ pending
  flushed_eq : flushed = records.map FlushRecord.blk
  traced : Traced k crypto records sent

/-- The same for a gateway in the loop, whose block has room. -/
def InLoop (k : ℕ) (st : MainState) (read : List TunPacket) (flushed : List TxBlock)
    (sent : List (ℕ × List UInt8)) : Prop :=
  ∃ records pending, Ledger k st records pending ∧ pending.length < k ∧
    Posted k st.crypto read flushed sent records pending

theorem shardOf_of_traced {k : ℕ} {crypto : CryptoCtx} {records : List FlushRecord}
    {sent : List (ℕ × List UInt8)} {tctx : TransportCtx} {inp : RxInput} {a : Arrival}
    (hk : k ≤ maxK) (hvalid : ∀ r ∈ records, r.Valid k) (htraced : Traced k crypto records sent)
    (hsent : inp.dgram.bytes ∈ sent.map Prod.snd) (ha : arrivalOf tctx inp = some a) :
    ShardOf records k crypto a := by
  have hdata : isData inp.dgram.bytes = true := by
    unfold arrivalOf at ha
    split at ha
    · exact isData_of_transportRecv ‹_›
    · cases ha
  obtain ⟨d, hd, hbytes⟩ := List.mem_map.mp hsent
  rw [← hbytes] at hdata
  obtain ⟨r, hr, hdgram⟩ := htraced d hd hdata
  obtain ⟨s, hs, hwire⟩ := List.mem_map.mp hdgram
  have hlt := List.mem_range.mp hs
  have hv := hvalid r hr
  obtain ⟨a', ha', hcarry, _⟩ := exists_carries hk (hlt.trans_le hv.bounded)
    (shardLen_le hv.holds hv.nonempty) tctx (hbytes.symm.trans hwire.symm)
  rw [ha] at ha'
  cases ha'
  exact ⟨r, hr, s, hlt, hcarry⟩

section Flushing

variable {k : ℕ} {crypto : CryptoCtx} {st : MainState} {read : List TunPacket}
  {flushed : List TxBlock} {sent more : List (ℕ × List UInt8)} {records : List FlushRecord}
  {pending : List TunPacket}

theorem Traced.append (h : Traced k crypto records sent)
    (hmore : ∀ d ∈ more, isData d.2 = false) : Traced k crypto records (sent ++ more) := by
  intro d hd hdata
  rcases List.mem_append.mp hd with hd | hd
  · exact h d hd hdata
  · rw [hmore d hd] at hdata
    cases hdata

theorem Traced.flush (h : Traced k crypto records sent) {r : FlushRecord}
    (hmore : ∀ d ∈ more, d.2 ∈ r.datagrams k crypto) :
    Traced k crypto (records ++ [r]) (sent ++ more) := by
  intro d hd hdata
  rcases List.mem_append.mp hd with hd | hd
  · obtain ⟨r', hr', hmem⟩ := h d hd hdata
    exact ⟨r', List.mem_append_left _ hr', hmem⟩
  · exact ⟨r, List.mem_append_right _ (List.mem_singleton_self r), hmore d hd⟩

/-- Whatever the paths do, a flush sends shards of its block. -/
theorem mem_datagrams_of_flushBlock (h : Ledger k st records pending) (hne : pending ≠ [])
    (hcfg : st.cfg.k.toNat = k) (env : FlushEnv) :
    ∀ d ∈ (flushBlock st env).2.2, d.2 ∈ (flushRecord k st pending env).datagrams k st.crypto := by
  intro d hd
  have hpos : st.tx.pktCount ≠ 0 := by
    rw [h.holds.count]
    exact (List.length_pos_iff.mpr hne).ne'
  have hd' : d ∈ (txBlockFlush st.tx st.tctx st.sctx k st.crypto st.metrics env).sent := by
    rw [← hcfg]
    exact hd
  obtain ⟨s, hs, hbytes⟩ := mem_sent hpos hd'
  rw [hbytes]
  exact List.mem_map_of_mem (List.mem_range.mpr hs)

theorem Posted.flush (h : Posted k st.crypto read flushed sent records pending)
    (hledger : Ledger k st records pending) (hne : pending ≠ []) (hcfg : st.cfg.k.toNat = k)
    (env : FlushEnv) :
    Posted k st.crypto read (flushed ++ (flushBlock st env).2.1) (sent ++ (flushBlock st env).2.2)
      (records ++ [flushRecord k st pending env]) [] := by
  refine ⟨?_, ?_, h.traced.flush (mem_datagrams_of_flushBlock hledger hne hcfg env)⟩
  · rw [h.read_eq, List.flatMap_append, List.flatMap_singleton, List.append_nil]
    rfl
  · rw [h.flushed_eq, List.map_append]
    rfl

theorem inLoop_mainFlush (hledger : Ledger k st records pending)
    (h : Posted k st.crypto read flushed sent records pending) (hk : 1 ≤ k ∧ k ≤ maxK)
    (hne : pending ≠ [])
    (hroom : pending.length ≤ k) (hcfg : st.cfg.k.toNat = k) (env : FlushEnv) :
    InLoop k (mainFlush st env).1 read (flushed ++ (mainFlush st env).2.1)
      (sent ++ (mainFlush st env).2.2) :=
  ⟨records ++ [flushRecord k st pending env], [], ledger_mainFlush hledger hk hne hroom env, hk.1,
    h.flush hledger hne hcfg env⟩

theorem InLoop.congr {st' : MainState} (h : InLoop k st read flushed sent) (htx : st'.tx = st.tx)
    (hnext : st'.nextBlockId = st.nextBlockId) (hcrypto : st'.crypto = st.crypto)
    (hmore : ∀ d ∈ more, isData d.2 = false) : InLoop k st' read flushed (sent ++ more) := by
  obtain ⟨records, pending, hledger, hroom, hposted⟩ := h
  rw [← hcrypto] at hposted
  exact ⟨records, pending, hledger.congr htx hnext, hroom, hposted.read_eq, hposted.flushed_eq,
    hposted.traced.append hmore⟩

end Flushing

/-! ## One turn -/

section Turn

variable {fuel k : ℕ} {st st' : MainState} {inp : MainInput} {out : MainOutput}
  {read : List TunPacket} {flushed : List TxBlock} {sent : List (ℕ × List UInt8)}
  (hk : 1 ≤ k ∧ k ≤ maxK) (hcfg : st.cfg.k.toNat = k)

include hk hcfg

theorem inLoop_mainRead (h : InLoop k st read flushed sent) (inp : MainInput) :
    InLoop k (mainRead st inp).1 (read ++ (if st.isTx then inp.packet else none).toList)
      (flushed ++ (mainRead st inp).2.1) (sent ++ (mainRead st inp).2.2) := by
  cases htx : st.isTx with
  | false =>
      have hread : mainRead st inp = (st, [], []) := by
        unfold mainRead
        rw [htx]
        rfl
      rw [hread, List.append_nil, List.append_nil]
      simpa using h
  | true =>
      obtain ⟨records, pending, hledger, hroom, hposted⟩ := h
      rw [if_pos rfl]
      obtain ⟨hnone, hread⟩ | ⟨pkt, tx, hpkt, hledger', hread⟩ :=
        mainRead_cases hledger hroom hcfg htx inp
      · rw [hnone, hread, Option.toList_none, List.append_nil, List.append_nil, List.append_nil]
        exact ⟨records, pending, hledger, hroom, hposted⟩
      · have hlen : (pending ++ [pkt]).length = pending.length + 1 := by simp
        have hposted' : Posted k st.crypto (read ++ [pkt]) flushed sent records
            (pending ++ [pkt]) :=
          ⟨by rw [hposted.read_eq, List.append_assoc], hposted.flushed_eq, hposted.traced⟩
        rw [hpkt, hread, Option.toList_some]
        split_ifs with hlast
        · exact inLoop_mainFlush hledger' hposted' hk (by simp) (by omega) hcfg inp.fullFlush
        · rw [List.append_nil, List.append_nil]
          exact ⟨records, pending ++ [pkt], hledger', by omega, hposted'⟩

theorem inLoop_mainTimeout (h : InLoop k st read flushed sent) (inp : MainInput) :
    InLoop k (mainTimeout st inp).1 read (flushed ++ (mainTimeout st inp).2.1)
      (sent ++ (mainTimeout st inp).2.2) := by
  obtain ⟨records, pending, hledger, hroom, hposted⟩ := h
  obtain hidle | ⟨hne, hflush⟩ := mainTimeout_cases hledger inp
  · rw [hidle, List.append_nil, List.append_nil]
    exact ⟨records, pending, hledger, hroom, hposted⟩
  · rw [hflush]
    exact inLoop_mainFlush hledger hposted hk hne hroom.le hcfg inp.timeoutFlush

theorem inLoop_mainStep (h : InLoop k st read flushed sent)
    (hstep : mainStep fuel st inp = some (st', out)) :
    InLoop k st' (read ++ (packetTaken st.isTx inp).toList) (flushed ++ out.flushed)
      (sent ++ out.sent) := by
  have hsetup := (mainStep_window hstep).1
  rcases mainStep_cases hstep with ⟨newCfg, hreload, rfl, rfl⟩ | ⟨hreload, hselect, rfl, rfl⟩ |
    ⟨hreload, hselect, ⟨p⟩⟩
  · have hnone : packetTaken st.isTx inp = none := by simp [packetTaken, readPacket, hreload]
    have hsame : (mainReload st newCfg).tx = st.tx ∧
        (mainReload st newCfg).nextBlockId = st.nextBlockId := by
      cases newCfg <;> exact ⟨rfl, rfl⟩
    have hidle : InLoop k (mainReload st newCfg) read flushed (sent ++ []) :=
      h.congr hsame.1 hsame.2 hsetup.crypto fun d hd => by cases hd
    rw [hnone, Option.toList_none, List.append_nil, idleOutput, List.append_nil]
    exact hidle
  · have hnone : packetTaken st'.isTx inp = none := by simp [packetTaken, readPacket, hselect]
    rw [hnone, Option.toList_none, idleOutput, List.append_nil, List.append_nil, List.append_nil]
    exact h
  · have hpacket : packetTaken st.isTx inp = if st.isTx then inp.packet else none := by
      simp [packetTaken, readPacket, hreload, hselect]
    have hread := inLoop_mainRead hk hcfg h inp
    rw [p.read_eq] at hread
    have hcfg₁ : p.read.cfg.k.toNat = k := by
      rw [p.sameSetup_read.1.k]
      exact hcfg
    have htimeout := inLoop_mainTimeout hk hcfg₁ hread inp
    rw [p.timeout_eq] at htimeout
    obtain ⟨hrxTx, hrxNext, hecho⟩ := mainRx_sender p.received_eq
    have hprobe : st'.tx = p.received.tx ∧ st'.nextBlockId = p.received.nextBlockId := by
      simpa only [p.probe_eq] using mainProbe_sender p.received inp
    have hrest : ∀ d ∈ p.sent₃ ++ p.probed.map fun q => (q, probeDatagram typeProbe inp.probeUs),
        isData d.2 = false := by
      intro d hd
      have hnone : ((p.sent₃ ++ p.probed.map fun q =>
          (q, probeDatagram typeProbe inp.probeUs)).map Prod.snd).filter isData = [] := by
        rw [List.map_append, List.filter_append, hecho, filter_isData_probes]
        rfl
      rw [List.filter_eq_nil_iff] at hnone
      simpa using hnone d.2 (List.mem_map_of_mem hd)
    have hcrypto := hsetup.crypto.trans p.sameSetup_timeout.1.crypto.symm
    have hall := htimeout.congr (hprobe.1.trans hrxTx) (hprobe.2.trans hrxNext) hcrypto hrest
    rw [hpacket, p.out_flushed, p.out_sent, ← List.append_assoc]
    simpa only [List.append_assoc] using hall

end Turn

/-! ## Runs -/

section Runs

variable {fuel : ℕ} {cfg : GatewayConfig} {tctx : TransportCtx} {crypto : CryptoCtx}
  {now : Timeval}

theorem inLoop_mainRun {inputs : List MainInput} {st : MainState} {outs : List MainOutput}
    (hk : 1 ≤ cfg.k.toNat ∧ cfg.k.toNat ≤ maxK)
    (hrun : mainRun fuel (mainInit cfg tctx crypto now) inputs = some (st, outs)) :
    InLoop cfg.k.toNat st
      (inputs.filterMap (packetTaken (mainInit cfg tctx crypto now).isTx))
      (outs.flatMap MainOutput.flushed) (outs.flatMap MainOutput.sent) := by
  refine Machine.run_induction (P := fun inputs st outs => InLoop cfg.k.toNat st
    (inputs.filterMap (packetTaken (mainInit cfg tctx crypto now).isTx))
    (outs.flatMap MainOutput.flushed) (outs.flatMap MainOutput.sent)) ?_ ?_ hrun
  · refine ⟨[], [], ledger_mainInit cfg.k.toNat cfg tctx crypto now, hk.1, rfl, rfl, ?_⟩
    intro d hd
    cases hd
  · intro pre st outs inp st' out hrun ih hstep
    have hsetup := sameSetup_mainRun hrun
    have hcfg : st.cfg.k.toNat = cfg.k.toNat := by
      rw [hsetup.k]
      rfl
    have hturn := inLoop_mainStep hk hcfg ih hstep
    rw [hsetup.isTx] at hturn
    have htaken : [inp].filterMap (packetTaken (mainInit cfg tctx crypto now).isTx) =
        (packetTaken (mainInit cfg tctx crypto now).isTx inp).toList := by
      cases hpkt : packetTaken (mainInit cfg tctx crypto now).isTx inp with
      | none => rw [List.filterMap_cons_none hpkt]; rfl
      | some pkt => rw [List.filterMap_cons_some hpkt]; rfl
    rw [List.filterMap_append, htaken, List.flatMap_append, List.flatMap_append,
      List.flatMap_singleton, List.flatMap_singleton]
    exact hturn

/-- The packets that a gateway has taken from TUN. -/
def packetsTaken (isTx : Bool) (inputs : List ProcessInput) : List TunPacket :=
  (turns inputs).filterMap (packetTaken isTx)

theorem posted_processRun {inputs : List ProcessInput} {p : Process} {outs : List MainOutput}
    (hk : 1 ≤ cfg.k.toNat ∧ cfg.k.toNat ≤ maxK)
    (hrun : processRun fuel (processInit cfg tctx crypto now) inputs = some (p, outs)) :
    ∃ records pending, (∀ r ∈ records, r.Valid cfg.k.toNat) ∧
      records.map (fun r => r.blk.blockId) = (List.range records.length).map UInt32.ofNat ∧
      Posted cfg.k.toNat crypto (packetsTaken (mainInit cfg tctx crypto now).isTx inputs)
        (outs.flatMap MainOutput.flushed) (outs.flatMap MainOutput.sent) records pending ∧
      (p.running = false → pending = []) := by
  obtain ⟨st, louts, hloop, hends⟩ := mainRun_of_processRun hrun
  obtain ⟨records, pending, hledger, hroom, hposted⟩ := inLoop_mainRun hk hloop
  have hsetup := sameSetup_mainRun hloop
  have hcrypto : st.crypto = crypto := hsetup.crypto
  have hcfg : st.cfg.k.toNat = cfg.k.toNat := by
    rw [hsetup.k]
    rfl
  cases hends with
  | loop =>
      rw [hcrypto] at hposted
      exact ⟨records, pending, hledger.valid, hledger.ids, hposted, fun h => by cases h⟩
  | drained env =>
      rw [List.flatMap_append, List.flatMap_append, List.flatMap_singleton, List.flatMap_singleton]
      obtain ⟨hnone, hidle⟩ | ⟨hne, hdrain⟩ : (pending = [] ∧ mainDrain st env = (st, [], [])) ∨
          (pending ≠ [] ∧ mainDrain st env = flushBlock st env) := by
        cases htx : st.isTx with
        | true => exact mainDrain_cases hledger htx env
        | false =>
            -- a gateway that does not send has read nothing
            have hoff := hsetup.isTx.symm.trans htx
            have hread := hposted.read_eq
            rw [hoff] at hread
            have hnil : (turns inputs).filterMap (packetTaken false) = [] :=
              List.filterMap_eq_nil_iff.mpr fun _ _ => rfl
            rw [hnil] at hread
            refine Or.inl ⟨(List.append_eq_nil_iff.mp hread.symm).2, ?_⟩
            unfold mainDrain
            rw [htx]
            rfl
      · rw [drainOutput, hidle, List.append_nil, List.append_nil]
        rw [hcrypto] at hposted
        exact ⟨records, pending, hledger.valid, hledger.ids, hposted, fun _ => hnone⟩
      · have hflush := hposted.flush hledger hne hcfg env
        rw [hcrypto] at hflush
        rw [drainOutput, hdrain]
        exact ⟨_, [], valid_concat hledger (valid_flushRecord hledger hk hne hroom.le env),
          ids_concat hledger rfl, hflush, fun _ => rfl⟩

end Runs

end CodingGateway.Proofs.SentDatagrams
