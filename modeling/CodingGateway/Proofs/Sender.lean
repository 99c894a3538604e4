import CodingGateway.Proofs.EventLoop
import CodingGateway.Proofs.Flush
import CodingGateway.Proofs.Wire
set_option autoImplicit false

/-!
# The sender's ledger

A sender on a link that is up turns the packets it reads into blocks: every packet read
is in a block that was flushed or in the pending one, in order, and the data datagrams
that left are those of the flushed blocks, all of them and in order.

* `advances_mainRun` — the ledger of a run of the event loop.
* `records_of_mainDrain` — the drain after the loop flushes what is pending.
-/

namespace CodingGateway.Proofs.Sender

open CodingGateway.Model
open CodingGateway.Library
open CodingGateway.Proofs.EventLoop
open CodingGateway.Proofs.Flush
open CodingGateway.Proofs.Scheduler
open CodingGateway.Proofs.Wire

/-- The flush of a block: the block, the packets in it, what the flush met and the number of
shards sent. -/
structure FlushRecord where
  blk : TxBlock
  packets : List TunPacket
  env : FlushEnv
  count : ℕ

def FlushRecord.datagrams (r : FlushRecord) (k : ℕ) (crypto : CryptoCtx) : List (List UInt8) :=
  (List.range r.count).map (datagram r.blk k r.count crypto r.env)

structure FlushRecord.Valid (r : FlushRecord) (k : ℕ) : Prop where
  holds : Holds r.blk r.packets
  nonempty : r.packets ≠ []
  fits : r.packets.length ≤ k
  enough : k ≤ r.count
  bounded : r.count ≤ maxN

/-- The flushes so far have the ids from 0 on, and the block being filled has the next one. -/
structure Ledger (k : ℕ) (st : MainState) (records : List FlushRecord) (pending : List TunPacket) :
    Prop where
  valid : ∀ r ∈ records, r.Valid k
  ids : records.map (fun r => r.blk.blockId) = (List.range records.length).map UInt32.ofNat
  holds : Holds st.tx pending
  blockId : st.tx.blockId = UInt32.ofNat records.length
  next : st.nextBlockId = UInt32.ofNat (records.length + 1)

/-- From one state to a later one packets are read, blocks are flushed and datagrams sent. -/
def Advances (k : ℕ) (crypto : CryptoCtx) (records : List FlushRecord) (pending : List TunPacket)
    (read : List TunPacket) (st' : MainState) (flushed : List TxBlock)
    (sent : List (ℕ × List UInt8)) : Prop :=
  ∃ new pending', Ledger k st' (records ++ new) pending' ∧ pending'.length < k ∧
    pending ++ read = new.flatMap FlushRecord.packets ++ pending' ∧
    flushed = new.map FlushRecord.blk ∧
    (sent.map Prod.snd).filter isData = new.flatMap fun r => r.datagrams k crypto

def readPacket (inp : MainInput) : Option TunPacket :=
  if inp.reload.isSome || inp.selectFailed then none else inp.packet

def packetsRead (inputs : List MainInput) : List TunPacket := inputs.filterMap readPacket

theorem packetsRead_concat (inputs : List MainInput) (inp : MainInput) :
    packetsRead (inputs ++ [inp]) = packetsRead inputs ++ (readPacket inp).toList := by
  rw [packetsRead, packetsRead, List.filterMap_append]
  cases hpkt : readPacket inp with
  | none => rw [List.filterMap_cons_none hpkt]; rfl
  | some pkt => rw [List.filterMap_cons_some hpkt]; rfl

section Flushing

variable {k : ℕ} {st : MainState} {records : List FlushRecord} {pending : List TunPacket}

theorem Ledger.congr {st' : MainState} (h : Ledger k st records pending) (htx : st'.tx = st.tx)
    (hnext : st'.nextBlockId = st.nextBlockId) : Ledger k st' records pending :=
  ⟨h.valid, h.ids, by rw [htx]; exact h.holds, by rw [htx]; exact h.blockId,
    by rw [hnext]; exact h.next⟩

theorem filter_isData_datagrams (r : FlushRecord) (crypto : CryptoCtx) :
    (r.datagrams k crypto).filter isData = r.datagrams k crypto := by
  rw [List.filter_eq_self]
  intro d hd
  obtain ⟨s, _, rfl⟩ := List.mem_map.mp hd
  exact isData_shardDatagram ..

/-- The flush of the block that is being filled. -/
def flushRecord (k : ℕ) (st : MainState) (pending : List TunPacket) (env : FlushEnv) :
    FlushRecord :=
  ⟨st.tx, pending, env, (strategyComputeN st.sctx k).toNat⟩

theorem valid_flushRecord (h : Ledger k st records pending) (hk : 1 ≤ k ∧ k ≤ maxK)
    (hne : pending ≠ []) (hroom : pending.length ≤ k) (env : FlushEnv) :
    (flushRecord k st pending env).Valid k := by
  have hmax := hk.2
  obtain ⟨hle, hbound⟩ := strategyComputeN_bounds st.sctx hk.1 (hmax.trans (by decide))
  exact ⟨h.holds, hne, hroom, hle, hbound⟩

theorem valid_concat (h : Ledger k st records pending) {r : FlushRecord} (hr : r.Valid k) :
    ∀ r' ∈ records ++ [r], r'.Valid k := by
  intro r' hr'
  rcases List.mem_append.mp hr' with hr' | hr'
  · exact h.valid r' hr'
  · rw [List.mem_singleton.mp hr']
    exact hr

theorem ids_concat (h : Ledger k st records pending) {r : FlushRecord} (hr : r.blk = st.tx) :
    (records ++ [r]).map (fun r => r.blk.blockId) =
      (List.range (records ++ [r]).length).map UInt32.ofNat := by
  rw [List.length_append, List.length_singleton, List.range_succ, List.map_append, List.map_append,
    h.ids, List.map_singleton, List.map_singleton, hr, h.blockId]

theorem ledger_mainFlush (h : Ledger k st records pending) (hk : 1 ≤ k ∧ k ≤ maxK)
    (hne : pending ≠ []) (hroom : pending.length ≤ k) (env : FlushEnv) :
    Ledger k (mainFlush st env).1 (records ++ [flushRecord k st pending env]) [] := by
  refine ⟨valid_concat h (valid_flushRecord h hk hne hroom env), ids_concat h rfl,
    holds_txBlockInit _, ?_, ?_⟩
  · rw [List.length_append, List.length_singleton]
    exact h.next
  · have hnext : (mainFlush st env).1.nextBlockId = st.nextBlockId + 1 := rfl
    rw [hnext, h.next, List.length_append, List.length_singleton]
    exact (UInt32.ofNat_add (records.length + 1) 1).symm

theorem sent_flushBlock (h : Ledger k st records pending) (hne : pending ≠ [])
    (hcfg : st.cfg.k.toNat = k) (hup : LinkUp st.tctx st.sctx) {env : FlushEnv}
    (haccept : ∀ i, env.accepted i = true) :
    ((flushBlock st env).2.2.map Prod.snd).filter isData =
      (flushRecord k st pending env).datagrams k st.crypto := by
  have hpos : st.tx.pktCount ≠ 0 := by
    rw [h.holds.count]
    exact (List.length_pos_iff.mpr hne).ne'
  have hsent := sent_of_linkUp hpos hup haccept k st.crypto st.metrics
  have hsent' : (flushBlock st env).2.2.map Prod.snd =
      (flushRecord k st pending env).datagrams k st.crypto := by
    change (txBlockFlush st.tx st.tctx st.sctx st.cfg.k.toNat st.crypto st.metrics env).sent.map
      Prod.snd = _
    rw [hcfg, hsent]
    rfl
  rw [hsent', filter_isData_datagrams]

theorem advances_mainFlush {read : List TunPacket} (h : Ledger k st records (pending ++ read))
    (hk : 1 ≤ k ∧ k ≤ maxK) (hne : pending ++ read ≠ []) (hroom : (pending ++ read).length ≤ k)
    (hcfg : st.cfg.k.toNat = k) (hup : LinkUp st.tctx st.sctx) {env : FlushEnv}
    (haccept : ∀ i, env.accepted i = true) :
    Advances k st.crypto records pending read (mainFlush st env).1 (mainFlush st env).2.1
      (mainFlush st env).2.2 := by
  have hsent := sent_flushBlock h hne hcfg hup haccept
  refine ⟨[flushRecord k st (pending ++ read) env], [], ledger_mainFlush h hk hne hroom env, hk.1,
    ?_, rfl, ?_⟩
  · simp [flushRecord]
  · rw [List.flatMap_cons, List.flatMap_nil, List.append_nil]
    exact hsent

theorem mainRead_cases (h : Ledger k st records pending) (hroom : pending.length < k)
    (hcfg : st.cfg.k.toNat = k) (htx : st.isTx = true) (inp : MainInput) :
    (inp.packet = none ∧ mainRead st inp = (st, [], [])) ∨
      ∃ pkt tx, inp.packet = some pkt ∧ Ledger k { st with tx := tx } records (pending ++ [pkt]) ∧
        mainRead st inp =
          if k ≤ pending.length + 1 then mainFlush { st with tx := tx } inp.fullFlush
          else ({ st with tx := tx }, [], []) := by
  unfold mainRead
  rw [if_pos htx]
  cases inp.packet with
  | none => exact Or.inl ⟨rfl, rfl⟩
  | some pkt =>
      have hadd := holds_txBlockAddPkt h.holds hroom pkt inp.addTime
      have hfull := congrArg Prod.snd (txBlockAddPkt_of_room (arrayOf pkt.bytes)
        (UInt16.ofNat pkt.bytes.length) inp.addTime (by rw [h.holds.count]; exact hroom))
      rw [h.holds.count] at hfull
      dsimp only
      rw [hcfg]
      rcases hpkt : txBlockAddPkt st.tx (arrayOf pkt.bytes) (UInt16.ofNat pkt.bytes.length) k
        inp.addTime with ⟨tx, full⟩
      have hid := txBlockAddPkt_blockId st.tx (arrayOf pkt.bytes)
        (UInt16.ofNat pkt.bytes.length) k inp.addTime
      rw [hpkt] at hadd hfull hid
      dsimp only at hadd hfull hid ⊢
      refine Or.inr ⟨pkt, tx, rfl, ⟨h.valid, h.ids, hadd, hid.trans h.blockId, h.next⟩, ?_⟩
      rw [hfull]
      exact if_congr decide_eq_true_iff rfl rfl

theorem mainTimeout_cases (h : Ledger k st records pending) (inp : MainInput) :
    mainTimeout st inp = (st, [], []) ∨
      pending ≠ [] ∧ mainTimeout st inp = mainFlush st inp.timeoutFlush := by
  unfold mainTimeout
  split_ifs with hflush
  · refine Or.inr ⟨?_, rfl⟩
    rintro rfl
    have hcount : st.tx.pktCount = 0 := h.holds.count
    simp [txBlockNeedsFlush, hcount] at hflush
  · exact Or.inl rfl

theorem mainDrain_cases (h : Ledger k st records pending) (htx : st.isTx = true) (env : FlushEnv) :
    pending = [] ∧ mainDrain st env = (st, [], []) ∨
      pending ≠ [] ∧ mainDrain st env = flushBlock st env := by
  unfold mainDrain
  rw [htx, Bool.true_and, h.holds.count]
  by_cases hne : pending = []
  · rw [hne]
    exact Or.inl ⟨rfl, rfl⟩
  · exact Or.inr ⟨hne, if_pos (decide_eq_true (List.length_pos_iff.mpr hne))⟩

end Flushing

/-! ## One turn -/

section Turn

variable {fuel k : ℕ} {crypto : CryptoCtx} {st st' : MainState} {records : List FlushRecord}
  {pending : List TunPacket} {inp : MainInput}

theorem advances_idle (h : Ledger k st' records pending) (hroom : pending.length < k)
    {sent : List (ℕ × List UInt8)} (hsent : (sent.map Prod.snd).filter isData = []) :
    Advances k crypto records pending [] st' [] sent := by
  refine ⟨[], pending, ?_, hroom, List.append_nil pending, rfl, hsent⟩
  rw [List.append_nil]
  exact h

theorem Advances.trans {read₁ read₂ : List TunPacket} {flushed₁ flushed₂ : List TxBlock}
    {sent₁ sent₂ : List (ℕ × List UInt8)} {st'' : MainState}
    (h₁ : Advances k crypto records pending read₁ st' flushed₁ sent₁)
    (h₂ : ∀ records pending, Ledger k st' records pending → pending.length < k →
      Advances k crypto records pending read₂ st'' flushed₂ sent₂) :
    Advances k crypto records pending (read₁ ++ read₂) st'' (flushed₁ ++ flushed₂)
      (sent₁ ++ sent₂) := by
  obtain ⟨new₁, pending₁, hledger₁, hroom₁, hread₁, rfl, hsent₁⟩ := h₁
  obtain ⟨new₂, pending₂, hledger₂, hroom₂, hread₂, rfl, hsent₂⟩ := h₂ _ _ hledger₁ hroom₁
  refine ⟨new₁ ++ new₂, pending₂, by rw [← List.append_assoc]; exact hledger₂, hroom₂, ?_, ?_, ?_⟩
  · rw [← List.append_assoc, hread₁, List.append_assoc, hread₂, List.flatMap_append,
      List.append_assoc]
  · rw [List.map_append]
  · rw [List.map_append, List.filter_append, hsent₁, hsent₂, List.flatMap_append]

theorem advances_mainRead (h : Ledger k st records pending) (hroom : pending.length < k)
    (hk : 1 ≤ k ∧ k ≤ maxK) (hcfg : st.cfg.k.toNat = k) (htx : st.isTx = true)
    (hup : LinkUp st.tctx st.sctx) (haccept : ∀ i, inp.fullFlush.accepted i = true) :
    Advances k st.crypto records pending inp.packet.toList (mainRead st inp).1
      (mainRead st inp).2.1 (mainRead st inp).2.2 := by
  obtain ⟨hnone, hread⟩ | ⟨pkt, tx, hpkt, hledger, hread⟩ :=
    mainRead_cases h hroom hcfg htx inp
  · rw [hnone, hread]
    exact advances_idle h hroom rfl
  · rw [hpkt, hread]
    have hlen : (pending ++ [pkt]).length = pending.length + 1 := by simp
    split_ifs with hlast
    · exact advances_mainFlush hledger hk (by simp) (by omega) hcfg hup haccept
    · refine ⟨[], pending ++ [pkt], ?_, by omega, rfl, rfl, rfl⟩
      rw [List.append_nil]
      exact hledger

theorem advances_mainTimeout (h : Ledger k st records pending) (hroom : pending.length < k)
    (hk : 1 ≤ k ∧ k ≤ maxK) (hcfg : st.cfg.k.toNat = k)
    (hup : LinkUp st.tctx st.sctx) (haccept : ∀ i, inp.timeoutFlush.accepted i = true) :
    Advances k st.crypto records pending [] (mainTimeout st inp).1 (mainTimeout st inp).2.1
      (mainTimeout st inp).2.2 := by
  obtain hidle | ⟨hne, hflush⟩ := mainTimeout_cases h inp
  · rw [hidle]
    exact advances_idle h hroom rfl
  · rw [hflush]
    rw [← List.append_nil pending] at h hne
    exact advances_mainFlush h hk hne (by rw [List.append_nil]; omega) hcfg hup haccept

theorem mainRx_sender {rx : Option RxOutput} {sent : List (ℕ × List UInt8)}
    (h : mainRx fuel st inp = some (st', rx, sent)) :
    st'.tx = st.tx ∧ st'.nextBlockId = st.nextBlockId ∧
      (sent.map Prod.snd).filter isData = [] := by
  cases rxPhase_of_mainRx h with
  | quiet => exact ⟨rfl, rfl, rfl⟩
  | refused => exact ⟨rfl, rfl, rfl⟩
  | shard => exact ⟨rfl, rfl, rfl⟩
  | shardIgnored => exact ⟨rfl, rfl, rfl⟩
  | probe =>
      refine ⟨rfl, rfl, ?_⟩
      split_ifs
      · simp [isData_probeDatagram (show typeProbeEcho ≠ typeData by decide)]
      · rfl
  | echo => exact ⟨rfl, rfl, rfl⟩
  | echoIgnored => exact ⟨rfl, rfl, rfl⟩

theorem mainProbe_sender (st : MainState) (inp : MainInput) :
    (mainProbe st inp).1.tx = st.tx ∧ (mainProbe st inp).1.nextBlockId = st.nextBlockId := by
  unfold mainProbe
  split_ifs with hdue
  · exact ⟨rfl, rfl⟩
  · exact ⟨rfl, rfl⟩

theorem filter_isData_probes (probed : List ℕ) (us : UInt64) :
    ((probed.map fun p => (p, probeDatagram typeProbe us)).map Prod.snd).filter isData = [] := by
  rw [List.map_map, List.filter_eq_nil_iff]
  intro d hd
  obtain ⟨p, _, rfl⟩ := List.mem_map.mp hd
  have hprobe := isData_probeDatagram (show typeProbe ≠ typeData by decide) us
  simp [hprobe]

theorem advances_mainStep {out : MainOutput} (h : Ledger k st records pending)
    (hroom : pending.length < k) (hk : 1 ≤ k ∧ k ≤ maxK) (hcfg : st.cfg.k.toNat = k)
    (htx : st.isTx = true) (hup : LinkUp st.tctx st.sctx)
    (haccept : ∀ i, inp.fullFlush.accepted i = true ∧ inp.timeoutFlush.accepted i = true)
    (hstep : mainStep fuel st inp = some (st', out)) :
    Advances k st.crypto records pending (readPacket inp).toList st' out.flushed out.sent := by
  rcases mainStep_cases hstep with ⟨newCfg, hreload, rfl, rfl⟩ | ⟨hreload, hselect, rfl, rfl⟩ |
    ⟨hreload, hselect, ⟨p⟩⟩
  · have hnone : readPacket inp = none := by simp [readPacket, hreload]
    rw [hnone]
    have hsame : (mainReload st newCfg).tx = st.tx ∧
        (mainReload st newCfg).nextBlockId = st.nextBlockId := by
      cases newCfg <;> exact ⟨rfl, rfl⟩
    exact advances_idle (h.congr hsame.1 hsame.2) hroom rfl
  · have hnone : readPacket inp = none := by simp [readPacket, hselect]
    rw [hnone]
    exact advances_idle h hroom rfl
  · have hread : readPacket inp = inp.packet := by simp [readPacket, hreload, hselect]
    have hsetup : SameSetup st p.read := by
      simpa only [p.read_eq] using (sameSetup_mainRead st inp).1
    have hhealth : SameHealth st.sctx p.read.sctx := by
      simpa only [p.read_eq] using sameHealth_mainRead st inp
    have hfirst : Advances k st.crypto records pending inp.packet.toList p.read p.flushed₁
        p.sent₁ := by
      simpa only [p.read_eq] using
        advances_mainRead h hroom hk hcfg htx hup fun i => (haccept i).1
    have hsecond : ∀ records pending, Ledger k p.read records pending → pending.length < k →
        Advances k st.crypto records pending [] p.timeout p.flushed₂ p.sent₂ := by
      intro records pending hledger hroom'
      have hup' : LinkUp p.read.tctx p.read.sctx := by
        rw [hsetup.tctx]
        exact hup.congr hhealth
      have haccept' : ∀ i, inp.timeoutFlush.accepted i = true := fun i => (haccept i).2
      have htimeout :=
        advances_mainTimeout hledger hroom' hk (by rw [hsetup.k]; exact hcfg) hup' haccept'
      rw [hsetup.crypto] at htimeout
      simpa only [p.timeout_eq] using htimeout
    obtain ⟨hrxTx, hrxNext, hrxSent⟩ := mainRx_sender p.received_eq
    have hprobe : st'.tx = p.received.tx ∧ st'.nextBlockId = p.received.nextBlockId := by
      simpa only [p.probe_eq] using mainProbe_sender p.received inp
    have hthird : ∀ records pending, Ledger k p.timeout records pending → pending.length < k →
        Advances k st.crypto records pending [] st' []
          (p.sent₃ ++ p.probed.map fun q => (q, probeDatagram typeProbe inp.probeUs)) := by
      intro records pending hledger hroom'
      refine advances_idle (hledger.congr (hprobe.1.trans hrxTx) (hprobe.2.trans hrxNext)) hroom' ?_
      rw [List.map_append, List.filter_append, hrxSent, filter_isData_probes]
      rfl
    have hall := (hfirst.trans hsecond).trans hthird
    rw [List.append_nil, List.append_nil, List.append_nil, ← List.append_assoc] at hall
    rw [hread, p.out_flushed, p.out_sent]
    exact hall

end Turn

/-! ## Runs -/

/-- The link is up before every turn, and `sendto` takes every datagram. -/
structure Reliable (fuel : ℕ) (start : MainState) (inputs : List MainInput) : Prop where
  up : ∀ pre st outs, pre <+: inputs → mainRun fuel start pre = some (st, outs) →
    LinkUp st.tctx st.sctx
  accepted : ∀ inp ∈ inputs, ∀ i, inp.fullFlush.accepted i = true ∧
    inp.timeoutFlush.accepted i = true

section Runs

variable {fuel k : ℕ} {cfg : GatewayConfig} {tctx : TransportCtx} {crypto : CryptoCtx}
  {now : Timeval} {inputs : List MainInput} {st : MainState} {outs : List MainOutput}

theorem ledger_mainInit (k : ℕ) (cfg : GatewayConfig) (tctx : TransportCtx) (crypto : CryptoCtx)
    (now : Timeval) : Ledger k (mainInit cfg tctx crypto now) [] [] where
  valid _ hr := by cases hr
  ids := rfl
  holds := holds_txBlockInit 0
  blockId := rfl
  next := rfl

theorem advances_mainRun (hmode : cfg.mode = chars "tx" ∨ cfg.mode = chars "both")
    (hk : 1 ≤ cfg.k.toNat ∧ cfg.k.toNat ≤ maxK)
    (hrel : Reliable fuel (mainInit cfg tctx crypto now) inputs)
    (hrun : mainRun fuel (mainInit cfg tctx crypto now) inputs = some (st, outs)) :
    Advances cfg.k.toNat crypto [] [] (packetsRead inputs) st (outs.flatMap MainOutput.flushed)
      (outs.flatMap MainOutput.sent) := by
  have hprefix : inputs <+: inputs := List.prefix_rfl
  revert hprefix
  refine Machine.run_induction
    (P := fun pre st outs => pre <+: inputs → Advances cfg.k.toNat crypto [] [] (packetsRead pre) st
      (outs.flatMap MainOutput.flushed) (outs.flatMap MainOutput.sent)) (fun _ => ?_) ?_ hrun
  · exact advances_idle (ledger_mainInit cfg.k.toNat cfg tctx crypto now) hk.1 rfl
  · intro pre st outs inp st' out hrun ih hstep hpre
    have hpre' : pre <+: inputs := (List.prefix_append pre [inp]).trans hpre
    have hsetup := sameSetup_mainRun hrun
    have htx : st.isTx = true := hsetup.isTx.trans (decide_eq_true hmode)
    have hcfg : st.cfg.k.toNat = cfg.k.toNat := by
      rw [hsetup.k]
      rfl
    have hcrypto : st.crypto = crypto := hsetup.crypto
    have hlast : inp ∈ inputs :=
      hpre.subset (List.mem_append_right _ (List.mem_singleton_self inp))
    have hturn : ∀ records pending, Ledger cfg.k.toNat st records pending →
        pending.length < cfg.k.toNat →
        Advances cfg.k.toNat crypto records pending (readPacket inp).toList st' out.flushed
          out.sent := by
      intro records pending hledger hroom
      have hstep' := advances_mainStep hledger hroom hk hcfg htx (hrel.up pre st outs hpre' hrun)
        (hrel.accepted inp hlast) hstep
      rw [hcrypto] at hstep'
      exact hstep'
    rw [packetsRead_concat, List.flatMap_append, List.flatMap_append, List.flatMap_singleton,
      List.flatMap_singleton]
    exact (ih hpre').trans hturn

theorem records_of_mainDrain (hmode : cfg.mode = chars "tx" ∨ cfg.mode = chars "both")
    (hk : 1 ≤ cfg.k.toNat ∧ cfg.k.toNat ≤ maxK)
    (hrel : Reliable fuel (mainInit cfg tctx crypto now) inputs)
    (hrun : mainRun fuel (mainInit cfg tctx crypto now) inputs = some (st, outs)) {env : FlushEnv}
    (haccept : ∀ i, env.accepted i = true) :
    ∃ records : List FlushRecord, (∀ r ∈ records, r.Valid cfg.k.toNat) ∧
      records.map (fun r => r.blk.blockId) = (List.range records.length).map UInt32.ofNat ∧
      packetsRead inputs = records.flatMap FlushRecord.packets ∧
      outs.flatMap MainOutput.flushed ++ (mainDrain st env).2.1 = records.map FlushRecord.blk ∧
      ((outs.flatMap MainOutput.sent ++ (mainDrain st env).2.2).map Prod.snd).filter isData =
        records.flatMap fun r => r.datagrams cfg.k.toNat crypto := by
  obtain ⟨records, pending, hledger, hroom, hread, hflushed, hsent⟩ :=
    advances_mainRun hmode hk hrel hrun
  rw [List.nil_append] at hledger hread
  have hsetup := sameSetup_mainRun hrun
  have htx : st.isTx = true := hsetup.isTx.trans (decide_eq_true hmode)
  have hcfg : st.cfg.k.toNat = cfg.k.toNat := by
    rw [hsetup.k]
    rfl
  have hcrypto : st.crypto = crypto := hsetup.crypto
  rw [List.map_append, List.filter_append, hsent, hflushed, hread]
  obtain ⟨rfl, hdrain⟩ | ⟨hne, hdrain⟩ := mainDrain_cases hledger htx env
  · rw [hdrain]
    exact ⟨records, hledger.valid, hledger.ids, List.append_nil _, List.append_nil _,
      List.append_nil _⟩
  · have hup := hrel.up inputs st outs List.prefix_rfl hrun
    have hdata := sent_flushBlock hledger hne hcfg hup haccept
    have hflush : (flushBlock st env).2.1 = [st.tx] := rfl
    rw [hdrain, hflush, hdata, hcrypto]
    refine ⟨records ++ [flushRecord cfg.k.toNat st pending env], ?_, ids_concat hledger rfl, ?_, ?_,
      ?_⟩
    · exact valid_concat hledger (valid_flushRecord hledger hk hne hroom.le env)
    · rw [List.flatMap_append, List.flatMap_singleton]
      rfl
    · rw [List.map_append, List.map_singleton]
      rfl
    · rw [List.flatMap_append, List.flatMap_singleton]

end Runs

end CodingGateway.Proofs.Sender
