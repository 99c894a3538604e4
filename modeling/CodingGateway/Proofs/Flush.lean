import CodingGateway.Proofs.RoundRobin
import CodingGateway.Proofs.RoundTrip
import Mathlib.Data.Rat.Floor
set_option autoImplicit false

/-!
# From packets to datagrams

A block that holds packets is padded, filled up and encoded when it is flushed.  Every
shard of it is a combination of the padded packets, and the datagrams that leave carry
these shards under the id of the block.

* `holds_txBlockAddPkt` — adding a packet to a block that is not full.
* `isCombination_encoded` — the shards of a flushed block.
* `mem_sent`, `sent_eq_filterMap` — the datagrams of a flush.
-/

namespace CodingGateway.Proofs.Flush

open CodingGateway.Model
open CodingGateway.Proofs.Elimination
open CodingGateway.Proofs.RoundRobin
open CodingGateway.Proofs.RoundTrip
open CodingGateway.Proofs.Scheduler

/-! ## Assembling a block -/

/-- The block holds these packets, in this order. -/
structure Holds (blk : TxBlock) (packets : List TunPacket) : Prop where
  count : blk.pktCount = packets.length
  lens : ∀ j (h : j < packets.length), (blk.pktLen j).toNat = packets[j].bytes.length
  data : ∀ j (h : j < packets.length), ∀ t < packets[j].bytes.length,
    blk.pkts j t = arrayOf packets[j].bytes t

theorem holds_txBlockInit (blockId : UInt32) : Holds (txBlockInit blockId) [] where
  count := rfl
  lens _ h := absurd h (Nat.not_lt_zero _)
  data _ h := absurd h (Nat.not_lt_zero _)

theorem length_toUInt16 (pkt : TunPacket) :
    (UInt16.ofNat pkt.bytes.length).toNat = pkt.bytes.length := by
  have hle := pkt.length_le
  rw [UInt16.toNat_ofNat', Nat.mod_eq_of_lt]
  unfold maxPayload at hle
  omega

section AddPacket

variable {blk : TxBlock} {packets : List TunPacket} {k : ℕ}

theorem txBlockAddPkt_of_room (pkt : Bytes) (len : UInt16) (now : Timeval)
    (hroom : blk.pktCount < k) :
    txBlockAddPkt blk pkt len k now =
      ({ blk with
          pkts := Function.update blk.pkts blk.pktCount
            (memcpy (blk.pkts blk.pktCount) pkt len.toNat)
          pktLen := Function.update blk.pktLen blk.pktCount len
          pktCount := blk.pktCount + 1
          firstPktTime := if blk.pktCount = 0 then now else blk.firstPktTime },
        decide (k ≤ blk.pktCount + 1)) := by
  unfold txBlockAddPkt
  by_cases hempty : blk.pktCount = 0
  · simp [hempty, show 0 < k by omega]
  · simp [hempty, hroom]

theorem holds_txBlockAddPkt (h : Holds blk packets) (hroom : packets.length < k) (pkt : TunPacket)
    (now : Timeval) :
    Holds (txBlockAddPkt blk (arrayOf pkt.bytes) (UInt16.ofNat pkt.bytes.length) k now).1
      (packets ++ [pkt]) := by
  rw [txBlockAddPkt_of_room _ _ _ (by rw [h.count]; exact hroom), h.count]
  refine ⟨by simp, fun j hj => ?_, fun j hj t ht => ?_⟩
  · rw [List.length_append, List.length_singleton] at hj
    rcases Nat.lt_succ_iff_lt_or_eq.mp hj with hold | rfl
    · rw [List.getElem_append_left hold]
      dsimp only
      rw [Function.update_of_ne (by omega)]
      exact h.lens j hold
    · dsimp only
      rw [Function.update_self, List.getElem_concat_length rfl]
      exact length_toUInt16 pkt
  · rw [List.length_append, List.length_singleton] at hj
    rcases Nat.lt_succ_iff_lt_or_eq.mp hj with hold | rfl
    · rw [List.getElem_append_left hold] at ht ⊢
      dsimp only
      rw [Function.update_of_ne (by omega)]
      exact h.data j hold t ht
    · rw [List.getElem_concat_length rfl] at ht ⊢
      dsimp only
      rw [Function.update_self, length_toUInt16, memcpy_of_lt _ _ ht]

@[simp] theorem txBlockAddPkt_blockId (blk : TxBlock) (pkt : Bytes) (len : UInt16) (k : ℕ)
    (now : Timeval) : (txBlockAddPkt blk pkt len k now).1.blockId = blk.blockId := by
  unfold txBlockAddPkt
  dsimp only
  split_ifs <;> rfl

end AddPacket

/-! ## Encoding a flushed block -/

/-- The block as `tx_block_flush` hands it to `encode_block`. -/
def filled (blk : TxBlock) (k : ℕ) : TxBlock := fillSlots (padPackets blk) k

def shardLen (blk : TxBlock) (k : ℕ) : UInt16 := maxLen (filled blk k).pktLen k

/-- Shard `s` before encryption. -/
def encoded (blk : TxBlock) (k : ℕ) (env : FlushEnv) (s : ℕ) : Shard :=
  encodeShard (filled blk k).pkts (filled blk k).pktLen k (env.rand s) (env.shards s) s

/-- Shard `s` as it is sent. -/
def wireShard (blk : TxBlock) (k : ℕ) (crypto : CryptoCtx) (env : FlushEnv) (s : ℕ) : Shard :=
  { encoded blk k env s with
    data := cryptoXor crypto (encoded blk k env s).data (encoded blk k env s).len.toNat
      (shardNonce blk.blockId s) }

@[simp] theorem encoded_len (blk : TxBlock) (k : ℕ) (env : FlushEnv) (s : ℕ) :
    (encoded blk k env s).len = shardLen blk k :=
  encodeShard_len _ _ _ _ _ _

theorem flushShards_eq (blk : TxBlock) (crypto : CryptoCtx) (env : FlushEnv) {k n s : ℕ}
    (hs : s < n) : flushShards (filled blk k) k n crypto env s = wireShard blk k crypto env s := by
  have hencode : encodeBlock (filled blk k).pkts (filled blk k).pktLen k n env.rand env.shards s =
      encoded blk k env s := if_pos hs
  unfold flushShards
  dsimp only
  rw [hencode]
  by_cases hon : crypto.enabled = true
  · rw [if_pos ⟨hon, hs⟩]
    rfl
  · rw [if_neg fun h => hon h.1, wireShard, cryptoXor, if_neg hon]

section Filled

variable {blk : TxBlock} {packets : List TunPacket} {k : ℕ} (h : Holds blk packets)
include h

theorem filled_pktLen {j : ℕ} (hj : j < packets.length) :
    ((filled blk k).pktLen j).toNat = packets[j].bytes.length := by
  have hnot : ¬ (blk.pktCount ≤ j ∧ j < k) := by
    rw [h.count]
    omega
  rw [← h.lens j hj]
  exact congrArg UInt16.toNat (if_neg hnot)

theorem filled_pktLen_filler {j : ℕ} (hge : packets.length ≤ j) (hj : j < k) :
    (filled blk k).pktLen j = blk.pktLen 0 := by
  have hin : blk.pktCount ≤ j ∧ j < k := by
    rw [h.count]
    exact ⟨hge, hj⟩
  exact if_pos hin

theorem filled_pkts {j t : ℕ} (hj : j < packets.length) (ht : t < packets[j].bytes.length) :
    (filled blk k).pkts j t = arrayOf packets[j].bytes t := by
  have hnot : ¬ (blk.pktCount ≤ j ∧ j < k) := by
    rw [h.count]
    omega
  have hlens := h.lens j hj
  change (if blk.pktCount ≤ j ∧ j < k then _ else (padPackets blk).pkts j) t = _
  rw [if_neg hnot, ← h.data j hj t ht]
  unfold padPackets
  dsimp only
  split_ifs
  · rw [memset, if_neg (by omega)]
  · rfl

theorem filled_pkts_filler {j t : ℕ} (hge : packets.length ≤ j) (hj : j < k) (ht : t < maxPayload) :
    (filled blk k).pkts j t = 0 := by
  have hin : blk.pktCount ≤ j ∧ j < k := by
    rw [h.count]
    exact ⟨hge, hj⟩
  change (if blk.pktCount ≤ j ∧ j < k then memset ((padPackets blk).pkts j) 0 0 maxPayload
    else _) t = _
  rw [if_pos hin, memset, if_pos (by omega)]

theorem length_le_shardLen (hk : packets.length ≤ k) {j : ℕ} (hj : j < packets.length) :
    packets[j].bytes.length ≤ (shardLen blk k).toNat := by
  rw [← filled_pktLen h hj]
  exact srcLen_le_maxLen _ (by omega)

variable (hpos : packets ≠ [])
include hpos

theorem filled_pktLen_zero : blk.pktLen 0 = (filled blk k).pktLen 0 := by
  have hlen := List.length_pos_iff.mpr hpos
  have hnot : ¬ (blk.pktCount ≤ 0 ∧ 0 < k) := by
    rw [h.count]
    omega
  exact (if_neg hnot).symm

theorem shardLen_le : (shardLen blk k).toNat ≤ maxPayload := by
  have hlen := List.length_pos_iff.mpr hpos
  refine maxLen_le fun j hj => ?_
  rcases Nat.lt_or_ge j packets.length with hlt | hge
  · rw [filled_pktLen h hlt]
    exact packets[j].length_le
  · rw [filled_pktLen_filler h hge hj, filled_pktLen_zero h hpos (k := k),
      filled_pktLen h hlen]
    exact packets[0].length_le

variable (hk : packets.length ≤ k)
include hk

/-- The packets alone decide the common length: the slots filled up repeat the first one's. -/
theorem maxLen_eq_shardLen : maxLen blk.pktLen blk.pktCount = shardLen blk k := by
  have hlen := List.length_pos_iff.mpr hpos
  apply UInt16.toNat_inj.mp
  apply Nat.le_antisymm
  · refine maxLen_le fun j hj => ?_
    rw [h.count] at hj
    rw [h.lens j hj]
    exact length_le_shardLen h hk hj
  · refine maxLen_le fun j hj => ?_
    rcases Nat.lt_or_ge j packets.length with hlt | hge
    · rw [filled_pktLen h hlt, ← h.lens j hlt]
      exact srcLen_le_maxLen _ (by rw [h.count]; exact hlt)
    · rw [filled_pktLen_filler h hge hj]
      exact srcLen_le_maxLen _ (by rw [h.count]; exact hlen)

theorem zeroPadded_filled :
    ZeroPadded (filled blk k).pkts (filled blk k).pktLen k (shardLen blk k).toNat := by
  intro j hj t hge hlt
  have hmax := shardLen_le h hpos (k := k)
  rcases Nat.lt_or_ge j packets.length with hlt' | hge'
  · rw [filled_pktLen h hlt', ← h.lens j hlt'] at hge
    have hnot : ¬ (blk.pktCount ≤ j ∧ j < k) := by
      rw [h.count]
      omega
    have hshort : j < blk.pktCount ∧ blk.pktLen j < maxLen blk.pktLen blk.pktCount := by
      rw [maxLen_eq_shardLen h hpos hk, h.count, UInt16.lt_iff_toNat_lt]
      exact ⟨hlt', by omega⟩
    change (if blk.pktCount ≤ j ∧ j < k then _ else (padPackets blk).pkts j) t = _
    rw [if_neg hnot]
    unfold padPackets
    dsimp only
    rw [if_pos hshort, maxLen_eq_shardLen h hpos hk, memset, if_pos (by omega)]
  · exact filled_pkts_filler h hge' hj (hlt.trans_le hmax)

theorem isCombination_encoded (env : FlushEnv) (s : ℕ) :
    IsCombination k (shardLen blk k).toNat (filled blk k).pkts (encoded blk k env s) :=
  isCombination_encodeShard _ _ _ _ _ (zeroPadded_filled h hpos hk) s

end Filled

/-! ## The datagrams of a flush -/

theorem strategyComputeN_bounds (sctx : StrategyCtx) {k : ℕ} (hk : 1 ≤ k) (hmax : k ≤ maxN) :
    k ≤ (strategyComputeN sctx k).toNat ∧ (strategyComputeN sctx k).toNat ≤ maxN := by
  unfold strategyComputeN
  rw [if_neg (by omega)]
  dsimp only
  split_ifs <;> omega

/-- The datagram of shard `s` when the block is sent in `n` shards. -/
def datagram (blk : TxBlock) (k n : ℕ) (crypto : CryptoCtx) (env : FlushEnv) (s : ℕ) : List UInt8 :=
  shardDatagram blk.blockId (UInt8.ofNat s) (UInt8.ofNat k) (UInt8.ofNat n)
    (wireShard blk k crypto env s)

theorem txBlockFlush_of_pos {blk : TxBlock} (hpos : blk.pktCount ≠ 0) (tctx : TransportCtx)
    (sctx : StrategyCtx) (k : ℕ) (crypto : CryptoCtx) (metrics : Metrics) (env : FlushEnv) :
    (txBlockFlush blk tctx sctx k crypto metrics env).sent =
      ((List.range (strategyComputeN sctx k).toNat).foldl
        (sendStep tctx env k (strategyComputeN sctx k).toNat
          (flushShards (filled blk k) k (strategyComputeN sctx k).toNat crypto env))
        ⟨filled blk k, sctx, metrics, []⟩).sent := by
  rw [txBlockFlush, if_neg hpos]
  rfl

section Send

variable (tctx : TransportCtx) (env : FlushEnv) (k n : ℕ) (shards : ℕ → Shard)

theorem sendStep_sent (res : FlushResult) (i : ℕ) :
    (sendStep tctx env k n shards res i).blk = res.blk ∧
      ((sendStep tctx env k n shards res i).sent = res.sent ∨
        ∃ path, (sendStep tctx env k n shards res i).sent =
          res.sent ++ [(path, shardDatagram res.blk.blockId (UInt8.ofNat i) (UInt8.ofNat k)
            (UInt8.ofNat n) (shards i))]) := by
  unfold sendStep
  rcases strategyNextPath res.sctx with ⟨sctx, pick⟩
  cases pick with
  | none => exact ⟨rfl, Or.inl rfl⟩
  | some path =>
      dsimp only
      split_ifs
      · exact ⟨rfl, Or.inr ⟨path, rfl⟩⟩
      · exact ⟨rfl, Or.inl rfl⟩

theorem foldl_sendStep_sent (l : List ℕ) (res : FlushResult) :
    (l.foldl (sendStep tctx env k n shards) res).blk = res.blk ∧
      ∀ d ∈ (l.foldl (sendStep tctx env k n shards) res).sent, d ∈ res.sent ∨
        ∃ i ∈ l, d.2 = shardDatagram res.blk.blockId (UInt8.ofNat i) (UInt8.ofNat k)
          (UInt8.ofNat n) (shards i) := by
  induction l generalizing res with
  | nil => exact ⟨rfl, fun d hd => Or.inl hd⟩
  | cons i l ih =>
      obtain ⟨hblk, hsent⟩ := ih (sendStep tctx env k n shards res i)
      obtain ⟨hblk', hstep⟩ := sendStep_sent tctx env k n shards res i
      rw [hblk'] at hblk hsent
      refine ⟨hblk, fun d hd => ?_⟩
      rcases hsent d hd with hold | ⟨j, hj, hd⟩
      · rcases hstep with heq | ⟨path, heq⟩
        · rw [heq] at hold
          exact Or.inl hold
        · rw [heq] at hold
          rcases List.mem_append.mp hold with hold | hnew
          · exact Or.inl hold
          · rw [List.mem_singleton.mp hnew]
            exact Or.inr ⟨i, List.mem_cons_self, rfl⟩
      · exact Or.inr ⟨j, List.mem_cons_of_mem i hj, hd⟩

end Send

/-- Whatever the paths do, a flush sends datagrams of the block's shards only. -/
theorem mem_sent {blk : TxBlock} (hpos : blk.pktCount ≠ 0) {tctx : TransportCtx}
    {sctx : StrategyCtx} {k : ℕ} {crypto : CryptoCtx} {metrics : Metrics} {env : FlushEnv}
    {d : ℕ × List UInt8} (hd : d ∈ (txBlockFlush blk tctx sctx k crypto metrics env).sent) :
    ∃ s < (strategyComputeN sctx k).toNat,
      d.2 = datagram blk k (strategyComputeN sctx k).toNat crypto env s := by
  rw [txBlockFlush_of_pos hpos] at hd
  rcases (foldl_sendStep_sent _ _ _ _ _ _ _).2 d hd with hnil | ⟨s, hs, hd⟩
  · cases hnil
  · have hlt := List.mem_range.mp hs
    refine ⟨s, hlt, ?_⟩
    rw [hd, flushShards_eq blk crypto env hlt]
    rfl

/-! ## The schedule of a flush -/

/-- What leaves for shard `s` when the flush starts from `sctx`: its datagram on the path that
the scheduler picks after `s` calls, if there is one and its socket takes the datagram. -/
def carried (tctx : TransportCtx) (env : FlushEnv) (sctx : StrategyCtx)
    (datagrams : ℕ → List UInt8) (s : ℕ) : Option (ℕ × List UInt8) :=
  match (strategyNextPath (afterCalls sctx s)).2 with
  | none => none
  | some path => if sendBuf tctx path (env.accepted s) then some (path, datagrams s) else none

/-- After `m` turns the send loop has made `m` calls to the scheduler, whatever left. -/
theorem foldl_sendStep_eq (tctx : TransportCtx) (env : FlushEnv) (k n : ℕ) (shards : ℕ → Shard)
    (blk : TxBlock) (sctx : StrategyCtx) (metrics : Metrics) (m : ℕ) :
    ∃ metrics', (List.range m).foldl (sendStep tctx env k n shards) ⟨blk, sctx, metrics, []⟩ =
      ⟨blk, afterCalls sctx m, metrics', (List.range m).filterMap (carried tctx env sctx fun s =>
        shardDatagram blk.blockId (UInt8.ofNat s) (UInt8.ofNat k) (UInt8.ofNat n) (shards s))⟩ := by
  induction m with
  | zero => exact ⟨metrics, rfl⟩
  | succ m ih =>
      obtain ⟨metrics', hfold⟩ := ih
      rw [List.range_succ, List.foldl_append, hfold, List.foldl_cons, List.foldl_nil,
        List.filterMap_append, afterCalls_succ]
      have hlast : ∀ datagrams : ℕ → List UInt8,
          [m].filterMap (carried tctx env sctx datagrams) =
            (carried tctx env sctx datagrams m).toList := by
        intro datagrams
        cases hm : carried tctx env sctx datagrams m with
        | none => exact List.filterMap_cons_none hm
        | some d => exact List.filterMap_cons_some hm
      rw [hlast]
      unfold sendStep carried
      rcases strategyNextPath (afterCalls sctx m) with ⟨sctx', pick⟩
      cases pick with
      | none => exact ⟨metrics', by simp⟩
      | some path =>
          dsimp only
          split_ifs with hsend
          · exact ⟨_, rfl⟩
          · exact ⟨metrics', by simp⟩

theorem sent_eq_filterMap {blk : TxBlock} (hpos : blk.pktCount ≠ 0) (tctx : TransportCtx)
    (sctx : StrategyCtx) (k : ℕ) (crypto : CryptoCtx) (metrics : Metrics) (env : FlushEnv) :
    (txBlockFlush blk tctx sctx k crypto metrics env).sent =
      (List.range (strategyComputeN sctx k).toNat).filterMap (carried tctx env sctx
        (datagram blk k (strategyComputeN sctx k).toNat crypto env)) := by
  rw [txBlockFlush_of_pos hpos]
  generalize (strategyComputeN sctx k).toNat = n
  obtain ⟨metrics', hfold⟩ := foldl_sendStep_eq tctx env k n
    (flushShards (filled blk k) k n crypto env) (filled blk k) sctx metrics n
  rw [hfold]
  apply List.filterMap_congr
  intro s hs
  have hshard := flushShards_eq blk crypto env (k := k) (List.mem_range.mp hs)
  simp only [carried, datagram, hshard]
  rfl

theorem sctx_txBlockFlush {blk : TxBlock} (hpos : blk.pktCount ≠ 0) (tctx : TransportCtx)
    (sctx : StrategyCtx) (k : ℕ) (crypto : CryptoCtx) (metrics : Metrics) (env : FlushEnv) :
    (txBlockFlush blk tctx sctx k crypto metrics env).sctx =
      afterCalls sctx (strategyComputeN sctx k).toNat := by
  rw [txBlockFlush, if_neg hpos]
  generalize (strategyComputeN sctx k).toNat = n
  obtain ⟨metrics', hfold⟩ := foldl_sendStep_eq tctx env k n
    (flushShards (filled blk k) k n crypto env) (filled blk k) sctx metrics n
  exact congrArg FlushResult.sctx hfold

theorem carried_of_linkUp {tctx : TransportCtx} {sctx : StrategyCtx} (hup : LinkUp tctx sctx)
    {env : FlushEnv} (haccept : ∀ i, env.accepted i = true) (datagrams : ℕ → List UInt8) (s : ℕ) :
    ∃ path, (tctx.paths path).enabled = true ∧ 0 ≤ (tctx.paths path).fd ∧
      carried tctx env sctx datagrams s = some (path, datagrams s) := by
  have hup' := hup.congr (sameHealth_afterCalls sctx s)
  obtain ⟨j, hj, husable⟩ := hup'.usable
  obtain ⟨path, hpick, hpath⟩ := exists_of_strategyNextPath hj husable
  obtain ⟨henabled, hopen⟩ := hup'.sockets path hpath
  have hsend : sendBuf tctx path (env.accepted s) = true := by
    simp [sendBuf, henabled, haccept s, hopen]
  refine ⟨path, henabled, hopen, ?_⟩
  rw [carried, hpick]
  exact if_pos hsend

theorem sent_of_linkUp {blk : TxBlock} (hpos : blk.pktCount ≠ 0) {tctx : TransportCtx}
    {sctx : StrategyCtx} (hup : LinkUp tctx sctx) {env : FlushEnv}
    (haccept : ∀ i, env.accepted i = true) (k : ℕ) (crypto : CryptoCtx) (metrics : Metrics) :
    (txBlockFlush blk tctx sctx k crypto metrics env).sent.map Prod.snd =
      (List.range (strategyComputeN sctx k).toNat).map
        (datagram blk k (strategyComputeN sctx k).toNat crypto env) := by
  rw [sent_eq_filterMap hpos]
  generalize datagram blk k (strategyComputeN sctx k).toNat crypto env = datagrams
  induction List.range (strategyComputeN sctx k).toNat with
  | nil => rfl
  | cons s rest ih =>
      obtain ⟨path, _, _, hcarried⟩ := carried_of_linkUp hup haccept datagrams s
      rw [List.filterMap_cons_some hcarried, List.map_cons, List.map_cons, ih]

end CodingGateway.Proofs.Flush
