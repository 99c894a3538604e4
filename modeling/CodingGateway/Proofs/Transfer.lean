import CodingGateway.Proofs.Cipher
import CodingGateway.Proofs.Completeness
import CodingGateway.Proofs.Flush
import CodingGateway.Proofs.Wire
set_option autoImplicit false

/-!
# From datagrams to packets

A datagram of a flushed block arrives as a data shard that the receiver stores as the
sender encoded it.  When a block with such shards only is decoded, the buffers written
are the packets that the sender put into the block.

* `exists_carries` — the datagram of a shard arrives as that shard.
* `restored_storeShard` — storing it undoes the encryption.
* `tunWrites_of_restored`, `drop_tunWrites_of_restored` — what is written for the block.
-/

namespace CodingGateway.Proofs.Transfer

open CodingGateway.Model
open CodingGateway.Proofs.Cipher
open CodingGateway.Proofs.Completeness
open CodingGateway.Proofs.Elimination
open CodingGateway.Proofs.Flush
open CodingGateway.Proofs.ReceiveLoop
open CodingGateway.Proofs.RoundTrip
open CodingGateway.Proofs.Window
open CodingGateway.Proofs.Wire

/-! ## The length of an IP packet -/

def ipVersion (bytes : List UInt8) : UInt8 := (arrayOf bytes 0 >>> 4) &&& 0x0F

/-- An IPv4 or IPv6 packet whose header gives its length. -/
def IsIpPacket (bytes : List UInt8) : Prop :=
  (20 ≤ bytes.length ∧ ipVersion bytes = 4 ∧
      (readBe16 (arrayOf bytes) 2).toNat = bytes.length) ∨
    (40 ≤ bytes.length ∧ ipVersion bytes = 6 ∧
      (readBe16 (arrayOf bytes) 4).toNat + 40 = bytes.length)

theorem readBe16_congr {a b : Bytes} {off : ℕ} (h₀ : a off = b off)
    (h₁ : a (off + 1) = b (off + 1)) : readBe16 a off = readBe16 b off := by
  rw [readBe16, readBe16, h₀, h₁]

theorem ipPacketLength_le (pkt : Bytes) (len : UInt16) : ipPacketLength pkt len ≤ len := by
  unfold ipPacketLength
  dsimp only
  split_ifs with h20 hv4 htotal hv6 htotal
  · exact htotal.2
  · exact UInt16.le_refl len
  · exact htotal.2
  · exact UInt16.le_refl len
  · exact UInt16.le_refl len
  · exact UInt16.le_refl len

theorem ipPacketLength_congr {pkt pkt' : Bytes} {len : UInt16}
    (h : ∀ t < len.toNat, pkt t = pkt' t) : ipPacketLength pkt len = ipPacketLength pkt' len := by
  unfold ipPacketLength readBe16
  by_cases h20 : 20 ≤ len
  · have hlen : 20 ≤ len.toNat := UInt16.le_iff_toNat_le.mp h20
    simp only [h 0 (by omega), h 2 (by omega), h 3 (by omega), h 4 (by omega), h 5 (by omega)]
  · rw [if_neg h20, if_neg h20]

theorem ipPacketLength_eq {bytes : List UInt8} {pkt : Bytes} {len : UInt16}
    (hip : IsIpPacket bytes) (hle : bytes.length ≤ len.toNat)
    (hpkt : ∀ t < bytes.length, pkt t = arrayOf bytes t) :
    (ipPacketLength pkt len).toNat = bytes.length := by
  have hversion (hlong : 20 ≤ bytes.length) : (pkt 0 >>> 4) &&& 0x0F = ipVersion bytes := by
    rw [hpkt 0 (by omega)]
    rfl
  have hlen : 20 ≤ bytes.length → (20 : UInt16) ≤ len := by
    intro hlong
    rw [UInt16.le_iff_toNat_le]
    exact hlong.trans hle
  rcases hip with ⟨hlong, hv, htotal⟩ | ⟨hlong, hv, htotal⟩
  · have hread : readBe16 pkt 2 = readBe16 (arrayOf bytes) 2 :=
      readBe16_congr (hpkt 2 (by omega)) (hpkt 3 (by omega))
    have hok : (20 : UInt16) ≤ readBe16 (arrayOf bytes) 2 ∧ readBe16 (arrayOf bytes) 2 ≤ len := by
      rw [UInt16.le_iff_toNat_le, UInt16.le_iff_toNat_le, htotal]
      exact ⟨hlong, hle⟩
    unfold ipPacketLength
    dsimp only
    rw [if_pos (hlen hlong), hversion hlong, if_pos hv, hread, if_pos hok, htotal]
  · have hread : readBe16 pkt 4 = readBe16 (arrayOf bytes) 4 :=
      readBe16_congr (hpkt 4 (by omega)) (hpkt 5 (by omega))
    have hsum : (readBe16 (arrayOf bytes) 4 + 40).toNat = bytes.length := by
      have hlt := len.toNat_lt
      have hforty : (40 : UInt16).toNat = 40 := rfl
      rw [UInt16.toNat_add, hforty, htotal, Nat.mod_eq_of_lt (by omega)]
    have hforty : (40 : UInt16) ≤ len := by
      rw [UInt16.le_iff_toNat_le]
      exact hlong.trans hle
    have hok : (40 : UInt16) ≤ readBe16 (arrayOf bytes) 4 + 40 ∧
        readBe16 (arrayOf bytes) 4 + 40 ≤ len := by
      rw [UInt16.le_iff_toNat_le, UInt16.le_iff_toNat_le, hsum]
      exact ⟨hlong, hle⟩
    have hnot : ipVersion bytes ≠ 4 := by
      rw [hv]
      decide
    unfold ipPacketLength
    dsimp only
    rw [if_pos (hlen (by omega)), hversion (by omega), if_neg hnot, if_pos ⟨hv, hforty⟩, hread,
      if_pos hok, hsum]

theorem ipPacketLength_zeros {pkt : Bytes} {len : UInt16} (h : ∀ t < len.toNat, pkt t = 0) :
    ipPacketLength pkt len = len := by
  rw [@ipPacketLength_congr pkt (fun _ => 0) len h]
  unfold ipPacketLength
  dsimp only
  split_ifs with h20 hv4 htotal hv6
  · exact absurd hv4 (by decide)
  · rfl
  · exact absurd hv6.1 (by decide)
  · rfl
  · rfl
  · rfl

/-! ## Arrival -/

/-- The arrival is shard `s` of the block. -/
structure Carries (blk : TxBlock) (k : ℕ) (crypto : CryptoCtx) (env : FlushEnv) (s : ℕ)
    (a : Arrival) : Prop where
  blockId : a.hdr.blockId = blk.blockId
  shardIdx : a.hdr.shardIdx.toNat = s
  blockSize : a.hdr.k.toNat = k
  shard : SameShard k a.shard (wireShard blk k crypto env s)

theorem exists_carries {blk : TxBlock} {k n s : ℕ} {crypto : CryptoCtx} {env : FlushEnv}
    (hk : k ≤ maxK) (hs : s < maxN) (hlen : (shardLen blk k).toNat ≤ maxPayload)
    (tctx : TransportCtx) {inp : RxInput}
    (hd : inp.dgram.bytes = datagram blk k n crypto env s) :
    ∃ a, arrivalOf tctx inp = some a ∧ Carries blk k crypto env s a ∧ a.garbage = inp.garbage ∧
      a.insertUs = inp.insertUs ∧ a.advanceUs = inp.advanceUs := by
  have hk' : (UInt8.ofNat k).toNat = k := by
    rw [UInt8.toNat_ofNat', Nat.mod_eq_of_lt]
    unfold maxK at hk
    omega
  have hs' : (UInt8.ofNat s).toNat = s := by
    rw [UInt8.toNat_ofNat', Nat.mod_eq_of_lt]
    unfold maxN at hs
    omega
  have hwire : (wireShard blk k crypto env s).len.toNat ≤ maxPayload := by
    change (encoded blk k env s).len.toNat ≤ maxPayload
    rw [encoded_len]
    exact hlen
  obtain ⟨shard, hsame, hrecv⟩ := transportRecv_shardDatagram tctx inp.dgram.sender blk.blockId
    (UInt8.ofNat s) (UInt8.ofNat k) (UInt8.ofNat n) (wireShard blk k crypto env s)
    inp.garbage.shardIn (by rw [hk']; exact hk) hwire
  rw [hk'] at hsame
  have hdgram : inp.dgram = ⟨inp.dgram.sender, shardDatagram blk.blockId (UInt8.ofNat s)
      (UInt8.ofNat k) (UInt8.ofNat n) (wireShard blk k crypto env s)⟩ := by
    change inp.dgram.bytes = shardDatagram .. at hd
    rw [← hd]
  rw [← hdgram] at hrecv
  refine ⟨⟨dataHeader blk.blockId (UInt8.ofNat s) (UInt8.ofNat k) (UInt8.ofNat n)
    (wireShard blk k crypto env s).len, shard, inp.garbage, inp.insertUs, inp.advanceUs⟩, ?_,
    ⟨rfl, hs', hk', hsame⟩, rfl, rfl, rfl⟩
  rw [arrivalOf, hrecv]

/-! ## Storage -/

/-- Every shard that was received of the block is the one that the sender encoded. -/
def Restored (blk : TxBlock) (k : ℕ) (env : FlushEnv) (rb : RxBlock) : Prop :=
  ∀ s, rb.received s = true → SameShard k (rb.shards s) (encoded blk k env s)

theorem restored_zeroBlock (blk : TxBlock) (k : ℕ) (env : FlushEnv) (id : UInt32) :
    Restored blk k env { zeroBlock with blockId := id } := by
  intro s hs
  cases hs

theorem restored_storeShard {blk : TxBlock} {k s : ℕ} {crypto : CryptoCtx} {env : FlushEnv}
    {a : Arrival} {rb : RxBlock} (h : Restored blk k env rb)
    (hcarry : Carries blk k crypto env s a) :
    Restored blk k env (storeShard rb a.hdr a.shard crypto a.insertUs) := by
  intro t ht
  by_cases hts : t = s
  · subst hts
    have hwire : ∀ j < (encoded blk k env t).len.toNat, a.shard.data j =
        cryptoXor crypto (encoded blk k env t).data (encoded blk k env t).len.toNat
          (shardNonce blk.blockId t) j := fun j hj => hcarry.shard.data j hj
    have hlen : a.shard.len = (encoded blk k env t).len := hcarry.shard.len
    have hplain := cryptoXor_restores crypto hwire
    unfold storeShard
    dsimp only
    rw [hcarry.shardIdx, Function.update_self, hcarry.blockId, hlen]
    by_cases hon : crypto.enabled = true
    · rw [if_pos hon]
      exact ⟨rfl, hcarry.shard.coeffs, hplain⟩
    · rw [if_neg hon]
      refine ⟨hlen, hcarry.shard.coeffs, fun j hj => ?_⟩
      rw [← hplain j hj, cryptoXor, if_neg hon]
  · have hne : t ≠ a.hdr.shardIdx.toNat := by
      rw [hcarry.shardIdx]
      exact hts
    have hold : rb.received t = true := by
      have hupdate : (storeShard rb a.hdr a.shard crypto a.insertUs).received t = rb.received t :=
        Function.update_of_ne hne ..
      rw [← hupdate]
      exact ht
    have hupdate : (storeShard rb a.hdr a.shard crypto a.insertUs).shards t = rb.shards t :=
      Function.update_of_ne hne ..
    rw [hupdate]
    exact h t hold

/-! ## Decoding -/

theorem coeffRow_congr {k : ℕ} {a b : Shard} (h : SameShard k a b) :
    coeffRow k a = coeffRow k b := by
  funext j
  rw [coeffRow, coeffRow, h.coeffs j j.isLt]

theorem isCombination_congr {k len : ℕ} {src : ℕ → Bytes} {a b : Shard} (h : SameShard k a b)
    (hlen : b.len.toNat = len) (hb : IsCombination k len src b) : IsCombination k len src a := by
  have hdata : dataRow len a.data = dataRow len b.data := by
    funext t
    rw [dataRow, dataRow, h.data t (by rw [hlen]; exact t.isLt)]
  unfold IsCombination at hb ⊢
  rw [coeffRow_congr h, hdata]
  exact hb

@[simp] theorem length_tunWrites (o : DecodeOut) (k : ℕ) : (tunWrites o k).length = k := by
  simp [tunWrites]

/-- What is written for the slots that a block of the sender leaves empty. -/
def fillers (k : ℕ) (blk : TxBlock) : List (List UInt8) :=
  List.replicate (k - blk.pktCount)
    (List.replicate (maxLen blk.pktLen blk.pktCount).toNat 0)

section Restored

variable {blk : TxBlock} {packets : List TunPacket} {k : ℕ} {env : FlushEnv} {rb : RxBlock}
  {garbage : StackGarbage} {o : DecodeOut} (hholds : Holds blk packets) (hpos : packets ≠ [])
  (hk : packets.length ≤ k) (hcount : Counted rb) (hrestored : Restored blk k env rb)
  (hdec : Decodes rb k garbage o)
include hholds hpos hk hcount hrestored hdec

theorem out_of_restored :
    ∀ i < k, o.outLen i = shardLen blk k ∧
      ∀ t < (shardLen blk k).toNat, o.out i t = (filled blk k).pkts i t := by
  have henough : k ≤ (receivedIndices rb).length := by
    have hrecv : rb.recvCount = (receivedIndices rb).length := hcount.count
    rw [← hrecv]
    exact hdec.enough
  have hsame : ∀ i < k, SameShard k (kShards rb k i) (encoded blk k env (lowestReceived rb i)) := by
    intro i hi
    rw [kShards_eq hi henough]
    exact hrestored _ ((mem_receivedIndices hcount).mp (lowestReceived_mem (by omega)))
  have hlens : ∀ i < k, (kShards rb k i).len = shardLen blk k := fun i hi =>
    (hsame i hi).len.trans (encoded_len ..)
  have hcomb : ∀ i < k, IsCombination k (shardLen blk k).toNat (filled blk k).pkts
      (kShards rb k i) := fun i hi => isCombination_congr (hsame i hi) (by rw [encoded_len])
    (isCombination_encoded hholds hpos hk env _)
  exact out_eq_of_decodeBlock hlens (shardLen_le hholds hpos) hcomb hdec.solved

theorem packet_of_restored {j : ℕ} (hj : j < packets.length) :
    ∀ t < packets[j].bytes.length, o.out j t = arrayOf packets[j].bytes t := by
  intro t ht
  have hle := length_le_shardLen hholds hk hj
  rw [(out_of_restored hholds hpos hk hcount hrestored hdec j (by omega)).2 t (by omega)]
  exact filled_pkts hholds hj ht

/-- What is written for a block whose shards are the sender's: one buffer for each of its `k`
slots, and the packets first. -/
theorem tunWrites_of_restored (hip : ∀ pkt ∈ packets, IsIpPacket pkt.bytes) :
    (tunWrites o k).take packets.length = packets.map TunPacket.bytes := by
  apply List.ext_getElem
  · rw [List.length_take, length_tunWrites, List.length_map]
    omega
  · intro j hj hj'
    rw [List.length_map] at hj'
    have hlen := (out_of_restored hholds hpos hk hcount hrestored hdec j (by omega)).1
    have hpacket := packet_of_restored hholds hpos hk hcount hrestored hdec hj'
    rw [List.getElem_take, List.getElem_map]
    simp only [tunWrites, List.getElem_map, List.getElem_range]
    rw [hlen, ipPacketLength_eq (hip _ (List.getElem_mem hj')) (length_le_shardLen hholds hk hj')
      hpacket, prefixList_congr hpacket, prefixList_arrayOf]

theorem drop_tunWrites_of_restored :
    (tunWrites o k).drop packets.length = fillers k blk := by
  have hmax := shardLen_le hholds hpos (k := k)
  have hcount' : blk.pktCount = packets.length := hholds.count
  rw [fillers, maxLen_eq_shardLen hholds hpos hk, hcount']
  apply List.ext_getElem
  · rw [List.length_drop, length_tunWrites, List.length_replicate]
  · intro j hj hj'
    rw [List.length_replicate] at hj'
    have hslot : packets.length + j < k := by omega
    obtain ⟨hlen, hout⟩ :=
      out_of_restored hholds hpos hk hcount hrestored hdec (packets.length + j) hslot
    have hzero : ∀ t < (shardLen blk k).toNat, o.out (packets.length + j) t = 0 := fun t ht => by
      rw [hout t ht]
      exact filled_pkts_filler hholds (Nat.le_add_right _ _) hslot (ht.trans_le hmax)
    rw [List.getElem_drop, List.getElem_replicate]
    simp only [tunWrites, List.getElem_map, List.getElem_range]
    rw [hlen, ipPacketLength_zeros hzero, prefixList_congr (b := fun _ => 0) hzero]
    rw [prefixList, List.map_const', List.length_range]

end Restored

end CodingGateway.Proofs.Transfer
