import CodingGateway.Model.CheckedRx
import CodingGateway.Proofs.Configuration
import CodingGateway.Proofs.EventLoop
import CodingGateway.Proofs.Transfer
import CodingGateway.Proofs.WireFormat
set_option autoImplicit false

/-!
# Array accesses of the receive path

The functions of the receive path with checked accesses have a value, and it is that of
the functions without checks: no access is out of bounds.

* `checkedTransportRecv_eq`, `checkedInsert_eq`, `checkedDecodeBlock_eq`,
  `checkedWindowTryDecode_eq` — one function each;
* `checkedMainStep_of_run` — every turn of the event loop after a configuration was loaded.
-/

namespace CodingGateway.Proofs.IndexSafety

open CodingGateway.Library
open CodingGateway.Library.BoundedArray
open CodingGateway.Model
open CodingGateway.Proofs.Configuration
open CodingGateway.Proofs.Elimination (eliminateRow_dlen)
open CodingGateway.Proofs.EventLoop
open CodingGateway.Proofs.ReceiveLoop
open CodingGateway.Proofs.Transfer
open CodingGateway.Proofs.WireFormat

theorem checkedMemcpy_of_le {α : Type*} {dstSize srcSize n : ℕ} (hdst : n ≤ dstSize)
    (hsrc : n ≤ srcSize) (dst src : ℕ → α) :
    checkedMemcpy dstSize dst srcSize src n = some (memcpy dst src n) := if_pos ⟨hdst, hsrc⟩

theorem load2_of_lt {α : Type*} {rows cols i j : ℕ} (hi : i < rows) (hj : j < cols)
    (a : ℕ → ℕ → α) : load2 rows cols a i j = some (a i j) := by
  unfold load2
  rw [load_of_lt hi]
  exact load_of_lt hj

/-! ## `transport_recv` -/

section Receive

variable {ctx : TransportCtx}

theorem checkedMatchPath_eq (hctx : ctx.pathCount ≤ maxPaths) (sender : UInt32) :
    checkedMatchPath ctx sender = some (matchPath ctx sender) := by
  have hsearch : search (fun i => do
      let path ← load maxPaths ctx.paths i
      some (path.enabled && path.remoteAddr == sender)) (List.range ctx.pathCount) =
      some ((List.range ctx.pathCount).find? fun i =>
        (ctx.paths i).enabled && (ctx.paths i).remoteAddr == sender) := by
    apply search_eq
    intro i hi
    rw [load_of_lt ((List.mem_range.mp hi).trans_le hctx)]
    rfl
  unfold checkedMatchPath
  rw [hsearch]
  rfl

theorem matchPath_lt (hctx : ctx.pathCount ≤ maxPaths) (sender : UInt32) :
    matchPath ctx sender < maxPaths := by
  unfold matchPath
  cases hfind : (List.range ctx.pathCount).find? fun i =>
      (ctx.paths i).enabled && (ctx.paths i).remoteAddr == sender with
  | none => decide
  | some i => exact (List.mem_range.mp (List.mem_of_find?_eq_some hfind)).trans_le hctx

theorem checkedTransportRecv_eq (hctx : ctx.pathCount ≤ maxPaths) (dgram : Datagram)
    (shardOut : Shard) :
    checkedTransportRecv ctx dgram shardOut = some (transportRecv ctx dgram shardOut) := by
  unfold checkedTransportRecv transportRecv
  dsimp only
  generalize hbuf : arrayOf (dgram.bytes.take recvBufSize) = buf
  generalize (dgram.bytes.take recvBufSize).length = n
  by_cases hshort : n < wireHdrSize
  · rw [if_pos hshort, if_pos hshort]
  rw [if_neg hshort, if_neg hshort, slice_of_le (by omega), checkedMatchPath_eq hctx]
  have hraw : (fun j => buf (0 + j)) = buf := by
    funext j
    rw [Nat.zero_add]
  simp only [Option.bind_eq_bind, Option.bind_some, hraw]
  generalize parseHeader buf = hdr
  by_cases hmagic : hdr.magic = wireMagic
  · rw [if_neg (not_not.mpr hmagic), if_neg (not_not.mpr hmagic)]
    by_cases hdata : hdr.type = typeData
    · rw [if_pos hdata, if_pos hdata]
      by_cases hk : maxK < hdr.k.toNat
      · rw [if_pos hk, if_pos hk]
      by_cases hlen : maxPayload < hdr.payloadLen.toNat
      · rw [if_neg hk, if_neg hk, if_pos hlen, if_pos hlen]
      by_cases hcut : n < wireHdrSize + hdr.k.toNat + hdr.payloadLen.toNat
      · rw [if_neg hk, if_neg hk, if_neg hlen, if_neg hlen, if_pos hcut, if_pos hcut]
      -- the three checks bound the four accesses
      rw [if_neg hk, if_neg hk, if_neg hlen, if_neg hlen, if_neg hcut, if_neg hcut,
        slice_of_le (by omega : wireHdrSize + hdr.k.toNat ≤ n),
        slice_of_le (Nat.not_lt.mp hcut)]
      simp only [Option.bind_some, checkedMemcpy_of_le (Nat.not_lt.mp hk) le_rfl,
        checkedMemcpy_of_le (Nat.not_lt.mp hlen) le_rfl]
    · rw [if_neg hdata, if_neg hdata]
      by_cases hprobe : hdr.type = typeProbe ∨ hdr.type = typeProbeEcho
      · rw [if_pos hprobe, if_pos hprobe]
        by_cases hcut : n < wireHdrSize + 8
        · rw [if_pos hcut, if_pos hcut]
        rw [if_neg hcut, if_neg hcut, slice_of_le (by omega : wireHdrSize + 4 ≤ n),
          slice_of_le (by omega : wireHdrSize + 4 + 4 ≤ n)]
        rfl
      · rw [if_neg hprobe, if_neg hprobe]
  · rw [if_pos hmagic, if_pos hmagic]

/-- What `transport_recv` has checked of a data shard. -/
theorem bounds_of_data {dgram : Datagram} {shardOut shard : Shard} {hdr : WireHeader} {path : ℕ}
    (h : transportRecv ctx dgram shardOut = .data hdr shard path) :
    hdr.k.toNat ≤ maxK ∧ shard.len.toNat ≤ maxPayload ∧ path = matchPath ctx dgram.sender := by
  rcases transportRecv_cases ctx dgram shardOut with
    ⟨hdata, hrecv⟩ | ⟨_, hrecv⟩ | ⟨_, hrecv⟩ | hrecv
  · rw [hrecv] at h
    cases h
    exact ⟨hdata.k, hdata.payloadLen, rfl⟩
  · cases hrecv.symm.trans h
  · cases hrecv.symm.trans h
  · cases hrecv.symm.trans h

theorem path_of_probe {dgram : Datagram} {shardOut : Shard} {ts : UInt64} {path : ℕ}
    (h : transportRecv ctx dgram shardOut = .probe ts path ∨
      transportRecv ctx dgram shardOut = .probeEcho ts path) :
    path = matchPath ctx dgram.sender := by
  rcases transportRecv_cases ctx dgram shardOut with
    ⟨_, hrecv⟩ | ⟨_, hrecv⟩ | ⟨_, hrecv⟩ | hrecv
  · rw [hrecv] at h
    rcases h with h | h
    · cases h
    · cases h
  · rw [hrecv] at h
    rcases h with h | h
    · cases h
      rfl
    · cases h
  · rw [hrecv] at h
    rcases h with h | h
    · cases h
    · cases h
      rfl
  · rw [hrecv] at h
    rcases h with h | h
    · cases h
    · cases h

end Receive

/-! ## `crypto_xor` -/

section Crypto

theorem checkedXorByte_eq {i : ℕ} (hi : i < maxPayload) (data : Bytes) (byte : UInt8) :
    checkedXorByte data i byte = some (xorByte data i byte) := by
  unfold checkedXorByte
  rw [load_of_lt hi]
  exact store_of_lt hi _

theorem checkedXorWord_eq {i : ℕ} (hi : i + 8 ≤ maxPayload) (data : Bytes) (ks : UInt64) :
    checkedXorWord data i ks = some (xorWord data i ks) := by
  have hlt (j : ℕ) (hj : j < 8) : i + j < maxPayload := by omega
  simp only [checkedXorWord, checkedXorByte_eq (by omega : i < maxPayload),
    checkedXorByte_eq (hlt 1 (by decide)), checkedXorByte_eq (hlt 2 (by decide)),
    checkedXorByte_eq (hlt 3 (by decide)), checkedXorByte_eq (hlt 4 (by decide)),
    checkedXorByte_eq (hlt 5 (by decide)), checkedXorByte_eq (hlt 6 (by decide)),
    checkedXorByte_eq (hlt 7 (by decide)), Option.bind_eq_bind, Option.bind_some]
  rfl

theorem checkedSeed_eq (key : ℕ → UInt8) (nonce : UInt64) :
    checkedSeed key nonce = some (seedFromKeyNonce key nonce) := by
  have hturn (i : ℕ) (hi : i < cryptoKeyLen) (s : UInt64) :
      checkedMixKey key s i = some ((s ^^^ (key i).toUInt64) * fnvPrime) := by
    unfold checkedMixKey
    rw [load_of_lt hi]
    rfl
  unfold checkedSeed
  rw [forRange_eq_foldl _ hturn]
  rfl

theorem checkedXorWords_eq {words : ℕ} (hwords : 8 * words ≤ maxPayload) (data : Bytes)
    (state : UInt64) : checkedXorWords data state words = some (xorWords data state words) := by
  apply forRange_eq_foldl
  rintro w hw ⟨data, state⟩
  simp only [checkedXorNext, checkedXorWord_eq (by omega : 8 * w + 8 ≤ maxPayload)]
  rfl

theorem checkedXorTail_eq {i rest : ℕ} (hrest : i + rest ≤ maxPayload) (data : Bytes)
    (ks : UInt64) : checkedXorTail data i ks rest = some (xorTail data i ks rest) := by
  apply forRange_eq_foldl
  intro j hj data
  exact checkedXorByte_eq (by omega) data _

theorem checkedCryptoXor_eq {len : ℕ} (hlen : len ≤ maxPayload) (ctx : CryptoCtx) (data : Bytes)
    (nonce : UInt64) :
    checkedCryptoXor ctx data len nonce = some (cryptoXor ctx data len nonce) := by
  unfold checkedCryptoXor cryptoXor
  by_cases hon : ctx.enabled = true
  · rw [if_pos hon, if_pos hon, checkedSeed_eq]
    simp only [Option.bind_eq_bind, Option.bind_some,
      checkedXorWords_eq (by omega : 8 * (len / 8) ≤ maxPayload)]
    by_cases hrest : 8 * (len / 8) < len
    · rw [if_pos hrest, if_pos hrest, checkedXorTail_eq (by omega)]
    · rw [if_neg hrest, if_neg hrest]
  · rw [if_neg hon, if_neg hon]

end Crypto

/-! ## `rx_window_insert` -/

section Insert

variable {win : RxWindow} {W : ℕ}

theorem checkedRxFind_eq (hW : W ≤ maxWindow) (win : RxWindow) (blockId : UInt32) :
    checkedRxFind win blockId W = some (rxFind win blockId W) := by
  have hload (i : ℕ) (hi : i ∈ List.range W) : load maxWindow win.slots i = some (win.slots i) :=
    load_of_lt ((List.mem_range.mp hi).trans_le hW)
  have hheld : search (fun i => do
      let slot ← load maxWindow win.slots i
      some (decide (0 < slot.recvCount) && slot.blockId == blockId)) (List.range W) =
      some ((List.range W).find? fun i =>
        decide (0 < (win.slots i).recvCount) && (win.slots i).blockId == blockId) := by
    apply search_eq
    intro i hi
    rw [hload i hi]
    rfl
  have hfree : search (fun i => do
      let slot ← load maxWindow win.slots i
      some (slot.recvCount == 0)) (List.range W) =
      some ((List.range W).find? fun i => (win.slots i).recvCount == 0) := by
    apply search_eq
    intro i hi
    rw [hload i hi]
    rfl
  simp only [Option.bind_eq_bind] at hheld hfree
  unfold checkedRxFind rxFind
  simp only [Option.bind_eq_bind]
  split_ifs
  · rfl
  · rfl
  · rw [hheld, Option.bind_some]
    cases (List.range W).find? fun i =>
        decide (0 < (win.slots i).recvCount) && (win.slots i).blockId == blockId with
    | some i => rfl
    | none =>
        simp only [hfree, Option.bind_some]
        cases hfind : (List.range W).find? fun i => (win.slots i).recvCount == 0 with
        | none => rfl
        | some i =>
            have hlt : i < maxWindow :=
              (List.mem_range.mp (List.mem_of_find?_eq_some hfind)).trans_le hW
            simp only [store_of_lt hlt, Option.bind_some]
            rfl

theorem slot_lt_of_rxFind {win' : RxWindow} {blockId : UInt32} {i : ℕ}
    (h : rxFind win blockId W = (win', some i)) : i < W := by
  unfold rxFind at h
  split_ifs at h with hbehind hbeyond
  · cases h
  · cases h
  · cases hheld : (List.range W).find? fun i =>
        decide (0 < (win.slots i).recvCount) && (win.slots i).blockId == blockId with
    | some j =>
        rw [hheld] at h
        cases h
        exact List.mem_range.mp (List.mem_of_find?_eq_some hheld)
    | none =>
        cases hfree : (List.range W).find? fun i => (win.slots i).recvCount == 0 with
        | some j =>
            rw [hheld, hfree] at h
            cases h
            exact List.mem_range.mp (List.mem_of_find?_eq_some hfree)
        | none =>
            rw [hheld, hfree] at h
            cases h

theorem checkedStoreShard_eq {hdr : WireHeader} {s : Shard}
    (hidx : hdr.shardIdx.toNat < maxN) (hlen : s.len.toNat ≤ maxPayload) (blk : RxBlock)
    (crypto : CryptoCtx) (nowUs : UInt64) :
    checkedStoreShard blk hdr s crypto nowUs = some (storeShard blk hdr s crypto nowUs) := by
  unfold checkedStoreShard storeShard
  by_cases hon : crypto.enabled = true
  · simp only [hon, if_true, store_of_lt hidx, load_of_lt hidx, Function.update_self,
      Function.update_idem, checkedCryptoXor_eq hlen, Option.bind_eq_bind, Option.bind_some]
  · simp only [hon, store_of_lt hidx, Option.bind_eq_bind, Option.bind_some]
    rfl

theorem checkedInsert_eq (hW : W ≤ maxWindow) {s : Shard} (hlen : s.len.toNat ≤ maxPayload)
    (hdr : WireHeader) (crypto : CryptoCtx) (nowUs : UInt64) :
    checkedInsert win hdr s W crypto nowUs = some (rxWindowInsert win hdr s W crypto nowUs) := by
  unfold checkedInsert rxWindowInsert
  rw [checkedRxFind_eq hW]
  rcases hfind : rxFind win hdr.blockId W with ⟨w, found⟩
  cases found with
  | none => rfl
  | some i =>
      have hi : i < maxWindow := (slot_lt_of_rxFind hfind).trans_le hW
      simp only [Option.bind_eq_bind, Option.bind_some, load_of_lt hi]
      by_cases hdecoded : (w.slots i).decoded = true
      · rw [if_pos hdecoded, if_pos hdecoded]
      by_cases hidx : maxN ≤ hdr.shardIdx.toNat
      · rw [if_neg hdecoded, if_neg hdecoded, if_pos hidx, if_pos hidx]
      have hlt := Nat.not_le.mp hidx
      rw [if_neg hdecoded, if_neg hdecoded, if_neg hidx, if_neg hidx, load_of_lt hlt,
        Option.bind_some]
      by_cases hreceived : (w.slots i).received hdr.shardIdx.toNat = true
      · rw [if_pos hreceived, if_pos hreceived]
      · simp only [if_neg hreceived, checkedStoreShard_eq hlt hlen, store_of_lt hi,
          Option.bind_some]
        rfl

end Insert

/-! ## `decode_block` -/

section Decode

variable {k : ℕ} {st : DecodeState}

/-- No row is longer than the arrays that hold it. -/
def FitsRows (k : ℕ) (st : DecodeState) : Prop := ∀ i < k, (st.dlen i).toNat ≤ maxPayload

theorem checkedLoadShards_eq (hk : k ≤ maxK) (st : DecodeState) {shards : ℕ → Shard}
    (hlens : ∀ i < k, (shards i).len.toNat ≤ maxPayload) :
    checkedLoadShards st shards k = some (loadShards st shards k) := by
  -- after `i` turns the first `i` rows are loaded
  have hloop := forRange_eq_some (n := k) (checkedLoadShard shards k) fun i =>
    { mat := upTo i (fun j => memcpy (st.mat j) (shards j).coeffs k) st.mat
      dat := upTo i (fun j => memcpy (st.dat j) (shards j).data (shards j).len.toNat) st.dat
      dlen := upTo i (fun j => (shards j).len) st.dlen : DecodeState }
  simp only [upTo_zero] at hloop
  apply hloop
  intro i hi
  have hlt := hi.trans_le hk
  simp only [checkedLoadShard, load_of_lt hlt, store_of_lt hlt, checkedMemcpy_of_le hk hk,
    checkedMemcpy_of_le (hlens i hi) (hlens i hi), upTo_self, ← update_upTo,
    Option.bind_eq_bind, Option.bind_some]

theorem checkedFindPivot_eq (hk : k ≤ maxK) {col : ℕ} (hcol : col < k) :
    checkedFindPivot st k col = some (findPivot st k col) := by
  apply search_eq
  intro row hrow
  have hlt : row < k := by
    have hmem := List.mem_range'_1.mp hrow
    omega
  rw [load2_of_lt (hlt.trans_le hk) (hcol.trans_le hk)]
  rfl

theorem checkedSwapRows_eq (hk : k ≤ maxK) {col pivot : ℕ} (hcol : col < k) (hpivot : pivot < k) :
    checkedSwapRows st k col pivot = some (swapRows st k col pivot) := by
  have hc := hcol.trans_le hk
  have hp := hpivot.trans_le hk
  unfold checkedSwapRows swapRows
  split_ifs with heq
  · rfl
  · simp only [load_of_lt hc, load_of_lt hp, store_of_lt hc, store_of_lt hp,
      checkedMemcpy_of_le hk hk, checkedMemcpy_of_le (le_refl maxPayload) le_rfl,
      Option.bind_eq_bind, Option.bind_some]

theorem checkedScale_eq {size n : ℕ} (hn : n ≤ size) (a : ℕ → UInt8) (c : UInt8) :
    checkedScale size a c n = some fun j => if j < n then gf256Mul c (a j) else a j := by
  apply forRange_update (g := fun _ x => gf256Mul c x)
  intro i hi b hb
  rw [load_of_lt (hi.trans_le hn), hb]
  exact store_of_lt (hi.trans_le hn) _

theorem checkedAxpy_eq {size n : ℕ} (hn : n ≤ size) (dst : ℕ → UInt8) (c : UInt8)
    (src : ℕ → UInt8) : checkedAxpy size dst c src n = some (gfVecAxpy dst c src n) := by
  apply forRange_update (g := fun j x => x ^^^ gf256Mul c (src j))
  intro i hi b hb
  rw [load_of_lt (hi.trans_le hn), load_of_lt (hi.trans_le hn), hb]
  exact store_of_lt (hi.trans_le hn) _

theorem checkedScaleRow_eq (hk : k ≤ maxK) (hfits : FitsRows k st) {col : ℕ} (hcol : col < k) :
    checkedScaleRow st k col = some (scaleRow st k col) := by
  have hc := hcol.trans_le hk
  simp only [checkedScaleRow, scaleRow, load_of_lt hc, store_of_lt hc, checkedScale_eq hk,
    checkedScale_eq (hfits col hcol), Option.bind_eq_bind, Option.bind_some]

theorem checkedEliminateRow_eq (hk : k ≤ maxK) (hfits : FitsRows k st) {col row : ℕ}
    (hcol : col < k) (hrow : row < k) :
    checkedEliminateRow k col st row = some (eliminateRow k col st row) := by
  have hc := hcol.trans_le hk
  have hr := hrow.trans_le hk
  have hlen : (if st.dlen col < st.dlen row then st.dlen row else st.dlen col).toNat ≤
      maxPayload := by
    split_ifs
    · exact hfits row hrow
    · exact hfits col hcol
  unfold checkedEliminateRow eliminateRow
  by_cases hself : row = col
  · rw [if_pos hself, if_pos (Or.inl hself)]
  rw [if_neg hself, load2_of_lt hr hc]
  simp only [Option.bind_eq_bind, Option.bind_some]
  by_cases hzero : st.mat row col = 0
  · rw [if_pos hzero, if_pos (Or.inr hzero)]
  · rw [if_neg hzero, if_neg (by simp [hself, hzero])]
    simp only [load_of_lt hc, load_of_lt hr, store_of_lt hr, checkedAxpy_eq hk,
      checkedAxpy_eq hlen, Option.bind_some]

theorem fitsRows_swapRows (hfits : FitsRows k st) {col pivot : ℕ} (hcol : col < k)
    (hpivot : pivot < k) : FitsRows k (swapRows st k col pivot) := by
  intro i hi
  unfold swapRows
  split_ifs with heq
  · exact hfits i hi
  · simp only [Function.update_apply]
    split_ifs
    · exact hfits col hcol
    · exact hfits pivot hpivot
    · exact hfits i hi

theorem fitsRows_eliminateRow (hfits : FitsRows k st) (col row : ℕ) :
    FitsRows k (eliminateRow k col st row) := by
  intro i hi
  rw [eliminateRow_dlen]
  exact hfits i hi

theorem checkedEliminateRows_eq (hk : k ≤ maxK) (hfits : FitsRows k st) {col : ℕ}
    (hcol : col < k) :
    forRange k st (checkedEliminateRow k col) =
        some ((List.range k).foldl (eliminateRow k col) st) ∧
      FitsRows k ((List.range k).foldl (eliminateRow k col) st) := by
  apply forRange_eq (fun _ => FitsRows k) hfits
  intro row hrow st hst
  exact ⟨checkedEliminateRow_eq hk hst hcol hrow, fitsRows_eliminateRow hst col row⟩

theorem checkedEliminateColumn_eq (hk : k ≤ maxK) (hfits : FitsRows k st) {col : ℕ}
    (hcol : col < k) :
    checkedEliminateColumn k st col = some (eliminateColumn k st col) ∧
      ∀ st', eliminateColumn k st col = some st' → FitsRows k st' := by
  unfold checkedEliminateColumn eliminateColumn
  rw [checkedFindPivot_eq hk hcol]
  cases hpivot : findPivot st k col with
  | none => exact ⟨rfl, fun st' h => by cases h⟩
  | some pivot =>
      have hp : pivot < k := by
        have hmem := List.mem_range'_1.mp (List.mem_of_find?_eq_some hpivot)
        omega
      have hswap := fitsRows_swapRows hfits hcol hp
      have hscale : FitsRows k (scaleRow (swapRows st k col pivot) k col) := hswap
      have hrows := checkedEliminateRows_eq hk hscale hcol
      refine ⟨?_, fun st' h => ?_⟩
      · simp only [checkedSwapRows_eq hk hcol hp, checkedScaleRow_eq hk hswap hcol, hrows.1,
          Option.bind_eq_bind, Option.bind_some]
      · cases h
        exact hrows.2

theorem checkedEliminate_eq (hk : k ≤ maxK) (hfits : FitsRows k st) :
    checkedEliminate k st = some ((List.range k).foldlM (eliminateColumn k) st) ∧
      ∀ st', (List.range k).foldlM (eliminateColumn k) st = some st' → FitsRows k st' := by
  rw [← foldl_bind_eq_foldlM]
  apply forRange_eq (fun _ o => ∀ st', o = some st' → FitsRows k st') fun st' h => by
    cases h
    exact hfits
  intro col hcol o ho
  cases o with
  | none => exact ⟨rfl, fun st' h => by cases h⟩
  | some st => exact checkedEliminateColumn_eq hk (ho st rfl) hcol

theorem checkedCopyOut_eq (hk : k ≤ maxK) (hfits : FitsRows k st) (res : DecodeOut) :
    forRange k res (checkedCopyOut st) =
      some
        { out := fun i =>
            if i < k then memcpy (res.out i) (st.dat i) (st.dlen i).toNat else res.out i
          outLen := fun i => if i < k then st.dlen i else res.outLen i } := by
  have hloop := forRange_eq_some (n := k) (checkedCopyOut st) fun i =>
    { out := upTo i (fun j => memcpy (res.out j) (st.dat j) (st.dlen j).toNat) res.out
      outLen := upTo i st.dlen res.outLen : DecodeOut }
  simp only [upTo_zero] at hloop
  apply hloop
  intro i hi
  have hlt := hi.trans_le hk
  simp only [checkedCopyOut, load_of_lt hlt, store_of_lt hlt,
    checkedMemcpy_of_le (hfits i hi) (hfits i hi), upTo_self, ← update_upTo,
    Option.bind_eq_bind, Option.bind_some]

theorem checkedDecodeBlock_eq (hk : k ≤ maxK) {shards : ℕ → Shard}
    (hlens : ∀ i < k, (shards i).len.toNat ≤ maxPayload) (locals : DecodeState)
    (res : DecodeOut) :
    checkedDecodeBlock locals res shards k = some (decodeBlock locals res shards k) ∧
      ∀ o, decodeBlock locals res shards k = some o → ∀ i < k, (o.outLen i).toNat ≤ maxPayload := by
  have hload : FitsRows k (loadShards locals shards k) := by
    intro i hi
    simp only [loadShards, if_pos hi]
    exact hlens i hi
  obtain ⟨helim, hfits⟩ := checkedEliminate_eq hk hload
  unfold checkedDecodeBlock decodeBlock
  simp only [checkedLoadShards_eq hk locals hlens, helim, Option.bind_eq_bind, Option.bind_some]
  cases hrun : (List.range k).foldlM (eliminateColumn k) (loadShards locals shards k) with
  | none => exact ⟨rfl, fun o h => by cases h⟩
  | some st =>
      have hst := hfits st hrun
      simp only [checkedCopyOut_eq hk hst, Option.bind_some]
      refine ⟨rfl, fun o h i hi => ?_⟩
      cases h
      simp only [if_pos hi]
      exact hst i hi

end Decode

/-! ## `rx_window_try_decode` -/

section TryDecode

variable {blk : RxBlock} {k W : ℕ}

/-- Every stored shard fits the array it is stored in. -/
def FitsShards (blk : RxBlock) : Prop := ∀ s, (blk.shards s).len.toNat ≤ maxPayload

theorem fitsShards_zeroBlock (id : UInt32) : FitsShards { zeroBlock with blockId := id } :=
  fun _ => Nat.zero_le _

theorem checkedIpPacketLength_eq (pkt : Bytes) (paddedLen : UInt16) :
    checkedIpPacketLength pkt paddedLen = some (ipPacketLength pkt paddedLen) := by
  have h0 : 0 < maxPayload := by decide
  have h2 : 2 + 2 ≤ maxPayload := by decide
  have h4 : 4 + 2 ≤ maxPayload := by decide
  unfold checkedIpPacketLength ipPacketLength
  by_cases h20 : 20 ≤ paddedLen
  · have hread (off : ℕ) : readBe16 (fun j => pkt (off + j)) 0 = readBe16 pkt off := rfl
    rw [if_pos h20, if_pos h20, load_of_lt h0, slice_of_le h2, slice_of_le h4]
    simp only [Option.bind_eq_bind, Option.bind_some, hread]
    split_ifs <;> rfl
  · rw [if_neg h20, if_neg h20]

theorem checkedTunWrite_eq {len : ℕ} (hlen : len ≤ maxPayload) (pkt : Bytes) :
    checkedTunWrite pkt len = some (prefixList pkt len) := by
  have hpkt : (fun j => pkt (0 + j)) = pkt := by
    funext j
    rw [Nat.zero_add]
  unfold checkedTunWrite
  rw [slice_of_le (by omega), hpkt]
  rfl

theorem checkedWritePacket_eq (hk : k ≤ maxK) {o : DecodeOut} {i : ℕ} (hi : i < k)
    (hlen : (o.outLen i).toNat ≤ maxPayload) :
    checkedWritePacket o i =
      some (prefixList (o.out i) (ipPacketLength (o.out i) (o.outLen i)).toNat) := by
  have hlt := hi.trans_le hk
  have hle := UInt16.le_iff_toNat_le.mp (ipPacketLength_le (o.out i) (o.outLen i))
  simp only [checkedWritePacket, load_of_lt hlt, checkedIpPacketLength_eq, Option.bind_eq_bind,
    Option.bind_some]
  exact checkedTunWrite_eq (hle.trans hlen) (o.out i)

/-- The indices collected from the first `n` ones. -/
def collected (blk : RxBlock) (k n : ℕ) : List ℕ := ((List.range n).filter blk.received).take k

/-- The array that holds the shards of the given indices. -/
def shardsAt (blk : RxBlock) (l : List ℕ) : ℕ → Shard := fun i =>
  match l[i]? with
  | some idx => blk.shards idx
  | none => ⟨fun _ => 0, fun _ => 0, 0⟩

theorem shardsAt_concat (blk : RxBlock) (l : List ℕ) (idx : ℕ) :
    shardsAt blk (l ++ [idx]) = Function.update (shardsAt blk l) l.length (blk.shards idx) := by
  funext i
  unfold shardsAt
  rw [Function.update_apply]
  by_cases hi : i = l.length
  · rw [if_pos hi, hi, List.getElem?_concat_length]
  · rw [if_neg hi]
    rcases Nat.lt_or_gt_of_ne hi with hlt | hgt
    · rw [List.getElem?_append_left hlt]
    · rw [List.getElem?_eq_none (by simp; omega), List.getElem?_eq_none (by omega)]

theorem collected_succ (blk : RxBlock) (k n : ℕ) :
    collected blk k (n + 1) =
      if (collected blk k n).length < k ∧ blk.received n = true then collected blk k n ++ [n]
      else collected blk k n := by
  unfold collected
  rw [List.range_succ, List.filter_append, List.filter_singleton, List.length_take]
  generalize (List.range n).filter blk.received = l
  by_cases hreceived : blk.received n = true
  · rw [hreceived, cond_true]
    by_cases hroom : l.length < k
    · rw [if_pos ⟨by omega, rfl⟩, List.take_of_length_le (by simp; omega),
        List.take_of_length_le (by omega)]
    · rw [if_neg (by omega), List.take_append_of_le_length (by omega)]
  · rw [if_neg fun h => hreceived h.2, Bool.eq_false_iff.mpr hreceived, cond_false,
      List.append_nil]

theorem checkedCollectNext_eq (hk : k ≤ maxK) (blk : RxBlock) {n : ℕ} (hn : n < maxN) :
    checkedCollectNext blk k (shardsAt blk (collected blk k n), (collected blk k n).length) n =
      some (shardsAt blk (collected blk k (n + 1)), (collected blk k (n + 1)).length) := by
  unfold checkedCollectNext
  rw [collected_succ, load_of_lt hn, load_of_lt hn]
  simp only [Option.bind_eq_bind, Option.bind_some]
  by_cases hroom : (collected blk k n).length < k
  · by_cases hreceived : blk.received n = true
    · rw [if_pos hroom, if_pos hreceived, if_pos ⟨hroom, hreceived⟩,
        store_of_lt (hroom.trans_le hk), shardsAt_concat, List.length_append]
      rfl
    · rw [if_pos hroom, if_neg hreceived, if_neg fun h => hreceived h.2]
  · rw [if_neg hroom, if_neg fun h => hroom h.1]

theorem checkedCollect_eq (hk : k ≤ maxK) (blk : RxBlock) :
    checkedCollect blk k = some (kShards blk k, (collectShards blk k).length) := by
  have hloop := forRange_eq_some (n := maxN) (checkedCollectNext blk k)
    (fun n => (shardsAt blk (collected blk k n), (collected blk k n).length))
    fun n hn => checkedCollectNext_eq hk blk hn
  have hstart : collected blk k 0 = [] := List.take_nil
  rw [hstart] at hloop
  exact hloop

theorem len_kShards_le (hfits : FitsShards blk) (k i : ℕ) :
    (kShards blk k i).len.toNat ≤ maxPayload := by
  unfold kShards
  cases (collectShards blk k)[i]? with
  | none => exact Nat.zero_le _
  | some idx => exact hfits idx

theorem checkedTryDecode_eq (hk : k ≤ maxK) (hfits : FitsShards blk) (garbage : StackGarbage) :
    checkedTryDecode blk k garbage = some (tryDecode blk k garbage) := by
  unfold checkedTryDecode tryDecode
  by_cases hdecoded : blk.decoded = true
  · rw [if_pos hdecoded, if_pos hdecoded]
  by_cases hfew : blk.recvCount < k
  · rw [if_neg hdecoded, if_neg hdecoded, if_pos hfew, if_pos hfew]
  obtain ⟨hdecode, hlens⟩ := checkedDecodeBlock_eq hk (fun i _ => len_kShards_le hfits k i)
    garbage.locals garbage.out
  simp only [if_neg hdecoded, if_neg hfew, checkedCollect_eq hk, hdecode, Option.bind_eq_bind,
    Option.bind_some]
  cases hdec : decodeBlock garbage.locals garbage.out (kShards blk k) k with
  | none => rfl
  | some o =>
      have hwrites : (List.range k).mapM (checkedWritePacket o) = some ((List.range k).map fun i =>
          prefixList (o.out i) (ipPacketLength (o.out i) (o.outLen i)).toNat) := by
        apply mapM_eq
        intro i hi
        have hik := List.mem_range.mp hi
        exact checkedWritePacket_eq hk hik (hlens o hdec i hik)
      simp only [hwrites, Option.bind_some]

end TryDecode

/-! ## What the window holds -/

section Window

variable {win win' : RxWindow} {k W : ℕ}

def FitsWindow (win : RxWindow) : Prop := ∀ i, FitsShards (win.slots i)

theorem fitsWindow_setSlot (h : FitsWindow win) {blk : RxBlock} (hblk : FitsShards blk) (i : ℕ) :
    FitsWindow (win.setSlot i blk) := by
  intro j
  by_cases hj : j = i
  · subst hj
    simpa [RxWindow.setSlot] using hblk
  · simpa [RxWindow.setSlot, hj] using h j

theorem fitsWindow_rxFind (h : FitsWindow win) (id : UInt32) (W : ℕ) :
    FitsWindow (rxFind win id W).1 := by
  unfold rxFind
  split_ifs
  · exact h
  · exact h
  · cases (List.range W).find? fun i =>
        decide (0 < (win.slots i).recvCount) && (win.slots i).blockId == id with
    | some i => exact h
    | none =>
        cases (List.range W).find? fun i => (win.slots i).recvCount == 0 with
        | some i => exact fitsWindow_setSlot h (fitsShards_zeroBlock id) i
        | none => exact h

theorem fitsShards_storeShard {blk : RxBlock} (h : FitsShards blk) {s : Shard}
    (hlen : s.len.toNat ≤ maxPayload) (hdr : WireHeader) (crypto : CryptoCtx) (nowUs : UInt64) :
    FitsShards (storeShard blk hdr s crypto nowUs) := by
  intro t
  by_cases ht : t = hdr.shardIdx.toNat
  · subst ht
    simp only [storeShard, Function.update_self]
    split_ifs
    · exact hlen
    · exact hlen
  · simp only [storeShard, Function.update_of_ne ht]
    exact h t

theorem fitsWindow_insert (h : FitsWindow win) {s : Shard} (hlen : s.len.toNat ≤ maxPayload)
    (hdr : WireHeader) (crypto : CryptoCtx) (nowUs : UInt64) :
    FitsWindow (rxWindowInsert win hdr s W crypto nowUs) := by
  have hfound := fitsWindow_rxFind h hdr.blockId W
  unfold rxWindowInsert
  rcases hfind : rxFind win hdr.blockId W with ⟨w, found⟩
  rw [hfind] at hfound
  cases found with
  | none => exact hfound
  | some i =>
      dsimp only
      split_ifs
      · exact hfound
      · exact hfound
      · exact hfound
      · exact fitsWindow_setSlot hfound (fitsShards_storeShard (hfound i) hlen hdr crypto nowUs) i

theorem fitsShards_tryDecode {blk : RxBlock} (h : FitsShards blk) (k : ℕ)
    (garbage : StackGarbage) : FitsShards (tryDecode blk k garbage).1 := by
  unfold tryDecode
  split_ifs
  · exact h
  · exact h
  · cases decodeBlock garbage.locals garbage.out (kShards blk k) k <;> exact h

theorem fitsWindow_tryDecode (h : FitsWindow win) (id : UInt32) (k : ℕ)
    (garbage : StackGarbage) : FitsWindow (rxWindowTryDecode win id k W garbage).1 := by
  have hfound := fitsWindow_rxFind h id W
  unfold rxWindowTryDecode
  rcases hfind : rxFind win id W with ⟨w, found⟩
  rw [hfind] at hfound
  cases found with
  | none => exact hfound
  | some i => exact fitsWindow_setSlot hfound (fitsShards_tryDecode (hfound i) k garbage) i

theorem fitsWindow_advancePass (h : FitsWindow win) (nowUs : UInt64) :
    FitsWindow (advancePass win W nowUs).1 := by
  unfold advancePass
  cases baseSlot win W with
  | none =>
      dsimp only
      split_ifs
      · exact h
      · exact h
  | some i =>
      dsimp only
      split_ifs
      · exact fitsWindow_setSlot h (fitsShards_zeroBlock 0) i
      · exact h
      · exact h

theorem fitsWindow_advanceLoop {nowUs : ℕ → UInt64} {fuel pass moves : ℕ} (h : FitsWindow win)
    (hloop : advanceLoop W nowUs fuel pass win = some (win', moves)) : FitsWindow win' := by
  induction fuel generalizing win pass with
  | zero => cases hloop
  | succ fuel ih =>
      have hpass := fitsWindow_advancePass (W := W) h (nowUs pass)
      unfold advanceLoop at hloop
      rcases hstep : advancePass win W (nowUs pass) with ⟨w, moved⟩
      rw [hstep] at hloop hpass
      cases moved with
      | true => exact ih hpass hloop
      | false =>
          cases hloop
          exact hpass

theorem checkedWindowTryDecode_eq (hW : W ≤ maxWindow) (hk : k ≤ maxK) (hfits : FitsWindow win)
    (id : UInt32) (garbage : StackGarbage) :
    checkedWindowTryDecode win id k W garbage =
      some (rxWindowTryDecode win id k W garbage) := by
  have hfound := fitsWindow_rxFind hfits id W
  unfold checkedWindowTryDecode rxWindowTryDecode
  rw [checkedRxFind_eq hW]
  rcases hfind : rxFind win id W with ⟨w, found⟩
  rw [hfind] at hfound
  cases found with
  | none => rfl
  | some i =>
      have hi : i < maxWindow := (slot_lt_of_rxFind hfind).trans_le hW
      simp only [load_of_lt hi, checkedTryDecode_eq hk (hfound i), store_of_lt hi,
        Option.bind_eq_bind, Option.bind_some]
      rfl

theorem fitsWindow_rxStep {fuel : ℕ} {crypto : CryptoCtx} {a : Arrival} {out : RxOutput}
    (h : FitsWindow win) (hlen : a.shard.len.toNat ≤ maxPayload)
    (hstep : rxStep fuel W crypto win a = some (win', out)) : FitsWindow win' := by
  have hinsert := fitsWindow_insert (W := W) h hlen a.hdr crypto a.insertUs
  have hdecode := fitsWindow_tryDecode (W := W) hinsert a.hdr.blockId a.hdr.k.toNat a.garbage
  exact fitsWindow_advanceLoop hdecode (rxStep_eq_some.mp hstep).1

end Window

/-! ## The event loop -/

variable {fuel : ℕ} {st st' : MainState}

/-- What the accesses of the receive path rest on. -/
structure SafeState (st : MainState) : Prop where
  windowSize : st.cfg.windowSize.toNat ≤ maxWindow
  pathCount : st.tctx.pathCount ≤ maxPaths
  window : FitsWindow st.rxWin

theorem SafeState.of_sameSetup (h : SafeState st) (hsame : SameSetup st st')
    (hwin : FitsWindow st'.rxWin) : SafeState st' where
  windowSize := by
    rw [hsame.windowSize]
    exact h.windowSize
  pathCount := by
    rw [hsame.tctx]
    exact h.pathCount
  window := hwin

theorem checkedBump_eq {path : ℕ} (h : path < maxPaths) (counter : ℕ → UInt64) :
    checkedBump counter path = some (bump counter path) := by
  unfold checkedBump
  rw [load_of_lt h]
  exact store_of_lt h _

theorem checkedMainRx_eq (h : SafeState st) (fuel : ℕ) (inp : MainInput) :
    checkedMainRx fuel st inp = some (mainRx fuel st inp) := by
  unfold checkedMainRx mainRx
  cases inp.arrival with
  | none => rfl
  | some r =>
      have hpath := matchPath_lt h.pathCount r.dgram.sender
      simp only [checkedTransportRecv_eq h.pathCount, Option.bind_eq_bind, Option.bind_some]
      cases hrecv : transportRecv st.tctx r.dgram r.garbage.shardIn with
      | error => rfl
      | data hdr shard path =>
          obtain ⟨hk, hlen, rfl⟩ := bounds_of_data hrecv
          dsimp only
          split_ifs
          · have hinsert := fitsWindow_insert (W := st.cfg.windowSize.toNat) h.window hlen hdr
              st.crypto r.insertUs
            simp only [checkedBump_eq hpath, checkedInsert_eq h.windowSize hlen,
              checkedWindowTryDecode_eq h.windowSize hk hinsert, Option.bind_some, rxStep]
            rcases rxWindowTryDecode (rxWindowInsert st.rxWin hdr shard st.cfg.windowSize.toNat
              st.crypto r.insertUs) hdr.blockId hdr.k.toNat st.cfg.windowSize.toNat r.garbage
              with ⟨win, ok, writes⟩
            dsimp only
            cases rxWindowAdvance fuel win st.cfg.windowSize.toNat r.advanceUs with
            | none => rfl
            | some q => cases ok <;> rfl
          · rfl
      | probe ts path =>
          obtain rfl := path_of_probe (Or.inl hrecv)
          simp only [load_of_lt hpath, Option.bind_some]
      | probeEcho ts path =>
          obtain rfl := path_of_probe (Or.inr hrecv)
          dsimp only
          split_ifs
          · simp only [load_of_lt hpath, Option.bind_some]
          · rfl

theorem checkedMainStep_eq (h : SafeState st) (fuel : ℕ) (inp : MainInput) :
    checkedMainStep fuel st inp = some (mainStep fuel st inp) := by
  unfold checkedMainStep mainStep
  cases inp.reload with
  | some newCfg => rfl
  | none =>
      dsimp only
      split_ifs with hselect
      · rfl
      · have hread := sameSetup_mainRead st inp
        have htimeout := sameSetup_mainTimeout (mainRead st inp).1 inp
        have hsafe : SafeState (mainTimeout (mainRead st inp).1 inp).1 := by
          apply h.of_sameSetup (hread.1.trans htimeout.1)
          rw [htimeout.2, hread.2]
          exact h.window
        rw [checkedMainRx_eq hsafe]
        cases mainRx fuel (mainTimeout (mainRead st inp).1 inp).1 inp <;> rfl

theorem len_of_feed {inp : MainInput} {a : Arrival} (h : feed st inp = some a) :
    a.shard.len.toNat ≤ maxPayload := by
  unfold feed shardRead at h
  split_ifs at h
  obtain ⟨r, _, hr⟩ := Option.bind_eq_some_iff.mp h
  unfold arrivalOf at hr
  cases hrecv : transportRecv st.tctx r.dgram r.garbage.shardIn with
  | data hdr shard path =>
      rw [hrecv] at hr
      cases hr
      exact (bounds_of_data hrecv).2.1
  | error =>
      rw [hrecv] at hr
      cases hr
  | probe ts path =>
      rw [hrecv] at hr
      cases hr
  | probeEcho ts path =>
      rw [hrecv] at hr
      cases hr

theorem safeState_mainStep (h : SafeState st) {inp : MainInput} {out : MainOutput}
    (hstep : mainStep fuel st inp = some (st', out)) : SafeState st' := by
  obtain ⟨hsame, ⟨_, hwin, _⟩ | ⟨a, o, hfeed, _, hrx⟩⟩ := mainStep_window hstep
  · apply h.of_sameSetup hsame
    rw [hwin]
    exact h.window
  · apply h.of_sameSetup hsame
    exact fitsWindow_rxStep h.window (len_of_feed hfeed) hrx

theorem safeState_mainInit {num : NumberParser} {file : Option (List UInt8)}
    {cfg : GatewayConfig} (hload : configLoad num file = some cfg) {env : SocketEnv}
    {tctx : TransportCtx} (hopen : transportInit env cfg = some tctx) (crypto : CryptoCtx)
    (now : Timeval) : SafeState (mainInit cfg tctx crypto now) := by
  have hbounds := bounds_of_configLoad hload
  have hpaths : tctx.pathCount = cfg.pathCount := by
    unfold transportInit at hopen
    split_ifs at hopen
    cases hopen
    rfl
  refine ⟨?_, ?_, fun i => fitsShards_zeroBlock 0⟩
  · have hwindow := hbounds.windowSize.2
    change cfg.windowSize.toNat ≤ maxWindow
    omega
  · change tctx.pathCount ≤ maxPaths
    rw [hpaths]
    exact hbounds.pathCount

/-- In every state that the program reaches, a turn makes no access out of bounds. -/
theorem checkedMainStep_of_run {num : NumberParser} {file : Option (List UInt8)}
    {cfg : GatewayConfig} (hload : configLoad num file = some cfg) {env : SocketEnv}
    {tctx : TransportCtx} (hopen : transportInit env cfg = some tctx) {crypto : CryptoCtx}
    {now : Timeval} {inputs : List MainInput} {outs : List MainOutput}
    (hrun : mainRun fuel (mainInit cfg tctx crypto now) inputs = some (st, outs))
    (inp : MainInput) :
    checkedMainStep fuel st inp = some (mainStep fuel st inp) := by
  have hsafe : SafeState st :=
    Machine.run_induction (P := fun _ st _ => SafeState st)
      (safeState_mainInit hload hopen crypto now)
      (fun _ _ _ _ _ _ _ h hstep => safeState_mainStep h hstep) hrun
  exact checkedMainStep_eq hsafe fuel inp

def receiverFile : List UInt8 := chars "[general]\nmode=rx\n"

/-- The largest shard there is, in the last slot of its block. -/
def largestShard : MainInput :=
  { quietTurn with
    arrival := some ⟨⟨0, shardDatagram 0 31 16 32 ⟨fun _ => 1, fun _ => 0, 1400⟩⟩, zeroStack, 0,
      fun _ => 0⟩ }

theorem checkedMainStep_of_run_largest :
    ∃ cfg tctx st outs,
      configLoad ⟨fun _ => 0, fun _ => 0⟩ (some receiverFile) = some cfg ∧
      transportInit ⟨true, fun _ => 3, fun _ => none⟩ cfg = some tctx ∧
      mainRun 2 (mainInit cfg tctx (cryptoInit none) ⟨0, 0⟩) [quietTurn] = some (st, outs) ∧
      checkedMainStep 2 st largestShard = some (mainStep 2 st largestShard) := by
  have hload : ∃ cfg, configLoad ⟨fun _ => 0, fun _ => 0⟩ (some receiverFile) = some cfg := ⟨_, rfl⟩
  obtain ⟨cfg, hload⟩ := hload
  have hopen : ∃ tctx, transportInit ⟨true, fun _ => 3, fun _ => none⟩ cfg = some tctx := ⟨_, rfl⟩
  obtain ⟨tctx, hopen⟩ := hopen
  have hrun : ∃ st outs, mainRun 2 (mainInit cfg tctx (cryptoInit none) ⟨0, 0⟩) [quietTurn] =
      some (st, outs) := ⟨_, _, rfl⟩
  obtain ⟨st, outs, hrun⟩ := hrun
  exact ⟨cfg, tctx, st, outs, hload, hopen, hrun,
    checkedMainStep_of_run hload hopen hrun largestShard⟩

end CodingGateway.Proofs.IndexSafety
