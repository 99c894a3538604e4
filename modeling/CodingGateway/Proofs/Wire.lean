import CodingGateway.Model.Transport
import Mathlib.Data.Nat.Bitwise
set_option autoImplicit false

/-!
# Datagrams survive the wire

`transport_recv` reads from a data datagram the header and the shard that
`transport_send_shard` put there, and it reads a data shard from no probe.

* `transportRecv_shardDatagram` — the shard that comes back is the one that was sent, in
  its first `k` coefficients and its first `len` bytes.
-/

namespace CodingGateway.Proofs.Wire

open CodingGateway.Model

/-! ## Byte order -/

theorem or_eq_add {x y w : ℕ} (hx : 2 ^ w ∣ x) (hy : y < 2 ^ w) : x ||| y = x + y := by
  obtain ⟨q, rfl⟩ := hx
  rw [Nat.mul_comm, ← Nat.shiftLeft_eq, Nat.shiftLeft_add_eq_or_of_lt hy]

theorem toNat_joinBe16 (x y : UInt8) :
    (x.toUInt16 <<< 8 ||| y.toUInt16).toNat = x.toNat * 256 + y.toNat := by
  have hx := x.toNat_lt
  have hy := y.toNat_lt
  simp only [UInt16.toNat_or, UInt16.toNat_shiftLeft, UInt8.toNat_toUInt16, UInt16.reduceToNat,
    Nat.reduceMod, Nat.shiftLeft_eq, Nat.reducePow]
  rw [Nat.mod_eq_of_lt (by omega), or_eq_add (w := 8) (by omega) (by omega)]

theorem join_be16 (v : UInt16) : (v >>> 8).toUInt8.toUInt16 <<< 8 ||| v.toUInt8.toUInt16 = v := by
  apply UInt16.toNat_inj.mp
  have hv := v.toNat_lt
  simp only [UInt16.toNat_or, UInt16.toNat_shiftLeft, UInt8.toNat_toUInt16, UInt16.toNat_toUInt8,
    UInt16.toNat_shiftRight, UInt16.reduceToNat, Nat.reduceMod, Nat.shiftLeft_eq,
    Nat.shiftRight_eq_div_pow]
  rw [or_eq_add (w := 8) (by omega) (by omega)]
  omega

theorem join_be32 (v : UInt32) :
    (v >>> 24).toUInt8.toUInt32 <<< 24 ||| (v >>> 16).toUInt8.toUInt32 <<< 16 |||
      (v >>> 8).toUInt8.toUInt32 <<< 8 ||| v.toUInt8.toUInt32 = v := by
  apply UInt32.toNat_inj.mp
  have hv := v.toNat_lt
  simp only [UInt32.toNat_or, UInt32.toNat_shiftLeft, UInt8.toNat_toUInt32, UInt32.toNat_toUInt8,
    UInt32.toNat_shiftRight, UInt32.reduceToNat, Nat.reduceMod, Nat.shiftLeft_eq,
    Nat.shiftRight_eq_div_pow, Nat.reducePow]
  generalize ha : v.toNat / 16777216 % 256 = a
  generalize hb : v.toNat / 65536 % 256 = b
  generalize hc : v.toNat / 256 % 256 = c
  generalize hd : v.toNat % 256 = d
  rw [Nat.mod_eq_of_lt (a := a * _) (by omega), Nat.mod_eq_of_lt (a := b * _) (by omega),
    Nat.mod_eq_of_lt (a := c * _) (by omega)]
  have h₁ : a * 16777216 ||| b * 65536 = a * 16777216 + b * 65536 :=
    or_eq_add (w := 24) (by omega) (by omega)
  have h₂ : (a * 16777216 + b * 65536) ||| c * 256 = a * 16777216 + b * 65536 + c * 256 :=
    or_eq_add (w := 16) (by omega) (by omega)
  rw [h₁, h₂, or_eq_add (w := 8) (by omega) (by omega)]
  omega

/-! ## Reading a datagram back -/

theorem arrayOf_append_left {as bs : List UInt8} {j : ℕ} (hj : j < as.length) :
    arrayOf (as ++ bs) j = arrayOf as j := by
  simp only [arrayOf, List.getD_eq_getElem?_getD, List.getElem?_append_left hj]

theorem arrayOf_append_right {as bs : List UInt8} (j : ℕ) :
    arrayOf (as ++ bs) (as.length + j) = arrayOf bs j := by
  simp only [arrayOf, List.getD_eq_getElem?_getD,
    List.getElem?_append_right (Nat.le_add_right as.length j), Nat.add_sub_cancel_left]

theorem arrayOf_prefixList (a : Bytes) {n j : ℕ} (hj : j < n) :
    arrayOf (prefixList a n) j = a j := by
  simp [arrayOf, prefixList, hj]

@[simp] theorem length_headerBytes (hdr : WireHeader) : (headerBytes hdr).length = wireHdrSize :=
  rfl

theorem parseHeader_headerBytes (hdr : WireHeader) (rest : List UInt8) :
    parseHeader (arrayOf (headerBytes hdr ++ rest)) = hdr := by
  obtain ⟨magic, version, type, blockId, shardIdx, k, n, reserved, payloadLen⟩ := hdr
  have hmagic := join_be16 magic
  have hblock := join_be32 blockId
  have hlen := join_be16 payloadLen
  simp only [parseHeader, WireHeader.mk.injEq]
  exact ⟨hmagic, rfl, rfl, hblock, rfl, rfl, rfl, rfl, hlen⟩

/-- The header of the datagram of `transport_send_shard`. -/
def dataHeader (blockId : UInt32) (shardIdx k n : UInt8) (len : UInt16) : WireHeader where
  magic := wireMagic
  version := wireVersion
  type := typeData
  blockId := blockId
  shardIdx := shardIdx
  k := k
  n := n
  reserved := 0
  payloadLen := len

/-- Two shards that agree in the first `k` coefficients and in the data. -/
structure SameShard (k : ℕ) (a b : Shard) : Prop where
  len : a.len = b.len
  coeffs : ∀ j < k, a.coeffs j = b.coeffs j
  data : ∀ t < b.len.toNat, a.data t = b.data t

theorem shardDatagram_eq (blockId : UInt32) (shardIdx k n : UInt8) (s : Shard) :
    shardDatagram blockId shardIdx k n s =
      headerBytes (dataHeader blockId shardIdx k n s.len) ++
        (prefixList s.coeffs k.toNat ++ prefixList s.data s.len.toNat) := by
  rw [← List.append_assoc]
  rfl

theorem transportRecv_shardDatagram (tctx : TransportCtx) (sender blockId : UInt32)
    (shardIdx k n : UInt8) (s shardOut : Shard) (hk : k.toNat ≤ maxK)
    (hlen : s.len.toNat ≤ maxPayload) :
    ∃ shard, SameShard k.toNat shard s ∧
      transportRecv tctx ⟨sender, shardDatagram blockId shardIdx k n s⟩ shardOut =
        .data (dataHeader blockId shardIdx k n s.len) shard (matchPath tctx sender) := by
  have hlength : (shardDatagram blockId shardIdx k n s).length =
      wireHdrSize + k.toNat + s.len.toNat := by
    simp [shardDatagram_eq, Nat.add_assoc]
  have htake : (shardDatagram blockId shardIdx k n s).take recvBufSize =
      shardDatagram blockId shardIdx k n s := by
    rw [List.take_of_length_le]
    rw [hlength, recvBufSize]
    omega
  have hparse : parseHeader (arrayOf (shardDatagram blockId shardIdx k n s)) =
      dataHeader blockId shardIdx k n s.len := by
    rw [shardDatagram_eq, parseHeader_headerBytes]
  have hcoeffs : ∀ j < k.toNat,
      arrayOf (shardDatagram blockId shardIdx k n s) (wireHdrSize + j) = s.coeffs j := by
    intro j hj
    rw [shardDatagram_eq, ← length_headerBytes (dataHeader blockId shardIdx k n s.len),
      arrayOf_append_right, arrayOf_append_left (by simpa using hj), arrayOf_prefixList _ hj]
  have hdata : ∀ t < s.len.toNat,
      arrayOf (shardDatagram blockId shardIdx k n s) (wireHdrSize + k.toNat + t) = s.data t := by
    intro t ht
    have hskip : arrayOf (prefixList s.coeffs k.toNat ++ prefixList s.data s.len.toNat)
        ((prefixList s.coeffs k.toNat).length + t) = arrayOf (prefixList s.data s.len.toNat) t :=
      arrayOf_append_right t
    rw [length_prefixList] at hskip
    rw [shardDatagram_eq, ← length_headerBytes (dataHeader blockId shardIdx k n s.len),
      Nat.add_assoc, arrayOf_append_right, hskip, arrayOf_prefixList _ ht]
  have hheader : ¬ wireHdrSize + k.toNat + s.len.toNat < wireHdrSize := by omega
  unfold transportRecv
  dsimp only
  rw [htake, hparse, hlength]
  simp only [dataHeader, if_neg hheader, ne_eq, not_true_eq_false, if_false, if_true,
    if_neg (Nat.not_lt.mpr hk), if_neg (Nat.not_lt.mpr hlen), Nat.lt_irrefl]
  refine ⟨_, ?_, rfl⟩
  refine ⟨rfl, fun j hj => ?_, fun t ht => ?_⟩
  · dsimp only
    rw [memcpy_of_lt _ _ hj, hcoeffs j hj]
  · dsimp only
    rw [memcpy_of_lt _ _ ht, hdata t ht]

/-! ## Data and probes -/

def isData (bytes : List UInt8) : Bool := arrayOf bytes 3 == typeData

theorem isData_shardDatagram (blockId : UInt32) (shardIdx k n : UInt8) (s : Shard) :
    isData (shardDatagram blockId shardIdx k n s) = true := rfl

theorem isData_probeDatagram {type : UInt8} (htype : type ≠ typeData) (ts : UInt64) :
    isData (probeDatagram type ts) = false := by
  have hbyte : arrayOf (probeDatagram type ts) 3 = type := rfl
  rw [isData, hbyte]
  exact beq_false_of_ne htype

theorem isData_of_transportRecv {tctx : TransportCtx} {dgram : Datagram} {shardOut shard : Shard}
    {hdr : WireHeader} {path : ℕ} (h : transportRecv tctx dgram shardOut = .data hdr shard path) :
    isData dgram.bytes = true := by
  have hbyte : (parseHeader (arrayOf (dgram.bytes.take recvBufSize))).type =
      arrayOf dgram.bytes 3 := by
    have htake : (dgram.bytes.take recvBufSize)[3]? = dgram.bytes[3]? :=
      List.getElem?_take_of_lt (by decide)
    change (dgram.bytes.take recvBufSize).getD 3 0 = dgram.bytes.getD 3 0
    rw [List.getD_eq_getElem?_getD, htake, List.getD_eq_getElem?_getD]
  unfold transportRecv at h
  dsimp only at h
  rw [hbyte] at h
  by_contra hnot
  have hne : ¬ arrayOf dgram.bytes 3 = typeData := fun heq => hnot (beq_iff_eq.mpr heq)
  rw [if_neg hne] at h
  split_ifs at h

end CodingGateway.Proofs.Wire
