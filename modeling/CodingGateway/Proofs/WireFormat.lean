import CodingGateway.Proofs.Wire
set_option autoImplicit false

/-!
# The wire format

* `transportRecv_sent` — what the senders put on the wire comes back whole.
* `acceptsOnlyFormat_iff` — which datagrams the parser takes though no sender makes them.
-/

namespace CodingGateway.Proofs.WireFormat

open CodingGateway.Model
open CodingGateway.Proofs.Wire

/-! ## Timestamps -/

theorem join_be64 (v : UInt64) :
    (v >>> 32).toUInt32.toUInt64 <<< 32 ||| v.toUInt32.toUInt64 = v := by
  apply UInt64.toNat_inj.mp
  have hv := v.toNat_lt
  simp only [UInt64.toNat_or, UInt64.toNat_shiftLeft, UInt32.toNat_toUInt64, UInt64.toNat_toUInt32,
    UInt64.toNat_shiftRight, UInt64.reduceToNat, Nat.reduceMod, Nat.shiftLeft_eq,
    Nat.shiftRight_eq_div_pow]
  rw [or_eq_add (w := 32) (by omega) (by omega)]
  omega

theorem readBe32_append (a b : List UInt8) (v : UInt32) :
    readBe32 (arrayOf (a ++ be32 v ++ b)) a.length = v := by
  have hread (j : ℕ) (hj : j < 4) :
      arrayOf (a ++ be32 v ++ b) (a.length + j) = arrayOf (be32 v) j := by
    rw [List.append_assoc, arrayOf_append_right, arrayOf_append_left hj]
  have hzero := hread 0 (by decide)
  rw [Nat.add_zero] at hzero
  unfold readBe32
  rw [hzero, hread 1 (by decide), hread 2 (by decide), hread 3 (by decide)]
  exact join_be32 v

theorem readBe32_probe (hdr : List UInt8) (ts : UInt64) :
    ((readBe32 (arrayOf (hdr ++ be32 (ts >>> 32).toUInt32 ++ be32 ts.toUInt32)) hdr.length).toUInt64
        <<< 32) |||
      (readBe32 (arrayOf (hdr ++ be32 (ts >>> 32).toUInt32 ++ be32 ts.toUInt32))
        (hdr.length + 4)).toUInt64 = ts := by
  have hhi := readBe32_append hdr (be32 ts.toUInt32) (ts >>> 32).toUInt32
  have hlo := readBe32_append (hdr ++ be32 (ts >>> 32).toUInt32) [] ts.toUInt32
  rw [List.append_nil, List.length_append, show (be32 (ts >>> 32).toUInt32).length = 4 from rfl]
    at hlo
  rw [hhi, hlo]
  exact join_be64 ts

/-! ## Splitting what was joined -/

theorem split_be16 (x y : UInt8) :
    be16 (x.toUInt16 <<< 8 ||| y.toUInt16) = [x, y] := by
  have hx := x.toNat_lt
  have hy := y.toNat_lt
  have hjoin := toNat_joinBe16 x y
  have hhigh : ((x.toUInt16 <<< 8 ||| y.toUInt16) >>> 8).toUInt8 = x := by
    apply UInt8.toNat_inj.mp
    simp only [UInt16.toNat_toUInt8, UInt16.toNat_shiftRight, hjoin, UInt16.reduceToNat,
      Nat.reduceMod, Nat.shiftRight_eq_div_pow]
    omega
  have hlow : (x.toUInt16 <<< 8 ||| y.toUInt16).toUInt8 = y := by
    apply UInt8.toNat_inj.mp
    rw [UInt16.toNat_toUInt8, hjoin]
    omega
  rw [be16, hhigh, hlow]

theorem split_be32 (x y z w : UInt8) :
    be32 (x.toUInt32 <<< 24 ||| y.toUInt32 <<< 16 ||| z.toUInt32 <<< 8 ||| w.toUInt32) =
      [x, y, z, w] := by
  have hx := x.toNat_lt
  have hy := y.toNat_lt
  have hz := z.toNat_lt
  have hw := w.toNat_lt
  have hjoin : (x.toUInt32 <<< 24 ||| y.toUInt32 <<< 16 ||| z.toUInt32 <<< 8 ||| w.toUInt32).toNat =
      x.toNat * 16777216 + y.toNat * 65536 + z.toNat * 256 + w.toNat := by
    simp only [UInt32.toNat_or, UInt32.toNat_shiftLeft, UInt8.toNat_toUInt32, UInt32.reduceToNat,
      Nat.reduceMod, Nat.shiftLeft_eq, Nat.reducePow]
    rw [Nat.mod_eq_of_lt (a := x.toNat * _) (by omega),
      Nat.mod_eq_of_lt (a := y.toNat * _) (by omega),
      Nat.mod_eq_of_lt (a := z.toNat * _) (by omega)]
    have h₁ : x.toNat * 16777216 ||| y.toNat * 65536 = x.toNat * 16777216 + y.toNat * 65536 :=
      or_eq_add (w := 24) (by omega) (by omega)
    have h₂ : (x.toNat * 16777216 + y.toNat * 65536) ||| z.toNat * 256 =
        x.toNat * 16777216 + y.toNat * 65536 + z.toNat * 256 :=
      or_eq_add (w := 16) (by omega) (by omega)
    rw [h₁, h₂, or_eq_add (w := 8) (by omega) (by omega)]
  generalize x.toUInt32 <<< 24 ||| y.toUInt32 <<< 16 ||| z.toUInt32 <<< 8 ||| w.toUInt32 = v
    at hjoin
  have hbyte₁ : (v >>> 24).toUInt8 = x := by
    apply UInt8.toNat_inj.mp
    simp only [UInt32.toNat_toUInt8, UInt32.toNat_shiftRight, hjoin, UInt32.reduceToNat,
      Nat.reduceMod, Nat.shiftRight_eq_div_pow]
    omega
  have hbyte₂ : (v >>> 16).toUInt8 = y := by
    apply UInt8.toNat_inj.mp
    simp only [UInt32.toNat_toUInt8, UInt32.toNat_shiftRight, hjoin, UInt32.reduceToNat,
      Nat.reduceMod, Nat.shiftRight_eq_div_pow]
    omega
  have hbyte₃ : (v >>> 8).toUInt8 = z := by
    apply UInt8.toNat_inj.mp
    simp only [UInt32.toNat_toUInt8, UInt32.toNat_shiftRight, hjoin, UInt32.reduceToNat,
      Nat.reduceMod, Nat.shiftRight_eq_div_pow]
    omega
  have hbyte₄ : v.toUInt8 = w := by
    apply UInt8.toNat_inj.mp
    rw [UInt32.toNat_toUInt8, hjoin]
    omega
  rw [be32, hbyte₁, hbyte₂, hbyte₃, hbyte₄]

theorem be16_readBe16 (buf : Bytes) (off : ℕ) :
    be16 (readBe16 buf off) = [buf off, buf (off + 1)] := split_be16 _ _

theorem be32_readBe32 (buf : Bytes) (off : ℕ) :
    be32 (readBe32 buf off) = [buf off, buf (off + 1), buf (off + 2), buf (off + 3)] :=
  split_be32 _ _ _ _

theorem headerBytes_parseHeader (buf : Bytes) :
    headerBytes (parseHeader buf) = prefixList buf wireHdrSize := by
  simp only [headerBytes, parseHeader, be16_readBe16, be32_readBe32]
  rfl

theorem be32_split64 (hi lo : UInt32) :
    be32 ((hi.toUInt64 <<< 32 ||| lo.toUInt64) >>> 32).toUInt32 ++
      be32 (hi.toUInt64 <<< 32 ||| lo.toUInt64).toUInt32 = be32 hi ++ be32 lo := by
  have hhi := hi.toNat_lt
  have hlo := lo.toNat_lt
  have hjoin : (hi.toUInt64 <<< 32 ||| lo.toUInt64).toNat = hi.toNat * 4294967296 + lo.toNat := by
    simp only [UInt64.toNat_or, UInt64.toNat_shiftLeft, UInt32.toNat_toUInt64, UInt64.reduceToNat,
      Nat.reduceMod, Nat.shiftLeft_eq, Nat.reducePow]
    rw [Nat.mod_eq_of_lt (by omega), or_eq_add (w := 32) (by omega) (by omega)]
  have hhigh : ((hi.toUInt64 <<< 32 ||| lo.toUInt64) >>> 32).toUInt32 = hi := by
    apply UInt32.toNat_inj.mp
    simp only [UInt64.toNat_toUInt32, UInt64.toNat_shiftRight, hjoin, UInt64.reduceToNat,
      Nat.reduceMod, Nat.shiftRight_eq_div_pow]
    omega
  have hlow : (hi.toUInt64 <<< 32 ||| lo.toUInt64).toUInt32 = lo := by
    apply UInt32.toNat_inj.mp
    rw [UInt64.toNat_toUInt32, hjoin]
    omega
  rw [hhigh, hlow]

/-! ## What the parser accepts -/

def headerOf (bytes : List UInt8) : WireHeader := parseHeader (arrayOf bytes)

/-- What `transport_recv` checks of a data datagram. -/
structure DataChecks (bytes : List UInt8) : Prop where
  magic : (headerOf bytes).magic = wireMagic
  type : (headerOf bytes).type = typeData
  k : (headerOf bytes).k.toNat ≤ maxK
  payloadLen : (headerOf bytes).payloadLen.toNat ≤ maxPayload
  length : wireHdrSize + (headerOf bytes).k.toNat + (headerOf bytes).payloadLen.toNat ≤ bytes.length

/-- What it checks of a probe, and of an echo. -/
structure ProbeChecks (type : UInt8) (bytes : List UInt8) : Prop where
  magic : (headerOf bytes).magic = wireMagic
  type : (headerOf bytes).type = type
  length : wireHdrSize + 8 ≤ bytes.length

/-- The shard that a data datagram fills into `shardOut`. -/
def shardOf (bytes : List UInt8) (shardOut : Shard) : Shard where
  coeffs :=
    memcpy shardOut.coeffs (fun j => arrayOf bytes (wireHdrSize + j)) (headerOf bytes).k.toNat
  data := memcpy shardOut.data
    (fun j => arrayOf bytes (wireHdrSize + (headerOf bytes).k.toNat + j))
    (headerOf bytes).payloadLen.toNat
  len := (headerOf bytes).payloadLen

def timestampOf (bytes : List UInt8) : UInt64 :=
  ((readBe32 (arrayOf bytes) wireHdrSize).toUInt64 <<< 32) |||
    (readBe32 (arrayOf bytes) (wireHdrSize + 4)).toUInt64

section Receive

variable (tctx : TransportCtx) (dgram : Datagram) (shardOut : Shard)

theorem arrayOf_take {bytes : List UInt8} {j : ℕ} (hj : j < recvBufSize) :
    arrayOf (bytes.take recvBufSize) j = arrayOf bytes j := by
  simp only [arrayOf, List.getD_eq_getElem?_getD, List.getElem?_take_of_lt hj]

theorem headerOf_take (bytes : List UInt8) :
    headerOf (bytes.take recvBufSize) = headerOf bytes := by
  have hbyte (j : ℕ) (hj : j < 14) :
      arrayOf (bytes.take recvBufSize) j = arrayOf bytes j :=
    arrayOf_take (hj.trans (by decide))
  simp only [headerOf, parseHeader, readBe16, readBe32, Nat.reduceAdd]
  rw [hbyte 0 (by decide), hbyte 1 (by decide), hbyte 2 (by decide), hbyte 3 (by decide),
    hbyte 4 (by decide), hbyte 5 (by decide), hbyte 6 (by decide), hbyte 7 (by decide),
    hbyte 8 (by decide), hbyte 9 (by decide), hbyte 10 (by decide), hbyte 11 (by decide),
    hbyte 12 (by decide), hbyte 13 (by decide)]

theorem shardOf_take (bytes : List UInt8) (hk : (headerOf bytes).k.toNat ≤ maxK)
    (hlen : (headerOf bytes).payloadLen.toNat ≤ maxPayload) :
    shardOf (bytes.take recvBufSize) shardOut = shardOf bytes shardOut := by
  have hcoeffs (j : ℕ) : memcpy shardOut.coeffs
      (fun j => arrayOf (bytes.take recvBufSize) (wireHdrSize + j)) (headerOf bytes).k.toNat j =
      memcpy shardOut.coeffs (fun j => arrayOf bytes (wireHdrSize + j))
        (headerOf bytes).k.toNat j := by
    unfold memcpy
    split_ifs with hj
    · exact arrayOf_take (by unfold recvBufSize; omega)
    · rfl
  have hdata (j : ℕ) : memcpy shardOut.data
      (fun j => arrayOf (bytes.take recvBufSize) (wireHdrSize + (headerOf bytes).k.toNat + j))
      (headerOf bytes).payloadLen.toNat j =
      memcpy shardOut.data (fun j => arrayOf bytes (wireHdrSize + (headerOf bytes).k.toNat + j))
        (headerOf bytes).payloadLen.toNat j := by
    unfold memcpy
    split_ifs with hj
    · exact arrayOf_take (by unfold recvBufSize; omega)
    · rfl
  simp only [shardOf, headerOf_take, Shard.mk.injEq]
  exact ⟨funext hcoeffs, funext hdata, trivial⟩

theorem timestampOf_take (bytes : List UInt8) :
    timestampOf (bytes.take recvBufSize) = timestampOf bytes := by
  have hbyte (j : ℕ) (hj : j < 22) :
      arrayOf (bytes.take recvBufSize) j = arrayOf bytes j :=
    arrayOf_take (hj.trans (by decide))
  simp only [timestampOf, readBe32, wireHdrSize, Nat.reduceAdd]
  rw [hbyte 14 (by decide), hbyte 15 (by decide), hbyte 16 (by decide), hbyte 17 (by decide),
    hbyte 18 (by decide), hbyte 19 (by decide), hbyte 20 (by decide), hbyte 21 (by decide)]

theorem transportRecv_eq :
    transportRecv tctx dgram shardOut =
      if dgram.bytes.length < wireHdrSize then .error
      else if (headerOf dgram.bytes).magic ≠ wireMagic then .error
      else if (headerOf dgram.bytes).type = typeData then
        if maxK < (headerOf dgram.bytes).k.toNat then .error
        else if maxPayload < (headerOf dgram.bytes).payloadLen.toNat then .error
        else if dgram.bytes.length < wireHdrSize + (headerOf dgram.bytes).k.toNat +
          (headerOf dgram.bytes).payloadLen.toNat then .error
        else .data (headerOf dgram.bytes) (shardOf dgram.bytes shardOut)
          (matchPath tctx dgram.sender)
      else if (headerOf dgram.bytes).type = typeProbe ∨
          (headerOf dgram.bytes).type = typeProbeEcho then
        if dgram.bytes.length < wireHdrSize + 8 then .error
        else if (headerOf dgram.bytes).type = typeProbe then
          .probe (timestampOf dgram.bytes) (matchPath tctx dgram.sender)
        else .probeEcho (timestampOf dgram.bytes) (matchPath tctx dgram.sender)
      else .error := by
  have hsize : recvBufSize = 1430 := rfl
  have hshort {m : ℕ} (hm : m ≤ recvBufSize) :
      (dgram.bytes.take recvBufSize).length < m ↔ dgram.bytes.length < m := by
    rw [List.length_take]
    omega
  have hheader : parseHeader (arrayOf (dgram.bytes.take recvBufSize)) = headerOf dgram.bytes :=
    headerOf_take dgram.bytes
  have hts := timestampOf_take dgram.bytes
  unfold timestampOf at hts
  unfold transportRecv
  dsimp only
  rw [hheader, hts]
  refine if_congr (hshort (by decide)) rfl (if_congr Iff.rfl rfl (if_congr Iff.rfl ?_ ?_))
  · by_cases hk : maxK < (headerOf dgram.bytes).k.toNat
    · rw [if_pos hk, if_pos hk]
    · by_cases hlen : maxPayload < (headerOf dgram.bytes).payloadLen.toNat
      · rw [if_neg hk, if_neg hk, if_pos hlen, if_pos hlen]
      · have hfits : wireHdrSize + (headerOf dgram.bytes).k.toNat +
            (headerOf dgram.bytes).payloadLen.toNat ≤ recvBufSize := by
          unfold recvBufSize
          omega
        have hshard := shardOf_take shardOut dgram.bytes (Nat.not_lt.mp hk) (Nat.not_lt.mp hlen)
        rw [shardOf, headerOf_take] at hshard
        rw [if_neg hk, if_neg hk, if_neg hlen, if_neg hlen, hshard]
        exact if_congr (hshort hfits) rfl rfl
  · exact if_congr Iff.rfl (if_congr (hshort (by decide)) rfl rfl) rfl

theorem transportRecv_of_dataChecks (h : DataChecks dgram.bytes) :
    transportRecv tctx dgram shardOut = .data (headerOf dgram.bytes) (shardOf dgram.bytes shardOut)
      (matchPath tctx dgram.sender) := by
  have hlength := h.length
  rw [transportRecv_eq, if_neg (by omega), if_neg (not_not.mpr h.magic), if_pos h.type,
    if_neg (Nat.not_lt.mpr h.k), if_neg (Nat.not_lt.mpr h.payloadLen),
    if_neg (Nat.not_lt.mpr hlength)]

theorem transportRecv_of_probeChecks (h : ProbeChecks typeProbe dgram.bytes) :
    transportRecv tctx dgram shardOut =
      .probe (timestampOf dgram.bytes) (matchPath tctx dgram.sender) := by
  have hlength := h.length
  have htype : (headerOf dgram.bytes).type ≠ typeData := by
    rw [h.type]
    decide
  rw [transportRecv_eq, if_neg (by omega), if_neg (not_not.mpr h.magic), if_neg htype,
    if_pos (Or.inl h.type), if_neg (Nat.not_lt.mpr hlength), if_pos h.type]

theorem transportRecv_of_echoChecks (h : ProbeChecks typeProbeEcho dgram.bytes) :
    transportRecv tctx dgram shardOut =
      .probeEcho (timestampOf dgram.bytes) (matchPath tctx dgram.sender) := by
  have hlength := h.length
  have htype : (headerOf dgram.bytes).type ≠ typeData ∧
      (headerOf dgram.bytes).type ≠ typeProbe := by
    rw [h.type]
    decide
  rw [transportRecv_eq, if_neg (by omega), if_neg (not_not.mpr h.magic), if_neg htype.1,
    if_pos (Or.inr h.type), if_neg (Nat.not_lt.mpr hlength), if_neg htype.2]

theorem transportRecv_of_not_checks (hdata : ¬ DataChecks dgram.bytes)
    (hprobe : ¬ ProbeChecks typeProbe dgram.bytes)
    (hecho : ¬ ProbeChecks typeProbeEcho dgram.bytes) :
    transportRecv tctx dgram shardOut = .error := by
  rw [transportRecv_eq]
  split_ifs with hhdr hmagic htype hk hlen hdgram hprobes hshort hprobe'
  · rfl
  · rfl
  · rfl
  · rfl
  · rfl
  · exact absurd ⟨not_not.mp hmagic, htype, Nat.not_lt.mp hk, Nat.not_lt.mp hlen,
      Nat.not_lt.mp hdgram⟩ hdata
  · rfl
  · exact absurd ⟨not_not.mp hmagic, hprobe', Nat.not_lt.mp hshort⟩ hprobe
  · exact absurd ⟨not_not.mp hmagic, hprobes.resolve_left hprobe', Nat.not_lt.mp hshort⟩ hecho
  · rfl

theorem transportRecv_cases :
    (DataChecks dgram.bytes ∧ transportRecv tctx dgram shardOut =
      .data (headerOf dgram.bytes) (shardOf dgram.bytes shardOut)
        (matchPath tctx dgram.sender)) ∨
    (ProbeChecks typeProbe dgram.bytes ∧ transportRecv tctx dgram shardOut =
      .probe (timestampOf dgram.bytes) (matchPath tctx dgram.sender)) ∨
    (ProbeChecks typeProbeEcho dgram.bytes ∧ transportRecv tctx dgram shardOut =
      .probeEcho (timestampOf dgram.bytes) (matchPath tctx dgram.sender)) ∨
    transportRecv tctx dgram shardOut = .error := by
  by_cases hdata : DataChecks dgram.bytes
  · exact Or.inl ⟨hdata, transportRecv_of_dataChecks tctx dgram shardOut hdata⟩
  by_cases hprobe : ProbeChecks typeProbe dgram.bytes
  · exact Or.inr (Or.inl ⟨hprobe, transportRecv_of_probeChecks tctx dgram shardOut hprobe⟩)
  by_cases hecho : ProbeChecks typeProbeEcho dgram.bytes
  · exact Or.inr (Or.inr (Or.inl
      ⟨hecho, transportRecv_of_echoChecks tctx dgram shardOut hecho⟩))
  · exact Or.inr (Or.inr (Or.inr
      (transportRecv_of_not_checks tctx dgram shardOut hdata hprobe hecho)))

end Receive

/-! ## Round trip -/

theorem probeChecks_probeDatagram (type : UInt8) (ts : UInt64) :
    ProbeChecks type (probeDatagram type ts) := by
  have hheader : headerOf (probeDatagram type ts) =
      { magic := wireMagic, version := wireVersion, type := type, blockId := 0,
        shardIdx := 0, k := 0, n := 0, reserved := 0, payloadLen := 0 } := by
    rw [headerOf, probeDatagram, List.append_assoc, parseHeader_headerBytes]
  refine ⟨?_, ?_, le_rfl⟩
  · rw [hheader]
  · rw [hheader]

theorem timestampOf_probeDatagram (type : UInt8) (ts : UInt64) :
    timestampOf (probeDatagram type ts) = ts := readBe32_probe _ ts

/-- **Wire round trip.** Received whole, the datagram of `transport_send_shard` gives the header
and the shard that were sent, and those of `transport_send_probe` and
`transport_send_probe_echo` give the timestamp. -/
theorem transportRecv_sent (tctx : TransportCtx) (sender : UInt32) (shardOut : Shard) :
    (∀ (blockId : UInt32) (shardIdx k n : UInt8) (s : Shard), k.toNat ≤ maxK →
      s.len.toNat ≤ maxPayload → ∃ hdr shard,
        transportRecv tctx ⟨sender, shardDatagram blockId shardIdx k n s⟩ shardOut =
          .data hdr shard (matchPath tctx sender) ∧
        hdr.blockId = blockId ∧ hdr.shardIdx = shardIdx ∧ hdr.k = k ∧ hdr.n = n ∧
        hdr.payloadLen = s.len ∧ shard.len = s.len ∧
        (∀ j < k.toNat, shard.coeffs j = s.coeffs j) ∧
        ∀ j < s.len.toNat, shard.data j = s.data j) ∧
    (∀ ts, transportRecv tctx ⟨sender, probeDatagram typeProbe ts⟩ shardOut =
      .probe ts (matchPath tctx sender)) ∧
    ∀ ts, transportRecv tctx ⟨sender, probeDatagram typeProbeEcho ts⟩ shardOut =
      .probeEcho ts (matchPath tctx sender) := by
  refine ⟨fun blockId shardIdx k n s hk hlen => ?_, fun ts => ?_, fun ts => ?_⟩
  · obtain ⟨shard, hsame, hrecv⟩ :=
      transportRecv_shardDatagram tctx sender blockId shardIdx k n s shardOut hk hlen
    exact ⟨_, shard, hrecv, rfl, rfl, rfl, rfl, rfl, hsame.len, hsame.coeffs, hsame.data⟩
  · have hrecv := transportRecv_of_probeChecks tctx ⟨sender, probeDatagram typeProbe ts⟩ shardOut
      (probeChecks_probeDatagram typeProbe ts)
    rwa [timestampOf_probeDatagram] at hrecv
  · have hrecv := transportRecv_of_echoChecks tctx ⟨sender, probeDatagram typeProbeEcho ts⟩
      shardOut (probeChecks_probeDatagram typeProbeEcho ts)
    rwa [timestampOf_probeDatagram] at hrecv

/-- A shard of three coefficients and two bytes. -/
def smallShard : Shard := ⟨fun j => [2, 3, 5].getD j 0, fun j => [0xAB, 0xCD].getD j 0, 2⟩

theorem transportRecv_sent_smallShard :
    (∃ hdr shard, transportRecv ⟨fun _ => ⟨0, 0, true⟩, 1⟩
        ⟨7, shardDatagram 5 2 3 4 smallShard⟩ ⟨fun _ => 0, fun _ => 0, 0⟩ = .data hdr shard 0 ∧
        hdr.blockId = 5 ∧ hdr.shardIdx = 2 ∧ hdr.k = 3 ∧ hdr.n = 4 ∧ hdr.payloadLen = 2 ∧
        shard.coeffs 0 = 2 ∧ shard.coeffs 1 = 3 ∧ shard.coeffs 2 = 5 ∧
        shard.data 0 = 0xAB ∧ shard.data 1 = 0xCD) ∧
      transportRecv ⟨fun _ => ⟨0, 0, true⟩, 1⟩ ⟨7, probeDatagram typeProbeEcho 1000⟩
        ⟨fun _ => 0, fun _ => 0, 0⟩ = .probeEcho 1000 0 := by
  obtain ⟨hdata, _, hecho⟩ :=
    transportRecv_sent ⟨fun _ => ⟨0, 0, true⟩, 1⟩ 7 ⟨fun _ => 0, fun _ => 0, 0⟩
  obtain ⟨hdr, shard, hrecv, hblock, hidx, hk, hn, hlen, _, hcoeffs, hbytes⟩ :=
    hdata 5 2 3 4 smallShard (by decide) (by decide)
  exact ⟨⟨hdr, shard, hrecv, hblock, hidx, hk, hn, hlen, hcoeffs 0 (by decide),
    hcoeffs 1 (by decide), hcoeffs 2 (by decide), hbytes 0 (by decide), hbytes 1 (by decide)⟩,
    hecho 1000⟩

/-! ## Datagrams that no sender makes -/

/-- A datagram of `transport_send_shard` for one of the shards of a block. -/
def SentShard (bytes : List UInt8) : Prop :=
  ∃ (blockId : UInt32) (shardIdx k n : UInt8) (s : Shard), 1 ≤ k.toNat ∧ k.toNat ≤ maxK ∧
    k.toNat ≤ n.toNat ∧ n.toNat ≤ maxN ∧ shardIdx.toNat < n.toNat ∧ s.len.toNat ≤ maxPayload ∧
    bytes = shardDatagram blockId shardIdx k n s

/-- A datagram of `transport_send_probe` or, by its type, of `transport_send_probe_echo`. -/
def SentProbe (type : UInt8) (bytes : List UInt8) : Prop :=
  ∃ ts : UInt64, bytes = probeDatagram type ts

/-- What the parser returns for the datagram is what its sender meant; what no sender makes is
refused. -/
def AcceptsOnlyFormat (tctx : TransportCtx) (dgram : Datagram) (shardOut : Shard) : Prop :=
  match transportRecv tctx dgram shardOut with
  | .data _ _ _ => SentShard dgram.bytes
  | .probe _ _ => SentProbe typeProbe dgram.bytes
  | .probeEcho _ _ => SentProbe typeProbeEcho dgram.bytes
  | .error => True

/-- What the parser does not check of a data datagram. -/
structure DataUnchecked (bytes : List UInt8) : Prop where
  version : (headerOf bytes).version = wireVersion
  reserved : (headerOf bytes).reserved = 0
  k_pos : 1 ≤ (headerOf bytes).k.toNat
  k_le : (headerOf bytes).k.toNat ≤ (headerOf bytes).n.toNat
  n_le : (headerOf bytes).n.toNat ≤ maxN
  shardIdx : (headerOf bytes).shardIdx.toNat < (headerOf bytes).n.toNat
  length : bytes.length ≤ wireHdrSize + (headerOf bytes).k.toNat + (headerOf bytes).payloadLen.toNat

/-- What it does not check of a probe or an echo. -/
structure ProbeUnchecked (bytes : List UInt8) : Prop where
  version : (headerOf bytes).version = wireVersion
  fields : (headerOf bytes).blockId = 0 ∧ (headerOf bytes).shardIdx = 0 ∧ (headerOf bytes).k = 0 ∧
    (headerOf bytes).n = 0 ∧ (headerOf bytes).reserved = 0 ∧ (headerOf bytes).payloadLen = 0
  length : bytes.length ≤ wireHdrSize + 8

theorem prefixList_add {α : Type*} (a : ℕ → α) (m n : ℕ) :
    prefixList a (m + n) = prefixList a m ++ prefixList (fun j => a (m + j)) n := by
  simp only [prefixList, List.range_add, List.map_append, List.map_map]
  rfl

theorem bytes_eq_header {bytes : List UInt8} {n : ℕ} (hlen : bytes.length = wireHdrSize + n) :
    bytes = headerBytes (headerOf bytes) ++
      prefixList (fun j => arrayOf bytes (wireHdrSize + j)) n := by
  rw [headerOf, headerBytes_parseHeader, ← prefixList_add, ← hlen, prefixList_arrayOf]

theorem sentShard_of_unchecked {bytes : List UInt8} (h : DataChecks bytes)
    (hrest : DataUnchecked bytes) : SentShard bytes := by
  have hlength : bytes.length = wireHdrSize + ((headerOf bytes).k.toNat +
      (headerOf bytes).payloadLen.toNat) := by
    rw [← Nat.add_assoc]
    exact Nat.le_antisymm hrest.length h.length
  refine ⟨(headerOf bytes).blockId, (headerOf bytes).shardIdx, (headerOf bytes).k,
    (headerOf bytes).n, ⟨fun j => arrayOf bytes (wireHdrSize + j),
      fun j => arrayOf bytes (wireHdrSize + ((headerOf bytes).k.toNat + j)),
      (headerOf bytes).payloadLen⟩,
    hrest.k_pos, h.k, hrest.k_le, hrest.n_le, hrest.shardIdx, h.payloadLen, ?_⟩
  have hheader : dataHeader (headerOf bytes).blockId (headerOf bytes).shardIdx (headerOf bytes).k
      (headerOf bytes).n (headerOf bytes).payloadLen = headerOf bytes := by
    rw [dataHeader, ← h.magic, ← hrest.version, ← h.type, ← hrest.reserved]
  rw [shardDatagram_eq, hheader, ← prefixList_add]
  exact bytes_eq_header hlength

theorem unchecked_of_sentShard {bytes : List UInt8} (h : SentShard bytes) :
    DataUnchecked bytes := by
  obtain ⟨blockId, shardIdx, k, n, s, hkpos, hk, hkn, hn, hidx, hlen, rfl⟩ := h
  have hheader : headerOf (shardDatagram blockId shardIdx k n s) =
      dataHeader blockId shardIdx k n s.len := by
    rw [headerOf, shardDatagram_eq, parseHeader_headerBytes]
  have hlength : (shardDatagram blockId shardIdx k n s).length =
      wireHdrSize + k.toNat + s.len.toNat := by
    simp [shardDatagram_eq, Nat.add_assoc]
  constructor <;> rw [hheader]
  · rfl
  · rfl
  · exact hkpos
  · exact hkn
  · exact hn
  · exact hidx
  · exact hlength.le

theorem sentProbe_of_unchecked {type : UInt8} {bytes : List UInt8} (h : ProbeChecks type bytes)
    (hrest : ProbeUnchecked bytes) : SentProbe type bytes := by
  have hlength : bytes.length = wireHdrSize + 8 := Nat.le_antisymm hrest.length h.length
  obtain ⟨hblock, hidx, hk, hn, hreserved, hlen⟩ := hrest.fields
  refine ⟨timestampOf bytes, ?_⟩
  have hheader : headerOf bytes =
      { magic := wireMagic, version := wireVersion, type := type, blockId := 0,
        shardIdx := 0, k := 0, n := 0, reserved := 0, payloadLen := 0 } := by
    rw [← h.magic, ← hrest.version, ← h.type]
    generalize headerOf bytes = hdr at hblock hidx hk hn hreserved hlen
    obtain ⟨magic, version, type, blockId, shardIdx, k, n, reserved, payloadLen⟩ := hdr
    dsimp only at hblock hidx hk hn hreserved hlen ⊢
    rw [hblock, hidx, hk, hn, hreserved, hlen]
  have hbytes := bytes_eq_header hlength
  rw [hheader] at hbytes
  rw [probeDatagram, List.append_assoc, timestampOf, be32_split64, be32_readBe32, be32_readBe32]
  exact hbytes

theorem unchecked_of_sentProbe {type : UInt8} {bytes : List UInt8} (h : SentProbe type bytes) :
    ProbeUnchecked bytes := by
  obtain ⟨ts, rfl⟩ := h
  have hheader : headerOf (probeDatagram type ts) =
      { magic := wireMagic, version := wireVersion, type := type, blockId := 0,
        shardIdx := 0, k := 0, n := 0, reserved := 0, payloadLen := 0 } := by
    rw [headerOf, probeDatagram, List.append_assoc, parseHeader_headerBytes]
  refine ⟨?_, ?_, le_rfl⟩
  · rw [hheader]
  · rw [hheader]
    exact ⟨rfl, rfl, rfl, rfl, rfl, rfl⟩

/-- **What the parser takes.** For a datagram the parser takes what a sender makes and nothing
else exactly if the datagram, should it pass the checks of the parser, would also pass those that
the parser leaves out: the version, the reserved byte, `1 ≤ k ≤ n ≤ MAX_N`, the shard index, the
zero fields of a probe, and that nothing follows the payload. -/
theorem acceptsOnlyFormat_iff (tctx : TransportCtx) (dgram : Datagram) (shardOut : Shard) :
    AcceptsOnlyFormat tctx dgram shardOut ↔
      (DataChecks dgram.bytes → DataUnchecked dgram.bytes) ∧
        (ProbeChecks typeProbe dgram.bytes → ProbeUnchecked dgram.bytes) ∧
        (ProbeChecks typeProbeEcho dgram.bytes → ProbeUnchecked dgram.bytes) := by
  have hkinds : typeProbe ≠ typeData ∧ typeProbeEcho ≠ typeData ∧ typeProbe ≠ typeProbeEcho := by
    decide
  unfold AcceptsOnlyFormat
  by_cases hdata : DataChecks dgram.bytes
  · have hprobe : ¬ ProbeChecks typeProbe dgram.bytes := fun h =>
      hkinds.1 (h.type.symm.trans hdata.type)
    have hecho : ¬ ProbeChecks typeProbeEcho dgram.bytes := fun h =>
      hkinds.2.1 (h.type.symm.trans hdata.type)
    rw [transportRecv_of_dataChecks tctx dgram shardOut hdata]
    exact ⟨fun h => ⟨fun _ => unchecked_of_sentShard h, fun h' => absurd h' hprobe,
      fun h' => absurd h' hecho⟩, fun h => sentShard_of_unchecked hdata (h.1 hdata)⟩
  · by_cases hprobe : ProbeChecks typeProbe dgram.bytes
    · have hecho : ¬ ProbeChecks typeProbeEcho dgram.bytes := fun h =>
        hkinds.2.2 (hprobe.type.symm.trans h.type)
      rw [transportRecv_of_probeChecks tctx dgram shardOut hprobe]
      exact ⟨fun h => ⟨fun h' => absurd h' hdata, fun _ => unchecked_of_sentProbe h,
        fun h' => absurd h' hecho⟩, fun h => sentProbe_of_unchecked hprobe (h.2.1 hprobe)⟩
    · by_cases hecho : ProbeChecks typeProbeEcho dgram.bytes
      · rw [transportRecv_of_echoChecks tctx dgram shardOut hecho]
        exact ⟨fun h => ⟨fun h' => absurd h' hdata, fun h' => absurd h' hprobe,
          fun _ => unchecked_of_sentProbe h⟩, fun h => sentProbe_of_unchecked hecho (h.2.2 hecho)⟩
      · rw [transportRecv_of_not_checks tctx dgram shardOut hdata hprobe hecho]
        exact ⟨fun _ => ⟨fun h' => absurd h' hdata, fun h' => absurd h' hprobe,
          fun h' => absurd h' hecho⟩, fun _ => trivial⟩

/-- Version 2, `k = 0`, and a shard index past `n`. -/
def strangeDatagram : List UInt8 := [0xC0, 0xDE, 2, 1, 0, 0, 0, 0, 9, 0, 1, 0, 0, 0]

theorem not_acceptsOnlyFormat_strange :
    ∃ (tctx : TransportCtx) (shardOut : Shard),
      (transportRecv tctx ⟨7, strangeDatagram⟩ shardOut ≠ .error) ∧
        ¬ AcceptsOnlyFormat tctx ⟨7, strangeDatagram⟩ shardOut := by
  have hchecks : DataChecks strangeDatagram :=
    ⟨by decide, by decide, by decide, by decide, by decide⟩
  have hrecv := transportRecv_of_dataChecks ⟨fun _ => ⟨0, 0, true⟩, 1⟩ ⟨7, strangeDatagram⟩
    ⟨fun _ => 0, fun _ => 0, 0⟩ hchecks
  refine ⟨⟨fun _ => ⟨0, 0, true⟩, 1⟩, ⟨fun _ => 0, fun _ => 0, 0⟩, ?_, ?_⟩
  · rw [hrecv]
    exact fun h => by cases h
  · unfold AcceptsOnlyFormat
    rw [hrecv]
    intro hsent
    have hversion := (unchecked_of_sentShard hsent).version
    exact absurd hversion (by decide)

end CodingGateway.Proofs.WireFormat
