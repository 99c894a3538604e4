import CodingGateway.Library.BoundedArray
import CodingGateway.Model.Main
set_option autoImplicit false

/-!
# The receive path with its array bounds

The functions of the receive path once more, with every array access written out and
checked against the size that the array is declared with; bytes of a datagram are
checked against the length received.  `none` is an access out of bounds.
-/

namespace CodingGateway.Model

open CodingGateway.Library.BoundedArray

/-- `memcpy` between arrays of the given sizes. -/
def checkedMemcpy {α : Type*} (dstSize : ℕ) (dst : ℕ → α) (srcSize : ℕ) (src : ℕ → α) (n : ℕ) :
    Option (ℕ → α) :=
  if n ≤ dstSize ∧ n ≤ srcSize then some (memcpy dst src n) else none

/-- `a[i][j]`. -/
def load2 {α : Type*} (rows cols : ℕ) (a : ℕ → ℕ → α) (i j : ℕ) : Option α := do
  let row ← load rows a i
  load cols row j

/-! ## `transport_recv` -/

def checkedMatchPath (ctx : TransportCtx) (sender : UInt32) : Option ℕ := do
  let found ← search (fun i => do
    let path ← load maxPaths ctx.paths i
    some (path.enabled && path.remoteAddr == sender)) (List.range ctx.pathCount)
  some (found.getD 0)

def checkedTransportRecv (ctx : TransportCtx) (dgram : Datagram) (shardOut : Shard) :
    Option Received :=
  let bytes := dgram.bytes.take recvBufSize
  let n := bytes.length
  let buf := arrayOf bytes
  if n < wireHdrSize then some .error
  else do
    let raw ← slice n buf 0 wireHdrSize
    let hdr := parseHeader raw
    if hdr.magic ≠ wireMagic then some .error
    else do
      let pathIdx ← checkedMatchPath ctx dgram.sender
      if hdr.type = typeData then
        if maxK < hdr.k.toNat then some .error
        else if maxPayload < hdr.payloadLen.toNat then some .error
        else if n < wireHdrSize + hdr.k.toNat + hdr.payloadLen.toNat then some .error
        else do
          let src ← slice n buf wireHdrSize hdr.k.toNat
          let coeffs ← checkedMemcpy maxK shardOut.coeffs hdr.k.toNat src hdr.k.toNat
          let src ← slice n buf (wireHdrSize + hdr.k.toNat) hdr.payloadLen.toNat
          let data ← checkedMemcpy maxPayload shardOut.data hdr.payloadLen.toNat src
            hdr.payloadLen.toNat
          some (.data hdr { coeffs := coeffs, data := data, len := hdr.payloadLen } pathIdx)
      else if hdr.type = typeProbe ∨ hdr.type = typeProbeEcho then
        if n < wireHdrSize + 8 then some .error
        else do
          let hi ← slice n buf wireHdrSize 4
          let lo ← slice n buf (wireHdrSize + 4) 4
          let ts := ((readBe32 hi 0).toUInt64 <<< 32) ||| (readBe32 lo 0).toUInt64
          some (if hdr.type = typeProbe then .probe ts pathIdx else .probeEcho ts pathIdx)
      else some .error

/-! ## `crypto_xor` -/

def checkedXorByte (data : Bytes) (i : ℕ) (byte : UInt8) : Option Bytes := do
  let b ← load maxPayload data i
  store maxPayload data i (b ^^^ byte)

def checkedXorWord (data : Bytes) (i : ℕ) (ks : UInt64) : Option Bytes := do
  let data ← checkedXorByte data i ks.toUInt8
  let data ← checkedXorByte data (i + 1) (ks >>> 8).toUInt8
  let data ← checkedXorByte data (i + 2) (ks >>> 16).toUInt8
  let data ← checkedXorByte data (i + 3) (ks >>> 24).toUInt8
  let data ← checkedXorByte data (i + 4) (ks >>> 32).toUInt8
  let data ← checkedXorByte data (i + 5) (ks >>> 40).toUInt8
  let data ← checkedXorByte data (i + 6) (ks >>> 48).toUInt8
  checkedXorByte data (i + 7) (ks >>> 56).toUInt8

/-- One turn of the loop over the key. -/
def checkedMixKey (key : ℕ → UInt8) (s : UInt64) (i : ℕ) : Option UInt64 := do
  let b ← load cryptoKeyLen key i
  some ((s ^^^ b.toUInt64) * fnvPrime)

def checkedSeed (key : ℕ → UInt8) (nonce : UInt64) : Option UInt64 := do
  let s ← forRange cryptoKeyLen 0xcbf29ce484222325 (checkedMixKey key)
  let s := (s ^^^ nonce) * fnvPrime
  some (if s = 0 then 0x5A5A5A5A5A5A5A5A else s)

/-- One turn of the loop over words. -/
def checkedXorNext (acc : Bytes × UInt64) (w : ℕ) : Option (Bytes × UInt64) := do
  let (data, state) := acc
  let data ← checkedXorWord data (8 * w) (xorshift64 state)
  some (data, xorshift64 state)

def checkedXorWords (data : Bytes) (state : UInt64) (words : ℕ) : Option (Bytes × UInt64) :=
  forRange words (data, state) checkedXorNext

def checkedXorTail (data : Bytes) (i : ℕ) (ks : UInt64) (rest : ℕ) : Option Bytes :=
  forRange rest data fun data j =>
    checkedXorByte data (i + j) (ks >>> UInt64.ofNat (j * 8)).toUInt8

def checkedCryptoXor (ctx : CryptoCtx) (data : Bytes) (len : ℕ) (nonce : UInt64) :
    Option Bytes :=
  if ctx.enabled then do
    let seed ← checkedSeed ctx.key nonce
    let (data, state) ← checkedXorWords data seed (len / 8)
    let i := 8 * (len / 8)
    if i < len then checkedXorTail data i (xorshift64 state) (len - i) else some data
  else some data

/-! ## `rx_window_insert` -/

def checkedRxFind (win : RxWindow) (blockId : UInt32) (windowSize : ℕ) :
    Option (RxWindow × Option ℕ) :=
  if serialDiff blockId win.baseId < 0 then some (win, none)
  else if (windowSize : ℤ) ≤ serialDiff blockId win.baseId then some (win, none)
  else do
    let held ← search (fun i => do
      let slot ← load maxWindow win.slots i
      some (decide (0 < slot.recvCount) && slot.blockId == blockId)) (List.range windowSize)
    match held with
    | some i => some (win, some i)
    | none => do
        let free ← search (fun i => do
          let slot ← load maxWindow win.slots i
          some (slot.recvCount == 0)) (List.range windowSize)
        match free with
        | some i => do
            let slots ← store maxWindow win.slots i { zeroBlock with blockId := blockId }
            some ({ win with slots := slots }, some i)
        | none => some (win, none)

def checkedStoreShard (blk : RxBlock) (hdr : WireHeader) (s : Shard) (crypto : CryptoCtx)
    (nowUs : UInt64) : Option RxBlock := do
  let idx := hdr.shardIdx.toNat
  let shards ← store maxN blk.shards idx s
  let shards ←
    if crypto.enabled then do
      let s ← load maxN shards idx
      let data ← checkedCryptoXor crypto s.data s.len.toNat (shardNonce hdr.blockId idx)
      store maxN shards idx { s with data := data }
    else some shards
  let received ← store maxN blk.received idx true
  some { blk with
    shards := shards
    received := received
    recvCount := blk.recvCount + 1
    firstRecvUs := if blk.recvCount + 1 = 1 then nowUs else blk.firstRecvUs }

def checkedInsert (win : RxWindow) (hdr : WireHeader) (s : Shard) (windowSize : ℕ)
    (crypto : CryptoCtx) (nowUs : UInt64) : Option RxWindow := do
  match ← checkedRxFind win hdr.blockId windowSize with
  | (win, none) => some win
  | (win, some i) => do
      let blk ← load maxWindow win.slots i
      let idx := hdr.shardIdx.toNat
      if blk.decoded then some win
      else if maxN ≤ idx then some win
      else do
        let received ← load maxN blk.received idx
        if received then some win
        else do
          let blk ← checkedStoreShard blk hdr s crypto nowUs
          let slots ← store maxWindow win.slots i blk
          some { win with slots := slots }

/-! ## `decode_block` -/

/-- One turn of the loop that copies the shards. -/
def checkedLoadShard (shards : ℕ → Shard) (k : ℕ) (st : DecodeState) (i : ℕ) :
    Option DecodeState := do
  let s ← load maxK shards i
  let row ← load maxK st.mat i
  let row ← checkedMemcpy maxK row maxK s.coeffs k
  let mat ← store maxK st.mat i row
  let bytes ← load maxK st.dat i
  let bytes ← checkedMemcpy maxPayload bytes maxPayload s.data s.len.toNat
  let dat ← store maxK st.dat i bytes
  let dlen ← store maxK st.dlen i s.len
  some { mat := mat, dat := dat, dlen := dlen }

def checkedLoadShards (st : DecodeState) (shards : ℕ → Shard) (k : ℕ) : Option DecodeState :=
  forRange k st (checkedLoadShard shards k)

def checkedFindPivot (st : DecodeState) (k col : ℕ) : Option (Option ℕ) :=
  search (fun row => do
    let c ← load2 maxK maxK st.mat row col
    some (decide (c ≠ 0))) (List.range' col (k - col))

def checkedSwapRows (st : DecodeState) (k col pivot : ℕ) : Option DecodeState :=
  if pivot = col then some st
  else do
    let rowC ← load maxK st.mat col
    let rowP ← load maxK st.mat pivot
    let newC ← checkedMemcpy maxK rowC maxK rowP k
    let newP ← checkedMemcpy maxK rowP maxK rowC k
    let mat ← store maxK st.mat col newC
    let mat ← store maxK mat pivot newP
    let bytesC ← load maxK st.dat col
    let bytesP ← load maxK st.dat pivot
    let newC ← checkedMemcpy maxPayload bytesC maxPayload bytesP maxPayload
    let newP ← checkedMemcpy maxPayload bytesP maxPayload bytesC maxPayload
    let dat ← store maxK st.dat col newC
    let dat ← store maxK dat pivot newP
    let lenC ← load maxK st.dlen col
    let lenP ← load maxK st.dlen pivot
    let dlen ← store maxK st.dlen col lenP
    let dlen ← store maxK dlen pivot lenC
    some { mat := mat, dat := dat, dlen := dlen }

/-- The loop `a[j] = c * a[j]`. -/
def checkedScale (size : ℕ) (a : ℕ → UInt8) (c : UInt8) (n : ℕ) : Option (ℕ → UInt8) :=
  forRange n a fun a j => do
    let x ← load size a j
    store size a j (gf256Mul c x)

/-- The loop `dst[j] ^= c * src[j]`. -/
def checkedAxpy (size : ℕ) (dst : ℕ → UInt8) (c : UInt8) (src : ℕ → UInt8) (n : ℕ) :
    Option (ℕ → UInt8) :=
  forRange n dst fun dst j => do
    let x ← load size dst j
    let y ← load size src j
    store size dst j (x ^^^ gf256Mul c y)

def checkedScaleRow (st : DecodeState) (k col : ℕ) : Option DecodeState := do
  let row ← load maxK st.mat col
  let diag ← load maxK row col
  let inv := gf256Inv diag
  let row ← checkedScale maxK row inv k
  let mat ← store maxK st.mat col row
  let len ← load maxK st.dlen col
  let bytes ← load maxK st.dat col
  let bytes ← checkedScale maxPayload bytes inv len.toNat
  let dat ← store maxK st.dat col bytes
  some { st with mat := mat, dat := dat }

def checkedEliminateRow (k col : ℕ) (st : DecodeState) (row : ℕ) : Option DecodeState :=
  if row = col then some st
  else do
    let factor ← load2 maxK maxK st.mat row col
    if factor = 0 then some st
    else do
      let rowC ← load maxK st.mat col
      let rowR ← load maxK st.mat row
      let rowR ← checkedAxpy maxK rowR factor rowC k
      let mat ← store maxK st.mat row rowR
      let lenR ← load maxK st.dlen row
      let lenC ← load maxK st.dlen col
      let dataLen := if lenC < lenR then lenR else lenC
      let bytesC ← load maxK st.dat col
      let bytesR ← load maxK st.dat row
      let bytesR ← checkedAxpy maxPayload bytesR factor bytesC dataLen.toNat
      let dat ← store maxK st.dat row bytesR
      some { st with mat := mat, dat := dat }

/-- One turn of the loop over columns; the inner `none` is a column without pivot. -/
def checkedEliminateColumn (k : ℕ) (st : DecodeState) (col : ℕ) :
    Option (Option DecodeState) := do
  match ← checkedFindPivot st k col with
  | none => some none
  | some pivot => do
      let st ← checkedSwapRows st k col pivot
      let st ← checkedScaleRow st k col
      let st ← forRange k st (checkedEliminateRow k col)
      some (some st)

/-- The same for a loop that ends at a column without pivot. -/
def checkedNextColumn (k : ℕ) : Option DecodeState → ℕ → Option (Option DecodeState)
  | none, _ => some none
  | some st, col => checkedEliminateColumn k st col

def checkedEliminate (k : ℕ) (st : DecodeState) : Option (Option DecodeState) :=
  forRange k (some st) (checkedNextColumn k)

/-- One turn of the loop that fills the caller's buffers. -/
def checkedCopyOut (st : DecodeState) (o : DecodeOut) (i : ℕ) : Option DecodeOut := do
  let bytes ← load maxK st.dat i
  let len ← load maxK st.dlen i
  let dst ← load maxK o.out i
  let dst ← checkedMemcpy maxPayload dst maxPayload bytes len.toNat
  let out ← store maxK o.out i dst
  let outLen ← store maxK o.outLen i len
  some { out := out, outLen := outLen }

def checkedDecodeBlock (locals : DecodeState) (res : DecodeOut) (shards : ℕ → Shard) (k : ℕ) :
    Option (Option DecodeOut) := do
  let st ← checkedLoadShards locals shards k
  match ← checkedEliminate k st with
  | none => some none
  | some st => do
      let o ← forRange k res (checkedCopyOut st)
      some (some o)

/-! ## `rx_window_try_decode` -/

def checkedIpPacketLength (pkt : Bytes) (paddedLen : UInt16) : Option UInt16 :=
  if 20 ≤ paddedLen then do
    let b ← load maxPayload pkt 0
    let version := (b >>> 4) &&& 0x0F
    if version = 4 then do
      let field ← slice maxPayload pkt 2 2
      let total := readBe16 field 0
      some (if 20 ≤ total ∧ total ≤ paddedLen then total else paddedLen)
    else if version = 6 ∧ 40 ≤ paddedLen then do
      let field ← slice maxPayload pkt 4 2
      let total := readBe16 field 0 + 40
      some (if 40 ≤ total ∧ total ≤ paddedLen then total else paddedLen)
    else some paddedLen
  else some paddedLen

/-- `tun_write` of the first `len` bytes of a packet buffer. -/
def checkedTunWrite (pkt : Bytes) (len : ℕ) : Option (List UInt8) := do
  let bytes ← slice maxPayload pkt 0 len
  some (prefixList bytes len)

/-- One turn of the loop that fills `k_shards`; `acc` has the number of shards collected. -/
def checkedCollectNext (blk : RxBlock) (k : ℕ) (acc : (ℕ → Shard) × ℕ) (i : ℕ) :
    Option ((ℕ → Shard) × ℕ) :=
  if acc.2 < k then do
    let received ← load maxN blk.received i
    if received then do
      let s ← load maxN blk.shards i
      let shards ← store maxK acc.1 acc.2 s
      some (shards, acc.2 + 1)
    else some acc
  else some acc

def checkedCollect (blk : RxBlock) (k : ℕ) : Option ((ℕ → Shard) × ℕ) :=
  forRange maxN (fun _ => ⟨fun _ => 0, fun _ => 0, 0⟩, 0) (checkedCollectNext blk k)

/-- One turn of the loop that writes the packets. -/
def checkedWritePacket (o : DecodeOut) (i : ℕ) : Option (List UInt8) := do
  let pkt ← load maxK o.out i
  let len ← load maxK o.outLen i
  let ipLen ← checkedIpPacketLength pkt len
  checkedTunWrite pkt ipLen.toNat

def checkedTryDecode (blk : RxBlock) (k : ℕ) (garbage : StackGarbage) :
    Option (RxBlock × Bool × List (List UInt8)) :=
  if blk.decoded then some (blk, false, [])
  else if blk.recvCount < k then some (blk, false, [])
  else do
    let (shards, _) ← checkedCollect blk k
    match ← checkedDecodeBlock garbage.locals garbage.out shards k with
    | none => some (blk, false, [])
    | some o => do
        let writes ← (List.range k).mapM (checkedWritePacket o)
        some ({ blk with decoded := true }, true, writes)

def checkedWindowTryDecode (win : RxWindow) (blockId : UInt32) (k windowSize : ℕ)
    (garbage : StackGarbage) : Option (RxWindow × Bool × List (List UInt8)) := do
  match ← checkedRxFind win blockId windowSize with
  | (win, none) => some (win, false, [])
  | (win, some i) => do
      let blk ← load maxWindow win.slots i
      let (blk, ok, writes) ← checkedTryDecode blk k garbage
      let slots ← store maxWindow win.slots i blk
      some ({ win with slots := slots }, ok, writes)

/-! ## The turn of the event loop -/

def checkedBump (counter : ℕ → UInt64) (i : ℕ) : Option (ℕ → UInt64) := do
  let c ← load maxPaths counter i
  store maxPaths counter i (c + 1)

/-- The datagram of one turn; the inner `none` means that `fuel` turns of
`rx_window_advance` were not enough. -/
def checkedMainRx (fuel : ℕ) (st : MainState) (inp : MainInput) :
    Option (Option (MainState × Option RxOutput × List (ℕ × List UInt8))) :=
  match inp.arrival with
  | none => some (some (st, none, []))
  | some r => do
      match ← checkedTransportRecv st.tctx r.dgram r.garbage.shardIn with
      | .error => some (some (st, none, []))
      | .data hdr shard path =>
          if st.isRx then do
            let received ← checkedBump st.metrics.shardsReceived path
            let win ← checkedInsert st.rxWin hdr shard st.cfg.windowSize.toNat st.crypto r.insertUs
            let (win, ok, writes) ← checkedWindowTryDecode win hdr.blockId hdr.k.toNat
              st.cfg.windowSize.toNat r.garbage
            match rxWindowAdvance fuel win st.cfg.windowSize.toNat r.advanceUs with
            | none => some none
            | some (win, moves) =>
                some (some ({ st with
                  rxWin := win
                  metrics := { st.metrics with
                    shardsReceived := received
                    decodeSuccess := if ok then st.metrics.decodeSuccess + 1
                      else st.metrics.decodeSuccess } },
                  some ⟨if ok then some ⟨hdr.blockId, writes⟩ else none, moves⟩, []))
          else some (some (st, none, []))
      | .probe ts path => do
          let _ ← load maxPaths st.tctx.paths path
          some (some (st, none, if sendBuf st.tctx path inp.echoAccepted then
            [(path, probeDatagram typeProbeEcho ts)] else []))
      | .probeEcho ts path =>
          if st.isTx then do
            let _ ← load maxPaths st.sctx.paths path
            some (some ({ st with
              sctx := strategyUpdateProbe st.sctx path (inp.echoUs - ts) true }, none, []))
          else some (some (st, none, []))

/-- One turn of the loop whose receive path is checked. -/
def checkedMainStep (fuel : ℕ) (st : MainState) (inp : MainInput) :
    Option (Option (MainState × MainOutput)) :=
  match inp.reload with
  | some newCfg => some (some (mainReload st newCfg, ⟨[], [], [], none⟩))
  | none =>
      if inp.selectFailed then some (some (st, ⟨[], [], [], none⟩))
      else
        let (st, flushed₁, sent₁) := mainRead st inp
        let (st, flushed₂, sent₂) := mainTimeout st inp
        match checkedMainRx fuel st inp with
        | none => none
        | some none => some none
        | some (some (st, rx, sent₃)) =>
            let (st, probed) := mainProbe st inp
            some (some (st,
              { flushed := flushed₁ ++ flushed₂
                sent := sent₁ ++ sent₂ ++ sent₃ ++
                  probed.map fun p => (p, probeDatagram typeProbe inp.probeUs)
                probed := probed
                rx := rx }))

end CodingGateway.Model
