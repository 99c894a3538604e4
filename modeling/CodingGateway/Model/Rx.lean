import CodingGateway.Model.Crypto
import CodingGateway.Model.Transport
set_option autoImplicit false

/-!
# The receive window (`rx.c`)

Shards are collected in a window of block slots.  A block is decoded from the
received shards of lowest index; `base_id` moves over blocks that are done.
-/

namespace CodingGateway.Model

def rxBlockTimeoutUs : UInt64 := 50000

/-- `struct rx_block`. -/
structure RxBlock where
  blockId : UInt32
  shards : ℕ → Shard
  received : ℕ → Bool
  recvCount : ℕ
  decoded : Bool
  firstRecvUs : UInt64

/-- `struct rx_window`. -/
structure RxWindow where
  slots : ℕ → RxBlock
  baseId : UInt32

/-- A slot after `memset(.., 0, ..)`. -/
def zeroBlock : RxBlock where
  blockId := 0
  shards _ := ⟨fun _ => 0, fun _ => 0, 0⟩
  received _ := false
  recvCount := 0
  decoded := false
  firstRecvUs := 0

/-- `rx_window_init`. -/
def rxWindowInit : RxWindow := ⟨fun _ => zeroBlock, 0⟩

/-- `(int32_t)(a - b)`: the serial-number difference of two block ids. -/
def serialDiff (a b : UInt32) : ℤ := (a - b).toBitVec.toInt

/-- Store into one slot. -/
def RxWindow.setSlot (win : RxWindow) (i : ℕ) (blk : RxBlock) : RxWindow :=
  { win with slots := Function.update win.slots i blk }

/-- `rx_find`: the slot of a block, allocated when it has none; `none` is `NULL`. -/
def rxFind (win : RxWindow) (blockId : UInt32) (windowSize : ℕ) : RxWindow × Option ℕ :=
  if serialDiff blockId win.baseId < 0 then (win, none)
  else if (windowSize : ℤ) ≤ serialDiff blockId win.baseId then (win, none)
  else
    match (List.range windowSize).find? fun i =>
      decide (0 < (win.slots i).recvCount) && (win.slots i).blockId == blockId with
    | some i => (win, some i)
    | none =>
        match (List.range windowSize).find? fun i => (win.slots i).recvCount == 0 with
        | some i => (win.setSlot i { zeroBlock with blockId := blockId }, some i)
        | none => (win, none)

/-- Store a shard in a slot; `nowUs` is what `now_us()` returns if it is called. -/
def storeShard (blk : RxBlock) (hdr : WireHeader) (s : Shard) (crypto : CryptoCtx)
    (nowUs : UInt64) : RxBlock :=
  let idx := hdr.shardIdx.toNat
  let s :=
    if crypto.enabled then
      { s with data := cryptoXor crypto s.data s.len.toNat (shardNonce hdr.blockId idx) }
    else s
  { blk with
    shards := Function.update blk.shards idx s
    received := Function.update blk.received idx true
    recvCount := blk.recvCount + 1
    firstRecvUs := if blk.recvCount + 1 = 1 then nowUs else blk.firstRecvUs }

/-- `rx_window_insert`. -/
def rxWindowInsert (win : RxWindow) (hdr : WireHeader) (s : Shard) (windowSize : ℕ)
    (crypto : CryptoCtx) (nowUs : UInt64) : RxWindow :=
  match rxFind win hdr.blockId windowSize with
  | (win, none) => win
  | (win, some i) =>
      let blk := win.slots i
      let idx := hdr.shardIdx.toNat
      if blk.decoded then win
      else if maxN ≤ idx then win
      else if blk.received idx then win
      else win.setSlot i (storeShard blk hdr s crypto nowUs)

/-! ## Decoding a block -/

/-- `ip_packet_length`. -/
def ipPacketLength (pkt : Bytes) (paddedLen : UInt16) : UInt16 :=
  if 20 ≤ paddedLen then
    let version := (pkt 0 >>> 4) &&& 0x0F
    if version = 4 then
      let total := readBe16 pkt 2
      if 20 ≤ total ∧ total ≤ paddedLen then total else paddedLen
    else if version = 6 ∧ 40 ≤ paddedLen then
      let total := readBe16 pkt 4 + 40
      if 40 ≤ total ∧ total ≤ paddedLen then total else paddedLen
    else paddedLen
  else paddedLen

/-- The indices of the first `k` received shards. -/
def collectShards (blk : RxBlock) (k : ℕ) : List ℕ :=
  ((List.range maxN).filter blk.received).take k

/-- The local `k_shards`, cleared and then filled with the collected shards. -/
def kShards (blk : RxBlock) (k : ℕ) : ℕ → Shard := fun i =>
  match (collectShards blk k)[i]? with
  | some idx => blk.shards idx
  | none => ⟨fun _ => 0, fun _ => 0, 0⟩

/-- Uninitialised locals of the receive path: the caller's shard, the working arrays of
`decode_block` and the output buffers of `try_decode`. -/
structure StackGarbage where
  shardIn : Shard
  locals : DecodeState
  out : DecodeOut

/-- `try_decode`: the block, the return value, and the buffers passed to `tun_write`. -/
def tryDecode (blk : RxBlock) (k : ℕ) (garbage : StackGarbage) :
    RxBlock × Bool × List (List UInt8) :=
  if blk.decoded then (blk, false, [])
  else if blk.recvCount < k then (blk, false, [])
  else
    match decodeBlock garbage.locals garbage.out (kShards blk k) k with
    | none => (blk, false, [])
    | some o =>
        ({ blk with decoded := true }, true,
          (List.range k).map fun i =>
            prefixList (o.out i) (ipPacketLength (o.out i) (o.outLen i)).toNat)

/-- `rx_window_try_decode`. -/
def rxWindowTryDecode (win : RxWindow) (blockId : UInt32) (k windowSize : ℕ)
    (garbage : StackGarbage) : RxWindow × Bool × List (List UInt8) :=
  match rxFind win blockId windowSize with
  | (win, none) => (win, false, [])
  | (win, some i) =>
      let (blk, ok, writes) := tryDecode (win.slots i) k garbage
      (win.setSlot i blk, ok, writes)

/-! ## Moving the window -/

/-- The occupied slot that holds `base_id`. -/
def baseSlot (win : RxWindow) (windowSize : ℕ) : Option ℕ :=
  (List.range windowSize).find? fun i =>
    decide (0 < (win.slots i).recvCount) && (win.slots i).blockId == win.baseId

/-- `has_newer`: an occupied slot holds a block ahead of `base_id`. -/
def hasNewer (win : RxWindow) (windowSize : ℕ) : Bool :=
  (List.range windowSize).any fun i =>
    decide (0 < (win.slots i).recvCount) && decide (0 < serialDiff (win.slots i).blockId win.baseId)

/-- The block may be given up: decoded, or its first shard is old enough. -/
def blockDone (blk : RxBlock) (nowUs : UInt64) : Bool :=
  blk.decoded || decide (rxBlockTimeoutUs ≤ nowUs - blk.firstRecvUs)

/-- One turn of the loop in `rx_window_advance`, and the value of `found` it ends with. -/
def advancePass (win : RxWindow) (windowSize : ℕ) (nowUs : UInt64) : RxWindow × Bool :=
  match baseSlot win windowSize with
  | some i =>
      if blockDone (win.slots i) nowUs then
        ({ win.setSlot i zeroBlock with baseId := win.baseId + 1 }, true)
      else if hasNewer win windowSize then ({ win with baseId := win.baseId + 1 }, true)
      else (win, false)
  | none =>
      if hasNewer win windowSize then ({ win with baseId := win.baseId + 1 }, true)
      else (win, false)

/-- The loop of `rx_window_advance` from its turn number `pass` on.  `nowUs p` is what
`now_us()` returns if turn `p` calls it.  The result is the window and the number of turns
that moved `base_id`; `none` means that `fuel` turns were not enough. -/
def advanceLoop (windowSize : ℕ) (nowUs : ℕ → UInt64) :
    ℕ → ℕ → RxWindow → Option (RxWindow × ℕ)
  | 0, _, _ => none
  | fuel + 1, pass, win =>
      match advancePass win windowSize (nowUs pass) with
      | (win, true) => advanceLoop windowSize nowUs fuel (pass + 1) win
      | (win, false) => some (win, pass)

/-- `rx_window_advance`. -/
def rxWindowAdvance (fuel : ℕ) (win : RxWindow) (windowSize : ℕ) (nowUs : ℕ → UInt64) :
    Option (RxWindow × ℕ) :=
  advanceLoop windowSize nowUs fuel 0 win

end CodingGateway.Model
