import CodingGateway.Model.Gf256
set_option autoImplicit false

/-!
# The block codec (`codec.c`)

`encodeBlock` turns `k` packets into `n` shards, the first `k` of them systematic;
`decodeBlock` recovers the packets from `k` shards by Gauss-Jordan elimination.
Local arrays that the C code leaves uninitialised are arguments here.
-/

namespace CodingGateway.Model

/-- `struct shard`. -/
structure Shard where
  coeffs : ℕ → UInt8
  data : Bytes
  len : UInt16

/-- `dst[i] ^= a * src[i]` for `i` in `[0, len)`. -/
def gfVecAxpy (dst : Bytes) (a : UInt8) (src : Bytes) (len : ℕ) : Bytes :=
  fun j => if j < len then dst j ^^^ gf256Mul a (src j) else dst j

/-! ## Encoding -/

/-- The maximum of `srcLen[0 .. k)`, as both `encode_block` and `tx_block_flush` compute it. -/
def maxLen (srcLen : ℕ → UInt16) (k : ℕ) : UInt16 :=
  (List.range k).foldl (fun m i => if m < srcLen i then srcLen i else m) 0

/-- The coefficient drawn by one call of `rand()`; zero is replaced by one. -/
def drawCoeff (r : ℕ) : UInt8 :=
  let c := UInt8.ofNat (r &&& 0xFF)
  if c = 0 then 1 else c

/-- One turn of the loop that builds a random linear combination. -/
def combineStep (src : ℕ → Bytes) (len : UInt16) (rand : ℕ → ℕ) (out : Shard) (i : ℕ) : Shard :=
  { out with
    coeffs := Function.update out.coeffs i (drawCoeff (rand i))
    data := gfVecAxpy out.data (drawCoeff (rand i)) (src i) len.toNat }

/-- The body of the loop over `s` in `encode_block`; `rand i` is the outcome of the
`rand()` call for coefficient `i` of this shard, `out` the caller's `out[s]`. -/
def encodeShard (src : ℕ → Bytes) (srcLen : ℕ → UInt16) (k : ℕ) (rand : ℕ → ℕ)
    (out : Shard) (s : ℕ) : Shard :=
  let len := maxLen srcLen k
  let cleared : Shard :=
    { coeffs := memset out.coeffs 0 0 k, data := memset out.data 0 0 len.toNat, len := len }
  if s < k then
    { cleared with
      coeffs := Function.update cleared.coeffs s 1
      data := memcpy cleared.data (src s) (srcLen s).toNat }
  else
    (List.range k).foldl (combineStep src len rand) cleared

/-- `encode_block`. -/
def encodeBlock (src : ℕ → Bytes) (srcLen : ℕ → UInt16) (k n : ℕ) (rand : ℕ → ℕ → ℕ)
    (out : ℕ → Shard) : ℕ → Shard :=
  fun s => if s < n then encodeShard src srcLen k (rand s) (out s) s else out s

/-! ## Decoding -/

/-- The working arrays `mat`, `dat` and `dlen` of `decode_block`. -/
structure DecodeState where
  mat : ℕ → ℕ → UInt8
  dat : ℕ → Bytes
  dlen : ℕ → UInt16

/-- Copy the `k` shards into the working arrays. -/
def loadShards (st : DecodeState) (shards : ℕ → Shard) (k : ℕ) : DecodeState where
  mat i := if i < k then memcpy (st.mat i) (shards i).coeffs k else st.mat i
  dat i := if i < k then memcpy (st.dat i) (shards i).data (shards i).len.toNat else st.dat i
  dlen i := if i < k then (shards i).len else st.dlen i

/-- The first row in `[col, k)` with a nonzero entry in column `col`. -/
def findPivot (st : DecodeState) (k col : ℕ) : Option ℕ :=
  (List.range' col (k - col)).find? (fun row => st.mat row col ≠ 0)

/-- Swap two rows: `k` coefficients, `MAX_PAYLOAD` bytes of data and the lengths. -/
def swapRows (st : DecodeState) (k col pivot : ℕ) : DecodeState :=
  if pivot = col then st
  else
    { mat := Function.update
        (Function.update st.mat col (memcpy (st.mat col) (st.mat pivot) k))
        pivot (memcpy (st.mat pivot) (st.mat col) k)
      dat := Function.update
        (Function.update st.dat col (memcpy (st.dat col) (st.dat pivot) maxPayload))
        pivot (memcpy (st.dat pivot) (st.dat col) maxPayload)
      dlen := Function.update (Function.update st.dlen col (st.dlen pivot)) pivot (st.dlen col) }

/-- Multiply the pivot row by the inverse of its pivot. -/
def scaleRow (st : DecodeState) (k col : ℕ) : DecodeState :=
  let inv := gf256Inv (st.mat col col)
  { st with
    mat := Function.update st.mat col
      (fun j => if j < k then gf256Mul inv (st.mat col j) else st.mat col j)
    dat := Function.update st.dat col
      (fun j => if j < (st.dlen col).toNat then gf256Mul inv (st.dat col j) else st.dat col j) }

/-- Clear column `col` in one row, over the larger of the two data lengths. -/
def eliminateRow (k col : ℕ) (st : DecodeState) (row : ℕ) : DecodeState :=
  if row = col ∨ st.mat row col = 0 then st
  else
    let factor := st.mat row col
    let dataLen := if st.dlen col < st.dlen row then st.dlen row else st.dlen col
    { st with
      mat := Function.update st.mat row (gfVecAxpy (st.mat row) factor (st.mat col) k)
      dat := Function.update st.dat row
        (gfVecAxpy (st.dat row) factor (st.dat col) dataLen.toNat) }

/-- One turn of the loop over columns; `none` when the column has no pivot. -/
def eliminateColumn (k : ℕ) (st : DecodeState) (col : ℕ) : Option DecodeState :=
  match findPivot st k col with
  | none => none
  | some pivot =>
      some ((List.range k).foldl (eliminateRow k col) (scaleRow (swapRows st k col pivot) k col))

/-- The buffers `out` and `out_len` of the caller. -/
structure DecodeOut where
  out : ℕ → Bytes
  outLen : ℕ → UInt16

/-- `decode_block`: `none` is the return value `-1`.  `locals` is what the uninitialised
working arrays hold on entry, `res` what the caller's buffers hold. -/
def decodeBlock (locals : DecodeState) (res : DecodeOut) (shards : ℕ → Shard) (k : ℕ) :
    Option DecodeOut :=
  ((List.range k).foldlM (eliminateColumn k) (loadShards locals shards k)).map fun st =>
    { out := fun i => if i < k then memcpy (res.out i) (st.dat i) (st.dlen i).toNat else res.out i
      outLen := fun i => if i < k then st.dlen i else res.outLen i }

end CodingGateway.Model
