import CodingGateway.Model.Common
set_option autoImplicit false

/-!
# The payload cipher (`crypto.c`)

A shard's payload is exclusive-ored with the output of a 64-bit xorshift
generator, seeded from the key and a nonce.
-/

namespace CodingGateway.Model

def cryptoKeyLen : ℕ := 32

/-- `struct crypto_ctx`. -/
structure CryptoCtx where
  key : ℕ → UInt8
  enabled : Bool

/-- `crypto_init`; no key disables encryption. -/
def cryptoInit : Option (ℕ → UInt8) → CryptoCtx
  | some key => { key := key, enabled := true }
  | none => { key := fun _ => 0, enabled := false }

def fnvPrime : UInt64 := 0x100000001b3

def seedFromKeyNonce (key : ℕ → UInt8) (nonce : UInt64) : UInt64 :=
  let s := (List.range cryptoKeyLen).foldl (fun s i => (s ^^^ (key i).toUInt64) * fnvPrime)
    0xcbf29ce484222325
  let s := (s ^^^ nonce) * fnvPrime
  if s = 0 then 0x5A5A5A5A5A5A5A5A else s

/-- `xorshift64`: the new state, which is also the word it returns. -/
def xorshift64 (state : UInt64) : UInt64 :=
  let x := state
  let x := x ^^^ (x <<< 13)
  let x := x ^^^ (x >>> 7)
  x ^^^ (x <<< 17)

/-- `data[i] ^= byte`. -/
def xorByte (data : Bytes) (i : ℕ) (byte : UInt8) : Bytes :=
  Function.update data i (data i ^^^ byte)

/-- The unrolled body of the word loop at offset `i`. -/
def xorWord (data : Bytes) (i : ℕ) (ks : UInt64) : Bytes :=
  let data := xorByte data i ks.toUInt8
  let data := xorByte data (i + 1) (ks >>> 8).toUInt8
  let data := xorByte data (i + 2) (ks >>> 16).toUInt8
  let data := xorByte data (i + 3) (ks >>> 24).toUInt8
  let data := xorByte data (i + 4) (ks >>> 32).toUInt8
  let data := xorByte data (i + 5) (ks >>> 40).toUInt8
  let data := xorByte data (i + 6) (ks >>> 48).toUInt8
  xorByte data (i + 7) (ks >>> 56).toUInt8

/-- The loop `for (i = 0; i + 8 <= len; i += 8)`: it runs `len / 8` times. -/
def xorWords (data : Bytes) (state : UInt64) (words : ℕ) : Bytes × UInt64 :=
  (List.range words).foldl
    (fun (data, state) w => (xorWord data (8 * w) (xorshift64 state), xorshift64 state))
    (data, state)

/-- The loop over the last `len - i < 8` bytes. -/
def xorTail (data : Bytes) (i : ℕ) (ks : UInt64) (rest : ℕ) : Bytes :=
  (List.range rest).foldl
    (fun data j => xorByte data (i + j) (ks >>> UInt64.ofNat (j * 8)).toUInt8) data

/-- `crypto_xor`. -/
def cryptoXor (ctx : CryptoCtx) (data : Bytes) (len : ℕ) (nonce : UInt64) : Bytes :=
  if ctx.enabled then
    let (data, state) := xorWords data (seedFromKeyNonce ctx.key nonce) (len / 8)
    let i := 8 * (len / 8)
    if i < len then xorTail data i (xorshift64 state) (len - i) else data
  else data

/-- The nonce of a shard: `block_id << 8 | shard_idx`. -/
def shardNonce (blockId : UInt32) (shardIdx : ℕ) : UInt64 :=
  (blockId.toUInt64 <<< 8) ||| UInt64.ofNat shardIdx

end CodingGateway.Model
