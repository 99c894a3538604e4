import CodingGateway.Model.Crypto
import Mathlib.Logic.Function.Iterate
set_option autoImplicit false

/-!
# The payload cipher undoes itself

`crypto_xor` works word by word and then on the bytes left over.  Byte by byte it is
the exclusive or with a keystream that depends on the key and the nonce only, so the
same call on the other side restores the data.

* `cryptoXor_apply` — the call, byte by byte.
* `cryptoXor_stream` — with an enabled key it is a cipher on bytes, whatever the length.
-/

namespace CodingGateway.Proofs.Cipher

open CodingGateway.Model

/-- Byte `t` of a word. -/
def byteOf (word : UInt64) (t : ℕ) : UInt8 := (word >>> UInt64.ofNat (t * 8)).toUInt8

/-- Byte `t` of the keystream that starts at a state of the generator. -/
def streamByte (state : UInt64) (t : ℕ) : UInt8 := byteOf (xorshift64^[t / 8 + 1] state) (t % 8)

/-- Byte `t` of the keystream of a key and a nonce. -/
def keystream (key : ℕ → UInt8) (nonce : UInt64) (t : ℕ) : UInt8 :=
  streamByte (seedFromKeyNonce key nonce) t

theorem xorByte_apply (data : Bytes) (i : ℕ) (byte : UInt8) (t : ℕ) :
    xorByte data i byte t = if t = i then data t ^^^ byte else data t := by
  rw [xorByte, Function.update_apply]
  by_cases h : t = i
  · rw [if_pos h, if_pos h, h]
  · rw [if_neg h, if_neg h]

theorem xorWord_apply (data : Bytes) (i : ℕ) (ks : UInt64) (t : ℕ) :
    xorWord data i ks t =
      if i ≤ t ∧ t < i + 8 then data t ^^^ byteOf ks (t - i) else data t := by
  have hzero : ks.toUInt8 = byteOf ks 0 := by simp [byteOf]
  simp only [xorWord, xorByte_apply, hzero]
  by_cases hin : i ≤ t ∧ t < i + 8
  · rw [if_pos hin]
    obtain ⟨r, hr, rfl⟩ : ∃ r < 8, t = i + r := ⟨t - i, by omega, by omega⟩
    rw [Nat.add_sub_cancel_left]
    rcases (by omega : r = 0 ∨ r = 1 ∨ r = 2 ∨ r = 3 ∨ r = 4 ∨ r = 5 ∨ r = 6 ∨ r = 7) with
      rfl | rfl | rfl | rfl | rfl | rfl | rfl | rfl <;> simp <;> rfl
  · rw [if_neg hin]
    simp only [show ∀ r < 8, t ≠ i + r by omega, show t ≠ i by omega, if_false, Nat.reduceLT]

theorem xorWords_apply (data : Bytes) (state : UInt64) (words : ℕ) :
    (xorWords data state words).2 = xorshift64^[words] state ∧
      ∀ t, (xorWords data state words).1 t =
        if t < 8 * words then data t ^^^ streamByte state t else data t := by
  induction words with
  | zero => exact ⟨rfl, fun t => by simp [xorWords]⟩
  | succ words ih =>
      obtain ⟨hstate, hdata⟩ := ih
      have hstep : xorWords data state (words + 1) =
          (xorWord (xorWords data state words).1 (8 * words)
            (xorshift64 (xorWords data state words).2),
            xorshift64 (xorWords data state words).2) := by
        rw [xorWords, List.range_succ, List.foldl_append]
        rfl
      rw [hstep, hstate, ← Function.iterate_succ_apply' xorshift64 words state]
      refine ⟨rfl, fun t => ?_⟩
      dsimp only
      rw [xorWord_apply, hdata t]
      by_cases hword : 8 * words ≤ t ∧ t < 8 * words + 8
      · have hdiv : t / 8 = words := by omega
        have hmod : t % 8 = t - 8 * words := by omega
        rw [if_pos hword, if_neg (by omega), if_pos (by omega), streamByte, hdiv, hmod]
      · rw [if_neg hword]
        by_cases hlt : t < 8 * words
        · rw [if_pos hlt, if_pos (by omega)]
        · rw [if_neg hlt, if_neg (by omega)]

theorem xorTail_apply (data : Bytes) (i : ℕ) (ks : UInt64) (rest t : ℕ) :
    xorTail data i ks rest t =
      if i ≤ t ∧ t < i + rest then data t ^^^ byteOf ks (t - i) else data t := by
  induction rest with
  | zero =>
      rw [if_neg (by omega)]
      rfl
  | succ rest ih =>
      have hstep : xorTail data i ks (rest + 1) =
          xorByte (xorTail data i ks rest) (i + rest) (byteOf ks rest) := by
        rw [xorTail, List.range_succ, List.foldl_append]
        rfl
      rw [hstep, xorByte_apply, ih]
      by_cases hlast : t = i + rest
      · subst hlast
        rw [if_pos rfl, if_neg (by omega), if_pos (by omega), Nat.add_sub_cancel_left]
      · rw [if_neg hlast]
        by_cases hin : i ≤ t ∧ t < i + rest
        · rw [if_pos hin, if_pos (by omega)]
        · rw [if_neg hin, if_neg (by omega)]

theorem cryptoXor_apply (ctx : CryptoCtx) (data : Bytes) (len : ℕ) (nonce : UInt64) (t : ℕ) :
    cryptoXor ctx data len nonce t =
      if ctx.enabled = true ∧ t < len then data t ^^^ keystream ctx.key nonce t else data t := by
  unfold cryptoXor
  by_cases hon : ctx.enabled = true
  · rw [if_pos hon]
    obtain ⟨hstate, hdata⟩ :=
      xorWords_apply data (seedFromKeyNonce ctx.key nonce) (len / 8)
    rcases hwords : xorWords data (seedFromKeyNonce ctx.key nonce) (len / 8) with ⟨words, state⟩
    rw [hwords] at hstate hdata
    dsimp only at hstate hdata ⊢
    by_cases htail : 8 * (len / 8) < len
    · rw [if_pos htail, xorTail_apply, hdata t, hstate,
        ← Function.iterate_succ_apply' xorshift64 (len / 8)]
      by_cases hin : 8 * (len / 8) ≤ t ∧ t < 8 * (len / 8) + (len - 8 * (len / 8))
      · have hdiv : t / 8 = len / 8 := by omega
        have hmod : t % 8 = t - 8 * (len / 8) := by omega
        rw [if_pos hin, if_neg (by omega), if_pos ⟨hon, by omega⟩, keystream, streamByte, hdiv,
          hmod]
      · rw [if_neg hin]
        by_cases hlt : t < 8 * (len / 8)
        · rw [if_pos hlt, if_pos ⟨hon, by omega⟩, keystream]
        · rw [if_neg hlt, if_neg (by omega)]
    · rw [if_neg htail, hdata t]
      by_cases hlt : t < 8 * (len / 8)
      · rw [if_pos hlt, if_pos ⟨hon, by omega⟩, keystream]
      · rw [if_neg hlt, if_neg (by omega)]
  · rw [if_neg hon, if_neg fun h => hon h.1]

/-- The receiver's call restores what the sender's call was given. -/
theorem cryptoXor_restores (ctx : CryptoCtx) {data wire : Bytes} {len : ℕ} {nonce : UInt64}
    (hwire : ∀ t < len, wire t = cryptoXor ctx data len nonce t) :
    ∀ t < len, cryptoXor ctx wire len nonce t = data t := by
  intro t ht
  rw [cryptoXor_apply, hwire t ht, cryptoXor_apply]
  by_cases hon : ctx.enabled = true
  · rw [if_pos ⟨hon, ht⟩, if_pos ⟨hon, ht⟩, UInt8.xor_assoc, UInt8.xor_self, UInt8.xor_zero]
  · rw [if_neg fun h => hon h.1, if_neg fun h => hon h.1]

/-- **A stream cipher.** With a key, `crypto_xor` adds the same stream to every buffer of every
length and touches no byte behind it.  Twice it changes nothing, and a prefix is encrypted
to the prefix. -/
theorem cryptoXor_stream (key : ℕ → UInt8) (nonce : UInt64) (data : Bytes) (len : ℕ) :
    (∀ t, cryptoXor (cryptoInit (some key)) data len nonce t =
        if t < len then data t ^^^ keystream key nonce t else data t) ∧
      cryptoXor (cryptoInit (some key))
        (cryptoXor (cryptoInit (some key)) data len nonce) len nonce = data ∧
      ∀ m ≤ len, ∀ part : Bytes, (∀ t < m, part t = data t) →
        ∀ t < m, cryptoXor (cryptoInit (some key)) part m nonce t =
          cryptoXor (cryptoInit (some key)) data len nonce t := by
  have hbyte : ∀ (buf : Bytes) (n t : ℕ), cryptoXor (cryptoInit (some key)) buf n nonce t =
      if t < n then buf t ^^^ keystream key nonce t else buf t := by
    intro buf n t
    rw [cryptoXor_apply]
    simp only [cryptoInit, true_and]
  refine ⟨hbyte data len, ?_, fun m hm part hpart t ht => ?_⟩
  · funext t
    rw [hbyte, hbyte]
    by_cases ht : t < len
    · rw [if_pos ht, if_pos ht, UInt8.xor_assoc, UInt8.xor_self, UInt8.xor_zero]
    · rw [if_neg ht, if_neg ht]
  · rw [hbyte, hbyte, if_pos ht, if_pos (Nat.lt_of_lt_of_le ht hm), hpart t ht]

theorem cryptoXor_stream_elevenBytes :
    7 ≤ 11 ∧ (∀ t < 7, (fun _ => 5 : Bytes) t = (fun _ => 5 : Bytes) t) ∧
      ∀ t < 7, cryptoXor (cryptoInit (some fun _ => 3)) (fun _ => 5) 7 9 t =
        cryptoXor (cryptoInit (some fun _ => 3)) (fun _ => 5) 11 9 t :=
  ⟨by decide, fun _ _ => rfl,
    (cryptoXor_stream (fun _ => 3) 9 (fun _ => 5) 11).2.2 7 (by decide) _ fun _ _ => rfl⟩

end CodingGateway.Proofs.Cipher
