import CodingGateway.Library.Xorshift
import CodingGateway.Proofs.Cipher
import Mathlib.Data.FinEnum
import Mathlib.Data.Fintype.EquivFin
set_option autoImplicit false

/-!
# The generator behind the keystream

`xorshift64` permutes the 64-bit words and fixes zero.  The seed is not zero, so no state
and no word that is taken from the generator is.

* `iterate_seed_ne_zero` — no number of steps leads from a seed to zero;
* `keystream_never_degenerates` — every complete group of eight bytes is changed.
-/

namespace CodingGateway.Proofs.Generator

open CodingGateway.Library
open CodingGateway.Model
open CodingGateway.Proofs.Cipher

/-! ## One step -/

theorem xorshift64_toBitVec (x : UInt64) :
    (xorshift64 x).toBitVec =
      Xorshift.xorLeft 17 (Xorshift.xorRight 7 (Xorshift.xorLeft 13 x.toBitVec)) := by
  simp [xorshift64, Xorshift.xorLeft, Xorshift.xorRight]

theorem xorshift64_injective : Function.Injective xorshift64 := by
  intro x y h
  have hbits := congrArg UInt64.toBitVec h
  rw [xorshift64_toBitVec, xorshift64_toBitVec] at hbits
  have h17 := Xorshift.xorLeft_injective (by decide) hbits
  have h7 := Xorshift.xorRight_injective (by decide) h17
  exact UInt64.toBitVec_inj.mp (Xorshift.xorLeft_injective (by decide) h7)

theorem xorshift64_bijective : Function.Bijective xorshift64 :=
  Finite.injective_iff_bijective.mp xorshift64_injective

theorem xorshift64_zero : xorshift64 0 = 0 := by
  decide

/-! ## Every number of steps -/

theorem iterate_ne_zero {x : UInt64} (hx : x ≠ 0) (steps : ℕ) : xorshift64^[steps] x ≠ 0 := by
  intro h
  have hzero : xorshift64^[steps] 0 = 0 := Function.iterate_fixed xorshift64_zero steps
  exact hx (xorshift64_injective.iterate steps (h.trans hzero.symm))

theorem seedFromKeyNonce_ne_zero (key : ℕ → UInt8) (nonce : UInt64) :
    seedFromKeyNonce key nonce ≠ 0 := by
  unfold seedFromKeyNonce
  dsimp only
  split_ifs with hzero
  · decide
  · exact hzero

theorem iterate_seed_ne_zero (key : ℕ → UInt8) (nonce : UInt64) (steps : ℕ) :
    xorshift64^[steps] (seedFromKeyNonce key nonce) ≠ 0 :=
  iterate_ne_zero (seedFromKeyNonce_ne_zero key nonce) steps

/-! ## The bytes of a word -/

theorem getLsbD_byteOf (x : UInt64) {t j : ℕ} (ht : t < 8) (hj : j < 8) :
    (byteOf x t).toBitVec.getLsbD j = x.toBitVec.getLsbD (t * 8 + j) := by
  have hshift : (UInt64.ofNat (t * 8)).toNat % 64 = t * 8 := by
    rw [UInt64.toNat_ofNat']
    omega
  have hbits : (byteOf x t).toBitVec = (x.toBitVec >>> (t * 8)).setWidth 8 := by
    rw [byteOf, UInt64.toBitVec_toUInt8, UInt64.toBitVec_shiftRight, BitVec.ushiftRight_eq',
      BitVec.toNat_umod]
    exact congrArg (fun n => (x.toBitVec >>> n).setWidth 8) hshift
  rw [hbits, BitVec.getLsbD_setWidth, BitVec.getLsbD_ushiftRight, decide_eq_true hj,
    Bool.true_and]

theorem eq_of_byteOf_eq {x y : UInt64} (h : ∀ t < 8, byteOf x t = byteOf y t) : x = y := by
  apply UInt64.toBitVec_inj.mp
  apply BitVec.eq_of_getLsbD_eq
  intro i hi
  have ht : i / 8 < 8 := by omega
  have hj : i % 8 < 8 := by omega
  have hsplit : i / 8 * 8 + i % 8 = i := by omega
  rw [← hsplit, ← getLsbD_byteOf x ht hj, ← getLsbD_byteOf y ht hj, h (i / 8) ht]

@[simp] theorem byteOf_zero (t : ℕ) : byteOf 0 t = 0 := by
  simp [byteOf]

theorem exists_byteOf_ne_zero {x : UInt64} (hx : x ≠ 0) : ∃ t < 8, byteOf x t ≠ 0 := by
  by_contra hnone
  apply hx
  apply eq_of_byteOf_eq
  intro t ht
  rw [byteOf_zero]
  by_contra hbyte
  exact hnone ⟨t, ht, hbyte⟩

/-! ## The keystream -/

theorem keystream_word (key : ℕ → UInt8) (nonce : UInt64) (w : ℕ) {t : ℕ} (ht : t < 8) :
    keystream key nonce (8 * w + t) =
      byteOf (xorshift64^[w + 1] (seedFromKeyNonce key nonce)) t := by
  have hdiv : (8 * w + t) / 8 = w := by omega
  have hmod : (8 * w + t) % 8 = t := by omega
  rw [keystream, streamByte, hdiv, hmod]

theorem exists_keystream_ne_zero (key : ℕ → UInt8) (nonce : UInt64) (w : ℕ) :
    ∃ t < 8, keystream key nonce (8 * w + t) ≠ 0 := by
  obtain ⟨t, ht, hbyte⟩ := exists_byteOf_ne_zero (iterate_seed_ne_zero key nonce (w + 1))
  refine ⟨t, ht, ?_⟩
  rw [keystream_word key nonce w ht]
  exact hbyte

theorem xor_ne_self {x y : UInt8} (hy : y ≠ 0) : x ^^^ y ≠ x := by
  intro h
  apply hy
  apply (UInt8.xor_right_inj x).mp
  rw [h, UInt8.xor_zero]

theorem exists_cryptoXor_ne {ctx : CryptoCtx} (hon : ctx.enabled = true) (nonce : UInt64)
    (data : Bytes) {len w : ℕ} (hw : 8 * w + 8 ≤ len) :
    ∃ t < 8, cryptoXor ctx data len nonce (8 * w + t) ≠ data (8 * w + t) := by
  obtain ⟨t, ht, hbyte⟩ := exists_keystream_ne_zero ctx.key nonce w
  refine ⟨t, ht, ?_⟩
  rw [cryptoXor_apply, if_pos ⟨hon, by omega⟩]
  exact xor_ne_self hbyte

/-- **The keystream never degenerates.** The generator permutes the words and does not reach
zero from a seed; so no word that either loop of `crypto_xor` takes is zero, and with a key
every complete group of eight bytes is changed. -/
theorem keystream_never_degenerates (key : ℕ → UInt8) (nonce : UInt64) :
    Function.Bijective xorshift64 ∧
      (∀ steps, xorshift64^[steps] (seedFromKeyNonce key nonce) ≠ 0) ∧
      (∀ data words, xorshift64 (xorWords data (seedFromKeyNonce key nonce) words).2 ≠ 0) ∧
      ∀ data len w, 8 * w + 8 ≤ len →
        ∃ t < 8, cryptoXor (cryptoInit (some key)) data len nonce (8 * w + t) ≠
          data (8 * w + t) := by
  refine ⟨xorshift64_bijective, iterate_seed_ne_zero key nonce, fun data words => ?_, ?_⟩
  · rw [(xorWords_apply data (seedFromKeyNonce key nonce) words).1,
      ← Function.iterate_succ_apply' xorshift64 words]
    exact iterate_seed_ne_zero key nonce (words + 1)
  · intro data len w hw
    exact exists_cryptoXor_ne rfl nonce data hw

/-- The second group of nineteen bytes. -/
theorem keystream_never_degenerates_secondGroup :
    8 * 1 + 8 ≤ 19 ∧ ∃ t < 8,
      cryptoXor (cryptoInit (some fun _ => 3)) (fun _ => 0) 19 1 (8 * 1 + t) ≠ 0 :=
  ⟨by decide, (keystream_never_degenerates (fun _ => 3) 1).2.2.2 (fun _ => 0) 19 1 (by decide)⟩

end CodingGateway.Proofs.Generator
