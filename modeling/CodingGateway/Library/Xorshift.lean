import Mathlib.Data.Nat.Notation
import Mathlib.Logic.Function.Basic
set_option autoImplicit false

/-!
# Xorshift steps are injective

A word is exclusive-ored with itself shifted by a fixed positive distance.  Two words
with the same result differ by a word that equals itself shifted, and shifting it again
and again leaves nothing.
-/

namespace CodingGateway.Library.Xorshift

variable {w a : ℕ}

/-- `x ^= x << a`. -/
def xorLeft (a : ℕ) (x : BitVec w) : BitVec w := x ^^^ (x <<< a)

/-- `x ^= x >> a`. -/
def xorRight (a : ℕ) (x : BitVec w) : BitVec w := x ^^^ (x >>> a)

theorem eq_zero_of_eq_shiftLeft (ha : 0 < a) {d : BitVec w} (hd : d = d <<< a) : d = 0#w := by
  have hmany : ∀ n, d = d <<< (n * a) := by
    intro n
    induction n with
    | zero => rw [Nat.zero_mul, BitVec.shiftLeft_zero]
    | succ n ih =>
        calc d = d <<< a := hd
          _ = (d <<< (n * a)) <<< a := by rw [← ih]
          _ = d <<< ((n + 1) * a) := by rw [← BitVec.shiftLeft_add, Nat.succ_mul]
  calc d = d <<< (w * a) := hmany w
    _ = 0#w := BitVec.shiftLeft_eq_zero (Nat.le_mul_of_pos_right w ha)

theorem eq_zero_of_eq_ushiftRight (ha : 0 < a) {d : BitVec w} (hd : d = d >>> a) : d = 0#w := by
  have hmany : ∀ n, d = d >>> (n * a) := by
    intro n
    induction n with
    | zero => rw [Nat.zero_mul, BitVec.ushiftRight_zero]
    | succ n ih =>
        calc d = d >>> a := hd
          _ = (d >>> (n * a)) >>> a := by rw [← ih]
          _ = d >>> ((n + 1) * a) := by rw [← BitVec.shiftRight_add, Nat.succ_mul]
  calc d = d >>> (w * a) := hmany w
    _ = 0#w := BitVec.ushiftRight_eq_zero (Nat.le_mul_of_pos_right w ha)

theorem eq_of_xor_eq {f : BitVec w → BitVec w} (hf : ∀ x y, f (x ^^^ y) = f x ^^^ f y)
    (hfix : ∀ d, d = f d → d = 0#w) {x y : BitVec w} (h : x ^^^ f x = y ^^^ f y) : x = y := by
  have hdiff : x ^^^ y = f (x ^^^ y) := by
    calc x ^^^ y = (x ^^^ f x) ^^^ y ^^^ f x := by
          rw [BitVec.xor_assoc, BitVec.xor_assoc, BitVec.xor_comm (f x), BitVec.xor_assoc,
            BitVec.xor_self, BitVec.xor_zero]
      _ = (y ^^^ f y) ^^^ y ^^^ f x := by rw [h]
      _ = f (x ^^^ y) := by
          rw [hf, BitVec.xor_comm y, BitVec.xor_assoc (f y), BitVec.xor_self, BitVec.xor_zero,
            BitVec.xor_comm]
  exact BitVec.xor_eq_zero_iff.mp (hfix _ hdiff)

theorem xorLeft_injective (ha : 0 < a) : Function.Injective (xorLeft a : BitVec w → BitVec w) := by
  intro x y h
  exact eq_of_xor_eq (fun x y => BitVec.shiftLeft_xor_distrib x y a)
    (fun d => eq_zero_of_eq_shiftLeft ha) h

theorem xorRight_injective (ha : 0 < a) :
    Function.Injective (xorRight a : BitVec w → BitVec w) := by
  intro x y h
  exact eq_of_xor_eq (fun x y => BitVec.ushiftRight_xor_distrib x y a)
    (fun d => eq_zero_of_eq_ushiftRight ha) h

end CodingGateway.Library.Xorshift
