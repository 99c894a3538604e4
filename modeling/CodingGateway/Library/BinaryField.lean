import Mathlib.RingTheory.AdjoinRoot
import Mathlib.Algebra.Field.ZMod
import Mathlib.Tactic.Ring
import Mathlib.Tactic.LinearCombination
set_option autoImplicit false

/-!
# Binary extension rings by repeated doubling

A `w`-bit word is read as a polynomial over `F₂` of degree below `w`.  Addition
is exclusive or.  Multiplication modulo `X ^ w + r` is computed one bit of the
second factor at a time (Russian peasant): add the running multiple when the low
bit is set, double the multiple, drop the bit.

The main result, `residue_peasantMul`, says that this loop computes the product
in `F₂[X] / (X ^ w + r)`.  Since `residue` is injective, every ring law of the
quotient transfers to words.
-/

namespace CodingGateway.Library.BinaryField

open Polynomial

variable {w : Nat}

/-! ## Words as polynomials -/

/-- The coefficient that one bit contributes. -/
def bitCoeff (b : Bool) : ZMod 2 := if b then 1 else 0

/-- The polynomial whose coefficient of `X ^ i` is bit `i` of the word. -/
noncomputable def polyOfWord (a : BitVec w) : (ZMod 2)[X] :=
  ∑ i ∈ Finset.range w, C (bitCoeff (a.getLsbD i)) * X ^ i

theorem coeff_polyOfWord (a : BitVec w) (i : Nat) :
    (polyOfWord a).coeff i = bitCoeff (a.getLsbD i) := by
  rw [polyOfWord, finsetSum_coeff]
  simp only [coeff_C_mul_X_pow]
  by_cases hi : i < w
  · simp [hi]
  · have hbit : a.getLsbD i = false := BitVec.getLsbD_of_ge a i (by omega)
    simp [hi, bitCoeff, hbit]

theorem bitCoeff_xor (b c : Bool) : bitCoeff (b ^^ c) = bitCoeff b + bitCoeff c := by
  cases b <;> cases c <;> decide

theorem polyOfWord_zero : polyOfWord (0#w) = 0 := by
  ext i
  simp [coeff_polyOfWord, bitCoeff]

theorem polyOfWord_xor (a b : BitVec w) : polyOfWord (a ^^^ b) = polyOfWord a + polyOfWord b := by
  ext i
  simp only [coeff_polyOfWord, coeff_add, BitVec.getLsbD_xor, bitCoeff_xor]

theorem polyOfWord_injective : Function.Injective (polyOfWord (w := w)) := by
  intro a b h
  apply BitVec.eq_of_getLsbD_eq
  intro i _
  have hi := congrArg (fun p : (ZMod 2)[X] => p.coeff i) h
  simp only [coeff_polyOfWord] at hi
  revert hi
  cases a.getLsbD i <;> cases b.getLsbD i <;> simp [bitCoeff]

theorem degree_polyOfWord_lt (a : BitVec w) : (polyOfWord a).degree < w := by
  rw [degree_lt_iff_coeff_zero]
  intro i hi
  rw [coeff_polyOfWord, BitVec.getLsbD_of_ge a i hi]
  rfl

theorem polyOfWord_eq_low_add (a : BitVec w) :
    polyOfWord a = C (bitCoeff (a.getLsbD 0)) + X * polyOfWord (a >>> 1) := by
  ext i
  rw [coeff_polyOfWord, coeff_add]
  cases i with
  | zero => simp
  | succ i =>
      rw [coeff_C_succ, coeff_X_mul, coeff_polyOfWord, BitVec.getLsbD_ushiftRight,
        zero_add, Nat.add_comm]

theorem X_mul_polyOfWord (a : BitVec w) (hw : 0 < w) :
    X * polyOfWord a = polyOfWord (a <<< 1) + C (bitCoeff a.msb) * X ^ w := by
  ext i
  rw [coeff_add, coeff_C_mul_X_pow]
  cases i with
  | zero => simp [coeff_polyOfWord, bitCoeff, hw, hw.ne]
  | succ i =>
      rw [coeff_X_mul, coeff_polyOfWord, coeff_polyOfWord, BitVec.getLsbD_shiftLeft]
      rcases lt_trichotomy (i + 1) w with hlt | heq | hgt
      · simp [hlt, hlt.ne]
      · subst heq
        simp [bitCoeff, BitVec.msb_eq_getLsbD_last]
      · have hbit : a.getLsbD i = false := BitVec.getLsbD_of_ge a i (by omega)
        simp [hbit, bitCoeff, hgt.ne', show ¬ i + 1 < w by omega]

/-! ## Reduction modulo `X ^ w + r` -/

/-- The modulus whose low part is the reduction constant `r`. -/
noncomputable def modulus (r : BitVec w) : (ZMod 2)[X] := X ^ w + polyOfWord r

theorem modulus_monic (r : BitVec w) : (modulus r).Monic :=
  monic_X_pow_add (degree_polyOfWord_lt r)

theorem degree_modulus (r : BitVec w) : (modulus r).degree = w := by
  rw [modulus, degree_add_eq_left_of_degree_lt, degree_X_pow]
  rw [degree_X_pow]
  exact degree_polyOfWord_lt r

/-- The residue class of a word modulo `X ^ w + r`. -/
noncomputable def residue (r : BitVec w) (a : BitVec w) : AdjoinRoot (modulus r) :=
  AdjoinRoot.mk (modulus r) (polyOfWord a)

theorem residue_injective (r : BitVec w) : Function.Injective (residue r) := by
  intro a b h
  have hdvd : modulus r ∣ polyOfWord a - polyOfWord b := AdjoinRoot.mk_eq_mk.mp h
  have hdeg : (polyOfWord a - polyOfWord b).degree < (modulus r).degree := by
    rw [degree_modulus]
    exact (degree_sub_le _ _).trans_lt
      (max_lt (degree_polyOfWord_lt a) (degree_polyOfWord_lt b))
  by_contra hne
  exact (modulus_monic r).not_dvd_of_degree_lt
    (sub_ne_zero.mpr (polyOfWord_injective.ne hne)) hdeg hdvd

theorem residue_zero (r : BitVec w) : residue r 0#w = 0 := by
  rw [residue, polyOfWord_zero, map_zero]

theorem residue_xor (r a b : BitVec w) :
    residue r (a ^^^ b) = residue r a + residue r b := by
  rw [residue, polyOfWord_xor, map_add]
  rfl

theorem residue_add_self (r a : BitVec w) : residue r a + residue r a = 0 := by
  rw [← residue_xor, BitVec.xor_self, residue_zero]

/-! ## The doubling loop -/

/-- Multiply the running multiple by `X`: shift, and reduce when a bit is lost. -/
def double (r a : BitVec w) : BitVec w :=
  if a.msb then (a <<< 1) ^^^ r else a <<< 1

/-- `rounds` turns of the loop, with accumulator `p`, multiple `aa` and the
remaining bits `bb` of the second factor. -/
def peasantLoop (r : BitVec w) : Nat → BitVec w → BitVec w → BitVec w → BitVec w
  | 0, p, _, _ => p
  | rounds + 1, p, aa, bb =>
      peasantLoop r rounds (if bb.getLsbD 0 then p ^^^ aa else p) (double r aa) (bb >>> 1)

/-- The product of two words: one round for each bit of the second factor. -/
def peasantMul (r a b : BitVec w) : BitVec w := peasantLoop r w 0#w a b

theorem residue_double (r a : BitVec w) (hw : 0 < w) :
    residue r (double r a) = AdjoinRoot.root (modulus r) * residue r a := by
  have hmod : AdjoinRoot.mk (modulus r) (X ^ w) = AdjoinRoot.mk (modulus r) (polyOfWord r) := by
    rw [AdjoinRoot.mk_eq_mk]
    refine ⟨1, ?_⟩
    rw [modulus, mul_one, sub_eq_add_neg, CharTwo.neg_eq]
  have hshift : AdjoinRoot.root (modulus r) * residue r a =
      residue r (a <<< 1) + AdjoinRoot.mk (modulus r) (C (bitCoeff a.msb)) * residue r r := by
    rw [residue, residue, residue, ← AdjoinRoot.mk_X, ← map_mul, X_mul_polyOfWord a hw,
      map_add, map_mul, hmod]
  rw [hshift, double]
  cases a.msb with
  | false => simp [bitCoeff]
  | true => simp [bitCoeff, residue_xor]

theorem residue_peasantLoop (r : BitVec w) (hw : 0 < w) (rounds : Nat)
    (p aa bb : BitVec w) (hbits : ∀ i, rounds ≤ i → bb.getLsbD i = false) :
    residue r (peasantLoop r rounds p aa bb) =
      residue r p + residue r aa * residue r bb := by
  induction rounds generalizing p aa bb with
  | zero =>
      have hbb : bb = 0#w := BitVec.eq_of_getLsbD_eq (fun i _ => by simp [hbits])
      rw [peasantLoop, hbb, residue_zero, mul_zero, add_zero]
  | succ rounds ih =>
      have hlow : residue r bb = AdjoinRoot.mk (modulus r) (C (bitCoeff (bb.getLsbD 0))) +
          AdjoinRoot.root (modulus r) * residue r (bb >>> 1) := by
        rw [residue, polyOfWord_eq_low_add bb, map_add, map_mul, AdjoinRoot.mk_X]
        rfl
      rw [peasantLoop, ih, residue_double r aa hw, hlow]
      · cases bb.getLsbD 0 with
        | false => simp [bitCoeff]; ring
        | true => simp [bitCoeff, residue_xor]; ring
      · intro i hi
        rw [BitVec.getLsbD_ushiftRight]
        exact hbits (1 + i) (by omega)

theorem residue_peasantMul (r a b : BitVec w) (hw : 0 < w) :
    residue r (peasantMul r a b) = residue r a * residue r b := by
  rw [peasantMul, residue_peasantLoop r hw w _ _ _ (fun i hi => BitVec.getLsbD_of_ge b i hi),
    residue_zero, zero_add]

end CodingGateway.Library.BinaryField
