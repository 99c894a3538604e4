import CodingGateway.Library.BinaryField
import CodingGateway.Model.Gf256
import Mathlib.GroupTheory.OrderOfElement
import Mathlib.Tactic.NormNum.Prime
set_option autoImplicit false

/-!
# The tables are the field `GF(2^8)`

Bytes with exclusive or and the table product embed into `F₂[X]` modulo
`X^8 + X^4 + X^3 + X^2 + 1` (0x11d), and the inverse table inverts.  The type
`GF256` wraps a byte so that it can carry this field structure: `UInt8` itself
is the ring of integers modulo 256.
-/

namespace CodingGateway.Proofs.FieldTables

open CodingGateway.Library.BinaryField
open CodingGateway.Model

/-- The reduction constant: the low eight bits of `0x11d`. -/
def reduction : BitVec 8 := 0x1d#8

/-! ## The table loop is the library's doubling loop -/

theorem double_toBitVec (aa : UInt8) :
    (if aa &&& 0x80 ≠ 0 then (aa <<< 1) ^^^ 0x1d else aa <<< 1).toBitVec =
      double reduction aa.toBitVec := by
  have hall : ∀ a : BitVec 8,
      (if UInt8.ofBitVec a &&& 0x80 ≠ 0 then (UInt8.ofBitVec a <<< 1) ^^^ 0x1d
        else UInt8.ofBitVec a <<< 1).toBitVec = double reduction a := by
    decide +kernel
  exact hall aa.toBitVec

theorem lowBit_toBitVec (bb : UInt8) : (bb &&& 1 ≠ 0) ↔ bb.toBitVec.getLsbD 0 = true := by
  have hall : ∀ b : BitVec 8,
      (UInt8.ofBitVec b &&& 1 ≠ 0) ↔ b.getLsbD 0 = true := by
    decide +kernel
  exact hall bb.toBitVec

theorem peasantRounds_toBitVec (rounds : ℕ) (p aa bb : UInt8) :
    (peasantRounds rounds p aa bb).toBitVec =
      peasantLoop reduction rounds p.toBitVec aa.toBitVec bb.toBitVec := by
  induction rounds generalizing p aa bb with
  | zero => rfl
  | succ rounds ih =>
      rw [peasantRounds, peasantLoop, ih, double_toBitVec]
      by_cases hbit : bb &&& 1 ≠ 0
      · simp only [if_pos hbit, if_pos ((lowBit_toBitVec bb).mp hbit)]
        rfl
      · simp only [if_neg hbit, if_neg (mt (lowBit_toBitVec bb).mpr hbit)]
        rfl

theorem gf256Mul_toBitVec (a b : UInt8) :
    (gf256Mul a b).toBitVec = peasantMul reduction a.toBitVec b.toBitVec :=
  peasantRounds_toBitVec 8 0 a b

/-! ## Ring structure -/

/-- A byte as an element of the field with 256 elements. -/
@[ext] structure GF256 where
  byte : UInt8
deriving DecidableEq

namespace GF256

instance : Zero GF256 := ⟨⟨0⟩⟩
instance : One GF256 := ⟨⟨1⟩⟩
instance : Add GF256 := ⟨fun a b => ⟨gf256Add a.byte b.byte⟩⟩
instance : Mul GF256 := ⟨fun a b => ⟨gf256Mul a.byte b.byte⟩⟩
instance : Neg GF256 := ⟨id⟩
instance : Inv GF256 := ⟨fun a => ⟨gf256Inv a.byte⟩⟩

@[simp] theorem byte_zero : (0 : GF256).byte = 0 := rfl
@[simp] theorem byte_one : (1 : GF256).byte = 1 := rfl
@[simp] theorem byte_add (a b : GF256) : (a + b).byte = a.byte ^^^ b.byte := rfl
@[simp] theorem byte_mul (a b : GF256) : (a * b).byte = gf256Mul a.byte b.byte := rfl
@[simp] theorem byte_inv (a : GF256) : (a⁻¹).byte = gf256Inv a.byte := rfl

/-- The residue class of a byte in `F₂[X] / (0x11d)`. -/
noncomputable def toQuotient (a : GF256) : AdjoinRoot (modulus reduction) :=
  residue reduction a.byte.toBitVec

theorem toQuotient_injective : Function.Injective toQuotient := by
  intro a b h
  exact GF256.ext (UInt8.toBitVec_inj.mp (residue_injective reduction h))

theorem toQuotient_zero : toQuotient 0 = 0 := residue_zero reduction

theorem toQuotient_one : toQuotient 1 = 1 := by
  have hpoly : polyOfWord (1#8) = 1 := by
    ext i
    rw [coeff_polyOfWord, Polynomial.coeff_one, BitVec.getLsbD_one]
    by_cases hi : i = 0 <;> simp [bitCoeff, hi]
  change AdjoinRoot.mk (modulus reduction) (polyOfWord (1#8)) = 1
  rw [hpoly, map_one]

theorem toQuotient_add (a b : GF256) : toQuotient (a + b) = toQuotient a + toQuotient b :=
  residue_xor reduction a.byte.toBitVec b.byte.toBitVec

theorem toQuotient_mul (a b : GF256) : toQuotient (a * b) = toQuotient a * toQuotient b := by
  rw [toQuotient, byte_mul, gf256Mul_toBitVec]
  exact residue_peasantMul reduction _ _ (by decide)

/-- Every ring law holds because it holds in the quotient. -/
instance : CommRing GF256 where
  add_assoc a b c := toQuotient_injective (by simp only [toQuotient_add, add_assoc])
  zero_add a := toQuotient_injective (by simp only [toQuotient_add, toQuotient_zero, zero_add])
  add_zero a := toQuotient_injective (by simp only [toQuotient_add, toQuotient_zero, add_zero])
  add_comm a b := toQuotient_injective (by simp only [toQuotient_add, add_comm])
  neg_add_cancel a := toQuotient_injective (by
    rw [toQuotient_add, toQuotient_zero]
    exact residue_add_self reduction a.byte.toBitVec)
  mul_assoc a b c := toQuotient_injective (by simp only [toQuotient_mul, mul_assoc])
  one_mul a := toQuotient_injective (by simp only [toQuotient_mul, toQuotient_one, one_mul])
  mul_one a := toQuotient_injective (by simp only [toQuotient_mul, toQuotient_one, mul_one])
  mul_comm a b := toQuotient_injective (by simp only [toQuotient_mul, mul_comm])
  zero_mul a := toQuotient_injective (by simp only [toQuotient_mul, toQuotient_zero, zero_mul])
  mul_zero a := toQuotient_injective (by simp only [toQuotient_mul, toQuotient_zero, mul_zero])
  left_distrib a b c := toQuotient_injective (by
    simp only [toQuotient_mul, toQuotient_add, mul_add])
  right_distrib a b c := toQuotient_injective (by
    simp only [toQuotient_mul, toQuotient_add, add_mul])
  nsmul := nsmulRec
  zsmul := zsmulRec

/-! ## Inverses

The element `x` (byte 2) has order 255, so its powers are all nonzero bytes.
-/

instance : Fintype GF256 :=
  Fintype.ofEquiv (Fin 256)
    { toFun := fun i => ⟨UInt8.ofFin i⟩
      invFun := fun a => a.byte.toFin
      left_inv := fun _ => rfl
      right_inv := fun _ => rfl }

theorem card_eq : Fintype.card GF256 = 256 := by
  rw [Fintype.ofEquiv_card, Fintype.card_fin]

def generator : GF256 := ⟨2⟩

theorem orderOf_generator : orderOf generator = 255 := by
  apply orderOf_eq_of_pow_and_pow_div_prime (by decide) (by decide +kernel)
  intro p hp hdvd
  have hcases : p = 3 ∨ p = 5 ∨ p = 17 := by
    rw [show 255 = 3 * (5 * 17) by decide, hp.dvd_mul, hp.dvd_mul,
      Nat.prime_dvd_prime_iff_eq hp (by decide), Nat.prime_dvd_prime_iff_eq hp (by decide),
      Nat.prime_dvd_prime_iff_eq hp (by decide)] at hdvd
    exact hdvd
  rcases hcases with rfl | rfl | rfl <;> decide +kernel

theorem one_ne_zero : (1 : GF256) ≠ 0 := fun h => absurd (congrArg GF256.byte h) (by decide)

theorem generator_pow_ne_zero (i : ℕ) : generator ^ i ≠ 0 := by
  intro hzero
  have hone : (generator ^ i) ^ 255 = 1 := by
    rw [← pow_mul, mul_comm, pow_mul, ← orderOf_generator, pow_orderOf_eq_one, one_pow]
  rw [hzero, zero_pow (by decide)] at hone
  exact one_ne_zero hone.symm

theorem exists_generator_pow (a : GF256) (ha : a ≠ 0) : ∃ i, generator ^ i = a := by
  have hinj : Set.InjOn (generator ^ · : ℕ → GF256) (Finset.range 255) := by
    intro i hi j hj hij
    apply pow_injOn_Iio_orderOf _ _ hij
    · simpa [orderOf_generator] using hi
    · simpa [orderOf_generator] using hj
  have himage : (Finset.range 255).image (generator ^ ·) = Finset.univ.erase (0 : GF256) := by
    apply Finset.eq_of_subset_of_card_le
    · intro b hb
      obtain ⟨i, _, rfl⟩ := Finset.mem_image.mp hb
      exact Finset.mem_erase.mpr ⟨generator_pow_ne_zero i, Finset.mem_univ _⟩
    · rw [Finset.card_image_of_injOn hinj, Finset.card_erase_of_mem (Finset.mem_univ _),
        Finset.card_univ, card_eq, Finset.card_range]
  have hmem : a ∈ (Finset.range 255).image (generator ^ ·) := by
    rw [himage]
    exact Finset.mem_erase.mpr ⟨ha, Finset.mem_univ _⟩
  obtain ⟨i, _, hi⟩ := Finset.mem_image.mp hmem
  exact ⟨i, hi⟩

theorem exists_mul_eq_one (a : GF256) (ha : a ≠ 0) : ∃ b, a * b = 1 := by
  obtain ⟨i, rfl⟩ := exists_generator_pow a ha
  refine ⟨generator ^ (i * 254), ?_⟩
  rw [← pow_add, show i + i * 254 = 255 * i by ring, pow_mul, ← orderOf_generator,
    pow_orderOf_eq_one, one_pow]

theorem mul_invTable (a : UInt8) (ha : a ≠ 0) : mulTable a (invTable a) = 1 := by
  obtain ⟨b, hb⟩ := exists_mul_eq_one ⟨a⟩ (fun h => ha (congrArg GF256.byte h))
  have hprod : mulTable a b.byte = 1 := congrArg GF256.byte hb
  have hmem : b.byte.toNat ∈ List.range' 1 255 := by
    have hpos : b.byte.toNat ≠ 0 := by
      intro hzero
      have hbz : b = 0 := GF256.ext (UInt8.toNat_inj.mp hzero)
      rw [hbz, mul_zero] at hb
      exact one_ne_zero hb.symm
    have hlt := b.byte.toNat_lt
    rw [List.mem_range'_1]
    omega
  rw [invTable, if_neg ha]
  cases hfind : (List.range' 1 255).find? (fun b => mulTable a (UInt8.ofNat b) = 1) with
  | some b => simpa using List.find?_some hfind
  | none =>
      have hno := List.find?_eq_none.mp hfind _ hmem
      simp only [UInt8.ofNat_toNat, hprod, decide_true, not_true] at hno

instance : Field GF256 where
  exists_pair_ne := ⟨1, 0, one_ne_zero⟩
  mul_inv_cancel a ha := GF256.ext (mul_invTable a.byte (fun h => ha (GF256.ext h)))
  inv_zero := rfl
  nnqsmul := _
  nnqsmul_def := fun _ _ => rfl
  qsmul := _
  qsmul_def := fun _ _ => rfl

end GF256

end CodingGateway.Proofs.FieldTables
