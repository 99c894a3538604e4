import Mathlib.Algebra.Group.Nat.Defs
import Mathlib.Data.Nat.Notation
import Mathlib.Data.Int.Notation
set_option autoImplicit false

/-!
# Serial numbers

Numbers modulo `2 ^ w` in circular order.  `ahead a b` counts the steps from `a`
forward to `b`; the signed difference of two numbers says which of them is ahead.
-/

namespace CodingGateway.Library.SerialNumber

variable {w : ℕ}

/-- The number of steps from `a` forward to `b`. -/
def ahead (a b : BitVec w) : ℕ := (b - a).toNat

theorem ahead_lt (a b : BitVec w) : ahead a b < 2 ^ w := (b - a).isLt

@[simp] theorem ahead_self (a : BitVec w) : ahead a a = 0 := by
  simp [ahead]

theorem eq_of_ahead_eq_zero {a b : BitVec w} (h : ahead a b = 0) : b = a := by
  have hzero : b - a = 0#w := BitVec.eq_of_toNat_eq (by simpa [ahead] using h)
  rw [← BitVec.sub_add_cancel b a, hzero, BitVec.zero_add]

theorem ahead_trans (a b c : BitVec w) : ahead a c = (ahead a b + ahead b c) % 2 ^ w := by
  have hsub : c - a = (b - a) + (c - b) := by
    rw [BitVec.sub_eq_add_neg, BitVec.sub_eq_add_neg, BitVec.sub_eq_add_neg, BitVec.add_comm b,
      BitVec.add_assoc, ← BitVec.add_assoc b c, BitVec.add_comm b c, BitVec.add_assoc c b,
      ← BitVec.sub_eq_add_neg b b, BitVec.sub_self, BitVec.add_zero, BitVec.add_comm]
  simp only [ahead]
  rw [hsub, BitVec.toNat_add]

theorem ahead_add_ofNat (a : BitVec w) {n : ℕ} (hn : n < 2 ^ w) :
    ahead a (a + BitVec.ofNat w n) = n := by
  rw [ahead, BitVec.add_comm, BitVec.add_sub_cancel, BitVec.toNat_ofNat, Nat.mod_eq_of_lt hn]

theorem add_ofNat_ahead (a b : BitVec w) : a + BitVec.ofNat w (ahead a b) = b := by
  rw [ahead, BitVec.ofNat_toNat, BitVec.setWidth_eq, BitVec.add_comm, BitVec.sub_add_cancel]

theorem ahead_add_one {a b : BitVec w} (h : 0 < ahead a b) :
    ahead (a + 1#w) b = ahead a b - 1 := by
  have hlt := ahead_lt a b
  have hone : 1 < 2 ^ w := by omega
  have hstep : ahead a (a + 1#w) = 1 := ahead_add_ofNat a hone
  have htrans := ahead_trans a (a + 1#w) b
  have hlt' := ahead_lt (a + 1#w) b
  rw [hstep] at htrans
  rcases Nat.lt_or_ge (1 + ahead (a + 1#w) b) (2 ^ w) with hsmall | hbig
  · rw [Nat.mod_eq_of_lt hsmall] at htrans
    omega
  · have hfull : 1 + ahead (a + 1#w) b = 2 ^ w := by omega
    rw [hfull, Nat.mod_self] at htrans
    omega

theorem ahead_add_one_self (hw : 0 < w) (a : BitVec w) : ahead (a + 1#w) a = 2 ^ w - 1 := by
  have hone : 1 < 2 ^ w := Nat.one_lt_two_pow (by omega)
  have hstep : ahead a (a + 1#w) = 1 := ahead_add_ofNat a hone
  have htrans := ahead_trans a (a + 1#w) a
  have hlt := ahead_lt (a + 1#w) a
  rw [hstep, ahead_self] at htrans
  rcases Nat.lt_or_ge (1 + ahead (a + 1#w) a) (2 ^ w) with hsmall | hbig
  · rw [Nat.mod_eq_of_lt hsmall] at htrans
    omega
  · omega

/-! ## The signed difference -/

theorem toInt_sub_neg_iff (a b : BitVec w) : (b - a).toInt < 0 ↔ 2 ^ w ≤ 2 * ahead a b :=
  BitVec.toInt_neg_iff

theorem le_toInt_sub_iff (a b : BitVec w) (n : ℕ) :
    (n : ℤ) ≤ (b - a).toInt ↔ n ≤ ahead a b ∧ 2 * ahead a b < 2 ^ w := by
  have hlt := ahead_lt a b
  rw [BitVec.toInt_eq_toNat_cond]
  change (n : ℤ) ≤ (if 2 * ahead a b < 2 ^ w then (ahead a b : ℤ)
    else (ahead a b : ℤ) - ((2 ^ w : ℕ) : ℤ)) ↔ _
  by_cases hsmall : 2 * ahead a b < 2 ^ w
  · rw [if_pos hsmall]
    omega
  · rw [if_neg hsmall]
    omega

end CodingGateway.Library.SerialNumber
