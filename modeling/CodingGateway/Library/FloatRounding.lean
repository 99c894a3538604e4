import Mathlib.Data.Int.Log
import Mathlib.Data.Rat.Floor
import Mathlib.Tactic.Linarith
import Mathlib.Tactic.NormNum.Basic
import Mathlib.Tactic.Positivity
import Mathlib.Tactic.Ring
set_option autoImplicit false

/-!
# Rounding to a binary floating-point format

The value of a floating-point operation: the exact result, rounded to a number of binary digits,
ties to even.  Values below the normal range have their digits from a lowest place on; the range
is not bounded above.

* `round_mono` — rounding is monotone;
* `representable_round`, `round_of_representable` — it yields the values of the format, and
  keeps them.
-/

namespace CodingGateway.Library.FloatRounding

/-- The nearest integer, the even one of two. -/
def roundEven (x : ℚ) : ℤ :=
  if x - ⌊x⌋ < 1 / 2 then ⌊x⌋
  else if 1 / 2 < x - ⌊x⌋ then ⌊x⌋ + 1
  else if ⌊x⌋ % 2 = 0 then ⌊x⌋ else ⌊x⌋ + 1

/-- The digits kept, and the place of the lowest one there is. -/
structure Format where
  digits : ℕ
  lowest : ℤ
  digits_pos : 0 < digits

def binary32 : Format := ⟨24, -149, by decide⟩

variable (f : Format) {x y : ℚ}

/-- The place of the last digit kept of a value. -/
def lastDigit (x : ℚ) : ℤ := max f.lowest (Int.log 2 |x| - f.digits + 1)

def round (x : ℚ) : ℚ := roundEven (x / 2 ^ lastDigit f x) * 2 ^ lastDigit f x

/-- A value of the format. -/
def Representable (x : ℚ) : Prop :=
  ∃ m e : ℤ, x = m * 2 ^ e ∧ |m| ≤ 2 ^ f.digits ∧ f.lowest ≤ e

/-! ## To an integer -/

theorem floor_le_roundEven (x : ℚ) : ⌊x⌋ ≤ roundEven x := by
  unfold roundEven
  split_ifs <;> omega

theorem roundEven_le_floor_add_one (x : ℚ) : roundEven x ≤ ⌊x⌋ + 1 := by
  unfold roundEven
  split_ifs <;> omega

@[simp] theorem roundEven_intCast (n : ℤ) : roundEven n = n := by
  unfold roundEven
  rw [Int.floor_intCast, sub_self, if_pos (by norm_num)]

theorem roundEven_mono (h : x ≤ y) : roundEven x ≤ roundEven y := by
  rcases (Int.floor_mono h).eq_or_lt with heq | hlt
  · unfold roundEven
    rw [heq]
    split_ifs <;> first | omega | (exfalso; linarith)
  · calc roundEven x ≤ ⌊x⌋ + 1 := roundEven_le_floor_add_one x
      _ ≤ ⌊y⌋ := hlt
      _ ≤ roundEven y := floor_le_roundEven y

/-! ## To the digits kept -/

variable {f} {m e : ℤ}

theorem two_zpow_pos (e : ℤ) : (0 : ℚ) < 2 ^ e := zpow_pos two_pos e

theorem two_zpow_eq (h : lastDigit f x ≤ e) :
    (2 : ℚ) ^ e = ((2 ^ (e - lastDigit f x).toNat : ℤ) : ℚ) * 2 ^ lastDigit f x := by
  have hsplit : e = (e - lastDigit f x).toNat + lastDigit f x := by omega
  conv_lhs => rw [hsplit]
  rw [zpow_add₀ two_ne_zero, zpow_natCast]
  push_cast
  rfl

theorem round_le (he : lastDigit f x ≤ e) (h : x ≤ m * 2 ^ e) : round f x ≤ m * 2 ^ e := by
  have hpos := two_zpow_pos (lastDigit f x)
  rw [two_zpow_eq he, ← mul_assoc, ← Int.cast_mul] at h ⊢
  refine mul_le_mul_of_nonneg_right ?_ hpos.le
  rw [← div_le_iff₀ hpos] at h
  exact_mod_cast (roundEven_mono h).trans_eq (roundEven_intCast _)

theorem le_round (he : lastDigit f x ≤ e) (h : m * 2 ^ e ≤ x) : m * 2 ^ e ≤ round f x := by
  have hpos := two_zpow_pos (lastDigit f x)
  rw [two_zpow_eq he, ← mul_assoc, ← Int.cast_mul] at h ⊢
  refine mul_le_mul_of_nonneg_right ?_ hpos.le
  rw [← le_div_iff₀ hpos] at h
  exact_mod_cast (roundEven_intCast _).symm.trans_le (roundEven_mono h)

theorem abs_lt_two_zpow (x : ℚ) : |x| < 2 ^ (lastDigit f x + f.digits) := by
  have hlog : Int.log 2 |x| + 1 ≤ lastDigit f x + f.digits := by
    rw [lastDigit]
    omega
  have hlt := Int.lt_zpow_succ_log_self (b := 2) one_lt_two |x|
  exact_mod_cast hlt.trans_le (zpow_le_zpow_right₀ (by norm_num) hlog)

theorem two_zpow_le_abs (hx : x ≠ 0) (h : f.lowest < lastDigit f x) :
    2 ^ (lastDigit f x + f.digits - 1) ≤ |x| := by
  have hlog : lastDigit f x + f.digits - 1 = Int.log 2 |x| := by
    rw [lastDigit] at h ⊢
    omega
  rw [hlog]
  exact_mod_cast Int.zpow_log_le_self (b := 2) one_lt_two (abs_pos.mpr hx)

theorem abs_lt_two_zpow_of_lastDigit_lt (h : lastDigit f x < lastDigit f y) :
    |x| < 2 ^ (lastDigit f y + f.digits - 1) :=
  (abs_lt_two_zpow (f := f) x).trans_le (zpow_le_zpow_right₀ one_le_two (by omega))

@[simp] theorem round_zero : round f 0 = 0 := by
  simp [round, roundEven]

theorem round_nonpos (h : x ≤ 0) : round f x ≤ 0 := by
  simpa using round_le (f := f) (m := 0) (le_refl (lastDigit f x)) (by simpa using h)

theorem round_nonneg (h : 0 ≤ x) : 0 ≤ round f x := by
  simpa using le_round (f := f) (m := 0) (le_refl (lastDigit f x)) (by simpa using h)

/-- Values of equal length are rounded to the same grid, others lie on two sides of a power
of two. -/
theorem round_mono : Monotone (round f) := by
  intro x y hxy
  have hdigits := f.digits_pos
  rcases lt_trichotomy (lastDigit f x) (lastDigit f y) with hlt | heq | hgt
  · by_cases hy : y = 0
    · rw [hy] at hxy ⊢
      exact (round_nonpos hxy).trans_eq round_zero.symm
    · have hsmall := abs_lt.mp (abs_lt_two_zpow_of_lastDigit_lt hlt)
      have hlarge := two_zpow_le_abs hy ((le_max_left _ _).trans_lt hlt)
      have hpos : 0 ≤ y := by
        by_contra hneg
        rw [abs_of_neg (not_le.mp hneg)] at hlarge
        linarith
      rw [abs_of_nonneg hpos] at hlarge
      calc round f x
          ≤ (1 : ℤ) * 2 ^ (lastDigit f y + f.digits - 1) :=
            round_le (by omega) (by rw [Int.cast_one, one_mul]; exact hsmall.2.le)
        _ ≤ round f y := le_round (by omega) (by rw [Int.cast_one, one_mul]; exact hlarge)
  · rw [round, round, heq]
    refine mul_le_mul_of_nonneg_right ?_ (two_zpow_pos _).le
    exact_mod_cast roundEven_mono (div_le_div_of_nonneg_right hxy (two_zpow_pos _).le)
  · by_cases hx : x = 0
    · rw [hx] at hxy ⊢
      exact round_zero.trans_le (round_nonneg hxy)
    · have hsmall := abs_lt.mp (abs_lt_two_zpow_of_lastDigit_lt hgt)
      have hlarge := two_zpow_le_abs hx ((le_max_left _ _).trans_lt hgt)
      have hneg : x < 0 := by
        by_contra hpos
        rw [abs_of_nonneg (not_lt.mp hpos)] at hlarge
        linarith
      rw [abs_of_neg hneg] at hlarge
      calc round f x
          ≤ (-1 : ℤ) * 2 ^ (lastDigit f x + f.digits - 1) :=
            round_le (by omega) (by push_cast; linarith)
        _ ≤ round f y := le_round (by omega) (by push_cast; linarith)

theorem round_eq (he : lastDigit f x ≤ e) (h : x = m * 2 ^ e) : round f x = x := by
  apply le_antisymm
  · exact (round_le he h.le).trans_eq h.symm
  · exact h.trans_le (le_round he h.ge)

theorem round_of_representable (h : Representable f x) : round f x = x := by
  obtain ⟨m, e, hx, hm, he⟩ := h
  have hdigits := f.digits_pos
  by_cases hplace : lastDigit f x ≤ e
  · exact round_eq hplace hx
  by_cases hzero : x = 0
  · rw [hzero, round_zero]
  -- The value is long for its factor: the factor is the largest one, a power of two.
  have hlarge := two_zpow_le_abs hzero (he.trans_lt (not_le.mp hplace))
  have habs : |x| = |m| * 2 ^ e := by
    rw [hx, abs_mul, abs_of_pos (two_zpow_pos e), Int.cast_abs]
  have hpower : (2 : ℚ) ^ (e + f.digits) = 2 ^ f.digits * 2 ^ e := by
    rw [add_comm, zpow_add₀ two_ne_zero, zpow_natCast]
  have hbound : ((|m| : ℤ) : ℚ) ≤ 2 ^ f.digits := by
    exact_mod_cast hm
  have hle : |x| ≤ 2 ^ (e + f.digits) := by
    rw [habs, hpower]
    exact mul_le_mul_of_nonneg_right hbound (two_zpow_pos e).le
  have hplaces : lastDigit f x + f.digits - 1 ≤ e + f.digits :=
    (zpow_le_zpow_iff_right₀ one_lt_two).mp (hlarge.trans hle)
  have hnext : lastDigit f x = e + 1 := by
    omega
  have heq : |x| = 2 ^ (e + f.digits) := by
    have hplace : lastDigit f x + f.digits - 1 = e + f.digits := by
      omega
    exact le_antisymm hle (hplace ▸ hlarge)
  rcases abs_eq (two_zpow_pos _).le |>.mp heq with hpos | hneg
  · refine round_eq (m := 1) (e := e + f.digits) (by omega) ?_
    rw [hpos, Int.cast_one, one_mul]
  · refine round_eq (m := -1) (e := e + f.digits) (by omega) ?_
    rw [hneg, Int.cast_neg, Int.cast_one, neg_one_mul]

theorem representable_round (x : ℚ) : Representable f (round f x) := by
  refine ⟨roundEven (x / 2 ^ lastDigit f x), lastDigit f x, rfl, ?_, le_max_left _ _⟩
  have hpos := two_zpow_pos (lastDigit f x)
  have hsmall : |x / 2 ^ lastDigit f x| < 2 ^ f.digits := by
    rw [abs_div, abs_of_pos hpos, div_lt_iff₀ hpos, ← zpow_natCast, ← zpow_add₀ two_ne_zero,
      add_comm]
    exact abs_lt_two_zpow x
  have hcast : ((2 ^ f.digits : ℤ) : ℚ) = 2 ^ f.digits := by
    push_cast
    rfl
  rw [abs_lt, ← hcast] at hsmall
  rw [abs_le]
  constructor
  · rw [← roundEven_intCast (-2 ^ f.digits)]
    refine roundEven_mono ?_
    rw [Int.cast_neg]
    exact hsmall.1.le
  · rw [← roundEven_intCast (2 ^ f.digits)]
    exact roundEven_mono hsmall.2.le

@[simp] theorem round_round (x : ℚ) : round f (round f x) = round f x :=
  round_of_representable (representable_round x)

example : round binary32 (3 * round binary32 (26666667 / 10000000)) = 8 := by
  decide +kernel

end CodingGateway.Library.FloatRounding
