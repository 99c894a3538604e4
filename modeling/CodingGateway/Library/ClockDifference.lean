import Mathlib.Data.Int.Notation
import Mathlib.Tactic.Ring
set_option autoImplicit false

/-!
# Differences of a clock that is read in two parts

The difference of two readings is `s` coarse units and `u` fine ones.  A coarse unit is `c`
ticks and a tick is `n` fine units.  Counted in ticks part by part, with a quotient that is
rounded toward zero, it is the exact difference rounded down while `u` is not negative, and
rounded up while `u` is not positive.

* `le_ticks_iff_of_nonneg`, `le_ticks_iff_of_nonpos` — when a number of ticks is counted;
* `le_ticks_iff_reached_iff` — when it is counted exactly if it has been reached.
-/

namespace CodingGateway.Library.ClockDifference

variable {n c s u t : ℤ}

/-- The difference in fine units. -/
def fine (n c s u : ℤ) : ℤ := s * (c * n) + u

/-- The difference in ticks, part by part. -/
def ticks (n c s u : ℤ) : ℤ := s * c + u.tdiv n

theorem fine_neg : fine n c (-s) (-u) = -fine n c s u := by
  rw [fine, fine]
  ring

theorem ticks_neg : ticks n c (-s) (-u) = -ticks n c s u := by
  rw [ticks, ticks, Int.neg_tdiv]
  ring

theorem ticks_of_nonneg (hn : 0 < n) (hu : 0 ≤ u) : ticks n c s u = fine n c s u / n := by
  rw [ticks, fine, Int.tdiv_eq_ediv_of_nonneg hu, ← Int.mul_assoc,
    Int.mul_add_ediv_right _ _ hn.ne']

theorem le_ticks_iff_of_nonneg (hn : 0 < n) (hu : 0 ≤ u) :
    t ≤ ticks n c s u ↔ t * n ≤ fine n c s u := by
  rw [ticks_of_nonneg hn hu, Int.le_ediv_iff_mul_le hn]

theorem le_ticks_iff_of_nonpos (hn : 0 < n) (hu : u ≤ 0) :
    t ≤ ticks n c s u ↔ (t - 1) * n < fine n c s u := by
  have hback : -ticks n c s u = -fine n c s u / n := by
    rw [← ticks_neg, ← fine_neg]
    exact ticks_of_nonneg hn (by omega)
  have hexpand : (1 - t) * n = -((t - 1) * n) := by ring
  calc t ≤ ticks n c s u ↔ -fine n c s u / n < 1 - t := by
        rw [← hback]
        omega
    _ ↔ -fine n c s u < (1 - t) * n := Int.ediv_lt_iff_lt_mul hn
    _ ↔ (t - 1) * n < fine n c s u := by
        rw [hexpand]
        omega

theorem le_ticks_of_reached (hn : 0 < n) (h : t * n ≤ fine n c s u) : t ≤ ticks n c s u := by
  have hexpand : (t - 1) * n = t * n - n := by ring
  rcases Int.le_total 0 u with hu | hu
  · exact (le_ticks_iff_of_nonneg hn hu).mpr h
  · apply (le_ticks_iff_of_nonpos hn hu).mpr
    omega

/-- A tick is counted too early exactly when it is the last one, not yet complete, and the fine
part is negative. -/
theorem le_ticks_iff_reached_iff (hn : 0 < n) :
    (t ≤ ticks n c s u ↔ t * n ≤ fine n c s u) ↔
      ¬ (u < 0 ∧ (t - 1) * n < fine n c s u ∧ fine n c s u < t * n) := by
  by_cases hu : u < 0
  · have hticks := le_ticks_iff_of_nonpos (t := t) (c := c) (s := s) hn hu.le
    have hexpand : (t - 1) * n = t * n - n := by ring
    rw [hticks]
    omega
  · exact iff_of_true (le_ticks_iff_of_nonneg hn (not_lt.mp hu)) fun h => hu h.1

end CodingGateway.Library.ClockDifference
