import Mathlib.Algebra.Field.Basic
import Mathlib.Algebra.Order.Field.Basic
import Mathlib.Tactic.Linarith
import Mathlib.Tactic.Ring
set_option autoImplicit false

/-!
# A smoothed signal that drives a switch

A monitor averages observations with exponentially decreasing weights.  It switches off
when the average is above a threshold and on when it is below half of it.

* `mem_unit_run` — the average of observations in `[0, 1]` stays there;
* `not_up_of_flip`, `up_of_flip` — where the average stands when the switch flips;
* `level_run_replicate` — the average after equal observations;
* `up_run_ones`, `up_run_zeros` — how many of them settle the switch.
-/

namespace CodingGateway.Library.Hysteresis

variable {K : Type*} [Field K] [LinearOrder K]

/-- The average, and whether the switch is on. -/
structure Monitor (K : Type*) where
  level : K
  up : Bool

/-- One more observation `x`. -/
def average (alpha level x : K) : K := alpha * x + (1 - alpha) * level

def switch (threshold : K) (up : Bool) (level : K) : Bool :=
  if level < threshold * (1 / 2) then true else if threshold < level then false else up

def observe (alpha threshold : K) (s : Monitor K) (x : K) : Monitor K where
  level := average alpha s.level x
  up := switch threshold s.up (average alpha s.level x)

/-- The monitor after the observations. -/
def run (alpha threshold : K) (s : Monitor K) (xs : List K) : Monitor K :=
  xs.foldl (observe alpha threshold) s

variable {alpha threshold level x : K} {s : Monitor K} {up : Bool}

@[simp] theorem level_observe : (observe alpha threshold s x).level = average alpha s.level x := rfl

/-! ## The switch -/

theorem not_up_of_flip (hup : up = true) (hflip : switch threshold up level = false) :
    threshold < level := by
  unfold switch at hflip
  split_ifs at hflip with hlow hhigh
  · exact hhigh
  · rw [hup] at hflip
    cases hflip

theorem up_of_flip (hup : up = false) (hflip : switch threshold up level = true) :
    level < threshold * (1 / 2) := by
  unfold switch at hflip
  split_ifs at hflip with hlow hhigh
  · exact hlow
  · rw [hup] at hflip
    cases hflip

theorem switch_of_between (hlow : threshold * (1 / 2) ≤ level) (hhigh : level ≤ threshold) :
    switch threshold up level = up := by
  rw [switch, if_neg (not_lt.mpr hlow), if_neg (not_lt.mpr hhigh)]

theorem switch_of_low (hlow : level < threshold * (1 / 2)) : switch threshold up level = true :=
  if_pos hlow

section Order

variable [IsStrictOrderedRing K]

theorem switch_of_high (hpos : 0 < threshold) (hhigh : threshold < level) :
    switch threshold up level = false := by
  have hlow : ¬ level < threshold * (1 / 2) := by
    have hhalf : threshold * (1 / 2) ≤ threshold := by linarith
    exact not_lt.mpr (hhalf.trans hhigh.le)
  rw [switch, if_neg hlow, if_pos hhigh]

/-! ## The average -/

theorem mem_unit_average (halpha : 0 ≤ alpha ∧ alpha ≤ 1) (hlevel : 0 ≤ level ∧ level ≤ 1)
    (hx : 0 ≤ x ∧ x ≤ 1) : 0 ≤ average alpha level x ∧ average alpha level x ≤ 1 := by
  have hrest : 0 ≤ 1 - alpha := sub_nonneg.mpr halpha.2
  constructor
  · exact add_nonneg (mul_nonneg halpha.1 hx.1) (mul_nonneg hrest hlevel.1)
  · calc average alpha level x
        ≤ alpha * 1 + (1 - alpha) * 1 :=
          add_le_add (mul_le_mul_of_nonneg_left hx.2 halpha.1)
            (mul_le_mul_of_nonneg_left hlevel.2 hrest)
      _ = 1 := by ring

theorem mem_unit_run (halpha : 0 ≤ alpha ∧ alpha ≤ 1) {xs : List K}
    (hxs : ∀ x ∈ xs, 0 ≤ x ∧ x ≤ 1) (hlevel : 0 ≤ s.level ∧ s.level ≤ 1) :
    0 ≤ (run alpha threshold s xs).level ∧ (run alpha threshold s xs).level ≤ 1 := by
  induction xs generalizing s with
  | nil => exact hlevel
  | cons x xs ih =>
      apply ih fun y hy => hxs y (List.mem_cons_of_mem x hy)
      exact mem_unit_average halpha hlevel (hxs x List.mem_cons_self)

end Order

theorem level_run_replicate (s : Monitor K) (m : ℕ) :
    (run alpha threshold s (List.replicate m x)).level =
      x + (1 - alpha) ^ m * (s.level - x) := by
  induction m generalizing s with
  | zero =>
      show s.level = _
      rw [pow_zero]
      ring
  | succ m ih =>
      show (run alpha threshold (observe alpha threshold s x) (List.replicate m x)).level = _
      rw [ih, level_observe, average, pow_succ]
      ring

theorem up_run_concat (s : Monitor K) (xs : List K) (x : K) :
    (run alpha threshold s (xs ++ [x])).up =
      switch threshold (run alpha threshold s xs).up
        (run alpha threshold s (xs ++ [x])).level := by
  unfold run
  rw [List.foldl_append]
  rfl

variable {m : ℕ}

theorem pos_of_pow_lt (h : (1 - alpha) ^ m < 1) : 0 < m := by
  by_contra hzero
  obtain rfl : m = 0 := Nat.eq_zero_of_not_pos hzero
  rw [pow_zero] at h
  exact lt_irrefl 1 h

section Settling

variable [IsStrictOrderedRing K]

theorem up_run_ones (halpha : alpha ≤ 1) (hpos : 0 < threshold) (hlevel : 0 ≤ s.level)
    (hm : (1 - alpha) ^ m < 1 - threshold) :
    (run alpha threshold s (List.replicate m 1)).up = false := by
  have hone : (1 - alpha) ^ m < 1 := by linarith
  have hm0 : 0 < m := pos_of_pow_lt hone
  have hpow : 0 ≤ (1 - alpha) ^ m := pow_nonneg (sub_nonneg.mpr halpha) m
  have hhigh : threshold < (run alpha threshold s (List.replicate m 1)).level := by
    rw [level_run_replicate]
    have hpull : 0 ≤ (1 - alpha) ^ m * s.level := mul_nonneg hpow hlevel
    calc threshold
        < 1 - (1 - alpha) ^ m := by linarith
      _ ≤ 1 + (1 - alpha) ^ m * (s.level - 1) := by linarith
  obtain ⟨j, rfl⟩ := Nat.exists_eq_succ_of_ne_zero hm0.ne'
  rw [List.replicate_succ'] at hhigh ⊢
  rw [up_run_concat]
  exact switch_of_high hpos hhigh

theorem up_run_zeros (halpha : alpha ≤ 1) (hhalf : threshold * (1 / 2) ≤ 1) (hlevel : s.level ≤ 1)
    (hm : (1 - alpha) ^ m < threshold * (1 / 2)) :
    (run alpha threshold s (List.replicate m 0)).up = true := by
  have hm0 : 0 < m := pos_of_pow_lt (hm.trans_le hhalf)
  have hpow : 0 ≤ (1 - alpha) ^ m := pow_nonneg (sub_nonneg.mpr halpha) m
  have hlow : (run alpha threshold s (List.replicate m 0)).level < threshold * (1 / 2) := by
    rw [level_run_replicate]
    calc 0 + (1 - alpha) ^ m * (s.level - 0)
        = (1 - alpha) ^ m * s.level := by ring
      _ ≤ (1 - alpha) ^ m * 1 := mul_le_mul_of_nonneg_left hlevel hpow
      _ = (1 - alpha) ^ m := mul_one _
      _ < threshold * (1 / 2) := hm
  obtain ⟨j, rfl⟩ := Nat.exists_eq_succ_of_ne_zero hm0.ne'
  rw [List.replicate_succ'] at hlow ⊢
  rw [up_run_concat]
  exact switch_of_low hlow

end Settling

end CodingGateway.Library.Hysteresis
