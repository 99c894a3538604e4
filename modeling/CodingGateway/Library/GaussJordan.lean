import Mathlib.LinearAlgebra.Matrix.NonsingularInverse
import Mathlib.LinearAlgebra.Matrix.ToLinearEquiv
import Mathlib.LinearAlgebra.Matrix.Rank
set_option autoImplicit false

/-!
# Gauss-Jordan elimination on a square system

A system has `k` equations over a field, in `k` unknowns that live in a vector
space: one unknown is a whole row of data.  `Eliminated n s s'` says that `s'` is
what elimination makes of `s` once its first `n` columns are done, whatever rule
picks the pivots.

* `solves_iff_of_eliminated` — elimination keeps the set of solutions;
* `linearIndependent_of_eliminated` and `eq_rhs_of_eliminated` — a run through
  all `k` columns shows independent rows, and its right-hand side is the solution;
* `not_linearIndependent_of_stuck` — a column without pivot shows dependent rows;
* `linearIndependent_of_unit_rows` — unit rows and one row more.
-/

namespace CodingGateway.Library.GaussJordan

variable {K V : Type*} [Field K] [AddCommGroup V] [Module K V] {k : Nat}

/-- `k` equations `∑ j, mat i j • x j = rhs i` in the unknowns `x`. -/
@[ext] structure LinearSystem (K V : Type*) (k : Nat) where
  mat : Fin k → Fin k → K
  rhs : Fin k → V

namespace LinearSystem

def Solves (s : LinearSystem K V k) (x : Fin k → V) : Prop :=
  ∀ i, ∑ j, s.mat i j • x j = s.rhs i

/-! ## Row operations -/

def swap (s : LinearSystem K V k) (p q : Fin k) : LinearSystem K V k where
  mat i := s.mat (Equiv.swap p q i)
  rhs i := s.rhs (Equiv.swap p q i)

def scale (s : LinearSystem K V k) (c : Fin k) (a : K) : LinearSystem K V k where
  mat i j := if i = c then a * s.mat c j else s.mat i j
  rhs i := if i = c then a • s.rhs c else s.rhs i

/-- Subtract multiples of row `c` to clear column `c` in every other row. -/
def clear (s : LinearSystem K V k) (c : Fin k) : LinearSystem K V k where
  mat i j := if i = c then s.mat c j else s.mat i j - s.mat i c * s.mat c j
  rhs i := if i = c then s.rhs c else s.rhs i - s.mat i c • s.rhs c

/-- One column: bring the pivot row `p` up, make the pivot one, clear the column. -/
def reduce (s : LinearSystem K V k) (c p : Fin k) : LinearSystem K V k :=
  (((s.swap c p).scale c (s.mat p c)⁻¹)).clear c

theorem solves_swap (s : LinearSystem K V k) (p q : Fin k) (x : Fin k → V) :
    (s.swap p q).Solves x ↔ s.Solves x := by
  constructor
  · intro h i
    simpa [swap] using h (Equiv.swap p q i)
  · intro h i
    exact h (Equiv.swap p q i)

theorem solves_scale (s : LinearSystem K V k) (c : Fin k) {a : K} (ha : a ≠ 0) (x : Fin k → V) :
    (s.scale c a).Solves x ↔ s.Solves x := by
  have hrow : ∑ j, (a * s.mat c j) • x j = a • ∑ j, s.mat c j • x j := by
    simp only [Finset.smul_sum, mul_smul]
  constructor
  · intro h i
    have hi := h i
    by_cases hic : i = c
    · subst hic
      simp only [scale, if_true, hrow] at hi
      exact smul_right_injective V ha hi
    · simpa [scale, hic] using hi
  · intro h i
    by_cases hic : i = c
    · subst hic
      simp only [scale, if_true, hrow, h i]
    · simpa [scale, hic] using h i

theorem solves_clear (s : LinearSystem K V k) (c : Fin k) (x : Fin k → V) :
    (s.clear c).Solves x ↔ s.Solves x := by
  have hrow (i : Fin k) : ∑ j, (s.mat i j - s.mat i c * s.mat c j) • x j =
      ∑ j, s.mat i j • x j - s.mat i c • ∑ j, s.mat c j • x j := by
    simp only [sub_smul, mul_smul, Finset.sum_sub_distrib, Finset.smul_sum]
  constructor
  · intro h i
    have hc : ∑ j, s.mat c j • x j = s.rhs c := by simpa [clear] using h c
    by_cases hic : i = c
    · rw [hic, hc]
    · have hi := h i
      simp only [clear, hic, if_false, hrow, hc] at hi
      exact sub_left_injective hi
  · intro h i
    by_cases hic : i = c
    · simpa [clear, hic] using h c
    · simp only [clear, hic, if_false, hrow, h i, h c]

theorem solves_reduce (s : LinearSystem K V k) (c : Fin k) {p : Fin k} (hp : s.mat p c ≠ 0)
    (x : Fin k → V) : (s.reduce c p).Solves x ↔ s.Solves x := by
  rw [reduce, solves_clear, solves_scale _ _ (inv_ne_zero hp), solves_swap]

/-! ## Columns that are done -/

/-- The first `n` columns are those of the identity matrix. -/
def UnitColumns (s : LinearSystem K V k) (n : Nat) : Prop :=
  ∀ i j : Fin k, j.val < n → s.mat i j = if i = j then 1 else 0

/-- Column `c` has no pivot at or below the diagonal. -/
def Stuck (s : LinearSystem K V k) (c : Fin k) : Prop := ∀ p, c ≤ p → s.mat p c = 0

/-- The pivot row has zeros in the columns that are done, so they stay as they are. -/
theorem unitColumns_reduce {s : LinearSystem K V k} {c p : Fin k} (hs : s.UnitColumns c.val)
    (hcp : c ≤ p) (hp : s.mat p c ≠ 0) : (s.reduce c p).UnitColumns (c.val + 1) := by
  have hpivot : (s.swap c p).mat c c = s.mat p c := by simp [swap]
  have hone : (s.mat p c)⁻¹ * s.mat p c = 1 := inv_mul_cancel₀ hp
  intro i j hj
  rcases Nat.lt_succ_iff_lt_or_eq.mp hj with hlt | heq
  · have hjc : j ≠ c := fun h => by simp [h] at hlt
    have hpj : s.mat p j = 0 := by
      rw [hs p j hlt, if_neg]
      rintro rfl
      exact absurd hlt (Nat.not_lt.mpr hcp)
    have hcj : s.mat c j = 0 := by rw [hs c j hlt, if_neg hjc.symm]
    by_cases hic : i = c
    · simp [reduce, clear, scale, swap, hic, hpj, hjc.symm]
    · simp only [reduce, clear, scale, swap, hic, if_false, if_true, Equiv.swap_apply_left,
        hpj, mul_zero, sub_zero]
      by_cases hip : i = p
      · subst hip
        rw [Equiv.swap_apply_right, hcj, if_neg]
        rintro rfl
        exact absurd hlt (Nat.not_lt.mpr hcp)
      · rw [Equiv.swap_apply_of_ne_of_ne hic hip, hs i j hlt]
  · have hjc : j = c := Fin.ext heq
    subst hjc
    by_cases hij : i = j
    · simp [reduce, clear, scale, swap, hij, hone]
    · simp [reduce, clear, scale, swap, hij, hone]

end LinearSystem

open LinearSystem

/-- `s'` is obtained from `s` by eliminating the first `n` columns, with any choice of pivots. -/
inductive Eliminated : Nat → LinearSystem K V k → LinearSystem K V k → Prop
  | start (s : LinearSystem K V k) : Eliminated 0 s s
  | column {s t : LinearSystem K V k} {c p : Fin k} (hdone : Eliminated c.val s t)
      (hcp : c ≤ p) (hp : t.mat p c ≠ 0) : Eliminated (c.val + 1) s (t.reduce c p)

theorem unitColumns_of_eliminated {n : Nat} {s t : LinearSystem K V k} (h : Eliminated n s t) :
    t.UnitColumns n := by
  induction h with
  | start s => exact fun _ j hj => absurd hj (Nat.not_lt_zero j.val)
  | column _ hcp hp ih => exact unitColumns_reduce ih hcp hp

theorem solves_iff_of_eliminated {n : Nat} {s t : LinearSystem K V k} (h : Eliminated n s t)
    (x : Fin k → V) : t.Solves x ↔ s.Solves x := by
  induction h with
  | start s => exact Iff.rfl
  | column _ _ hp ih => rw [solves_reduce _ _ hp, ih]

theorem Eliminated.homogeneous {n : Nat} {s t : LinearSystem K V k} (h : Eliminated n s t) :
    Eliminated n (⟨s.mat, 0⟩ : LinearSystem K K k) ⟨t.mat, 0⟩ := by
  induction h with
  | start s => exact .start _
  | @column s t c p _ hcp hp ih =>
      have hstep : (⟨(t.reduce c p).mat, 0⟩ : LinearSystem K K k) =
          (⟨t.mat, 0⟩ : LinearSystem K K k).reduce c p := by
        ext i
        · rfl
        · simp [reduce, clear, scale, swap]
      rw [hstep]
      exact .column ih hcp hp

/-! ## What a run tells about the rows -/

theorem linearIndependent_rows_iff (m : Fin k → Fin k → K) :
    LinearIndependent K m ↔ ∀ v : Fin k → K, (⟨m, 0⟩ : LinearSystem K K k).Solves v → v = 0 := by
  have hdet : LinearIndependent K m ↔ (Matrix.of m).det ≠ 0 := by
    rw [← isUnit_iff_ne_zero, ← Matrix.isUnit_iff_isUnit_det,
      ← Matrix.linearIndependent_rows_iff_isUnit]
    rfl
  rw [hdet, ne_eq, ← Matrix.exists_mulVec_eq_zero_iff, not_exists]
  have hmul (v : Fin k → K) :
      Matrix.mulVec (Matrix.of m) v = 0 ↔ (⟨m, 0⟩ : LinearSystem K K k).Solves v := by
    constructor
    · intro h i
      exact congrFun h i
    · intro h
      exact funext h
  refine forall_congr' fun v => ?_
  rw [hmul v, not_and', not_not]

theorem eq_rhs_of_eliminated {s t : LinearSystem K V k} (h : Eliminated k s t) (x : Fin k → V) :
    s.Solves x ↔ x = t.rhs := by
  rw [← solves_iff_of_eliminated h x]
  have hunit := unitColumns_of_eliminated h
  have hrow (i : Fin k) : ∑ j, t.mat i j • x j = x i := by
    simp only [hunit i _ (Fin.is_lt _), ite_smul, one_smul, zero_smul,
      Finset.sum_ite_eq, Finset.mem_univ, if_true]
  constructor
  · intro hx
    exact funext fun i => by rw [← hrow i, hx i]
  · intro hx i
    rw [hrow i, hx]

theorem linearIndependent_of_eliminated {s t : LinearSystem K V k} (h : Eliminated k s t) :
    LinearIndependent K s.mat := by
  rw [linearIndependent_rows_iff]
  intro v hv
  exact (eq_rhs_of_eliminated h.homogeneous v).mp hv

theorem not_linearIndependent_of_stuck {c : Fin k} {s t : LinearSystem K V k}
    (h : Eliminated c.val s t) (hstuck : t.Stuck c) : ¬ LinearIndependent K s.mat := by
  have hunit := unitColumns_of_eliminated h
  let v : Fin k → K := fun j => if j = c then 1 else if j < c then - t.mat j c else 0
  have hkernel : (⟨t.mat, 0⟩ : LinearSystem K K k).Solves v := by
    intro i
    have hterm (j : Fin k) : t.mat i j • v j =
        (if j = c then t.mat i c else 0) -
          (if j = i then (if i < c then t.mat i c else 0) else 0) := by
      rcases lt_trichotomy j c with hjc | hjc | hjc
      · have hij := hunit i j hjc
        by_cases h' : j = i
        · subst h'
          simp [v, hij, hjc, hjc.ne]
        · simp [v, hij, hjc.ne, h', Ne.symm h']
      · subst hjc
        by_cases h' : j = i
        · subst h'
          simp [v]
        · simp [v, h']
      · by_cases h' : j = i
        · subst h'
          simp [v, hjc.ne', hjc.not_gt]
        · simp [v, hjc.ne', hjc.not_gt, h']
    simp only [hterm, Finset.sum_sub_distrib, Finset.sum_ite_eq', Finset.mem_univ, if_true]
    by_cases hic : i < c
    · simp [hic]
    · simp [hic, hstuck i (not_lt.mp hic)]
  intro hind
  rw [linearIndependent_rows_iff] at hind
  have hzero := hind v ((solves_iff_of_eliminated h.homogeneous v).mp hkernel)
  have hc := congrFun hzero c
  simp [v] at hc

theorem linearIndependent_of_unit_rows {rows : Fin k → Fin k → K} (last miss : Fin k)
    (hit : Fin k → Fin k) (hunit : ∀ i ≠ last, rows i = Pi.single (hit i) 1)
    (hinj : ∀ i ≠ last, ∀ j ≠ last, hit i = hit j → i = j) (hmiss : ∀ i ≠ last, hit i ≠ miss)
    (hlast : rows last miss ≠ 0) : LinearIndependent K rows := by
  rw [Fintype.linearIndependent_iff]
  intro g hg
  have hcolumn (c : Fin k) : ∑ i, g i * rows i c = 0 := by
    have hc := congrFun hg c
    simpa only [Finset.sum_apply, Pi.smul_apply, smul_eq_mul, Pi.zero_apply] using hc
  have hzero : g last = 0 := by
    have hsum := hcolumn miss
    rw [Finset.sum_eq_single last] at hsum
    · exact (mul_eq_zero.mp hsum).resolve_right hlast
    · intro i _ hi
      rw [hunit i hi, Pi.single_eq_of_ne (hmiss i hi).symm, mul_zero]
    · exact fun h => absurd (Finset.mem_univ _) h
  intro i
  by_cases hi : i = last
  · rw [hi, hzero]
  · have hsum := hcolumn (hit i)
    rw [Finset.sum_eq_single i] at hsum
    · rwa [hunit i hi, Pi.single_eq_same, mul_one] at hsum
    · intro j _ hj
      by_cases hjl : j = last
      · rw [hjl, hzero, zero_mul]
      · have hne : hit i ≠ hit j := fun h => hj (hinj i hi j hjl h).symm
        rw [hunit j hjl, Pi.single_eq_of_ne hne, mul_zero]
    · exact fun h => absurd (Finset.mem_univ _) h

end CodingGateway.Library.GaussJordan
