import CodingGateway.Library.BoundedArray
import Mathlib.Data.List.GetD
import Mathlib.Data.UInt
set_option autoImplicit false

/-!
# Strings in character arrays

A zeroed array of `size` characters into which strings are copied with a bound.  An array
`Holds` a string when the string ends inside it and the rest is zero.

* `strncpy_eq` — a copy by `strncpy`;
* `copyTerminated_eq` — a copy by `memcpy` and a NUL after it;
* `exists_nul_of_holds` — the string ends inside its array.
-/

namespace CodingGateway.Library.CharArray

variable {size n : ℕ} {a : ℕ → UInt8} {s src : List UInt8}

/-- `strncpy(dst, src, n)`: the first `n` characters, filled up to `n` bytes with NULs. -/
def strncpy (size : ℕ) (dst : ℕ → UInt8) (src : List UInt8) (n : ℕ) : Option (ℕ → UInt8) :=
  if n ≤ size then some fun j => if j < n then src.getD j 0 else dst j else none

/-- `memcpy(dst, src, n); dst[n] = '\0'`, with the NUL of `src` after its characters. -/
def copyTerminated (size : ℕ) (dst : ℕ → UInt8) (src : List UInt8) (n : ℕ) :
    Option (ℕ → UInt8) :=
  if n ≤ size ∧ n ≤ src.length + 1 then
    BoundedArray.store size (fun j => if j < n then src.getD j 0 else dst j) n 0
  else none

/-- The array holds the string `s`, with zeros after it. -/
structure Holds (size : ℕ) (a : ℕ → UInt8) (s : List UInt8) : Prop where
  fits : s.length < size
  noNul : 0 ∉ s
  cells : ∀ j < size, a j = s.getD j 0

theorem getD_take (n : ℕ) (s : List UInt8) (j : ℕ) :
    (s.take n).getD j 0 = if j < n then s.getD j 0 else 0 := by
  by_cases hj : j < n
  · rw [if_pos hj, List.getD_eq_getElem?_getD, List.getD_eq_getElem?_getD,
      List.getElem?_take_of_lt hj]
  · have hlen : (s.take n).length ≤ j := (List.length_take_le n s).trans (Nat.not_lt.mp hj)
    rw [if_neg hj, List.getD_eq_default _ _ hlen]

theorem holds_zero (hsize : 0 < size) : Holds size (fun _ => 0) [] where
  fits := hsize
  noNul := List.not_mem_nil
  cells _ _ := rfl

theorem strncpy_eq (h : Holds size a s) (hnul : 0 ∉ src) :
    ∃ a', strncpy size a src (size - 1) = some a' ∧ Holds size a' (src.take (size - 1)) := by
  have hsize := h.fits
  refine ⟨_, if_pos (Nat.sub_le size 1), ?_, fun hmem => hnul (List.mem_of_mem_take hmem),
    fun j hj => ?_⟩
  · have hlen := List.length_take_le (size - 1) src
    omega
  · rw [getD_take]
    by_cases hin : j < size - 1
    · rw [if_pos hin, if_pos hin]
    · -- The last byte keeps the zero that it has always been.
      have hlast : s.length ≤ j := by omega
      rw [if_neg hin, if_neg hin, h.cells j hj, List.getD_eq_default _ _ hlast]

theorem copyTerminated_eq (h : Holds size a []) (hnul : 0 ∉ src) :
    ∃ a', copyTerminated size a src (min src.length (size - 1)) = some a' ∧
      Holds size a' (src.take (size - 1)) := by
  have hsize : 0 < size := h.fits
  have hn : min src.length (size - 1) < size := by omega
  have hle : min src.length (size - 1) ≤ size ∧ min src.length (size - 1) ≤ src.length + 1 := by
    omega
  refine ⟨_, (if_pos hle).trans (BoundedArray.store_of_lt hn 0), ?_,
    fun hmem => hnul (List.mem_of_mem_take hmem), fun j hj => ?_⟩
  · have hlen := List.length_take_le (size - 1) src
    omega
  · have hpast : ∀ j, src.length ≤ j → src.getD j 0 = 0 := fun j hj =>
      List.getD_eq_default _ _ hj
    have hzero : a j = 0 := (h.cells j hj).trans rfl
    rw [getD_take, Function.update_apply]
    by_cases hat : j = min src.length (size - 1)
    · rw [if_pos hat]
      by_cases hin : j < size - 1
      · rw [if_pos hin, hpast j (by omega)]
      · rw [if_neg hin]
    · rw [if_neg hat]
      by_cases hin : j < min src.length (size - 1)
      · have hin' : j < size - 1 := by omega
        rw [if_pos hin, if_pos hin']
      · rw [if_neg hin, hzero]
        by_cases hin' : j < size - 1
        · rw [if_pos hin', hpast j (by omega)]
        · rw [if_neg hin']

theorem exists_nul_of_holds (h : Holds size a s) : ∃ j < size, a j = 0 := by
  refine ⟨s.length, h.fits, ?_⟩
  rw [h.cells s.length h.fits, List.getD_eq_default _ _ (Nat.le_refl _)]

end CodingGateway.Library.CharArray
