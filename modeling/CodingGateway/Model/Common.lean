import Mathlib.Data.Nat.Notation
import Mathlib.Data.Int.Notation
import Mathlib.Logic.Function.Basic
set_option autoImplicit false

/-!
# Sizes and memory (`common.h`)

The compile-time sizes of the gateway and the C library calls that move bytes.
An array is read through its index, so an uninitialised array is an arbitrary
function and a write changes the function at the indices written.
-/

namespace CodingGateway.Model

def maxPaths : ℕ := 8
def maxK : ℕ := 16
def maxN : ℕ := 32
def maxPayload : ℕ := 1400
def maxWindow : ℕ := 16

/-- The contents of a byte array. -/
abbrev Bytes := ℕ → UInt8

/-- `memcpy(dst, src, n)`. -/
def memcpy {α : Type*} (dst src : ℕ → α) (n : ℕ) : ℕ → α :=
  fun j => if j < n then src j else dst j

/-- `memset(dst + from, v, n)`. -/
def memset {α : Type*} (dst : ℕ → α) (start : ℕ) (v : α) (n : ℕ) : ℕ → α :=
  fun j => if start ≤ j ∧ j < start + n then v else dst j

/-- The first `n` entries of an array, as handed to a `write` or a `sendto`. -/
def prefixList {α : Type*} (a : ℕ → α) (n : ℕ) : List α := (List.range n).map a

/-- The array that a list of bytes fills, zero beyond its end. -/
def arrayOf (bytes : List UInt8) : Bytes := fun j => bytes.getD j 0

/-- `struct timeval`. -/
structure Timeval where
  tvSec : ℤ
  tvUsec : ℤ
deriving DecidableEq, Repr

theorem memcpy_of_lt {α : Type*} (dst src : ℕ → α) {n j : ℕ} (hj : j < n) :
    memcpy dst src n j = src j := if_pos hj

@[simp] theorem length_prefixList {α : Type*} (a : ℕ → α) (n : ℕ) :
    (prefixList a n).length = n := by
  simp [prefixList]

theorem prefixList_congr {α : Type*} {a b : ℕ → α} {n : ℕ} (h : ∀ j < n, a j = b j) :
    prefixList a n = prefixList b n := by
  simp only [prefixList, List.map_inj_left, List.mem_range]
  exact h

theorem prefixList_arrayOf (bytes : List UInt8) :
    prefixList (arrayOf bytes) bytes.length = bytes := by
  apply List.ext_getElem
  · simp
  · intro j hj _
    have hlen : j < bytes.length := by simpa using hj
    simp [prefixList, arrayOf, hlen]

end CodingGateway.Model
