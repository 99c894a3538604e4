import Mathlib.Data.List.GetD
import Mathlib.Data.List.TakeWhile
import Mathlib.Data.Rat.Floor
import Mathlib.Data.UInt
import Mathlib.Tactic.NormNum.Basic
set_option autoImplicit false

/-!
# Formatted output

The conversions of `printf` for unsigned numbers and for floating-point values, and the
idiom by which a text is put together:

    len += snprintf(buf + len, size - len, ...);

`snprintf` returns the length of the whole text, also when it has cut it off, so the size
argument of a later call can become negative.

* `decimal_injective`, `length_decimal_le`, `length_fixed_le` — the texts of numbers;
* `appendAll_eq` — texts that fit together are all written, in order;
* `stringOf_eq` — and are read back as one string.
-/

namespace CodingGateway.Library.Printf

/-! ## Numbers -/

/-- `%llu`. -/
def decimal (n : ℕ) : List UInt8 := (Nat.toDigits 10 n).map fun c => UInt8.ofNat c.toNat

theorem isDigit_of_mem_toDigits {n : ℕ} {c : Char} (h : c ∈ Nat.toDigits 10 n) :
    ∃ d < 10, c = Nat.digitChar d := by
  induction n using Nat.base_induction 10 (by decide) with
  | single m hm =>
      rw [Nat.toDigits_of_lt_base hm, List.mem_singleton] at h
      exact ⟨m, hm, h⟩
  | digit m k hk hm ih =>
      rw [← Nat.toDigits_append_toDigits (by decide) hm hk, List.mem_append,
        Nat.toDigits_of_lt_base hk, List.mem_singleton] at h
      rcases h with h | h
      · exact ih h
      · exact ⟨k, hk, h⟩

theorem ofNat_toNat_digitChar :
    ∀ d < 10, Char.ofNat (UInt8.ofNat (Nat.digitChar d).toNat).toNat = Nat.digitChar d := by
  decide

theorem ofNat_digitChar_ne_zero : ∀ d < 10, UInt8.ofNat (Nat.digitChar d).toNat ≠ 0 := by
  decide

theorem toDigits_of_decimal (n : ℕ) :
    (decimal n).map (fun c => Char.ofNat c.toNat) = Nat.toDigits 10 n := by
  unfold decimal
  rw [List.map_map]
  calc (Nat.toDigits 10 n).map ((fun c => Char.ofNat c.toNat) ∘ fun c => UInt8.ofNat c.toNat)
      = (Nat.toDigits 10 n).map id := by
        apply List.map_congr_left
        intro c hc
        obtain ⟨d, hd, rfl⟩ := isDigit_of_mem_toDigits hc
        exact ofNat_toNat_digitChar d hd
    _ = Nat.toDigits 10 n := List.map_id _

theorem decimal_injective : Function.Injective decimal := by
  intro m n h
  have hdigits : Nat.toDigits 10 m = Nat.toDigits 10 n := by
    rw [← toDigits_of_decimal, ← toDigits_of_decimal, h]
  calc m = Nat.ofDigitChars 10 (Nat.toDigits 10 m) 0 := Nat.ofDigitChars_ten_toDigits.symm
    _ = Nat.ofDigitChars 10 (Nat.toDigits 10 n) 0 := by rw [hdigits]
    _ = n := Nat.ofDigitChars_ten_toDigits

theorem length_decimal_le {n k : ℕ} (hk : 0 < k) (h : n < 10 ^ k) : (decimal n).length ≤ k := by
  unfold decimal
  rw [List.length_map]
  exact (Nat.length_toDigits_le_iff (by decide) hk).mpr h

theorem zero_notMem_decimal (n : ℕ) : 0 ∉ decimal n := by
  intro h
  obtain ⟨c, hc, hzero⟩ := List.mem_map.mp h
  obtain ⟨d, hd, rfl⟩ := isDigit_of_mem_toDigits hc
  exact ofNat_digitChar_ne_zero d hd hzero

/-- A floating-point value, as the conversions tell them apart. -/
inductive FloatValue
  | nan (negative : Bool)
  | infinite (negative : Bool)
  | finite (negative : Bool) (magnitude : ℚ)

/-- Rounding to the nearest integer, halves to the even one. -/
def roundHalfEven (q : ℚ) : ℕ :=
  let low := ⌊q⌋₊
  if q - low < 1 / 2 then low
  else if 1 / 2 < q - low then low + 1
  else if low % 2 = 0 then low else low + 1

def signText (negative : Bool) : List UInt8 := if negative then [45] else []

/-- `%.{precision}f`, for a positive precision. -/
def fixed (precision : ℕ) : FloatValue → List UInt8
  | .nan negative => signText negative ++ [110, 97, 110]
  | .infinite negative => signText negative ++ [105, 110, 102]
  | .finite negative q =>
      let n := roundHalfEven (q * 10 ^ precision)
      let fraction := decimal (n % 10 ^ precision)
      signText negative ++ decimal (n / 10 ^ precision) ++ [46] ++
        List.replicate (precision - fraction.length) 48 ++ fraction

theorem roundHalfEven_le {q : ℚ} {n : ℕ} (h : q ≤ n) : roundHalfEven q ≤ n := by
  have hlow : ⌊q⌋₊ ≤ n := Nat.floor_le_of_le h
  by_cases hlt : ⌊q⌋₊ < n
  · unfold roundHalfEven
    dsimp only
    split_ifs <;> omega
  · -- Nothing is left to round up.
    have heq : ⌊q⌋₊ = n := by omega
    have hfrac : q - (⌊q⌋₊ : ℕ) < 1 / 2 := by
      rw [heq]
      linarith
    unfold roundHalfEven
    rw [if_pos hfrac]
    exact hlow

theorem length_signText_le (negative : Bool) : (signText negative).length ≤ 1 := by
  cases negative <;> decide

theorem length_fixed_le {k : ℕ} (precision : ℕ) (negative : Bool) {q : ℚ} (hk : 0 < k)
    (hprecision : 0 < precision) (h : q ≤ (10 ^ k - 1 : ℕ)) :
    (fixed precision (.finite negative q)).length ≤ k + precision + 2 := by
  have hpow : 0 < 10 ^ precision := Nat.pow_pos (by decide)
  have hround : roundHalfEven (q * 10 ^ precision) ≤ (10 ^ k - 1) * 10 ^ precision := by
    apply roundHalfEven_le
    calc q * 10 ^ precision ≤ (10 ^ k - 1 : ℕ) * 10 ^ precision := by gcongr
      _ = ((10 ^ k - 1) * 10 ^ precision : ℕ) := by rw [Nat.cast_mul, Nat.cast_pow]; rfl
  have hwhole : roundHalfEven (q * 10 ^ precision) / 10 ^ precision < 10 ^ k := by
    have hle := Nat.div_le_of_le_mul (Nat.mul_comm _ _ ▸ hround)
    have hpos : 0 < 10 ^ k := Nat.pow_pos (by decide)
    omega
  have hlenWhole := length_decimal_le hk hwhole
  have hlenFraction := length_decimal_le hprecision
    (Nat.mod_lt (roundHalfEven (q * 10 ^ precision)) hpow)
  have hlenSign := length_signText_le negative
  simp only [fixed, List.length_append, List.length_replicate, List.length_singleton]
  omega

theorem zero_notMem_signText (negative : Bool) : 0 ∉ signText negative := by
  cases negative <;> decide

theorem zero_notMem_fixed (precision : ℕ) (v : FloatValue) : 0 ∉ fixed precision v := by
  cases v with
  | nan negative =>
      simp [fixed, zero_notMem_signText]
  | infinite negative =>
      simp [fixed, zero_notMem_signText]
  | finite negative q =>
      have hsign := zero_notMem_signText negative
      have hzero : (0 : UInt8) ≠ 48 := by decide
      simp [fixed, hsign, zero_notMem_decimal, hzero]

/-! ## Texts put together -/

section Buffer

variable {size : ℕ} {text : List UInt8}

/-- `snprintf(dst + start, size, ...)` with the formatted `text`: what fits, and a NUL. -/
def snprintf (dst : ℕ → UInt8) (start size : ℕ) (text : List UInt8) : ℕ → UInt8 :=
  if size = 0 then dst
  else
    let written := text.take (size - 1) ++ [0]
    fun j => if start ≤ j ∧ j < start + written.length then written.getD (j - start) 0 else dst j

/-- A buffer and the running length of the text in it. -/
structure Buffer where
  cells : ℕ → UInt8
  len : ℕ

/-- `len += snprintf(cells + len, size - len, ...)`; a negative size would become a huge one. -/
def append (size : ℕ) (buf : Buffer) (text : List UInt8) : Option Buffer :=
  if buf.len ≤ size then
    some ⟨snprintf buf.cells buf.len (size - buf.len) text, buf.len + text.length⟩
  else none

/-- One call for each of the texts. -/
def appendAll (size : ℕ) (buf : Buffer) (texts : List (List UInt8)) : Option Buffer :=
  texts.foldlM (append size) buf

/-- The string in an array of `size` cells, if it ends there. -/
def stringOf (size : ℕ) (cells : ℕ → UInt8) : Option (List UInt8) :=
  let array := (List.range size).map cells
  if 0 ∈ array then some (array.takeWhile (· ≠ 0)) else none

/-- The buffer holds the whole of `text`, terminated unless nothing has been written yet. -/
structure Holds (buf : Buffer) (text : List UInt8) : Prop where
  len : buf.len = text.length
  cells : ∀ j < text.length, buf.cells j = text.getD j 0
  terminated : text ≠ [] → buf.cells text.length = 0

theorem holds_nil (cells : ℕ → UInt8) : Holds ⟨cells, 0⟩ [] where
  len := rfl
  cells _ hj := absurd hj (Nat.not_lt_zero _)
  terminated h := absurd rfl h

theorem append_eq {buf : Buffer} (h : Holds buf text) (more : List UInt8)
    (hfit : text.length + more.length < size) :
    ∃ buf', append size buf more = some buf' ∧ Holds buf' (text ++ more) := by
  have hlen := h.len
  have hle : buf.len ≤ size := by omega
  have hsize : size - buf.len ≠ 0 := by omega
  have htake : more.take (size - buf.len - 1) = more := List.take_of_length_le (by omega)
  have hcells : snprintf buf.cells buf.len (size - buf.len) more = fun j =>
      if buf.len ≤ j ∧ j < buf.len + (more ++ [0]).length then (more ++ [0]).getD (j - buf.len) 0
      else buf.cells j := by
    unfold snprintf
    rw [if_neg hsize]
    dsimp only
    rw [htake]
  refine ⟨_, if_pos hle, ?_⟩
  rw [hcells]
  constructor
  · rw [hlen]
    exact List.length_append.symm
  · intro j hj
    rw [List.length_append] at hj
    dsimp only
    by_cases hold : j < text.length
    · have hout : ¬ (buf.len ≤ j ∧ j < buf.len + (more ++ [0]).length) := by omega
      rw [if_neg hout, h.cells j hold, List.getD_append _ _ _ _ hold]
    · have hin : buf.len ≤ j ∧ j < buf.len + (more ++ [0]).length := by
        rw [List.length_append, List.length_singleton]
        omega
      have hmore : j - buf.len < more.length := by omega
      rw [if_pos hin, List.getD_append _ _ _ _ hmore,
        List.getD_append_right _ _ _ _ (Nat.not_lt.mp hold), hlen]
  · intro _
    have hin : buf.len ≤ (text ++ more).length ∧
        (text ++ more).length < buf.len + (more ++ [0]).length := by
      rw [List.length_append, List.length_append, List.length_singleton]
      omega
    have hat : (text ++ more).length - buf.len = more.length := by
      rw [List.length_append]
      omega
    dsimp only
    rw [if_pos hin, hat, List.getD_append_right _ _ _ _ (Nat.le_refl _), Nat.sub_self]
    rfl

theorem appendAll_eq {buf : Buffer} {texts : List (List UInt8)} (h : Holds buf text)
    (hfit : text.length + texts.flatten.length < size) :
    ∃ buf', appendAll size buf texts = some buf' ∧ Holds buf' (text ++ texts.flatten) := by
  induction texts generalizing buf text with
  | nil =>
      rw [List.flatten_nil, List.append_nil]
      exact ⟨buf, rfl, h⟩
  | cons first texts ih =>
      rw [List.flatten_cons, List.length_append] at hfit
      have hfirstFit : text.length + first.length < size := by omega
      obtain ⟨buf₁, hfirst, hholds₁⟩ := append_eq h first hfirstFit
      obtain ⟨buf₂, hrest, hholds₂⟩ := ih hholds₁ (by rw [List.length_append]; omega)
      refine ⟨buf₂, ?_, ?_⟩
      · rw [appendAll, List.foldlM_cons, hfirst]
        exact hrest
      · rw [List.flatten_cons, ← List.append_assoc]
        exact hholds₂

theorem snprintf_eq (dst : ℕ → UInt8) (hfit : text.length < size) :
    ∀ j < text.length, snprintf dst 0 size text j = text.getD j 0 := by
  have hlen : ([] : List UInt8).length + text.length < size := by simpa using hfit
  obtain ⟨buf', happend, hholds⟩ := append_eq (holds_nil dst) text hlen
  cases happend
  exact hholds.cells

theorem stringOf_eq {buf : Buffer} (h : Holds buf text) (hne : text ≠ []) (hzero : 0 ∉ text)
    (hfit : text.length < size) : stringOf size buf.cells = some text := by
  have htext : (List.range text.length).map buf.cells = text := by
    apply List.ext_getElem
    · simp
    · intro j hj hj'
      have hcell := h.cells j hj'
      rw [List.getD_eq_getElem _ _ hj'] at hcell
      simpa using hcell
  have hsplit : (List.range size).map buf.cells =
      text ++ 0 :: (List.range (size - text.length - 1)).map
        (fun j => buf.cells (text.length + (j + 1))) := by
    have hsize : size = text.length + (size - text.length - 1 + 1) := by omega
    rw [hsize, List.range_add, List.map_append, htext, List.range_succ_eq_map, List.map_cons,
      List.map_cons, Nat.add_zero, h.terminated hne]
    simp [Function.comp_def]
  have hstop : ∀ c ∈ text, decide (c ≠ 0) = true := by
    intro c hc
    rw [decide_eq_true_iff]
    rintro rfl
    exact hzero hc
  unfold stringOf
  dsimp only
  rw [hsplit, if_pos (List.mem_append_right _ List.mem_cons_self),
    List.takeWhile_append_of_pos hstop]
  simp

end Buffer

end CodingGateway.Library.Printf
