import CodingGateway.Proofs.Elimination
import Mathlib.Data.UInt
set_option autoImplicit false

/-!
# Encoding then decoding returns the packets

Every shard of `encode_block` is a linear equation that the source packets
satisfy.  `decode_block` solves these equations, so what it returns are the
source packets, whichever independent shards it is given.
-/

namespace CodingGateway.Proofs.RoundTrip

open CodingGateway.Model
open CodingGateway.Proofs.FieldTables
open CodingGateway.Proofs.Elimination

/-! ## The common length -/

theorem foldl_max_spec (srcLen : ℕ → UInt16) (k : ℕ) :
    (∀ i < k, srcLen i ≤ maxLen srcLen k) ∧
      (maxLen srcLen k = 0 ∨ ∃ i < k, maxLen srcLen k = srcLen i) := by
  unfold maxLen
  induction k with
  | zero => exact ⟨fun i hi => absurd hi (Nat.not_lt_zero i), Or.inl rfl⟩
  | succ k ih =>
      rw [List.range_succ, List.foldl_append, List.foldl_cons, List.foldl_nil]
      set m := (List.range k).foldl (fun m i => if m < srcLen i then srcLen i else m) 0
      obtain ⟨hle, hattained⟩ := ih
      by_cases hlt : m < srcLen k
      · rw [if_pos hlt]
        refine ⟨fun i hi => ?_, Or.inr ⟨k, by omega, rfl⟩⟩
        rcases Nat.lt_succ_iff_lt_or_eq.mp hi with hik | rfl
        · exact UInt16.le_of_lt (UInt16.lt_of_le_of_lt (hle i hik) hlt)
        · exact UInt16.le_refl _
      · rw [if_neg hlt]
        refine ⟨fun i hi => ?_, ?_⟩
        · rcases Nat.lt_succ_iff_lt_or_eq.mp hi with hik | rfl
          · exact hle i hik
          · exact UInt16.not_lt.mp hlt
        · rcases hattained with hzero | ⟨i, hi, heq⟩
          · exact Or.inl hzero
          · exact Or.inr ⟨i, by omega, heq⟩

theorem srcLen_le_maxLen (srcLen : ℕ → UInt16) {k i : ℕ} (hi : i < k) :
    (srcLen i).toNat ≤ (maxLen srcLen k).toNat :=
  UInt16.le_iff_toNat_le.mp ((foldl_max_spec srcLen k).1 i hi)

theorem maxLen_le {srcLen : ℕ → UInt16} {k bound : ℕ} (h : ∀ i < k, (srcLen i).toNat ≤ bound) :
    (maxLen srcLen k).toNat ≤ bound := by
  rcases (foldl_max_spec srcLen k).2 with hzero | ⟨i, hi, heq⟩
  · rw [hzero]
    exact Nat.zero_le _
  · rw [heq]
    exact h i hi

/-! ## Shards are equations between the packets -/

/-- The packets are zero from their own length up to `len`. -/
def ZeroPadded (src : ℕ → Bytes) (srcLen : ℕ → UInt16) (k len : ℕ) : Prop :=
  ∀ i < k, ∀ t, (srcLen i).toNat ≤ t → t < len → src i t = 0

/-- The shard's data is the combination of the packets that its coefficients name. -/
def IsCombination (k len : ℕ) (src : ℕ → Bytes) (sh : Shard) : Prop :=
  ∑ j : Fin k, coeffRow k sh j • dataRow len (src j) = dataRow len sh.data

theorem foldl_combineStep (src : ℕ → Bytes) (len : UInt16) (rand : ℕ → ℕ) (sh : Shard)
    (hdata : ∀ t < len.toNat, sh.data t = 0) (m : ℕ) :
    let sh' := (List.range m).foldl (combineStep src len rand) sh
    sh'.len = sh.len ∧
      (∀ j, sh'.coeffs j = if j < m then drawCoeff (rand j) else sh.coeffs j) ∧
      ∀ t < len.toNat, (⟨sh'.data t⟩ : GF256) =
        ∑ j ∈ Finset.range m, ⟨drawCoeff (rand j)⟩ * ⟨src j t⟩ := by
  induction m with
  | zero =>
      refine ⟨rfl, fun j => by simp, fun t ht => ?_⟩
      rw [Finset.range_zero, Finset.sum_empty]
      exact GF256.ext (hdata t ht)
  | succ m ih =>
      obtain ⟨hlen, hcoeffs, hsum⟩ := ih
      simp only [List.range_succ, List.foldl_append, List.foldl_cons, List.foldl_nil]
      set sh' := (List.range m).foldl (combineStep src len rand) sh
      refine ⟨hlen, fun j => ?_, fun t ht => ?_⟩
      · simp only [combineStep, Function.update_apply, hcoeffs]
        rcases lt_trichotomy j m with hlt | heq | hgt
        · simp [hlt, hlt.ne, Nat.lt_succ_of_lt hlt]
        · simp [heq]
        · simp [hgt.ne', show ¬ j < m by omega, show ¬ j < m + 1 by omega]
      · rw [Finset.sum_range_succ, ← hsum t ht]
        simp only [combineStep, gfVecAxpy, if_pos ht]
        rfl

section Encoding

variable (src : ℕ → Bytes) (srcLen : ℕ → UInt16) (k : ℕ) (rand : ℕ → ℕ) (out : Shard)

@[simp] theorem encodeShard_len (s : ℕ) :
    (encodeShard src srcLen k rand out s).len = maxLen srcLen k := by
  unfold encodeShard
  by_cases hs : s < k
  · simp [hs]
  · rw [if_neg hs]
    exact (foldl_combineStep src (maxLen srcLen k) rand _ (fun t ht => by simp [memset, ht]) k).1

theorem coeffRow_encodeShard_systematic {s : ℕ} (hs : s < k) :
    coeffRow k (encodeShard src srcLen k rand out s) = Pi.single ⟨s, hs⟩ 1 := by
  funext j
  apply GF256.ext
  by_cases hj : j = ⟨s, hs⟩
  · subst hj
    simp [coeffRow, encodeShard, hs]
  · have hne : j.val ≠ s := fun h => hj (Fin.ext h)
    simp [coeffRow, encodeShard, hs, hj, Function.update_of_ne hne, memset]

theorem coeffs_encodeShard_coded {s : ℕ} (hs : k ≤ s) {j : ℕ} (hj : j < k) :
    (encodeShard src srcLen k rand out s).coeffs j = drawCoeff (rand j) := by
  unfold encodeShard
  rw [if_neg (Nat.not_lt.mpr hs)]
  have h := (foldl_combineStep src (maxLen srcLen k) rand
    ⟨memset out.coeffs 0 0 k, memset out.data 0 0 (maxLen srcLen k).toNat, maxLen srcLen k⟩
    (fun t ht => by simp [memset, ht]) k).2.1 j
  rw [if_pos hj] at h
  exact h

theorem isCombination_encodeShard
    (hpad : ZeroPadded src srcLen k (maxLen srcLen k).toNat) (s : ℕ) :
    IsCombination k (maxLen srcLen k).toNat src (encodeShard src srcLen k rand out s) := by
  unfold IsCombination
  by_cases hs : s < k
  · rw [coeffRow_encodeShard_systematic src srcLen k rand out hs]
    simp only [Pi.single_apply, ite_smul, one_smul, zero_smul, Finset.sum_ite_eq',
      Finset.mem_univ, if_true]
    funext t
    apply GF256.ext
    by_cases ht : t.val < (srcLen s).toNat
    · simp [dataRow, encodeShard, hs, memcpy, ht]
    · simp [dataRow, encodeShard, hs, memcpy, ht, memset, hpad s hs t (Nat.not_lt.mp ht) t.isLt]
  · funext t
    rw [Finset.sum_apply]
    have hcoeff (j : Fin k) : coeffRow k (encodeShard src srcLen k rand out s) j =
        ⟨drawCoeff (rand j)⟩ :=
      GF256.ext (coeffs_encodeShard_coded src srcLen k rand out (Nat.not_lt.mp hs) j.isLt)
    simp only [hcoeff, Pi.smul_apply, smul_eq_mul]
    have hfold := (foldl_combineStep src (maxLen srcLen k) rand
      ⟨memset out.coeffs 0 0 k, memset out.data 0 0 (maxLen srcLen k).toNat, maxLen srcLen k⟩
      (fun t ht => by simp [memset, ht]) k).2.2 t t.isLt
    rw [Finset.sum_range] at hfold
    simp only [dataRow, encodeShard, if_neg hs]
    exact hfold.symm

end Encoding

/-! ## Decoding combinations -/

theorem out_eq_of_decodeBlock {k : ℕ} {len : UInt16} {locals : DecodeState} {res o : DecodeOut}
    {shards : ℕ → Shard} {src : ℕ → Bytes} (hlens : ∀ i < k, (shards i).len = len)
    (hlen : len.toNat ≤ maxPayload) (hcomb : ∀ i < k, IsCombination k len.toNat src (shards i))
    (hdec : decodeBlock locals res shards k = some o) :
    ∀ i < k, o.outLen i = len ∧ ∀ t < len.toNat, o.out i t = src i t := by
  have hspec := decodeBlock_spec locals res shards hlens hlen
  rw [hdec] at hspec
  obtain ⟨_, hlenOut, hsolve⟩ := hspec
  have hsrc := (hsolve fun i => dataRow len.toNat (src i)).mp (fun i => hcomb i i.isLt)
  intro i hi
  refine ⟨hlenOut i hi, fun t ht => ?_⟩
  exact (congrArg GF256.byte (congrFun (hsrc ⟨i, hi⟩) ⟨t, ht⟩)).symm

/-- **Round trip.** Any `k` shards of `encode_block`, in any order, decode exactly when
their coefficient rows are independent over the field, and then to the padded packets. -/
theorem decodeBlock_encodeBlock {k n : ℕ} {src : ℕ → Bytes} {srcLen : ℕ → UInt16}
    (hmax : ∀ i < k, (srcLen i).toNat ≤ maxPayload)
    (hpad : ZeroPadded src srcLen k (maxLen srcLen k).toNat) (rand : ℕ → ℕ → ℕ)
    (garbage : ℕ → Shard) {sel : ℕ → ℕ} (hsel : ∀ i < k, sel i < n)
    (locals : DecodeState) (res : DecodeOut) :
    let shards := encodeBlock src srcLen k n rand garbage
    ((decodeBlock locals res (fun i => shards (sel i)) k).isSome ↔
      LinearIndependent GF256 (fun i : Fin k => coeffRow k (shards (sel i)))) ∧
    ∀ o, decodeBlock locals res (fun i => shards (sel i)) k = some o →
      ∀ i < k, o.outLen i = maxLen srcLen k ∧
        ∀ t < (maxLen srcLen k).toNat,
          o.out i t = if t < (srcLen i).toNat then src i t else 0 := by
  intro shards
  have hlen : (maxLen srcLen k).toNat ≤ maxPayload := maxLen_le hmax
  have hshard (i : ℕ) (hi : i < k) : shards (sel i) =
      encodeShard src srcLen k (rand (sel i)) (garbage (sel i)) (sel i) := if_pos (hsel i hi)
  have hlens : ∀ i < k, (shards (sel i)).len = maxLen srcLen k := by
    intro i hi
    rw [hshard i hi, encodeShard_len]
  constructor
  · have hspec := decodeBlock_spec locals res (fun i => shards (sel i)) hlens hlen
    cases hdec : decodeBlock locals res (fun i => shards (sel i)) k with
    | none => simpa [hdec] using hspec
    | some o =>
        rw [hdec] at hspec
        exact iff_of_true rfl hspec.1
  · intro o hdec i hi
    have hcomb : ∀ i < k, IsCombination k (maxLen srcLen k).toNat src (shards (sel i)) := by
      intro i hi
      rw [hshard i hi]
      exact isCombination_encodeShard src srcLen k _ _ hpad (sel i)
    obtain ⟨hlenOut, hout⟩ := out_eq_of_decodeBlock hlens hlen hcomb hdec i hi
    refine ⟨hlenOut, fun t ht => ?_⟩
    rw [hout t ht]
    split_ifs with hlt
    · rfl
    · exact hpad i hi t (Nat.not_lt.mp hlt) ht

/-- Two packets of one byte, three shards, the second systematic shard and the coded one. -/
theorem decodeBlock_encodeBlock_two :
    (decodeBlock ⟨0, 0, 0⟩ ⟨0, 0⟩
      (fun i => encodeBlock (fun j _ => UInt8.ofNat (j + 7)) (fun _ => 1) 2 3
        (fun _ j => j + 3) (fun _ => ⟨0, 0, 0⟩) (i + 1)) 2).isSome ↔
    LinearIndependent GF256 (fun i : Fin 2 => coeffRow 2
      (encodeBlock (fun j _ => UInt8.ofNat (j + 7)) (fun _ => 1) 2 3
        (fun _ j => j + 3) (fun _ => ⟨0, 0, 0⟩) (i + 1))) :=
  (@decodeBlock_encodeBlock 2 3 (fun j _ => UInt8.ofNat (j + 7)) (fun _ => 1)
    (fun _ _ => by decide)
    (fun _ _ _ hge hlt => absurd (lt_of_lt_of_le hlt (maxLen_le fun _ _ => le_rfl))
      (Nat.not_lt.mpr hge)) (fun _ j => j + 3) (fun _ => ⟨0, 0, 0⟩) (fun i => i + 1)
    (fun _ _ => by omega) ⟨0, 0, 0⟩ ⟨0, 0⟩).1

end CodingGateway.Proofs.RoundTrip
