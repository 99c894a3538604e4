import CodingGateway.Proofs.Elimination
set_option autoImplicit false

/-!
# `decode_block` solves a linear system

The shards handed to `decode_block` need not come from `encode_block`.  Whatever
their coefficients and bytes are, the call fails exactly when the matrix of the
coefficients is singular, and otherwise it returns the only solution of the
equations that the shards state, in whatever order they arrive.
-/

namespace CodingGateway.Proofs.LinearSolve

open CodingGateway.Model
open CodingGateway.Proofs.Elimination
open CodingGateway.Proofs.FieldTables

variable {k : ℕ} {len : UInt16} {locals locals' : DecodeState} {res o o' : DecodeOut}
  {shards shards' : ℕ → Shard}

/-- The matrix `coeffs[i][j]` of the first `k` shards. -/
def coeffMatrix (k : ℕ) (shards : ℕ → Shard) : Matrix (Fin k) (Fin k) GF256 :=
  Matrix.of fun i j => ⟨(shards i).coeffs j⟩

/-- `sum_j coeffs[i][j] * x[j][t] = data[i][t]` for the first `k` shards, `len` bytes each. -/
def Solves (k len : ℕ) (shards : ℕ → Shard) (x : ℕ → Bytes) : Prop :=
  ∀ i < k, ∀ t < len, ∑ j ∈ Finset.range k, (⟨(shards i).coeffs j⟩ : GF256) * ⟨x j t⟩ =
    ⟨(shards i).data t⟩

/-! ## The equations as vectors -/

theorem det_coeffMatrix_eq_zero :
    (coeffMatrix k shards).det = 0 ↔
      ¬ LinearIndependent GF256 (fun i : Fin k => coeffRow k (shards i)) := by
  have hrows : LinearIndependent GF256 (coeffMatrix k shards).row ↔
      IsUnit (coeffMatrix k shards) :=
    Matrix.linearIndependent_rows_iff_isUnit
  rw [Matrix.isUnit_iff_isUnit_det, isUnit_iff_ne_zero] at hrows
  exact not_iff_not.mp (hrows.symm.trans not_not.symm)

theorem solves_iff (x : ℕ → Bytes) :
    Solves k len.toNat shards x ↔
      ∀ i : Fin k, ∑ j : Fin k, coeffRow k (shards i) j • dataRow len.toNat (x j) =
        dataRow len.toNat (shards i).data := by
  have hbyte (i : Fin k) (t : Fin len.toNat) :
      (∑ j : Fin k, coeffRow k (shards i) j • dataRow len.toNat (x j)) t =
        ∑ j ∈ Finset.range k, (⟨(shards i).coeffs j⟩ : GF256) * ⟨x j t⟩ := by
    rw [Finset.sum_range, Finset.sum_apply]
    rfl
  constructor
  · intro hsolves i
    ext1 t
    rw [hbyte]
    exact hsolves i i.isLt t t.isLt
  · intro hvec i hi t ht
    rw [← hbyte ⟨i, hi⟩ ⟨t, ht⟩, hvec]
    rfl

theorem solves_perm {σ : Equiv.Perm (Fin k)} (hσ : ∀ i : Fin k, shards' i = shards (σ i))
    (x : ℕ → Bytes) : Solves k len.toNat shards' x ↔ Solves k len.toNat shards x := by
  rw [solves_iff, solves_iff]
  constructor
  · intro h i
    simpa [hσ] using h (σ.symm i)
  · intro h i
    simpa [hσ] using h (σ i)

/-! ## The two outcomes -/

theorem decodeBlock_eq_none_iff (hlens : ∀ i < k, (shards i).len = len)
    (hlen : len.toNat ≤ maxPayload) :
    decodeBlock locals res shards k = none ↔ (coeffMatrix k shards).det = 0 := by
  have hspec := decodeBlock_spec locals res shards hlens hlen
  rw [det_coeffMatrix_eq_zero]
  cases hrun : decodeBlock locals res shards k with
  | none =>
      rw [hrun] at hspec
      exact iff_of_true rfl hspec
  | some o =>
      rw [hrun] at hspec
      exact iff_of_false nofun (not_not.mpr hspec.1)

theorem decodeBlock_outside (hlens : ∀ i < k, (shards i).len = len)
    (hlen : len.toNat ≤ maxPayload) (hrun : decodeBlock locals res shards k = some o) :
    (∀ i, o.outLen i = if i < k then len else res.outLen i) ∧
      ∀ i t, ¬ (i < k ∧ t < len.toNat) → o.out i t = res.out i t := by
  have hload : EqualLengths k len (loadShards locals shards k) := by
    intro i hi
    simp [loadShards, hi, hlens i hi]
  have hcolumns := foldlM_eliminateColumn hload hlen k le_rfl
  obtain ⟨st, hst, rfl⟩ := Option.map_eq_some_iff.mp hrun
  rw [hst] at hcolumns
  have hequal : EqualLengths k len st := hcolumns.1
  constructor
  · intro i
    show (if i < k then st.dlen i else res.outLen i) = _
    split_ifs with hi
    · exact hequal i hi
    · rfl
  · intro i t hout
    show (if i < k then memcpy (res.out i) (st.dat i) (st.dlen i).toNat else res.out i) t = _
    split_ifs with hi
    · have ht : ¬ t < (st.dlen i).toNat := by
        rw [hequal i hi]
        exact fun ht => hout ⟨hi, ht⟩
      exact if_neg ht
    · rfl

theorem solves_of_decodeBlock (hlens : ∀ i < k, (shards i).len = len)
    (hlen : len.toNat ≤ maxPayload) (hrun : decodeBlock locals res shards k = some o) :
    Solves k len.toNat shards o.out ∧
      ∀ x, Solves k len.toNat shards x → ∀ i < k, ∀ t < len.toNat, x i t = o.out i t := by
  have hspec := decodeBlock_spec locals res shards hlens hlen
  rw [hrun] at hspec
  obtain ⟨-, -, hsol⟩ := hspec
  constructor
  · rw [solves_iff]
    exact (hsol fun j => dataRow len.toNat (o.out j)).mpr fun _ => rfl
  · intro x hx i hi t ht
    have hrow := (hsol fun j => dataRow len.toNat (x j)).mp ((solves_iff x).mp hx) ⟨i, hi⟩
    exact congrArg GF256.byte (congrFun hrow ⟨t, ht⟩)

/-! ## The order of the shards -/

theorem det_coeffMatrix_perm {σ : Equiv.Perm (Fin k)}
    (hσ : ∀ i : Fin k, shards' i = shards (σ i)) :
    (coeffMatrix k shards').det = 0 ↔ (coeffMatrix k shards).det = 0 := by
  rw [det_coeffMatrix_eq_zero, det_coeffMatrix_eq_zero, not_iff_not,
    ← linearIndependent_equiv σ (f := fun i : Fin k => coeffRow k (shards i))]
  have hrows : (fun i : Fin k => coeffRow k (shards' i)) =
      (fun i : Fin k => coeffRow k (shards i)) ∘ σ := by
    ext1 i
    rw [hσ i]
    rfl
  rw [hrows]

theorem decodeBlock_perm (hlens : ∀ i < k, (shards i).len = len) (hlen : len.toNat ≤ maxPayload)
    {σ : Equiv.Perm (Fin k)} (hσ : ∀ i : Fin k, shards' i = shards (σ i)) :
    decodeBlock locals' res shards' k = decodeBlock locals res shards k := by
  have hlens' : ∀ i < k, (shards' i).len = len := by
    intro i hi
    have hi' := hσ ⟨i, hi⟩
    rw [hi']
    exact hlens _ (σ ⟨i, hi⟩).isLt
  have hnone : decodeBlock locals' res shards' k = none ↔
      decodeBlock locals res shards k = none := by
    rw [decodeBlock_eq_none_iff hlens' hlen, decodeBlock_eq_none_iff hlens hlen]
    exact det_coeffMatrix_perm hσ
  cases hrun : decodeBlock locals res shards k with
  | none => exact hnone.mpr hrun
  | some o =>
      have hsome : decodeBlock locals' res shards' k ≠ none := by
        rw [Ne, hnone, hrun]
        exact nofun
      obtain ⟨o', hrun'⟩ := Option.ne_none_iff_exists'.mp hsome
      obtain ⟨hlenOut, hframe⟩ := decodeBlock_outside hlens hlen hrun
      obtain ⟨hlenOut', hframe'⟩ := decodeBlock_outside hlens' hlen hrun'
      have hsolves' := (solves_perm hσ _).mp (solves_of_decodeBlock hlens' hlen hrun').1
      have hunique := (solves_of_decodeBlock hlens hlen hrun).2 _ hsolves'
      have hout : o'.out = o.out := by
        ext i t
        by_cases hin : i < k ∧ t < len.toNat
        · exact congrArg UInt8.toNat (hunique i hin.1 t hin.2)
        · rw [hframe i t hin, hframe' i t hin]
      have houtLen : o'.outLen = o.outLen := by
        ext i
        rw [hlenOut i, hlenOut' i]
      have heq : o' = o := by
        cases o'
        cases o
        exact congr (congrArg DecodeOut.mk hout) houtLen
      rw [hrun', heq]

/-- **`decode_block` as a linear solver.** For every `k` shards of equal length, the call fails
exactly when their coefficient matrix is singular; otherwise every packet has that length and
the packets are the only solution of the equations.  The order of the shards, and what the
working arrays held before, change nothing. -/
theorem decodeBlock_solves (locals : DecodeState) (res : DecodeOut)
    (hlens : ∀ i < k, (shards i).len = len) (hlen : len.toNat ≤ maxPayload) :
    (decodeBlock locals res shards k = none ↔ (coeffMatrix k shards).det = 0) ∧
      (∀ o, decodeBlock locals res shards k = some o →
        (∀ i < k, o.outLen i = len) ∧ Solves k len.toNat shards o.out ∧
          ∀ x, Solves k len.toNat shards x → ∀ i < k, ∀ t < len.toNat, x i t = o.out i t) ∧
      ∀ (σ : Equiv.Perm (Fin k)) (locals' : DecodeState) (shards' : ℕ → Shard),
        (∀ i : Fin k, shards' i = shards (σ i)) →
          decodeBlock locals' res shards' k = decodeBlock locals res shards k := by
  refine ⟨decodeBlock_eq_none_iff hlens hlen, fun o hrun => ⟨?_, ?_⟩, ?_⟩
  · intro i hi
    rw [(decodeBlock_outside hlens hlen hrun).1 i, if_pos hi]
  · exact solves_of_decodeBlock hlens hlen hrun
  · intro σ locals' shards' hσ
    exact decodeBlock_perm hlens hlen hσ

/-- The equations `x₁ = 5` and `x₀ + x₁ = 3`, one byte each: the first column needs a swap. -/
def crossed (i : ℕ) : Shard :=
  if i = 0 then ⟨fun j => if j = 0 then 0 else 1, fun _ => 5, 1⟩ else ⟨fun _ => 1, fun _ => 3, 1⟩

theorem decodeBlock_solves_crossed :
    ∃ o, decodeBlock ⟨fun _ _ => 0, fun _ _ => 0, fun _ => 0⟩ ⟨fun _ _ => 0, fun _ => 0⟩ crossed 2 =
      some o ∧ (∀ i < 2, o.outLen i = 1) ∧ Solves 2 1 crossed o.out := by
  have hlens : ∀ i < 2, (crossed i).len = 1 := by
    decide
  have hlen : (1 : UInt16).toNat ≤ maxPayload := by
    decide
  have hsome : (decodeBlock ⟨fun _ _ => 0, fun _ _ => 0, fun _ => 0⟩ ⟨fun _ _ => 0, fun _ => 0⟩
      crossed 2).isSome = true := by
    decide +kernel
  obtain ⟨o, hrun⟩ := Option.isSome_iff_exists.mp hsome
  obtain ⟨houtLen, hsolves, -⟩ := (decodeBlock_solves _ _ hlens hlen).2.1 o hrun
  exact ⟨o, hrun, houtLen, hsolves⟩

end CodingGateway.Proofs.LinearSolve
