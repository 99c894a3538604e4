import CodingGateway.Library.GaussJordan
import CodingGateway.Model.Codec
import CodingGateway.Proofs.FieldTables
set_option autoImplicit false

/-!
# `decode_block` is Gauss-Jordan elimination over `GF(2^8)`

The working arrays of `decode_block` are read as a linear system whose unknowns
are the packets.  Each row operation of the C code is the row operation of the
library on that system, so the library's results about complete and stuck runs
become the two outcomes of `decode_block`.
-/

namespace CodingGateway.Proofs.Elimination

open CodingGateway.Library.GaussJordan
open CodingGateway.Model
open CodingGateway.Proofs.FieldTables

/-- The equations held in the first `k` rows, with `len` bytes of data each. -/
def toSystem (k len : ℕ) (st : DecodeState) : LinearSystem GF256 (Fin len → GF256) k where
  mat i j := ⟨st.mat i j⟩
  rhs i t := ⟨st.dat i t⟩

/-- The first `k` rows have `len` bytes of data. -/
def EqualLengths (k : ℕ) (len : UInt16) (st : DecodeState) : Prop := ∀ i < k, st.dlen i = len

variable {k : ℕ} {len : UInt16}

/-! ## One row operation -/

theorem equalLengths_swapRows {st : DecodeState} (h : EqualLengths k len st) (c p : Fin k) :
    EqualLengths k len (swapRows st k c p) := by
  intro i hi
  unfold swapRows
  split_ifs with hpc
  · exact h i hi
  · simp only [Function.update_apply]
    split_ifs
    · exact h c c.isLt
    · exact h p p.isLt
    · exact h i hi

theorem toSystem_swapRows (st : DecodeState) (c p : Fin k) (hlen : len.toNat ≤ maxPayload) :
    toSystem k len.toNat (swapRows st k c p) = (toSystem k len.toNat st).swap c p := by
  unfold swapRows
  split_ifs with hpc
  · have heq : p = c := Fin.ext hpc
    simp [LinearSystem.swap, heq]
  · have hne : c ≠ p := fun h => hpc (by rw [h])
    have hval (i : Fin k) (q : Fin k) : (i.val = q.val) = (i = q) := by
      rw [Fin.ext_iff]
    ext i j
    · simp only [toSystem, LinearSystem.swap, Function.update_apply, hval]
      rcases eq_or_ne i p with rfl | hip
      · simp [memcpy, j.isLt]
      · rcases eq_or_ne i c with rfl | hic
        · simp [memcpy, j.isLt, hip]
        · simp [hip, hic, Equiv.swap_apply_of_ne_of_ne hic hip]
    · have hj : j.val < maxPayload := lt_of_lt_of_le j.isLt hlen
      simp only [toSystem, LinearSystem.swap, Function.update_apply, hval]
      rcases eq_or_ne i p with rfl | hip
      · simp [memcpy, hj]
      · rcases eq_or_ne i c with rfl | hic
        · simp [memcpy, hj, hip]
        · simp [hip, hic, Equiv.swap_apply_of_ne_of_ne hic hip]

theorem toSystem_scaleRow {st : DecodeState} (h : EqualLengths k len st) (c : Fin k) :
    toSystem k len.toNat (scaleRow st k c) =
      (toSystem k len.toNat st).scale c (⟨st.mat c c⟩ : GF256)⁻¹ := by
  have hval (i : Fin k) : (i.val = c.val) = (i = c) := by rw [Fin.ext_iff]
  ext i j
  · by_cases hic : i = c
    · subst hic
      simp [toSystem, scaleRow, LinearSystem.scale, j.isLt]
    · simp [toSystem, scaleRow, LinearSystem.scale, Function.update_apply, hval, hic]
  · by_cases hic : i = c
    · subst hic
      simp [toSystem, scaleRow, LinearSystem.scale, h i i.isLt]
    · simp [toSystem, scaleRow, LinearSystem.scale, Function.update_apply, hval, hic]

theorem eliminateRow_row {st : DecodeState} (h : EqualLengths k len st) (c i : Fin k)
    (hic : i ≠ c) :
    (∀ j : Fin k, (⟨(eliminateRow k c st i).mat i j⟩ : GF256) =
      ⟨st.mat i j⟩ - ⟨st.mat i c⟩ * ⟨st.mat c j⟩) ∧
    (∀ t : Fin len.toNat, (⟨(eliminateRow k c st i).dat i t⟩ : GF256) =
      ⟨st.dat i t⟩ - ⟨st.mat i c⟩ * ⟨st.dat c t⟩) := by
  have hval : i.val ≠ c.val := fun h => hic (Fin.ext h)
  unfold eliminateRow
  by_cases hzero : st.mat i c = 0
  · have hfactor : (⟨st.mat i c⟩ : GF256) = 0 := GF256.ext hzero
    rw [if_pos (Or.inr hzero), hfactor]
    simp only [zero_mul, sub_zero, implies_true, and_self]
  · rw [if_neg (by simp [hval, hzero])]
    constructor
    · intro j
      simp only [Function.update_self, gfVecAxpy, j.isLt, if_true]
      rfl
    · intro t
      simp only [Function.update_self, gfVecAxpy, h c c.isLt, h i i.isLt, ite_self,
        t.isLt, if_true]
      rfl

theorem eliminateRow_other (st : DecodeState) (c row i : ℕ) (hi : i ≠ row) :
    (eliminateRow k c st row).mat i = st.mat i ∧ (eliminateRow k c st row).dat i = st.dat i := by
  unfold eliminateRow
  split
  · exact ⟨rfl, rfl⟩
  · exact ⟨Function.update_of_ne hi _ _, Function.update_of_ne hi _ _⟩

theorem eliminateRow_pivot (st : DecodeState) (c row : ℕ) :
    (eliminateRow k c st row).mat c = st.mat c ∧ (eliminateRow k c st row).dat c = st.dat c := by
  by_cases hrow : c = row
  · unfold eliminateRow
    simp [hrow]
  · exact eliminateRow_other st c row c hrow

@[simp] theorem eliminateRow_dlen (st : DecodeState) (c row : ℕ) :
    (eliminateRow k c st row).dlen = st.dlen := by
  unfold eliminateRow
  split_ifs <;> rfl

/-! ## One column -/

/-- After `m` turns of the row loop, the rows below `m` are those of the cleared system
and the rows from `m` on are as they were; row `c` never changes. -/
theorem foldl_eliminateRow {st : DecodeState} (h : EqualLengths k len st) (c : Fin k)
    (m : ℕ) (hm : m ≤ k) :
    let st' := (List.range m).foldl (eliminateRow k c) st
    EqualLengths k len st' ∧ st'.mat c = st.mat c ∧ st'.dat c = st.dat c ∧
      (∀ i : Fin k, i.val < m → i ≠ c →
        (∀ j : Fin k, (⟨st'.mat i j⟩ : GF256) = ⟨st.mat i j⟩ - ⟨st.mat i c⟩ * ⟨st.mat c j⟩) ∧
        (∀ t : Fin len.toNat,
          (⟨st'.dat i t⟩ : GF256) = ⟨st.dat i t⟩ - ⟨st.mat i c⟩ * ⟨st.dat c t⟩)) ∧
      (∀ i, m ≤ i → st'.mat i = st.mat i ∧ st'.dat i = st.dat i) := by
  induction m with
  | zero => exact ⟨h, rfl, rfl, fun i hi => absurd hi (Nat.not_lt_zero _), fun i _ => ⟨rfl, rfl⟩⟩
  | succ m ih =>
      obtain ⟨hlens, hmatc, hdatc, hdone, htodo⟩ := ih (by omega)
      simp only [List.range_succ, List.foldl_append, List.foldl_cons, List.foldl_nil]
      set st' := (List.range m).foldl (eliminateRow k c) st
      have hpivot := eliminateRow_pivot (k := k) st' c m
      refine ⟨fun i hi => ?_, hpivot.1.trans hmatc, hpivot.2.trans hdatc, ?_, ?_⟩
      · rw [eliminateRow_dlen]
        exact hlens i hi
      · intro i hi hic
        by_cases him : i.val = m
        · have hrow := eliminateRow_row hlens c i hic
          have hold := htodo m le_rfl
          rw [him] at hrow
          rw [him]
          simpa only [hold.1, hold.2, hmatc, hdatc] using hrow
        · have hother := eliminateRow_other (k := k) st' c m i him
          rw [hother.1, hother.2]
          exact hdone i (by omega) hic
      · intro i hi
        have hother := eliminateRow_other (k := k) st' c m i (by omega)
        have hold := htodo i (by omega)
        exact ⟨hother.1.trans hold.1, hother.2.trans hold.2⟩

theorem equalLengths_foldl_eliminateRow {st : DecodeState} (h : EqualLengths k len st)
    (c : Fin k) : EqualLengths k len ((List.range k).foldl (eliminateRow k c) st) :=
  (foldl_eliminateRow h c k le_rfl).1

theorem toSystem_foldl_eliminateRow {st : DecodeState} (h : EqualLengths k len st)
    (c : Fin k) : toSystem k len.toNat ((List.range k).foldl (eliminateRow k c) st) =
      (toSystem k len.toNat st).clear c := by
  obtain ⟨_, hmatc, hdatc, hdone, _⟩ := foldl_eliminateRow h c k le_rfl
  refine LinearSystem.ext (funext fun i => funext fun j => ?_) (funext fun i => funext fun t => ?_)
  · by_cases hic : i = c
    · simp [toSystem, LinearSystem.clear, hic, hmatc]
    · simpa [toSystem, LinearSystem.clear, hic] using (hdone i i.isLt hic).1 j
  · by_cases hic : i = c
    · simp [toSystem, LinearSystem.clear, hic, hdatc]
    · simpa [toSystem, LinearSystem.clear, hic] using (hdone i i.isLt hic).2 t

theorem findPivot_eq_some {st : DecodeState} {c : Fin k} {p : ℕ}
    (h : findPivot st k c = some p) : c.val ≤ p ∧ p < k ∧ st.mat p c ≠ 0 := by
  have hmem := List.mem_of_find?_eq_some h
  rw [List.mem_range'_1] at hmem
  refine ⟨hmem.1, by omega, ?_⟩
  simpa using List.find?_some h

theorem findPivot_eq_none {st : DecodeState} {c : Fin k} (h : findPivot st k c = none) :
    (toSystem k len.toNat st).Stuck c := by
  intro p hcp
  have hmem : p.val ∈ List.range' c.val (k - c.val) := by
    rw [List.mem_range'_1]
    have := p.isLt
    have hle : c.val ≤ p.val := hcp
    omega
  have hzero := List.find?_eq_none.mp h p.val hmem
  exact GF256.ext (by simpa [toSystem] using hzero)

/-- A turn of the column loop that finds a pivot is one reduction of the library. -/
theorem eliminateColumn_eq_some {st st' : DecodeState} (h : EqualLengths k len st)
    (hlen : len.toNat ≤ maxPayload) (c : Fin k) (hstep : eliminateColumn k st c = some st') :
    EqualLengths k len st' ∧ ∃ p : Fin k, c ≤ p ∧ (toSystem k len.toNat st).mat p c ≠ 0 ∧
      toSystem k len.toNat st' = (toSystem k len.toNat st).reduce c p := by
  unfold eliminateColumn at hstep
  cases hpivot : findPivot st k c with
  | none => simp [hpivot] at hstep
  | some q =>
      obtain ⟨hcq, hqk, hne⟩ := findPivot_eq_some hpivot
      simp only [hpivot, Option.some.injEq] at hstep
      subst hstep
      have hswap := equalLengths_swapRows h c ⟨q, hqk⟩
      have hscale : EqualLengths k len (scaleRow (swapRows st k c q) k c) := hswap
      refine ⟨equalLengths_foldl_eliminateRow hscale c, ⟨q, hqk⟩, hcq, ?_, ?_⟩
      · intro hzero
        exact hne (congrArg GF256.byte hzero)
      · have hsys := toSystem_swapRows st c ⟨q, hqk⟩ hlen
        have hdiag : (⟨(swapRows st k c q).mat c c⟩ : GF256) = ⟨st.mat q c⟩ := by
          have := congrArg (fun s => s.mat c c) hsys
          simpa [toSystem, LinearSystem.swap] using this
        rw [toSystem_foldl_eliminateRow hscale, toSystem_scaleRow hswap, hdiag, hsys]
        rfl

theorem eliminateColumn_eq_none {st : DecodeState} (c : Fin k)
    (hstep : eliminateColumn k st c = none) : (toSystem k len.toNat st).Stuck c := by
  unfold eliminateColumn at hstep
  cases hpivot : findPivot st k c with
  | none => exact findPivot_eq_none hpivot
  | some q => simp [hpivot] at hstep

/-! ## The column loop -/

/-- After `m` columns the loop either has stopped at a column without pivot, or holds
what eliminating these columns makes of the loaded system. -/
theorem foldlM_eliminateColumn {st : DecodeState} (h : EqualLengths k len st)
    (hlen : len.toNat ≤ maxPayload) (m : ℕ) (hm : m ≤ k) :
    match (List.range m).foldlM (eliminateColumn k) st with
    | none => ∃ (c : Fin k) (t : LinearSystem GF256 (Fin len.toNat → GF256) k),
        Eliminated c.val (toSystem k len.toNat st) t ∧ t.Stuck c
    | some st' => EqualLengths k len st' ∧
        Eliminated m (toSystem k len.toNat st) (toSystem k len.toNat st') := by
  induction m with
  | zero => exact ⟨h, .start _⟩
  | succ m ih =>
      have hprev := ih (by omega)
      rw [List.range_succ, List.foldlM_append]
      cases hrun : (List.range m).foldlM (eliminateColumn k) st with
      | none => simpa [hrun] using hprev
      | some st' =>
          simp only [hrun] at hprev
          obtain ⟨hlens, helim⟩ := hprev
          let c : Fin k := ⟨m, hm⟩
          simp only [Option.bind_eq_bind, Option.bind_some, List.foldlM_cons, List.foldlM_nil]
          cases hstep : eliminateColumn k st' m with
          | none => exact ⟨c, _, helim, eliminateColumn_eq_none c hstep⟩
          | some st'' =>
              obtain ⟨hlens', p, hcp, hp, hreduce⟩ := eliminateColumn_eq_some hlens hlen c hstep
              refine ⟨hlens', ?_⟩
              rw [hreduce]
              exact Eliminated.column (c := c) helim hcp hp

/-! ## The two outcomes of `decode_block` -/

/-- The coefficient row of a shard, as a vector over the field. -/
def coeffRow (k : ℕ) (sh : Shard) : Fin k → GF256 := fun j => ⟨sh.coeffs j⟩

/-- The first `len` bytes of a buffer, as a vector over the field. -/
def dataRow (len : ℕ) (b : Bytes) : Fin len → GF256 := fun t => ⟨b t⟩

theorem toSystem_loadShards (locals : DecodeState) (shards : ℕ → Shard)
    (hlens : ∀ i < k, (shards i).len = len) :
    toSystem k len.toNat (loadShards locals shards k) =
      { mat := fun i => coeffRow k (shards i)
        rhs := fun i => dataRow len.toNat (shards i).data } := by
  refine LinearSystem.ext (funext fun i => funext fun j => ?_) (funext fun i => funext fun t => ?_)
  · simp [toSystem, loadShards, coeffRow, memcpy]
  · simp [toSystem, loadShards, dataRow, memcpy, hlens i i.isLt]

/-- For `k` shards of equal length, `decode_block` fails exactly when their coefficient
rows are dependent, and otherwise returns the solution of their equations. -/
theorem decodeBlock_spec (locals : DecodeState) (res : DecodeOut) (shards : ℕ → Shard)
    (hlens : ∀ i < k, (shards i).len = len) (hlen : len.toNat ≤ maxPayload) :
    match decodeBlock locals res shards k with
    | none => ¬ LinearIndependent GF256 (fun i : Fin k => coeffRow k (shards i))
    | some o => LinearIndependent GF256 (fun i : Fin k => coeffRow k (shards i)) ∧
        (∀ i < k, o.outLen i = len) ∧
        ∀ x : Fin k → Fin len.toNat → GF256,
          (∀ i : Fin k, ∑ j, coeffRow k (shards i) j • x j = dataRow len.toNat (shards i).data) ↔
            ∀ i, x i = dataRow len.toNat (o.out i) := by
  have hload : EqualLengths k len (loadShards locals shards k) := by
    intro i hi
    simp [loadShards, hi, hlens i hi]
  have hrun := foldlM_eliminateColumn hload hlen k le_rfl
  rw [toSystem_loadShards locals shards hlens] at hrun
  unfold decodeBlock
  generalize (List.range k).foldlM (eliminateColumn k) (loadShards locals shards k) = run at hrun ⊢
  cases run with
  | none =>
      obtain ⟨c, t, helim, hstuck⟩ := hrun
      have hdep := not_linearIndependent_of_stuck helim hstuck
      simp only [Option.map_none]
      exact hdep
  | some st =>
      obtain ⟨hst, helim⟩ := hrun
      have hind := linearIndependent_of_eliminated helim
      simp only [Option.map_some]
      refine ⟨hind, fun i hi => ?_, fun x => ?_⟩
      · rw [if_pos hi, hst i hi]
      · have hout (i : Fin k) : dataRow len.toNat (memcpy (res.out i) (st.dat i)
            (st.dlen i).toNat) = (toSystem k len.toNat st).rhs i := by
          funext t
          simp [dataRow, toSystem, memcpy, hst i i.isLt]
        have hsolve := eq_rhs_of_eliminated helim x
        simp only [Fin.is_lt, if_true, hout]
        exact hsolve.trans funext_iff

/-! ## The coefficients alone decide the outcome -/

section Coefficients

variable {st st' : DecodeState}

theorem mat_swapRows (h : st.mat = st'.mat) (c p : ℕ) :
    (swapRows st k c p).mat = (swapRows st' k c p).mat := by
  unfold swapRows
  split_ifs
  · exact h
  · simp only [h]

theorem mat_scaleRow (h : st.mat = st'.mat) (c : ℕ) :
    (scaleRow st k c).mat = (scaleRow st' k c).mat := by
  simp only [scaleRow, h]

theorem mat_eliminateRow (h : st.mat = st'.mat) (c row : ℕ) :
    (eliminateRow k c st row).mat = (eliminateRow k c st' row).mat := by
  by_cases hskip : row = c ∨ st'.mat row c = 0
  · rw [eliminateRow, eliminateRow, h, if_pos hskip, if_pos hskip, h]
  · rw [eliminateRow, eliminateRow, h, if_neg hskip, if_neg hskip]

theorem mat_foldl_eliminateRow (h : st.mat = st'.mat) (c : ℕ) (rows : List ℕ) :
    (rows.foldl (eliminateRow k c) st).mat = (rows.foldl (eliminateRow k c) st').mat := by
  induction rows generalizing st st' with
  | nil => exact h
  | cons row rows ih => exact ih (mat_eliminateRow h c row)

theorem mat_eliminateColumn (h : st.mat = st'.mat) (c : ℕ) :
    (eliminateColumn k st c).map DecodeState.mat =
      (eliminateColumn k st' c).map DecodeState.mat := by
  have hpivot : findPivot st k c = findPivot st' k c := by
    simp only [findPivot, h]
  rw [eliminateColumn, eliminateColumn, hpivot]
  cases findPivot st' k c with
  | none => rfl
  | some pivot =>
      have hscaled := mat_scaleRow (k := k) (mat_swapRows (k := k) h c pivot) c
      exact congrArg some (mat_foldl_eliminateRow hscaled c (List.range k))

theorem mat_foldlM_eliminateColumn (h : st.mat = st'.mat) (cols : List ℕ) :
    (cols.foldlM (eliminateColumn k) st).map DecodeState.mat =
      (cols.foldlM (eliminateColumn k) st').map DecodeState.mat := by
  induction cols generalizing st st' with
  | nil => exact congrArg some h
  | cons c cols ih =>
      have hcol := mat_eliminateColumn (k := k) h c
      rw [List.foldlM_cons, List.foldlM_cons]
      cases hrun : eliminateColumn k st c with
      | none =>
          rw [hrun, Option.map_none, eq_comm, Option.map_eq_none_iff] at hcol
          rw [hcol]
      | some next =>
          rw [hrun, Option.map_some, eq_comm, Option.map_eq_some_iff] at hcol
          obtain ⟨next', hrun', hnext⟩ := hcol
          rw [hrun']
          exact ih hnext.symm

end Coefficients

/-- Whatever the lengths of the shards, `decode_block` succeeds exactly when their coefficient
rows are independent. -/
theorem isSome_decodeBlock_iff (locals : DecodeState) (res : DecodeOut) (shards : ℕ → Shard) :
    (decodeBlock locals res shards k).isSome = true ↔
      LinearIndependent GF256 (fun i : Fin k => coeffRow k (shards i)) := by
  -- the same coefficients without data, to which `decodeBlock_spec` applies
  let bare (i : ℕ) : Shard := { shards i with len := 0 }
  have hload : (loadShards locals shards k).mat = (loadShards locals bare k).mat := rfl
  have hmat := mat_foldlM_eliminateColumn (k := k) hload (List.range k)
  have hsame : (decodeBlock locals res shards k).isSome =
      (decodeBlock locals res bare k).isSome := by
    have h := congrArg Option.isSome hmat
    rw [Option.isSome_map, Option.isSome_map] at h
    rw [decodeBlock, decodeBlock, Option.isSome_map, Option.isSome_map, h]
  have hlens : ∀ i < k, (bare i).len = 0 := fun _ _ => rfl
  have hspec := decodeBlock_spec locals res bare hlens (Nat.zero_le _)
  rw [hsame]
  cases hrun : decodeBlock locals res bare k with
  | none =>
      rw [hrun] at hspec
      exact iff_of_false nofun hspec
  | some o =>
      rw [hrun] at hspec
      exact iff_of_true rfl hspec.1

end CodingGateway.Proofs.Elimination
