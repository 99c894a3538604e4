import CodingGateway.Proofs.Elimination
import CodingGateway.Proofs.ReceiveLoop
import Mathlib.Data.List.GetD
import Mathlib.LinearAlgebra.Dimension.Constructions
set_option autoImplicit false

/-!
# Which blocks decode

`try_decode` hands the `k` received shards of lowest index to the decoder and no other
choice of `k`.  A block whose received rows span therefore decodes exactly when the rows
of these `k` shards are independent.
-/

namespace CodingGateway.Proofs.Completeness

open CodingGateway.Model
open CodingGateway.Proofs.FieldTables
open CodingGateway.Proofs.Elimination
open CodingGateway.Proofs.Window
open CodingGateway.Proofs.Advance
open CodingGateway.Proofs.ReceiveLoop

/-- The windows that the operations of `rx.c` lead to, called in any order and with any
arguments that `transport_recv` lets through. -/
inductive Operated (windowSize : ℕ) (crypto : CryptoCtx) : RxWindow → Prop
  | init : Operated windowSize crypto rxWindowInit
  | insert {win : RxWindow} (hdr : WireHeader) (s : Shard) (nowUs : UInt64)
      (hlen : s.len.toNat ≤ maxPayload) (h : Operated windowSize crypto win) :
      Operated windowSize crypto (rxWindowInsert win hdr s windowSize crypto nowUs)
  | tryDecode {win : RxWindow} (id : UInt32) (k : ℕ) (garbage : StackGarbage)
      (h : Operated windowSize crypto win) :
      Operated windowSize crypto (rxWindowTryDecode win id k windowSize garbage).1
  | advance {win win' : RxWindow} (fuel n : ℕ) (clock : ℕ → UInt64)
      (hadv : rxWindowAdvance fuel win windowSize clock = some (win', n))
      (h : Operated windowSize crypto win) : Operated windowSize crypto win'

variable {W : ℕ} {crypto : CryptoCtx} {win : RxWindow}

/-- The shards of a block are no longer than a payload. -/
def ShortShards (blk : RxBlock) : Prop :=
  ∀ s, blk.received s = true → (blk.shards s).len.toNat ≤ maxPayload

theorem shortShards_storeShard {blk : RxBlock} (h : ShortShards blk) (hdr : WireHeader)
    {s : Shard} (hlen : s.len.toNat ≤ maxPayload) (nowUs : UInt64) :
    ShortShards (storeShard blk hdr s crypto nowUs) := by
  intro t ht
  by_cases hidx : t = hdr.shardIdx.toNat
  · subst hidx
    simp only [storeShard, Function.update_self]
    split_ifs
    · exact hlen
    · exact hlen
  · simp only [storeShard, Function.update_of_ne hidx] at ht ⊢
    exact h t ht

theorem invariant_of_operated (hW : W ≤ maxWindow) (h : Operated W crypto win) :
    WellFormed W win ∧ ∀ id blk, held win W id = some blk → ShortShards blk := by
  induction h with
  | init =>
      refine ⟨wellFormed_init W, fun id blk hheld => ?_⟩
      rw [held_init] at hheld
      cases hheld
  | @insert win hdr s nowUs hlen _ ih =>
      obtain ⟨hwf, hshort⟩ := ih
      refine ⟨?_, forall_held_insert (Q := fun _ => ShortShards) hW hwf hshort ?_ ?_⟩
      · exact wellFormed_insert s crypto nowUs hW hwf hdr
      · intro t ht
        cases ht
      · exact fun blk _ hblk => shortShards_storeShard hblk hdr hlen nowUs
  | @tryDecode win id k garbage _ ih =>
      obtain ⟨hwf, hshort⟩ := ih
      exact ⟨wellFormed_tryDecode hW hwf id k garbage,
        forall_held_tryDecode (Q := fun _ => ShortShards) hW hwf hshort fun blk _ hblk => hblk⟩
  | advance fuel n clock hadv _ ih =>
      obtain ⟨hwf, hshort⟩ := ih
      exact ⟨(advanceLoop_settled hwf hadv).1, fun id blk hheld =>
        hshort id blk (held_of_advanceLoop hwf hadv hheld)⟩

/-! ## The shards handed to the decoder -/

/-- The received indices of a block, in increasing order. -/
def receivedIndices (blk : RxBlock) : List ℕ := (List.range maxN).filter blk.received

/-- The `i`-th received index of a block. -/
def lowestReceived (blk : RxBlock) (i : ℕ) : ℕ := (receivedIndices blk).getD i 0

theorem mem_receivedIndices {blk : RxBlock} (hcount : Counted blk) {s : ℕ} :
    s ∈ receivedIndices blk ↔ blk.received s = true := by
  rw [receivedIndices, List.mem_filter, List.mem_range]
  exact ⟨fun h => h.2, fun h => ⟨hcount.bound s h, h⟩⟩

theorem lowestReceived_mem {blk : RxBlock} {i : ℕ} (hi : i < (receivedIndices blk).length) :
    lowestReceived blk i ∈ receivedIndices blk := by
  rw [lowestReceived, List.getD_eq_getElem _ _ hi]
  exact List.getElem_mem hi

theorem kShards_eq {blk : RxBlock} {k i : ℕ} (hi : i < k) (hk : k ≤ (receivedIndices blk).length) :
    kShards blk k i = blk.shards (lowestReceived blk i) := by
  have hcollect : (collectShards blk k)[i]? = some (lowestReceived blk i) := by
    have hlt : i < (receivedIndices blk).length := by omega
    change ((receivedIndices blk).take k)[i]? = _
    rw [List.getElem?_take_of_lt hi, List.getElem?_eq_getElem hlt, lowestReceived,
      List.getD_eq_getElem _ _ hlt]
  rw [kShards, hcollect]

theorem coeffRow_kShards {blk : RxBlock} {k : ℕ} (hk : k ≤ (receivedIndices blk).length) :
    (fun i : Fin k => coeffRow k (kShards blk k i)) =
      fun i : Fin k => coeffRow k (blk.shards (lowestReceived blk i)) := by
  funext i
  rw [kShards_eq i.isLt hk]

theorem exists_decodes_iff {blk : RxBlock} (hcount : Counted blk) {k : ℕ} {len : UInt16}
    (hlens : ∀ s, blk.received s = true → (blk.shards s).len = len)
    (hlen : len.toNat ≤ maxPayload) (hundec : blk.decoded = false) (garbage : StackGarbage) :
    (∃ o, Decodes blk k garbage o) ↔ k ≤ (receivedIndices blk).length ∧
      LinearIndependent GF256
        (fun i : Fin k => coeffRow k (blk.shards (lowestReceived blk i))) := by
  have hrecv : blk.recvCount = (receivedIndices blk).length := hcount.count
  rw [← hrecv]
  by_cases hk : k ≤ blk.recvCount
  · rw [hrecv] at hk
    have hshards : ∀ i < k, kShards blk k i = blk.shards (lowestReceived blk i) :=
      fun i hi => kShards_eq hi hk
    have hlensK : ∀ i < k, (kShards blk k i).len = len := by
      intro i hi
      rw [hshards i hi]
      exact hlens _ ((mem_receivedIndices hcount).mp (lowestReceived_mem (by omega)))
    have hspec := decodeBlock_spec garbage.locals garbage.out (kShards blk k) hlensK hlen
    rw [coeffRow_kShards hk] at hspec
    constructor
    · rintro ⟨o, ho⟩
      rw [ho.solved] at hspec
      exact ⟨ho.enough, hspec.1⟩
    · rintro ⟨hle, hind⟩
      cases hdec : decodeBlock garbage.locals garbage.out (kShards blk k) k with
      | none =>
          rw [hdec] at hspec
          exact absurd hind hspec
      | some o => exact ⟨o, hundec, hle, hdec⟩
  · constructor
    · rintro ⟨o, ho⟩
      exact absurd ho.enough hk
    · rintro ⟨hle, _⟩
      exact absurd hle hk

/-- The rank of the coefficient rows of the received shards. -/
noncomputable def receivedRank (blk : RxBlock) (k : ℕ) : ℕ :=
  Module.finrank GF256 (Submodule.span GF256
    {row | ∃ s, blk.received s = true ∧ row = coeffRow k (blk.shards s)})

theorem receivedRank_le {blk : RxBlock} (hcount : Counted blk) (k : ℕ) :
    receivedRank blk k ≤ (receivedIndices blk).length := by
  classical
  let rows : Finset (Fin k → GF256) :=
    (receivedIndices blk).toFinset.image fun s => coeffRow k (blk.shards s)
  have hrows : {row | ∃ s, blk.received s = true ∧ row = coeffRow k (blk.shards s)} =
      (rows : Set (Fin k → GF256)) := by
    ext row
    simp only [rows, Finset.coe_image, Set.mem_image, List.coe_toFinset, Set.mem_ofPred_eq,
      mem_receivedIndices hcount, eq_comm]
  calc receivedRank blk k = Module.finrank GF256
        (Submodule.span GF256 (rows : Set (Fin k → GF256))) := by rw [receivedRank, hrows]
    _ ≤ rows.card := finrank_span_finset_le_card rows
    _ ≤ (receivedIndices blk).toFinset.card := Finset.card_image_le
    _ ≤ (receivedIndices blk).length := List.toFinset_card_le _

/-- **Decoding completeness.** For an undecoded block of the window whose received shards
have one length and rows of rank `k`, `rx_window_try_decode` succeeds exactly when the rows
of the `k` received shards of lowest index are independent. -/
theorem tryDecode_iff_lowest_independent {W k : ℕ} {crypto : CryptoCtx} {win : RxWindow} {i : ℕ}
    {len : UInt16} (hW : W ≤ maxWindow) (h : Operated W crypto win)
    (hlive : 0 < (win.slots i).recvCount) (hundec : (win.slots i).decoded = false)
    (hnonneg : 0 ≤ serialDiff (win.slots i).blockId win.baseId)
    (hinside : serialDiff (win.slots i).blockId win.baseId < W)
    (hlens : ∀ s, (win.slots i).received s = true → ((win.slots i).shards s).len = len)
    (hrank : receivedRank (win.slots i) k = k) (garbage : StackGarbage) :
    (rxWindowTryDecode win (win.slots i).blockId k W garbage).2.1 = true ↔
      LinearIndependent GF256
        (fun j : Fin k => coeffRow k ((win.slots i).shards (lowestReceived (win.slots i) j))) := by
  obtain ⟨hwf, hshort⟩ := invariant_of_operated hW h
  have hheld := held_of_slot hwf hlive
  have hin : ahead win.baseId (win.slots i).blockId < W := by
    have h1 := le_serialDiff_iff win.baseId (win.slots i).blockId W
    have h2 := serialDiff_neg_iff win.baseId (win.slots i).blockId
    omega
  have hcount := counted_of_held hwf hheld
  have hk : k ≤ (receivedIndices (win.slots i)).length := by
    have hle := receivedRank_le hcount k
    omega
  have hlen : len.toNat ≤ maxPayload := by
    have hrecv : 0 < (receivedIndices (win.slots i)).length := hcount.count ▸ hlive
    have hmem := (mem_receivedIndices hcount).mp (lowestReceived_mem hrecv)
    rw [← hlens _ hmem]
    exact hshort _ _ hheld _ hmem
  have hiff := exists_decodes_iff (k := k) hcount hlens hlen hundec garbage
  rw [and_iff_right hk] at hiff
  rw [← hiff]
  constructor
  · intro hok
    by_contra hnot
    have hfail := rxWindowTryDecode_of_not_decodes hW hwf (win.slots i).blockId k garbage
      (fun b o _ hb ho => by
        rw [hheld, Option.some.injEq] at hb
        subst hb
        exact hnot ⟨o, ho⟩)
    rw [(hfail.2.2.2.2 hok).2] at hheld
    cases hheld
  · rintro ⟨o, ho⟩
    rw [(rxWindowTryDecode_of_decodes hW hwf hin hheld ho).2.2.2]

/-! ## A block that stays undecoded -/

/-- Block 0 of two packets with the coded shards 2, 3 and 4, of rows `(1,1)`, `(1,1)`, `(1,2)`. -/
def twiceTheSameRow : RxWindow :=
  let insert (win : RxWindow) (idx c : UInt8) : RxWindow :=
    rxWindowInsert win ⟨wireMagic, wireVersion, typeData, 0, idx, 2, 5, 0, 1⟩
      ⟨fun j => if j = 0 then 1 else c, fun _ => 0, 1⟩ 8 (cryptoInit none) 0
  insert (insert (insert rxWindowInit 2 1) 3 1) 4 2

theorem operated_twiceTheSameRow : Operated 8 (cryptoInit none) twiceTheSameRow := by
  dsimp only [twiceTheSameRow]
  refine Operated.insert _ _ 0 ?_ (Operated.insert _ _ 0 ?_
    (Operated.insert _ _ 0 ?_ Operated.init))
  · decide
  · decide
  · decide

theorem len_twiceTheSameRow :
    ∀ s, (twiceTheSameRow.slots 0).received s = true →
      ((twiceTheSameRow.slots 0).shards s).len = 1 := by
  have hwf := (invariant_of_operated (by decide) operated_twiceTheSameRow).1
  have hcount := hwf.counted 0 (by decide)
  have hall : ∀ s < maxN, (twiceTheSameRow.slots 0).received s = true →
      ((twiceTheSameRow.slots 0).shards s).len = 1 := by
    decide +kernel
  exact fun s hs => hall s (hcount.bound s hs) hs

theorem receivedRank_twiceTheSameRow : receivedRank (twiceTheSameRow.slots 0) 2 = 2 := by
  apply le_antisymm
  · exact (Submodule.finrank_le _).trans (Module.finrank_fin_fun GF256).le
  · have hind : LinearIndependent GF256 ![![(1 : GF256), 1], ![1, ⟨2⟩]] := by
      rw [LinearIndependent.pair_iff]
      intro s t hst
      have h0 : s + t = 0 := by simpa using congrFun hst 0
      have h1 : s + t * ⟨2⟩ = 0 := by simpa using congrFun hst 1
      have ht : t * (⟨2⟩ - 1) = 0 := by linear_combination h1 - h0
      have hne : (⟨2⟩ - 1 : GF256) ≠ 0 := by decide
      have ht0 : t = 0 := (mul_eq_zero.mp ht).resolve_right hne
      rw [ht0, add_zero] at h0
      exact ⟨h0, ht0⟩
    have hle : Submodule.span GF256 (Set.range ![![(1 : GF256), 1], ![1, ⟨2⟩]]) ≤
        Submodule.span GF256 {row | ∃ s, (twiceTheSameRow.slots 0).received s = true ∧
          row = coeffRow 2 ((twiceTheSameRow.slots 0).shards s)} := by
      apply Submodule.span_mono
      rintro row ⟨i, rfl⟩
      fin_cases i
      · refine ⟨2, by decide, funext fun j => ?_⟩
        fin_cases j <;> rfl
      · refine ⟨4, by decide, funext fun j => ?_⟩
        fin_cases j <;> rfl
    calc 2 = Module.finrank GF256 (Submodule.span GF256
          (Set.range ![![(1 : GF256), 1], ![1, ⟨2⟩]])) := by
          rw [finrank_span_eq_card hind, Fintype.card_fin]
      _ ≤ _ := Submodule.finrank_mono hle

theorem tryDecode_iff_lowest_independent_three :
    (rxWindowTryDecode twiceTheSameRow (twiceTheSameRow.slots 0).blockId 2 8 zeroStack).2.1 =
        true ↔
      LinearIndependent GF256 (fun j : Fin 2 => coeffRow 2
        ((twiceTheSameRow.slots 0).shards (lowestReceived (twiceTheSameRow.slots 0) j))) :=
  tryDecode_iff_lowest_independent (by decide) operated_twiceTheSameRow (by decide) (by decide)
    (by decide) (by decide) len_twiceTheSameRow receivedRank_twiceTheSameRow zeroStack

/-- The rows of the three shards have rank two, and the block does not decode. -/
theorem full_rank_not_decoded :
    Operated 8 (cryptoInit none) twiceTheSameRow ∧
      0 < (twiceTheSameRow.slots 0).recvCount ∧ (twiceTheSameRow.slots 0).decoded = false ∧
      0 ≤ serialDiff (twiceTheSameRow.slots 0).blockId twiceTheSameRow.baseId ∧
      serialDiff (twiceTheSameRow.slots 0).blockId twiceTheSameRow.baseId < 8 ∧
      (∀ s, (twiceTheSameRow.slots 0).received s = true →
        ((twiceTheSameRow.slots 0).shards s).len = 1) ∧
      receivedRank (twiceTheSameRow.slots 0) 2 = 2 ∧
      (rxWindowTryDecode twiceTheSameRow (twiceTheSameRow.slots 0).blockId 2 8 zeroStack).2.1 =
        false := by
  refine ⟨operated_twiceTheSameRow, by decide, by decide, by decide, by decide,
    len_twiceTheSameRow, receivedRank_twiceTheSameRow, ?_⟩
  decide +kernel

end CodingGateway.Proofs.Completeness
