import CodingGateway.Model.Rx
import Mathlib.Data.List.Find
import Mathlib.Data.Option.Basic
import Mathlib.Data.UInt
set_option autoImplicit false

/-!
# Two receive windows side by side

Two windows whose slots are related pairwise, and whose block ids differ by a constant
modulo `2 ^ 32`, take the same decisions.

* `rxFind_related` — they find or allocate the same slot;
* `insert_related`, `tryDecode_related` — they stay related when the slot found does;
* `advanceLoop_related` — they move by the same number of blocks.
-/

namespace CodingGateway.Proofs.TwoWindows

open CodingGateway.Model

variable {c : UInt32} {S : RxBlock → RxBlock → Prop} {W : ℕ}

/-- Slots related by `S` pass the same tests of the window code, `c` being the difference of
the block ids; a freed slot and a slot just allocated are related. -/
structure SameTests (c : UInt32) (S : RxBlock → RxBlock → Prop) : Prop where
  recvCount : ∀ {blk blk'}, S blk blk' → blk'.recvCount = blk.recvCount
  blockId : ∀ {blk blk'}, S blk blk' → 0 < blk.recvCount → blk'.blockId = blk.blockId + c
  received : ∀ {blk blk'}, S blk blk' → blk'.received = blk.received
  decoded : ∀ {blk blk'}, S blk blk' → blk'.decoded = blk.decoded
  firstRecvUs : ∀ {blk blk'}, S blk blk' → blk'.firstRecvUs = blk.firstRecvUs
  freed : S zeroBlock zeroBlock
  allocated : ∀ id, S { zeroBlock with blockId := id } { zeroBlock with blockId := id + c }

/-- The second window: `base_id` is shifted by `c` and the slots are related by `S`. -/
structure Related (c : UInt32) (S : RxBlock → RxBlock → Prop) (win win' : RxWindow) : Prop where
  baseId : win'.baseId = win.baseId + c
  slots : ∀ i, S (win.slots i) (win'.slots i)

/-! ## Tests -/

theorem serialDiff_add (a b c : UInt32) : serialDiff (a + c) (b + c) = serialDiff a b := by
  unfold serialDiff
  rw [add_sub_add_right_eq_sub]

section Tests

variable {blk blk' : RxBlock}

theorem holds_related (hS : SameTests c S) (h : S blk blk') (id : UInt32) :
    (decide (0 < blk'.recvCount) && blk'.blockId == id + c) =
      (decide (0 < blk.recvCount) && blk.blockId == id) := by
  rw [hS.recvCount h]
  by_cases hocc : 0 < blk.recvCount
  · rw [hS.blockId h hocc, Bool.eq_iff_iff]
    simp
  · simp [hocc]

theorem newer_related (hS : SameTests c S) (h : S blk blk') (base : UInt32) :
    (decide (0 < blk'.recvCount) && decide (0 < serialDiff blk'.blockId (base + c))) =
      (decide (0 < blk.recvCount) && decide (0 < serialDiff blk.blockId base)) := by
  rw [hS.recvCount h]
  by_cases hocc : 0 < blk.recvCount
  · rw [hS.blockId h hocc, serialDiff_add]
  · simp [hocc]

theorem blockDone_related (hS : SameTests c S) (h : S blk blk') (nowUs : UInt64) :
    blockDone blk' nowUs = blockDone blk nowUs := by
  unfold blockDone
  rw [hS.decoded h, hS.firstRecvUs h]

end Tests

/-! ## The slot of a block -/

variable {win win' : RxWindow}

theorem Related.setSlot (h : Related c S win win') (i : ℕ) {blk blk' : RxBlock}
    (hblk : S blk blk') : Related c S (win.setSlot i blk) (win'.setSlot i blk') where
  baseId := h.baseId
  slots j := by
    by_cases hj : j = i
    · subst hj
      simpa [RxWindow.setSlot] using hblk
    · simpa [RxWindow.setSlot, hj] using h.slots j

theorem Related.succ_baseId (h : Related c S win win') :
    Related c S { win with baseId := win.baseId + 1 } { win' with baseId := win'.baseId + 1 } where
  baseId := by
    change win'.baseId + 1 = win.baseId + 1 + c
    rw [h.baseId, add_right_comm]
  slots := h.slots

theorem blockId_of_find {id : UInt32} {i : ℕ}
    (h : ((List.range W).find? fun i =>
      decide (0 < (win.slots i).recvCount) && (win.slots i).blockId == id) = some i) :
    (win.slots i).blockId = id := by
  have hi := List.find?_some h
  simpa using (Bool.and_eq_true_iff.mp hi).2

theorem rxFind_related (hS : SameTests c S) (h : Related c S win win') (id : UInt32) (W : ℕ) :
    ∃ w w' found, rxFind win id W = (w, found) ∧ rxFind win' (id + c) W = (w', found) ∧
      Related c S w w' ∧
      ∀ i, found = some i → (w.slots i).blockId = id ∧ (w'.slots i).blockId = id + c := by
  have hdiff : serialDiff (id + c) win'.baseId = serialDiff id win.baseId := by
    rw [h.baseId, serialDiff_add]
  have hheld : ((List.range W).find? fun i =>
        decide (0 < (win'.slots i).recvCount) && (win'.slots i).blockId == id + c) =
      (List.range W).find? fun i =>
        decide (0 < (win.slots i).recvCount) && (win.slots i).blockId == id :=
    List.find?_congr fun i _ => holds_related hS (h.slots i) id
  have hfree : ((List.range W).find? fun i => (win'.slots i).recvCount == 0) =
      (List.range W).find? fun i => (win.slots i).recvCount == 0 :=
    List.find?_congr fun i _ => by rw [hS.recvCount (h.slots i)]
  by_cases hbehind : serialDiff id win.baseId < 0
  · refine ⟨win, win', none, ?_, ?_, h, fun i hi => by cases hi⟩
    · rw [rxFind, if_pos hbehind]
    · rw [rxFind, hdiff, if_pos hbehind]
  by_cases hbeyond : (W : ℤ) ≤ serialDiff id win.baseId
  · refine ⟨win, win', none, ?_, ?_, h, fun i hi => by cases hi⟩
    · rw [rxFind, if_neg hbehind, if_pos hbeyond]
    · rw [rxFind, hdiff, if_neg hbehind, if_pos hbeyond]
  unfold rxFind
  rw [hdiff, if_neg hbehind, if_neg hbeyond, if_neg hbehind, if_neg hbeyond, hheld, hfree]
  cases hfind : (List.range W).find? fun i =>
      decide (0 < (win.slots i).recvCount) && (win.slots i).blockId == id with
  | some i =>
      refine ⟨win, win', some i, rfl, rfl, h, fun j hj => ?_⟩
      cases hj
      exact ⟨blockId_of_find hfind, blockId_of_find (hheld.trans hfind)⟩
  | none =>
      cases (List.range W).find? fun i => (win.slots i).recvCount == 0 with
      | none => exact ⟨win, win', none, rfl, rfl, h, fun i hi => by cases hi⟩
      | some i =>
          refine ⟨_, _, some i, rfl, rfl, h.setSlot i (hS.allocated id), fun j hj => ?_⟩
          cases hj
          simp [RxWindow.setSlot]

/-! ## `rx_window_insert` and `rx_window_try_decode` -/

theorem insert_related (hS : SameTests c S) (h : Related c S win win') (hdr hdr' : WireHeader)
    (s s' : Shard) (crypto : CryptoCtx) (nowUs : UInt64) (hid : hdr'.blockId = hdr.blockId + c)
    (hidx : hdr'.shardIdx = hdr.shardIdx)
    (hstore : ∀ blk blk', S blk blk' → blk.blockId = hdr.blockId → blk'.blockId = hdr'.blockId →
      hdr.shardIdx.toNat < maxN → blk.received hdr.shardIdx.toNat = false →
      S (storeShard blk hdr s crypto nowUs) (storeShard blk' hdr' s' crypto nowUs)) :
    Related c S (rxWindowInsert win hdr s W crypto nowUs)
      (rxWindowInsert win' hdr' s' W crypto nowUs) := by
  obtain ⟨w, w', found, hfind, hfind', hw, hids⟩ := rxFind_related hS h hdr.blockId W
  rw [← hid] at hfind' hids
  unfold rxWindowInsert
  rw [hfind, hfind']
  cases found with
  | none => exact hw
  | some i =>
      have hslot := hw.slots i
      have hblock := hids i rfl
      simp only [hS.decoded hslot, hS.received hslot, hidx]
      split_ifs with hdecoded hrange hreceived
      · exact hw
      · exact hw
      · exact hw
      · exact hw.setSlot i (hstore _ _ hslot hblock.1 hblock.2 (Nat.not_le.mp hrange)
          (Bool.eq_false_iff.mpr hreceived))

theorem tryDecode_related (hS : SameTests c S) (h : Related c S win win') {id : UInt32} {k : ℕ}
    {garbage garbage' : StackGarbage}
    (hdecode : ∀ blk blk', S blk blk' → blk.blockId = id → blk'.blockId = id + c →
      S (tryDecode blk k garbage).1 (tryDecode blk' k garbage').1 ∧
        (tryDecode blk' k garbage').2 = (tryDecode blk k garbage).2) :
    Related c S (rxWindowTryDecode win id k W garbage).1
        (rxWindowTryDecode win' (id + c) k W garbage').1 ∧
      (rxWindowTryDecode win' (id + c) k W garbage').2 =
        (rxWindowTryDecode win id k W garbage).2 := by
  obtain ⟨w, w', found, hfind, hfind', hw, hids⟩ := rxFind_related hS h id W
  unfold rxWindowTryDecode
  rw [hfind, hfind']
  cases found with
  | none => exact ⟨hw, rfl⟩
  | some i =>
      have hblock := hids i rfl
      have hresult := hdecode _ _ (hw.slots i) hblock.1 hblock.2
      exact ⟨hw.setSlot i hresult.1, hresult.2⟩

/-! ## `rx_window_advance` -/

theorem advancePass_related (hS : SameTests c S) (h : Related c S win win') (nowUs : UInt64) :
    Related c S (advancePass win W nowUs).1 (advancePass win' W nowUs).1 ∧
      (advancePass win' W nowUs).2 = (advancePass win W nowUs).2 := by
  have hbase : baseSlot win' W = baseSlot win W := by
    unfold baseSlot
    rw [h.baseId]
    exact List.find?_congr fun i _ => holds_related hS (h.slots i) win.baseId
  have hnewer : hasNewer win' W = hasNewer win W := by
    unfold hasNewer
    rw [h.baseId]
    exact List.any_congr rfl fun i => newer_related hS (h.slots i) win.baseId
  unfold advancePass
  rw [hbase, hnewer]
  cases baseSlot win W with
  | none =>
      simp only
      split_ifs
      · exact ⟨h.succ_baseId, rfl⟩
      · exact ⟨h, rfl⟩
  | some i =>
      simp only [blockDone_related hS (h.slots i)]
      split_ifs
      · exact ⟨(h.setSlot i hS.freed).succ_baseId, rfl⟩
      · exact ⟨h.succ_baseId, rfl⟩
      · exact ⟨h, rfl⟩

theorem advanceLoop_related (hS : SameTests c S) (h : Related c S win win') (nowUs : ℕ → UInt64)
    (fuel pass : ℕ) :
    Option.Rel (fun r r' => Related c S r.1 r'.1 ∧ r.2 = r'.2)
      (advanceLoop W nowUs fuel pass win) (advanceLoop W nowUs fuel pass win') := by
  induction fuel generalizing pass win win' with
  | zero => exact .none
  | succ fuel ih =>
      have hpass := advancePass_related (W := W) hS h (nowUs pass)
      unfold advanceLoop
      generalize advancePass win W (nowUs pass) = r, advancePass win' W (nowUs pass) = r'
        at hpass ⊢
      obtain ⟨w, moved⟩ := r
      obtain ⟨w', moved'⟩ := r'
      obtain ⟨hw, rfl⟩ := hpass
      cases moved' with
      | true => exact ih hw (pass + 1)
      | false => exact .some ⟨hw, rfl⟩

end CodingGateway.Proofs.TwoWindows
