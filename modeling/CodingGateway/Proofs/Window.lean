import CodingGateway.Library.SerialNumber
import CodingGateway.Library.SlotTable
import CodingGateway.Model.Rx
set_option autoImplicit false

/-!
# The receive window as a partial map

`held win W id` is the block that the window holds under an id.  Each operation on
the slots is restated as its effect on this map and on `base_id`:

* `insert_cases` — a shard is stored in its block, or nothing changes;
* `tryDecode_cases` — a block becomes decoded, or nothing changes;
* `forall_held_insert` and `forall_held_tryDecode` — what holds of every block held.
-/

namespace CodingGateway.Proofs.Window

open CodingGateway.Model
open CodingGateway.Library

/-! ## Serial distance -/

/-- How far block `b` is ahead of block `a`, modulo `2 ^ 32`. -/
def ahead (a b : UInt32) : ℕ := SerialNumber.ahead a.toBitVec b.toBitVec

theorem ahead_lt (a b : UInt32) : ahead a b < 2 ^ 32 := SerialNumber.ahead_lt _ _

@[simp] theorem ahead_self (a : UInt32) : ahead a a = 0 := SerialNumber.ahead_self _

theorem eq_of_ahead_eq_zero {a b : UInt32} (h : ahead a b = 0) : b = a :=
  UInt32.toBitVec_inj.mp (SerialNumber.eq_of_ahead_eq_zero h)

theorem ahead_trans (a b c : UInt32) : ahead a c = (ahead a b + ahead b c) % 2 ^ 32 :=
  SerialNumber.ahead_trans _ _ _

theorem ahead_add_one {a b : UInt32} (h : 0 < ahead a b) : ahead (a + 1) b = ahead a b - 1 :=
  SerialNumber.ahead_add_one h

theorem ahead_add_one_self (a : UInt32) : ahead (a + 1) a = 2 ^ 32 - 1 :=
  SerialNumber.ahead_add_one_self (by decide) _

theorem ahead_add_ofNat (a : UInt32) {n : ℕ} (hn : n < 2 ^ 32) :
    ahead a (a + UInt32.ofNat n) = n :=
  SerialNumber.ahead_add_ofNat _ hn

theorem add_ofNat_ahead (a b : UInt32) : a + UInt32.ofNat (ahead a b) = b :=
  UInt32.toBitVec_inj.mp (SerialNumber.add_ofNat_ahead _ _)

theorem ahead_of_le {a b c : UInt32} (h : ahead a b ≤ ahead a c) :
    ahead b c = ahead a c - ahead a b := by
  have htrans := ahead_trans a b c
  have hac := ahead_lt a c
  have hbc := ahead_lt b c
  omega

theorem ahead_of_lt {a b c : UInt32} (h : ahead a c < ahead a b) :
    ahead b c = 2 ^ 32 + ahead a c - ahead a b := by
  have htrans := ahead_trans a b c
  have hab := ahead_lt a b
  have hbc := ahead_lt b c
  omega

theorem ahead_back {a b : UInt32} (h : b ≠ a) : ahead b a = 2 ^ 32 - ahead a b := by
  have hpos : ahead a b ≠ 0 := fun h0 => h (eq_of_ahead_eq_zero h0)
  have hback := ahead_of_lt (a := a) (b := b) (c := a) (by rw [ahead_self]; omega)
  rw [hback, ahead_self, Nat.add_zero]

@[simp] theorem serialDiff_self (a : UInt32) : serialDiff a a = 0 := by
  simp [serialDiff]

theorem serialDiff_neg_iff (a b : UInt32) : serialDiff b a < 0 ↔ 2 ^ 31 ≤ ahead a b := by
  have h := SerialNumber.toInt_sub_neg_iff a.toBitVec b.toBitVec
  simp only [serialDiff, ahead, UInt32.toBitVec_sub]
  omega

theorem le_serialDiff_iff (a b : UInt32) (n : ℕ) :
    (n : ℤ) ≤ serialDiff b a ↔ n ≤ ahead a b ∧ ahead a b < 2 ^ 31 := by
  have h := SerialNumber.le_toInt_sub_iff a.toBitVec b.toBitVec n
  simp only [serialDiff, ahead, UInt32.toBitVec_sub]
  omega

theorem serialDiff_pos_iff (a b : UInt32) :
    0 < serialDiff b a ↔ 0 < ahead a b ∧ ahead a b < 2 ^ 31 := by
  have h := le_serialDiff_iff a b 1
  omega

/-! ## The map -/

def live (blk : RxBlock) : Bool := decide (0 < blk.recvCount)

/-- The block that the window holds under an id. -/
def held (win : RxWindow) (windowSize : ℕ) (id : UInt32) : Option RxBlock :=
  SlotTable.lookup live RxBlock.blockId win.slots windowSize id

/-- The count of a block is the number of its received shards. -/
structure Counted (blk : RxBlock) : Prop where
  count : blk.recvCount = ((List.range maxN).filter blk.received).length
  bound : ∀ s, blk.received s = true → s < maxN

/-- What every operation keeps: one slot for each block, no slot past the window in use,
and right counts. -/
structure WellFormed (windowSize : ℕ) (win : RxWindow) : Prop where
  distinct : SlotTable.Distinct live RxBlock.blockId win.slots windowSize
  idle : ∀ i, windowSize ≤ i → live (win.slots i) = false
  counted : ∀ i, live (win.slots i) = true → Counted (win.slots i)

@[simp] theorem live_zeroBlock : live zeroBlock = false := rfl

theorem live_iff {blk : RxBlock} : live blk = true ↔ 0 < blk.recvCount := decide_eq_true_iff

theorem live_eq_false {blk : RxBlock} : live blk = false ↔ blk.recvCount = 0 := by
  rw [live, decide_eq_false_iff_not]
  omega

theorem held_eq_some {W : ℕ} {win : RxWindow} (hwf : WellFormed W win) {id : UInt32}
    {blk : RxBlock} : held win W id = some blk ↔
      ∃ i < W, win.slots i = blk ∧ live blk = true ∧ blk.blockId = id :=
  SlotTable.lookup_eq_some hwf.distinct

theorem held_blockId {W : ℕ} {win : RxWindow} {id : UInt32} {blk : RxBlock}
    (h : held win W id = some blk) : blk.blockId = id := by
  obtain ⟨_, _, _, _, _, hid⟩ := SlotTable.exists_of_lookup h
  exact hid

theorem held_live {W : ℕ} {win : RxWindow} {id : UInt32} {blk : RxBlock}
    (h : held win W id = some blk) : 0 < blk.recvCount := by
  obtain ⟨_, _, _, _, hlive, _⟩ := SlotTable.exists_of_lookup h
  exact live_iff.mp hlive

theorem counted_of_held {W : ℕ} {win : RxWindow} (hwf : WellFormed W win) {id : UInt32}
    {blk : RxBlock} (h : held win W id = some blk) : Counted blk := by
  obtain ⟨i, _, _, rfl, hlive, _⟩ := SlotTable.exists_of_lookup h
  exact hwf.counted i hlive

theorem held_of_slot {W : ℕ} {win : RxWindow} (hwf : WellFormed W win) {i : ℕ}
    (hlive : 0 < (win.slots i).recvCount) :
    held win W (win.slots i).blockId = some (win.slots i) := by
  have hi : i < W := by
    by_contra hge
    have hidle := hwf.idle i (Nat.not_lt.mp hge)
    rw [live_eq_false] at hidle
    omega
  exact SlotTable.lookup_of_distinct hwf.distinct hi (live_iff.mpr hlive)

theorem wellFormed_init (W : ℕ) : WellFormed W rxWindowInit where
  distinct := by
    intro i _ j _ hlive
    cases hlive
  idle _ _ := rfl
  counted i hlive := by cases hlive

@[simp] theorem held_init (W : ℕ) (id : UInt32) : held rxWindowInit W id = none :=
  SlotTable.lookup_eq_none.mpr fun i _ hlive => by cases hlive

/-- No slot is in use, and `base_id` is `b`. -/
structure EmptyAt (b : UInt32) (win : RxWindow) : Prop where
  base : win.baseId = b
  free : ∀ i, (win.slots i).recvCount = 0

theorem emptyAt_init : EmptyAt 0 rxWindowInit := ⟨rfl, fun _ => rfl⟩

theorem EmptyAt.wellFormed {b : UInt32} {win : RxWindow} (h : EmptyAt b win) (W : ℕ) :
    WellFormed W win where
  distinct i _ _ _ hlive := by
    rw [live_eq_false.mpr (h.free i)] at hlive
    cases hlive
  idle i _ := live_eq_false.mpr (h.free i)
  counted i hlive := by
    rw [live_eq_false.mpr (h.free i)] at hlive
    cases hlive

theorem EmptyAt.held {b : UInt32} {win : RxWindow} (h : EmptyAt b win) (W : ℕ) (id : UInt32) :
    held win W id = none := by
  refine SlotTable.lookup_eq_none.mpr fun i _ hlive => ?_
  rw [live_eq_false.mpr (h.free i)] at hlive
  cases hlive

theorem slotOf_eq (win : RxWindow) (W : ℕ) (id : UInt32) :
    ((List.range W).find? fun i =>
      decide (0 < (win.slots i).recvCount) && (win.slots i).blockId == id) =
      SlotTable.slotOf live RxBlock.blockId win.slots W id := rfl

theorem freeSlot_eq (win : RxWindow) (W : ℕ) :
    ((List.range W).find? fun i => (win.slots i).recvCount == 0) =
      SlotTable.freeSlot live win.slots W := by
  unfold SlotTable.freeSlot
  congr 1
  funext i
  rw [Bool.eq_iff_iff, beq_iff_eq, Bool.not_eq_true', live_eq_false]

theorem wellFormed_setSlot {W : ℕ} {win : RxWindow} (hwf : WellFormed W win) {i : ℕ} (hi : i < W)
    {blk : RxBlock} (hfits : SlotTable.Fits live RxBlock.blockId win.slots W i blk)
    (hcount : live blk = true → Counted blk) : WellFormed W (win.setSlot i blk) where
  distinct := SlotTable.distinct_update hwf.distinct hfits
  idle j hj := by
    have hne : j ≠ i := by omega
    simp only [RxWindow.setSlot, Function.update_of_ne hne]
    exact hwf.idle j hj
  counted j hlive := by
    by_cases hji : j = i
    · subst hji
      simp only [RxWindow.setSlot, Function.update_self] at hlive ⊢
      exact hcount hlive
    · simp only [RxWindow.setSlot, Function.update_of_ne hji] at hlive ⊢
      exact hwf.counted j hlive

/-! ## Finding a slot -/

section Operations

variable {W : ℕ} {win : RxWindow}

theorem rxFind_outside {id : UInt32} (hid : W ≤ ahead win.baseId id) :
    rxFind win id W = (win, none) := by
  unfold rxFind
  by_cases hneg : serialDiff id win.baseId < 0
  · rw [if_pos hneg]
  · have hle : (W : ℤ) ≤ serialDiff id win.baseId := by
      rw [serialDiff_neg_iff] at hneg
      rw [le_serialDiff_iff]
      omega
    rw [if_neg hneg, if_pos hle]

theorem rxFind_inside (hW : W ≤ maxWindow) {id : UInt32} (hid : ahead win.baseId id < W) :
    rxFind win id W =
      match SlotTable.slotOf live RxBlock.blockId win.slots W id with
      | some i => (win, some i)
      | none =>
          match SlotTable.freeSlot live win.slots W with
          | some i => (win.setSlot i { zeroBlock with blockId := id }, some i)
          | none => (win, none) := by
  have hW' : W ≤ 16 := hW
  have hneg : ¬ serialDiff id win.baseId < 0 := by
    rw [serialDiff_neg_iff]
    omega
  have hbeyond : ¬ (W : ℤ) ≤ serialDiff id win.baseId := by
    rw [le_serialDiff_iff]
    omega
  unfold rxFind
  rewrite [if_neg hneg, if_neg hbeyond, slotOf_eq, freeSlot_eq]
  rfl

theorem rxFind_held (hW : W ≤ maxWindow) {id : UInt32} (hid : ahead win.baseId id < W)
    {blk : RxBlock} (hheld : held win W id = some blk) :
    ∃ i < W, rxFind win id W = (win, some i) ∧ win.slots i = blk ∧ live blk = true ∧
      blk.blockId = id := by
  obtain ⟨i, hi, hslot, hblk, hlive, hkey⟩ := SlotTable.exists_of_lookup hheld
  refine ⟨i, hi, ?_, hblk, hlive, hkey⟩
  rw [rxFind_inside hW hid, hslot]

theorem rxFind_fresh (hW : W ≤ maxWindow) {id : UInt32} (hid : ahead win.baseId id < W)
    (hheld : held win W id = none) {i : ℕ}
    (hfree : SlotTable.freeSlot live win.slots W = some i) :
    rxFind win id W = (win.setSlot i { zeroBlock with blockId := id }, some i) := by
  have hslot : SlotTable.slotOf live RxBlock.blockId win.slots W id = none :=
    Option.map_eq_none_iff.mp hheld
  rw [rxFind_inside hW hid, hslot, hfree]

theorem rxFind_full (hW : W ≤ maxWindow) {id : UInt32} (hheld : held win W id = none)
    (hfree : SlotTable.freeSlot live win.slots W = none) : rxFind win id W = (win, none) := by
  rcases Nat.lt_or_ge (ahead win.baseId id) W with hin | hout
  · have hslot : SlotTable.slotOf live RxBlock.blockId win.slots W id = none :=
      Option.map_eq_none_iff.mp hheld
    rw [rxFind_inside hW hin, hslot, hfree]
  · exact rxFind_outside hout

/-! ## Storing a shard -/

/-- The block that `rx_find` yields for an id: the one held, else an empty one if a slot is free. -/
def target (win : RxWindow) (windowSize : ℕ) (id : UInt32) : Option RxBlock :=
  if ahead win.baseId id < windowSize then
    match held win windowSize id with
    | some blk => some blk
    | none =>
        if (SlotTable.freeSlot live win.slots windowSize).isSome then
          some { zeroBlock with blockId := id }
        else none
  else none

/-- The shard is new to an undecoded block that the window holds or has room for. -/
structure Accepts (win : RxWindow) (windowSize : ℕ) (hdr : WireHeader) (blk : RxBlock) : Prop where
  target : target win windowSize hdr.blockId = some blk
  undecoded : blk.decoded = false
  inRange : hdr.shardIdx.toNat < maxN
  fresh : blk.received hdr.shardIdx.toNat = false

theorem target_eq_some {id : UInt32} {blk : RxBlock} (h : target win W id = some blk) :
    ahead win.baseId id < W ∧
      (held win W id = some blk ∨
        held win W id = none ∧ blk = { zeroBlock with blockId := id } ∧
          ∃ i, SlotTable.freeSlot live win.slots W = some i) := by
  unfold target at h
  by_cases hin : ahead win.baseId id < W
  · refine ⟨hin, ?_⟩
    rw [if_pos hin] at h
    cases hheld : held win W id with
    | some old =>
        rw [hheld] at h
        exact Or.inl h
    | none =>
        rw [hheld] at h
        simp only [Option.ite_none_right_eq_some, Option.some.injEq] at h
        exact Or.inr ⟨rfl, h.2.symm, Option.isSome_iff_exists.mp h.1⟩
  · rw [if_neg hin] at h
    cases h

theorem target_of_held {id : UInt32} {blk : RxBlock} (hid : ahead win.baseId id < W)
    (hheld : held win W id = some blk) : target win W id = some blk := by
  rw [target, if_pos hid, hheld]

theorem target_of_free {id : UInt32} (hid : ahead win.baseId id < W) (hheld : held win W id = none)
    (hfree : ∃ i, SlotTable.freeSlot live win.slots W = some i) :
    target win W id = some { zeroBlock with blockId := id } := by
  rw [target, if_pos hid, hheld]
  exact if_pos (Option.isSome_iff_exists.mpr hfree)

theorem target_blockId {id : UInt32} {blk : RxBlock} (h : target win W id = some blk) :
    blk.blockId = id := by
  obtain ⟨_, hheld | ⟨_, rfl, _⟩⟩ := target_eq_some h
  · exact held_blockId hheld
  · rfl

theorem counted_zeroBlock (id : UInt32) : Counted { zeroBlock with blockId := id } where
  count := by simp [zeroBlock]
  bound _ hs := by cases hs

theorem counted_of_target (hwf : WellFormed W win) {id : UInt32} {blk : RxBlock}
    (h : target win W id = some blk) : Counted blk := by
  obtain ⟨_, hheld | ⟨_, rfl, _⟩⟩ := target_eq_some h
  · exact counted_of_held hwf hheld
  · exact counted_zeroBlock id

theorem length_filter_update (received : ℕ → Bool) {idx n : ℕ} (hidx : idx < n)
    (hnew : received idx = false) :
    ((List.range n).filter (Function.update received idx true)).length =
      ((List.range n).filter received).length + 1 := by
  induction n with
  | zero => omega
  | succ n ih =>
      rw [List.range_succ, List.filter_append, List.filter_append, List.length_append,
        List.length_append]
      rcases Nat.lt_or_ge idx n with hlt | hge
      · have hne : n ≠ idx := by omega
        rw [ih hlt]
        simp only [List.filter_singleton, Function.update_of_ne hne]
        omega
      · have heq : n = idx := by omega
        have hold : (List.range n).filter (Function.update received idx true) =
            (List.range n).filter received := by
          apply List.filter_congr
          intro j hj
          have hne : j ≠ idx := by
            have hlt := List.mem_range.mp hj
            omega
          rw [Function.update_of_ne hne]
        rw [hold, heq]
        simp [hnew]

theorem counted_storeShard {blk : RxBlock} (hcount : Counted blk) {hdr : WireHeader}
    (hrange : hdr.shardIdx.toNat < maxN) (hfresh : blk.received hdr.shardIdx.toNat = false)
    (s : Shard) (crypto : CryptoCtx) (nowUs : UInt64) :
    Counted (storeShard blk hdr s crypto nowUs) where
  count := by
    change blk.recvCount + 1 = _
    rw [hcount.count]
    exact (length_filter_update blk.received hrange hfresh).symm
  bound t ht := by
    by_cases hidx : t = hdr.shardIdx.toNat
    · rw [hidx]
      exact hrange
    · simp only [storeShard, Function.update_of_ne hidx] at ht
      exact hcount.bound t ht

@[simp] theorem storeShard_blockId (blk : RxBlock) (hdr : WireHeader) (s : Shard)
    (crypto : CryptoCtx) (nowUs : UInt64) :
    (storeShard blk hdr s crypto nowUs).blockId = blk.blockId := rfl

@[simp] theorem storeShard_decoded (blk : RxBlock) (hdr : WireHeader) (s : Shard)
    (crypto : CryptoCtx) (nowUs : UInt64) :
    (storeShard blk hdr s crypto nowUs).decoded = blk.decoded := rfl

@[simp] theorem storeShard_recvCount (blk : RxBlock) (hdr : WireHeader) (s : Shard)
    (crypto : CryptoCtx) (nowUs : UInt64) :
    (storeShard blk hdr s crypto nowUs).recvCount = blk.recvCount + 1 := rfl

theorem storeShard_firstRecvUs (blk : RxBlock) (hdr : WireHeader) (s : Shard) (crypto : CryptoCtx)
    (nowUs : UInt64) : (storeShard blk hdr s crypto nowUs).firstRecvUs =
      if blk.recvCount + 1 = 1 then nowUs else blk.firstRecvUs := rfl

theorem live_storeShard (blk : RxBlock) (hdr : WireHeader) (s : Shard) (crypto : CryptoCtx)
    (nowUs : UInt64) : live (storeShard blk hdr s crypto nowUs) = true :=
  live_iff.mpr (Nat.succ_pos _)

section Insert

variable {hdr : WireHeader} (s : Shard) (crypto : CryptoCtx) (nowUs : UInt64)

theorem insert_of_accepts (hW : W ≤ maxWindow) (hwf : WellFormed W win) {blk : RxBlock}
    (h : Accepts win W hdr blk) :
    let win' := rxWindowInsert win hdr s W crypto nowUs
    win'.baseId = win.baseId ∧ WellFormed W win' ∧
      held win' W = Function.update (held win W) hdr.blockId
        (some (storeShard blk hdr s crypto nowUs)) := by
  have hcount := counted_storeShard (counted_of_target hwf h.target) h.inRange h.fresh s crypto
    nowUs
  have hblk : (storeShard blk hdr s crypto nowUs).blockId = hdr.blockId := by
    rw [storeShard_blockId, target_blockId h.target]
  obtain ⟨hin, hheld | ⟨hnone, hzero, i, hfree⟩⟩ := target_eq_some h.target
  · obtain ⟨i, hi, hfind, hslot, hlive, hkey⟩ := rxFind_held hW hin hheld
    subst hslot
    have hresult : rxWindowInsert win hdr s W crypto nowUs =
        win.setSlot i (storeShard (win.slots i) hdr s crypto nowUs) := by
      unfold rxWindowInsert
      rw [hfind]
      simp [h.undecoded, h.fresh, Nat.not_le.mpr h.inRange]
    have hfits : SlotTable.Fits live RxBlock.blockId win.slots W i
        (storeShard (win.slots i) hdr s crypto nowUs) :=
      SlotTable.fits_of_key hwf.distinct hi hlive rfl
    dsimp only
    rw [hresult]
    refine ⟨rfl, wellFormed_setSlot hwf hi hfits fun _ => hcount, ?_⟩
    rw [← hblk]
    exact SlotTable.lookup_update_live hwf.distinct hi hfits (live_storeShard ..) fun _ => rfl
  · obtain ⟨hi, hidle⟩ := SlotTable.freeSlot_spec hfree
    have hresult : rxWindowInsert win hdr s W crypto nowUs =
        win.setSlot i (storeShard blk hdr s crypto nowUs) := by
      unfold rxWindowInsert
      rw [rxFind_fresh hW hin hnone hfree, hzero]
      simp [RxWindow.setSlot, zeroBlock, Nat.not_le.mpr h.inRange]
    have hfits : SlotTable.Fits live RxBlock.blockId win.slots W i
        (storeShard blk hdr s crypto nowUs) :=
      SlotTable.fits_of_lookup_none (by rw [hblk]; exact hnone)
    dsimp only
    rw [hresult]
    refine ⟨rfl, wellFormed_setSlot hwf hi hfits fun _ => hcount, ?_⟩
    rw [← hblk]
    exact SlotTable.lookup_update_live hwf.distinct hi hfits (live_storeShard ..)
      fun hlive => by simp [hidle] at hlive

theorem insert_of_not_accepts (hW : W ≤ maxWindow) (hwf : WellFormed W win)
    (h : ∀ blk, ¬ Accepts win W hdr blk) :
    let win' := rxWindowInsert win hdr s W crypto nowUs
    win'.baseId = win.baseId ∧ WellFormed W win' ∧ held win' W = held win W := by
  rcases Nat.lt_or_ge (ahead win.baseId hdr.blockId) W with hin | hout
  · cases hheld : held win W hdr.blockId with
    | some blk =>
        obtain ⟨i, hi, hfind, hslot, hlive, hkey⟩ := rxFind_held hW hin hheld
        have hresult : rxWindowInsert win hdr s W crypto nowUs = win := by
          unfold rxWindowInsert
          rw [hfind]
          simp only
          split_ifs with hdec hrange hrecv
          · rfl
          · rfl
          · rfl
          · subst hslot
            exact absurd ⟨target_of_held hin hheld, by simpa using hdec, Nat.not_le.mp hrange,
              by simpa using hrecv⟩ (h _)
        dsimp only
        rw [hresult]
        exact ⟨rfl, hwf, rfl⟩
    | none =>
        cases hfree : SlotTable.freeSlot live win.slots W with
        | none =>
            have hresult : rxWindowInsert win hdr s W crypto nowUs = win := by
              unfold rxWindowInsert
              rw [rxFind_full hW hheld hfree]
            dsimp only
            rw [hresult]
            exact ⟨rfl, hwf, rfl⟩
        | some i =>
            -- the shard's index is out of range, so the slot found stays free
            obtain ⟨hi, hidle⟩ := SlotTable.freeSlot_spec hfree
            have hrange : maxN ≤ hdr.shardIdx.toNat := by
              by_contra hlt
              exact h _ ⟨target_of_free hin hheld ⟨i, hfree⟩, rfl, Nat.not_le.mp hlt, rfl⟩
            have hresult : rxWindowInsert win hdr s W crypto nowUs =
                win.setSlot i { zeroBlock with blockId := hdr.blockId } := by
              unfold rxWindowInsert
              rw [rxFind_fresh hW hin hheld hfree]
              simp [hrange]
            have hdead : live { zeroBlock with blockId := hdr.blockId } = false := rfl
            dsimp only
            rw [hresult]
            exact ⟨rfl,
              wellFormed_setSlot hwf hi (SlotTable.fits_of_free hdead)
                (fun hlive => by rw [hdead] at hlive; cases hlive),
              SlotTable.lookup_update_idle hwf.distinct hdead hidle⟩
  · have hresult : rxWindowInsert win hdr s W crypto nowUs = win := by
      unfold rxWindowInsert
      rw [rxFind_outside hout]
    dsimp only
    rw [hresult]
    exact ⟨rfl, hwf, rfl⟩

theorem insert_cases (hW : W ≤ maxWindow) (hwf : WellFormed W win) (hdr : WireHeader) :
    (rxWindowInsert win hdr s W crypto nowUs).baseId = win.baseId ∧
      WellFormed W (rxWindowInsert win hdr s W crypto nowUs) ∧
      ((∃ blk, Accepts win W hdr blk ∧
          held (rxWindowInsert win hdr s W crypto nowUs) W =
            Function.update (held win W) hdr.blockId
              (some (storeShard blk hdr s crypto nowUs))) ∨
        (∀ blk, ¬ Accepts win W hdr blk) ∧
          held (rxWindowInsert win hdr s W crypto nowUs) W = held win W) := by
  by_cases h : ∃ blk, Accepts win W hdr blk
  · obtain ⟨blk, hblk⟩ := h
    obtain ⟨hbase, hwf', hmap⟩ := insert_of_accepts s crypto nowUs hW hwf hblk
    exact ⟨hbase, hwf', Or.inl ⟨blk, hblk, hmap⟩⟩
  · have hnot : ∀ blk, ¬ Accepts win W hdr blk := fun blk hblk => h ⟨blk, hblk⟩
    obtain ⟨hbase, hwf', hmap⟩ := insert_of_not_accepts s crypto nowUs hW hwf hnot
    exact ⟨hbase, hwf', Or.inr ⟨hnot, hmap⟩⟩

theorem wellFormed_insert (hW : W ≤ maxWindow) (hwf : WellFormed W win) (hdr : WireHeader) :
    WellFormed W (rxWindowInsert win hdr s W crypto nowUs) :=
  (insert_cases s crypto nowUs hW hwf hdr).2.1

end Insert

/-! ## Decoding -/

/-- `try_decode` succeeds on the block, with outputs `o`. -/
structure Decodes (blk : RxBlock) (k : ℕ) (garbage : StackGarbage) (o : DecodeOut) : Prop where
  undecoded : blk.decoded = false
  enough : k ≤ blk.recvCount
  solved : decodeBlock garbage.locals garbage.out (kShards blk k) k = some o

/-- The buffers that `try_decode` writes to TUN. -/
def tunWrites (o : DecodeOut) (k : ℕ) : List (List UInt8) :=
  (List.range k).map fun i =>
    prefixList (o.out i) (ipPacketLength (o.out i) (o.outLen i)).toNat

theorem tryDecode_of_decodes {blk : RxBlock} {k : ℕ} {garbage : StackGarbage} {o : DecodeOut}
    (h : Decodes blk k garbage o) :
    tryDecode blk k garbage = ({ blk with decoded := true }, true, tunWrites o k) := by
  unfold tryDecode
  rw [if_neg (by simp [h.undecoded]), if_neg (Nat.not_lt.mpr h.enough), h.solved]
  rfl

theorem tryDecode_of_not_decodes {blk : RxBlock} {k : ℕ} {garbage : StackGarbage}
    (h : ∀ o, ¬ Decodes blk k garbage o) : tryDecode blk k garbage = (blk, false, []) := by
  unfold tryDecode
  split_ifs with hdec hcount
  · rfl
  · rfl
  · cases hsolve : decodeBlock garbage.locals garbage.out (kShards blk k) k with
    | none => rfl
    | some o => exact absurd ⟨by simpa using hdec, Nat.not_lt.mp hcount, hsolve⟩ (h o)

theorem counted_decoded {blk : RxBlock} (h : Counted blk) : Counted { blk with decoded := true } :=
  ⟨h.count, h.bound⟩

theorem rxWindowTryDecode_of_decodes (hW : W ≤ maxWindow) (hwf : WellFormed W win) {id : UInt32}
    {k : ℕ} {garbage : StackGarbage} {blk : RxBlock} {o : DecodeOut}
    (hid : ahead win.baseId id < W) (hheld : held win W id = some blk)
    (h : Decodes blk k garbage o) :
    let r := rxWindowTryDecode win id k W garbage
    r.1.baseId = win.baseId ∧ WellFormed W r.1 ∧
      held r.1 W = Function.update (held win W) id (some { blk with decoded := true }) ∧
      r.2 = (true, tunWrites o k) := by
  obtain ⟨i, hi, hfind, rfl, hlive, hkey⟩ := rxFind_held hW hid hheld
  have hresult : rxWindowTryDecode win id k W garbage =
      (win.setSlot i { win.slots i with decoded := true }, true, tunWrites o k) := by
    unfold rxWindowTryDecode
    rw [hfind]
    simp only [tryDecode_of_decodes h]
  have hfits : SlotTable.Fits live RxBlock.blockId win.slots W i
      { win.slots i with decoded := true } :=
    SlotTable.fits_of_key hwf.distinct hi hlive rfl
  dsimp only
  rw [hresult]
  refine ⟨rfl, wellFormed_setSlot hwf hi hfits fun _ => counted_decoded (hwf.counted i hlive),
    ?_, rfl⟩
  rw [← hkey]
  exact SlotTable.lookup_update_live hwf.distinct hi hfits hlive fun _ => rfl

theorem rxWindowTryDecode_of_not_decodes (hW : W ≤ maxWindow) (hwf : WellFormed W win)
    (id : UInt32) (k : ℕ) (garbage : StackGarbage)
    (h : ∀ blk o, ahead win.baseId id < W → held win W id = some blk →
      ¬ Decodes blk k garbage o) :
    let r := rxWindowTryDecode win id k W garbage
    r.1.baseId = win.baseId ∧ WellFormed W r.1 ∧ held r.1 W = held win W ∧ r.2.2 = [] ∧
      (r.2.1 = true → k = 0 ∧ held win W id = none) := by
  rcases Nat.lt_or_ge (ahead win.baseId id) W with hin | hout
  · cases hheld : held win W id with
    | some blk =>
        obtain ⟨i, hi, hfind, rfl, hlive, hkey⟩ := rxFind_held hW hin hheld
        have hresult : rxWindowTryDecode win id k W garbage = (win, false, []) := by
          unfold rxWindowTryDecode
          rw [hfind]
          simp [tryDecode_of_not_decodes fun o => h _ o hin hheld, RxWindow.setSlot]
        dsimp only
        rw [hresult]
        exact ⟨rfl, hwf, rfl, rfl, fun hok => by cases hok⟩
    | none =>
        cases hfree : SlotTable.freeSlot live win.slots W with
        | none =>
            have hresult : rxWindowTryDecode win id k W garbage = (win, false, []) := by
              unfold rxWindowTryDecode
              rw [rxFind_full hW hheld hfree]
            dsimp only
            rw [hresult]
            exact ⟨rfl, hwf, rfl, rfl, fun hok => by cases hok⟩
        | some i =>
            obtain ⟨hi, hidle⟩ := SlotTable.freeSlot_spec hfree
            have hresult : ∃ blk, live blk = false ∧
                rxWindowTryDecode win id k W garbage =
                  (win.setSlot i blk, decide (k = 0), []) := by
              unfold rxWindowTryDecode
              rw [rxFind_fresh hW hin hheld hfree]
              by_cases hk : k = 0
              · subst hk
                exact ⟨{ zeroBlock with blockId := id, decoded := true }, rfl,
                  by simp [RxWindow.setSlot, tryDecode, decodeBlock, zeroBlock]⟩
              · have hlt : zeroBlock.recvCount < k := Nat.pos_of_ne_zero hk
                exact ⟨{ zeroBlock with blockId := id }, rfl,
                  by simp [RxWindow.setSlot, tryDecode, hk, hlt]⟩
            obtain ⟨blk, hdead, hresult⟩ := hresult
            dsimp only
            rw [hresult]
            exact ⟨rfl,
              wellFormed_setSlot hwf hi (SlotTable.fits_of_free hdead)
                (fun hlive => by rw [hdead] at hlive; cases hlive),
              SlotTable.lookup_update_idle hwf.distinct hdead hidle, rfl,
              fun hok => ⟨of_decide_eq_true hok, rfl⟩⟩
  · have hresult : rxWindowTryDecode win id k W garbage = (win, false, []) := by
      unfold rxWindowTryDecode
      rw [rxFind_outside hout]
    dsimp only
    rw [hresult]
    exact ⟨rfl, hwf, rfl, rfl, fun hok => by cases hok⟩

theorem tryDecode_cases (hW : W ≤ maxWindow) (hwf : WellFormed W win) (id : UInt32) (k : ℕ)
    (garbage : StackGarbage) :
    (rxWindowTryDecode win id k W garbage).1.baseId = win.baseId ∧
      WellFormed W (rxWindowTryDecode win id k W garbage).1 ∧
      ((∃ blk, held win W id = some blk ∧
          held (rxWindowTryDecode win id k W garbage).1 W =
            Function.update (held win W) id (some { blk with decoded := true })) ∨
        held (rxWindowTryDecode win id k W garbage).1 W = held win W) := by
  by_cases hdec : ∃ blk o, ahead win.baseId id < W ∧ held win W id = some blk ∧
      Decodes blk k garbage o
  · obtain ⟨blk, o, hin, hblk, ho⟩ := hdec
    obtain ⟨hbase, hwf', hmap, -⟩ := rxWindowTryDecode_of_decodes hW hwf hin hblk ho
    exact ⟨hbase, hwf', Or.inl ⟨blk, hblk, hmap⟩⟩
  · obtain ⟨hbase, hwf', hmap, -⟩ := rxWindowTryDecode_of_not_decodes hW hwf id k garbage
      fun blk o hin hblk ho => hdec ⟨blk, o, hin, hblk, ho⟩
    exact ⟨hbase, hwf', Or.inr hmap⟩

theorem wellFormed_tryDecode (hW : W ≤ maxWindow) (hwf : WellFormed W win) (id : UInt32) (k : ℕ)
    (garbage : StackGarbage) : WellFormed W (rxWindowTryDecode win id k W garbage).1 :=
  (tryDecode_cases hW hwf id k garbage).2.1

/-! ## Properties of the blocks held -/

section BlockRules

variable {Q : UInt32 → RxBlock → Prop}

theorem forall_held_insert (hW : W ≤ maxWindow) (hwf : WellFormed W win)
    (hold : ∀ id blk, held win W id = some blk → Q id blk) {hdr : WireHeader} {s : Shard}
    {crypto : CryptoCtx} {nowUs : UInt64}
    (hempty : Q hdr.blockId { zeroBlock with blockId := hdr.blockId })
    (hstore : ∀ blk, Accepts win W hdr blk → Q hdr.blockId blk →
      Q hdr.blockId (storeShard blk hdr s crypto nowUs)) :
    ∀ id blk, held (rxWindowInsert win hdr s W crypto nowUs) W id = some blk → Q id blk := by
  intro id blk hheld
  obtain ⟨-, -, ⟨b, hacc, hmap⟩ | ⟨-, hmap⟩⟩ := insert_cases s crypto nowUs hW hwf hdr
  · rw [hmap] at hheld
    by_cases hid : id = hdr.blockId
    · subst hid
      rw [Function.update_self, Option.some.injEq] at hheld
      subst hheld
      refine hstore b hacc ?_
      obtain ⟨_, hb | ⟨_, rfl, _⟩⟩ := target_eq_some hacc.target
      · exact hold _ b hb
      · exact hempty
    · rw [Function.update_of_ne hid] at hheld
      exact hold id blk hheld
  · rw [hmap] at hheld
    exact hold id blk hheld

/-- A property of blocks that does not depend on whether they are decoded. -/
theorem forall_held_tryDecode (hW : W ≤ maxWindow) (hwf : WellFormed W win)
    (hold : ∀ id blk, held win W id = some blk → Q id blk) {id : UInt32} {k : ℕ}
    {garbage : StackGarbage}
    (hdec : ∀ blk, held win W id = some blk → Q id blk → Q id { blk with decoded := true }) :
    ∀ x blk, held (rxWindowTryDecode win id k W garbage).1 W x = some blk → Q x blk := by
  intro x blk hheld
  obtain ⟨-, -, ⟨b, hb, hmap⟩ | hmap⟩ := tryDecode_cases hW hwf id k garbage
  · rw [hmap] at hheld
    by_cases hx : x = id
    · subst hx
      rw [Function.update_self, Option.some.injEq] at hheld
      subst hheld
      exact hdec b hb (hold _ b hb)
    · rw [Function.update_of_ne hx] at hheld
      exact hold x blk hheld
  · rw [hmap] at hheld
    exact hold x blk hheld

end BlockRules

end Operations

end CodingGateway.Proofs.Window
