import CodingGateway.Proofs.Completeness
import CodingGateway.Proofs.IndexSafety
import CodingGateway.Proofs.Representation
import CodingGateway.Proofs.Turns
set_option autoImplicit false

/-!
# When a shard completes its block

`rx_window_insert` and `rx_window_try_decode`, told from the window before them: which block
the shard goes to, whether it can then be decoded, and what `rx_window_advance` will see.

* `attempted_ok_iff` — decoding succeeds exactly if the shard completes its block;
* `dues_attempted` — the blocks that the two calls leave.
-/

namespace CodingGateway.Proofs.BlockCompletion

open CodingGateway.Model
open CodingGateway.Library
open CodingGateway.Proofs.Completeness
open CodingGateway.Proofs.Elimination
open CodingGateway.Proofs.FieldTables
open CodingGateway.Proofs.IndexSafety
open CodingGateway.Proofs.ReceiveLoop
open CodingGateway.Proofs.Representation
open CodingGateway.Proofs.Turns
open CodingGateway.Proofs.Window

/-- The received indices of a block, with that of the shard. -/
def indicesWith (blk : RxBlock) (a : Arrival) : List ℕ :=
  (List.range maxN).filter fun s => blk.received s || s == a.hdr.shardIdx.toNat

/-- The coefficients that came with one of these indices. -/
def rowWith (blk : RxBlock) (a : Arrival) (s : ℕ) : Fin a.hdr.k.toNat → GF256 :=
  coeffRow a.hdr.k.toNat (if blk.received s then blk.shards s else a.shard)

/-- The block is not decoded, and with the shard the rows of its `k` lowest indices are there
and independent. -/
structure CompletedBy (blk : RxBlock) (a : Arrival) : Prop where
  undecoded : blk.decoded = false
  enough : a.hdr.k.toNat ≤ (indicesWith blk a).length
  independent : LinearIndependent GF256
    (fun i : Fin a.hdr.k.toNat => rowWith blk a ((indicesWith blk a).getD i 0))

/-- The window has a block or a free slot for the shard, and the shard completes the block. -/
def Completes (W : ℕ) (win : RxWindow) (a : Arrival) : Prop :=
  ∃ blk, target win W a.hdr.blockId = some blk ∧ CompletedBy blk a

open Classical in
/-- What `rx_window_advance` will see: the blocks in the window, and that of the shard unless
the window has no place for it. -/
noncomputable def duesAfter (W : ℕ) (win : RxWindow) (a : Arrival) : UInt32 → Option Due :=
  match target win W a.hdr.blockId with
  | none => dues W win
  | some blk =>
      if 0 < blk.recvCount ∨ a.hdr.shardIdx.toNat < maxN then
        Function.update (dues W win) a.hdr.blockId
          (some ⟨blk.decoded || decide (Completes W win a), firstUs W win a⟩)
      else dues W win

/-! ## The block of the shard -/

section Block

variable {blk : RxBlock} {a : Arrival} (crypto : CryptoCtx)

/-- The block once the shard is stored, if it is. -/
abbrev blockWith (crypto : CryptoCtx) (blk : RxBlock) (a : Arrival) : RxBlock :=
  insertedBlock blk a.hdr a.shard crypto a.insertUs

theorem decoded_blockWith (blk : RxBlock) (a : Arrival) :
    (blockWith crypto blk a).decoded = blk.decoded := by
  unfold blockWith insertedBlock
  split_ifs
  · rfl
  · rfl
  · rfl
  · rfl

theorem blockId_blockWith (blk : RxBlock) (a : Arrival) :
    (blockWith crypto blk a).blockId = blk.blockId := by
  unfold blockWith insertedBlock
  split_ifs
  · rfl
  · rfl
  · rfl
  · rfl

theorem live_blockWith (hlive : live blk = true) : live (blockWith crypto blk a) = true := by
  unfold blockWith insertedBlock
  split_ifs
  · exact hlive
  · exact hlive
  · exact hlive
  · exact live_storeShard blk a.hdr a.shard crypto a.insertUs

theorem blockWith_of_outside (hidx : maxN ≤ a.hdr.shardIdx.toNat) :
    blockWith crypto blk a = blk := by
  unfold blockWith insertedBlock
  split_ifs
  · rfl
  · rfl

theorem counted_blockWith (hcount : Counted blk) : Counted (blockWith crypto blk a) := by
  unfold blockWith insertedBlock
  split_ifs with _ hidx hrecv
  · exact hcount
  · exact hcount
  · exact hcount
  · exact counted_storeShard hcount (not_le.mp hidx) (Bool.eq_false_iff.mpr hrecv) a.shard crypto
      a.insertUs

theorem blockWith_fresh (id : UInt32) (hidx : a.hdr.shardIdx.toNat < maxN) :
    blockWith crypto { zeroBlock with blockId := id } a =
      storeShard { zeroBlock with blockId := id } a.hdr a.shard crypto a.insertUs :=
  if_neg (not_le.mpr hidx)

theorem received_blockWith (hundec : blk.decoded = false) {s : ℕ} (hs : s < maxN) :
    (blockWith crypto blk a).received s = (blk.received s || s == a.hdr.shardIdx.toNat) := by
  unfold blockWith insertedBlock
  rw [if_neg (by rw [hundec]; exact Bool.false_ne_true)]
  split_ifs with hidx hrecv
  · rw [beq_eq_false_iff_ne.mpr (by omega), Bool.or_false]
  · by_cases heq : s = a.hdr.shardIdx.toNat
    · rw [heq, hrecv, Bool.true_or]
    · rw [beq_eq_false_iff_ne.mpr heq, Bool.or_false]
  · change Function.update blk.received a.hdr.shardIdx.toNat true s = _
    by_cases heq : s = a.hdr.shardIdx.toNat
    · rw [heq, Function.update_self, beq_self_eq_true, Bool.or_true]
    · rw [Function.update_of_ne heq, beq_eq_false_iff_ne.mpr heq, Bool.or_false]

theorem coeffs_storeShard (blk : RxBlock) (a : Arrival) :
    ((storeShard blk a.hdr a.shard crypto a.insertUs).shards a.hdr.shardIdx.toNat).coeffs =
      a.shard.coeffs := by
  simp only [storeShard, Function.update_self]
  split_ifs
  · rfl
  · rfl

theorem coeffs_blockWith (hundec : blk.decoded = false) {s : ℕ}
    (hs : (blockWith crypto blk a).received s = true) :
    ((blockWith crypto blk a).shards s).coeffs =
      (if blk.received s then blk.shards s else a.shard).coeffs := by
  unfold blockWith insertedBlock at hs ⊢
  rw [if_neg (by rw [hundec]; exact Bool.false_ne_true)] at hs ⊢
  by_cases hskip : maxN ≤ a.hdr.shardIdx.toNat ∨ blk.received a.hdr.shardIdx.toNat = true
  · have hsame : (if maxN ≤ a.hdr.shardIdx.toNat then blk
        else if blk.received a.hdr.shardIdx.toNat then blk
        else storeShard blk a.hdr a.shard crypto a.insertUs) = blk := by
      rw [ite_eq_left_iff]
      exact fun hidx => if_pos (hskip.resolve_left hidx)
    rw [hsame] at hs ⊢
    rw [if_pos hs]
  · rw [not_or] at hskip
    rw [if_neg hskip.1, if_neg hskip.2] at hs ⊢
    by_cases heq : s = a.hdr.shardIdx.toNat
    · rw [heq, if_neg hskip.2, coeffs_storeShard]
    · change Function.update blk.received a.hdr.shardIdx.toNat true s = true at hs
      rw [Function.update_of_ne heq] at hs
      rw [if_pos hs]
      exact congrArg Shard.coeffs (Function.update_of_ne heq ..)

theorem receivedIndices_blockWith (hundec : blk.decoded = false) :
    receivedIndices (blockWith crypto blk a) = indicesWith blk a :=
  List.filter_congr fun _ hs => received_blockWith crypto hundec (List.mem_range.mp hs)

theorem exists_decodes_blockWith (hcount : Counted blk) (hundec : blk.decoded = false) :
    (∃ o, Decodes (blockWith crypto blk a) a.hdr.k.toNat a.garbage o) ↔ CompletedBy blk a := by
  have hcount' := counted_blockWith (a := a) crypto hcount
  have hindices := receivedIndices_blockWith (a := a) crypto hundec
  have hlen : (blockWith crypto blk a).recvCount = (indicesWith blk a).length := by
    rw [hcount'.count, ← hindices]
    rfl
  have hrows (hk : a.hdr.k.toNat ≤ (indicesWith blk a).length) :
      (fun i : Fin a.hdr.k.toNat =>
          coeffRow a.hdr.k.toNat (kShards (blockWith crypto blk a) a.hdr.k.toNat i)) =
        fun i : Fin a.hdr.k.toNat => rowWith blk a ((indicesWith blk a).getD i 0) := by
    rw [coeffRow_kShards (by rw [hindices]; exact hk)]
    funext i
    have hmem : lowestReceived (blockWith crypto blk a) i ∈
        receivedIndices (blockWith crypto blk a) :=
      lowestReceived_mem (by rw [hindices]; exact i.isLt.trans_le hk)
    have hcoeffs := coeffs_blockWith crypto hundec ((mem_receivedIndices hcount').mp hmem)
    rw [lowestReceived, hindices] at hcoeffs ⊢
    funext j
    exact congrArg GF256.mk (congrFun hcoeffs j)
  constructor
  · rintro ⟨o, ho⟩
    have hk : a.hdr.k.toNat ≤ (indicesWith blk a).length := hlen ▸ ho.enough
    refine ⟨hundec, hk, ?_⟩
    rw [← hrows hk, ← isSome_decodeBlock_iff a.garbage.locals a.garbage.out, ho.solved]
    rfl
  · rintro ⟨_, hk, hind⟩
    rw [← hrows hk, ← isSome_decodeBlock_iff a.garbage.locals a.garbage.out] at hind
    obtain ⟨o, ho⟩ := Option.isSome_iff_exists.mp hind
    exact ⟨o, (decoded_blockWith crypto blk a).trans hundec, hlen ▸ hk, ho⟩

theorem due_tryDecode (blk : RxBlock) (k : ℕ) (garbage : StackGarbage) :
    (tryDecode blk k garbage).1.blockId = blk.blockId ∧
      (tryDecode blk k garbage).1.recvCount = blk.recvCount ∧
      due (tryDecode blk k garbage).1 =
        ⟨blk.decoded || (tryDecode blk k garbage).2.1, blk.firstRecvUs⟩ := by
  by_cases hdec : ∃ o, Decodes blk k garbage o
  · obtain ⟨o, ho⟩ := hdec
    rw [tryDecode_of_decodes ho, Bool.or_true]
    exact ⟨rfl, rfl, rfl⟩
  · rw [tryDecode_of_not_decodes fun o ho => hdec ⟨o, ho⟩, Bool.or_false]
    exact ⟨rfl, rfl, rfl⟩

theorem tryDecode_ok_iff (hcount : Counted blk) :
    (tryDecode (blockWith crypto blk a) a.hdr.k.toNat a.garbage).2.1 = true ↔
      CompletedBy blk a := by
  by_cases hundec : blk.decoded = false
  · rw [← exists_decodes_blockWith crypto hcount hundec]
    by_cases hdec : ∃ o, Decodes (blockWith crypto blk a) a.hdr.k.toNat a.garbage o
    · obtain ⟨o, ho⟩ := hdec
      rw [tryDecode_of_decodes ho]
      exact iff_of_true rfl ⟨o, ho⟩
    · rw [tryDecode_of_not_decodes fun o ho => hdec ⟨o, ho⟩]
      exact iff_of_false Bool.false_ne_true hdec
  · rw [tryDecode, if_pos (by rw [decoded_blockWith]; simpa using hundec)]
    exact iff_of_false Bool.false_ne_true fun h => hundec h.undecoded

end Block

/-! ## The two calls -/

section Calls

variable {W : ℕ} {win win₁ : RxWindow} {a : Arrival} {i : ℕ} (crypto : CryptoCtx)
  (hW : W ≤ maxWindow) (hwf : WellFormed W win)

theorem inside_of_rxFind (hfind : rxFind win a.hdr.blockId W = (win₁, some i)) :
    ahead win.baseId a.hdr.blockId < W := by
  by_contra hout
  rw [rxFind_outside (not_lt.mp hout)] at hfind
  cases hfind

include hW

theorem target_eq_some_iff {blk : RxBlock} :
    target win W a.hdr.blockId = some blk ↔
      ∃ win₁ i, rxFind win a.hdr.blockId W = (win₁, some i) ∧ win₁.slots i = blk := by
  constructor
  · intro htarget
    obtain ⟨hin, hheld | ⟨hnone, rfl, i, hfree⟩⟩ := target_eq_some htarget
    · obtain ⟨i, _, hfind, hslot, _⟩ := rxFind_held hW hin hheld
      exact ⟨win, i, hfind, hslot⟩
    · exact ⟨_, i, rxFind_fresh hW hin hnone hfree, Function.update_self ..⟩
  · rintro ⟨win₁, i, hfind, rfl⟩
    have hin := inside_of_rxFind hfind
    cases hheld : held win W a.hdr.blockId with
    | some blk =>
        obtain ⟨j, _, hfind', hslot, _⟩ := rxFind_held hW hin hheld
        rw [hfind, Prod.mk.injEq, Option.some.injEq] at hfind'
        rw [target_of_held hin hheld, hfind'.1, hfind'.2, hslot]
    | none =>
        cases hfree : SlotTable.freeSlot live win.slots W with
        | none =>
            rw [rxFind_full hW hheld hfree] at hfind
            cases hfind
        | some j =>
            rw [rxFind_fresh hW hin hheld hfree, Prod.mk.injEq, Option.some.injEq] at hfind
            obtain ⟨rfl, rfl⟩ := hfind
            rw [target_of_free hin hheld ⟨j, hfree⟩]
            rw [setSlot_slots_self]

theorem held_eq_none_of_fresh (hfind : rxFind win a.hdr.blockId W = (win₁, some i))
    (hfree : (win.slots i).recvCount = 0) : held win W a.hdr.blockId = none := by
  cases hheld : held win W a.hdr.blockId with
  | none => rfl
  | some blk =>
      obtain ⟨j, _, hfind', hslot, hlive, _⟩ := rxFind_held hW (inside_of_rxFind hfind) hheld
      rw [hfind, Prod.mk.injEq, Option.some.injEq] at hfind'
      rw [hfind'.2, hslot, ← live_eq_false, hlive] at hfree
      cases hfree

omit hW in
theorem inserted_of_find (hfind : rxFind win a.hdr.blockId W = (win₁, some i)) :
    (inserted W crypto win a).slots i = blockWith crypto (win₁.slots i) a := by
  rw [inserted, rxWindowInsert_of_find hfind, setSlot_slots_self]

include hwf

theorem rxFind_inserted (hfind : rxFind win a.hdr.blockId W = (win₁, some i)) :
    ∃ win₂ j, rxFind (inserted W crypto win a) a.hdr.blockId W = (win₂, some j) ∧
      win₂.slots j = blockWith crypto (win₁.slots i) a := by
  have hin := inside_of_rxFind hfind
  obtain ⟨hbase, hwf', hmap⟩ := inserted_spec hW hwf crypto a
  have hin' : ahead (inserted W crypto win a).baseId a.hdr.blockId < W := by
    rw [hbase]
    exact hin
  have hslot := inserted_of_find crypto hfind
  have hid : (blockWith crypto (win₁.slots i) a).blockId = a.hdr.blockId := by
    rw [blockId_blockWith]
    exact target_blockId ((target_eq_some_iff hW).mpr ⟨win₁, i, hfind, rfl⟩)
  cases hlive : live (blockWith crypto (win₁.slots i) a) with
  | true =>
      have hheld := held_of_slot hwf' (i := i) (by rw [hslot]; exact live_iff.mp hlive)
      rw [hslot, hid] at hheld
      obtain ⟨j, _, hfind', hslot', _⟩ := rxFind_held hW hin' hheld
      exact ⟨_, j, hfind', hslot'⟩
  | false =>
      -- the index is out of range, and the slot is still free
      cases found_of_rxFind hfind with
      | held _ hused _ =>
          rw [live_blockWith crypto (live_iff.mpr hused)] at hlive
          cases hlive
      | fresh _ hfree =>
          have hnone := held_eq_none_of_fresh hW hfind hfree
          rw [setSlot_slots_self] at hslot hlive ⊢
          have hidx : maxN ≤ a.hdr.shardIdx.toNat := by
            by_contra hidx
            rw [blockWith_fresh crypto _ (not_le.mp hidx), live_storeShard] at hlive
            cases hlive
          rw [blockWith_of_outside crypto hidx] at hslot ⊢
          have hnone' : held (inserted W crypto win a) W a.hdr.blockId = none := by
            rcases hmap with ⟨b, hacc, _⟩ | ⟨_, hmap⟩
            · exact absurd hacc.inRange (not_lt.mpr hidx)
            · rw [hmap, hnone]
          cases hslots : SlotTable.freeSlot live (inserted W crypto win a).slots W with
          | none =>
              have hused := SlotTable.freeSlot_eq_none.mp hslots i (slot_lt_of_rxFind hfind)
              rw [hslot] at hused
              cases hused
          | some j =>
              exact ⟨_, j, rxFind_fresh hW hin' hnone' hslots, setSlot_slots_self ..⟩

omit hW hwf in
theorem attempted_of_find {win₂ : RxWindow} {j : ℕ}
    (hfind : rxFind (inserted W crypto win a) a.hdr.blockId W = (win₂, some j)) :
    attempted W crypto win a =
      (win₂.setSlot j (tryDecode (win₂.slots j) a.hdr.k.toNat a.garbage).1,
        (tryDecode (win₂.slots j) a.hdr.k.toNat a.garbage).2) := by
  rw [attempted, rxWindowTryDecode, hfind]

omit hW hwf in
theorem attempted_of_missing
    (hfind : (rxFind (inserted W crypto win a) a.hdr.blockId W).2 = none) :
    attempted W crypto win a = (inserted W crypto win a, false, []) := by
  rcases hfind' : rxFind (inserted W crypto win a) a.hdr.blockId W with ⟨win₂, _ | j⟩
  · rw [attempted, rxWindowTryDecode, hfind', eq_of_rxFind_none hfind']
  · rw [hfind'] at hfind
    cases hfind

omit hW hwf in
theorem attempted_of_not_found (hfind : rxFind win a.hdr.blockId W = (win₁, none)) :
    attempted W crypto win a = (win, false, []) := by
  have hsame : inserted W crypto win a = win := by
    rw [inserted, rxWindowInsert, hfind, eq_of_rxFind_none hfind]
  rw [attempted_of_missing crypto (by rw [hsame, hfind]), hsame]

/-- **Decoding, from the window before the shard.** -/
theorem attempted_ok_iff : (attempted W crypto win a).2.1 = true ↔ Completes W win a := by
  have htarget (blk : RxBlock) : target win W a.hdr.blockId = some blk ↔
      ∃ win₁ i, rxFind win a.hdr.blockId W = (win₁, some i) ∧ win₁.slots i = blk :=
    target_eq_some_iff hW
  rcases hfind : rxFind win a.hdr.blockId W with ⟨win₁, _ | i⟩
  · rw [attempted_of_not_found crypto hfind]
    refine iff_of_false Bool.false_ne_true ?_
    rintro ⟨blk, hblk, _⟩
    obtain ⟨_, _, hsome, _⟩ := (htarget blk).mp hblk
    rw [hfind] at hsome
    cases hsome
  · have hblk := (htarget _).mpr ⟨win₁, i, hfind, rfl⟩
    obtain ⟨win₂, j, hfind', hslot⟩ := rxFind_inserted crypto hW hwf hfind
    rw [attempted_of_find crypto hfind', hslot,
      tryDecode_ok_iff crypto (counted_of_target hwf hblk)]
    constructor
    · exact fun h => ⟨_, hblk, h⟩
    · rintro ⟨blk, hblk', h⟩
      obtain rfl := Option.some.inj (hblk.symm.trans hblk')
      exact h

theorem held_attempted_of_outside (hnone : held win W a.hdr.blockId = none)
    (hidx : maxN ≤ a.hdr.shardIdx.toNat) :
    held (attempted W crypto win a).1 W a.hdr.blockId = none := by
  have hinserted : held (inserted W crypto win a) W a.hdr.blockId = none := by
    obtain ⟨_, _, ⟨b, hacc, _⟩ | ⟨_, hmap⟩⟩ := inserted_spec hW hwf crypto a
    · exact absurd hacc.inRange (not_lt.mpr hidx)
    · rw [hmap, hnone]
  rcases held_attempted_cases hW hwf crypto a with ⟨blk, hblk, _⟩ | hsame
  · rw [hinserted] at hblk
    cases hblk
  · rw [hsame, hinserted]

omit hW hwf in
theorem firstRecvUs_blockWith {blk : RxBlock} (htarget : target win W a.hdr.blockId = some blk)
    (hlive : live (blockWith crypto blk a) = true) :
    (blockWith crypto blk a).firstRecvUs = firstUs W win a := by
  rw [firstUs]
  rcases (target_eq_some htarget).2 with hheld | ⟨hnone, rfl, _⟩
  · have hused := held_live hheld
    rw [hheld, Option.map_some, Option.getD_some]
    unfold blockWith insertedBlock
    split_ifs
    · rfl
    · rfl
    · rfl
    · rw [storeShard_firstRecvUs, if_neg (by omega)]
  · rw [hnone, Option.map_none, Option.getD_none]
    rcases Nat.lt_or_ge a.hdr.shardIdx.toNat maxN with hidx | hidx
    · rw [blockWith_fresh crypto _ hidx, storeShard_firstRecvUs]
      exact if_pos rfl
    · rw [blockWith_of_outside crypto hidx] at hlive
      cases hlive

theorem held_attempted_of_live (hfind : rxFind win a.hdr.blockId W = (win₁, some i))
    (hlive : live (blockWith crypto (win₁.slots i) a) = true) :
    ∃ blk, held (attempted W crypto win a).1 W a.hdr.blockId = some blk ∧
      due blk = ⟨(blockWith crypto (win₁.slots i) a).decoded || (attempted W crypto win a).2.1,
        (blockWith crypto (win₁.slots i) a).firstRecvUs⟩ := by
  obtain ⟨win₂, j, hfind', hslot⟩ := rxFind_inserted crypto hW hwf hfind
  obtain ⟨hblockId, hcount, hdue⟩ := due_tryDecode (win₂.slots j) a.hdr.k.toNat a.garbage
  have hattempted := attempted_of_find crypto hfind'
  have hslot' : (attempted W crypto win a).1.slots j =
      (tryDecode (win₂.slots j) a.hdr.k.toNat a.garbage).1 := by
    rw [hattempted, setSlot_slots_self]
  have hid : ((attempted W crypto win a).1.slots j).blockId = a.hdr.blockId := by
    rw [hslot', hblockId, hslot, blockId_blockWith]
    exact target_blockId ((target_eq_some_iff hW).mpr ⟨win₁, i, hfind, rfl⟩)
  have hheld := held_of_slot (attempted_wellFormed hW hwf crypto a) (i := j) (by
    rw [hslot', hcount, hslot]
    exact live_iff.mp hlive)
  rw [hid] at hheld
  refine ⟨_, hheld, ?_⟩
  rw [hslot', hdue, hslot, hattempted, hslot]

/-- **What `rx_window_advance` finds, from the window before the shard.** -/
theorem dues_attempted : dues W (attempted W crypto win a).1 = duesAfter W win a := by
  classical
  have hother {id : UInt32} (hid : id ≠ a.hdr.blockId) :
      dues W (attempted W crypto win a).1 id = dues W win id := by
    rw [dues, dues, held_attempted_of_ne hW hwf hid]
  unfold duesAfter
  cases htarget : target win W a.hdr.blockId with
  | none =>
      rcases hfind : rxFind win a.hdr.blockId W with ⟨win₁, _ | i⟩
      · rw [attempted_of_not_found crypto hfind]
      · rw [(target_eq_some_iff hW).mpr ⟨win₁, i, hfind, rfl⟩] at htarget
        cases htarget
  | some blk =>
      obtain ⟨win₁, i, hfind, rfl⟩ := (target_eq_some_iff hW).mp htarget
      dsimp only
      split_ifs with hplace
      · funext id
        by_cases hid : id = a.hdr.blockId
        · have hlive : live (blockWith crypto (win₁.slots i) a) = true := by
            rcases (target_eq_some htarget).2 with hheld | ⟨_, hfresh, _⟩
            · exact live_blockWith crypto (live_iff.mpr (held_live hheld))
            · rw [hfresh] at hplace ⊢
              rw [blockWith_fresh crypto _ (hplace.resolve_left (Nat.lt_irrefl 0))]
              exact live_storeShard ..
          obtain ⟨blk, hblk, hdue⟩ := held_attempted_of_live crypto hW hwf hfind hlive
          rw [hid, dues, hblk, Option.map_some, hdue, Function.update_self,
            decoded_blockWith, firstRecvUs_blockWith crypto htarget hlive]
          have hok : (attempted W crypto win a).2.1 = decide (Completes W win a) := by
            rw [Bool.eq_iff_iff, attempted_ok_iff crypto hW hwf, decide_eq_true_iff]
          rw [hok]
        · rw [Function.update_of_ne hid, hother hid]
      · rw [not_or, Nat.pos_iff_ne_zero, not_not, not_lt] at hplace
        have hnone : held win W a.hdr.blockId = none := by
          rcases (target_eq_some htarget).2 with hheld | ⟨hnone, _⟩
          · exact absurd (held_live hheld) (by omega)
          · exact hnone
        funext id
        by_cases hid : id = a.hdr.blockId
        · rw [hid, dues, dues, held_attempted_of_outside crypto hW hwf hnone hplace.2, hnone]
        · exact hother hid

end Calls

end CodingGateway.Proofs.BlockCompletion
