import CodingGateway.Proofs.Transfer
import CodingGateway.Proofs.TwoWindows
import CodingGateway.Proofs.WireFormat
set_option autoImplicit false

/-!
# Uninitialised memory and what is written to TUN

Two runs of the receive loop over the same datagrams, with other contents of the local
buffers that are never initialised.

* `decodeBlock_agree` — `decode_block` on shards of one length reads no more than it was given.
* `sameRun_of_keepsShape` — the runs agree when the shards of a block keep its shape.
* `not_sameRun_twoShards` — a block of shards of two lengths tells them apart.
-/

namespace CodingGateway.Proofs.Noninterference

open CodingGateway.Library.Machine
open CodingGateway.Model
open CodingGateway.Proofs.Cipher
open CodingGateway.Proofs.Completeness
open CodingGateway.Proofs.Elimination
open CodingGateway.Proofs.FieldTables (GF256)
open CodingGateway.Proofs.ReceiveLoop
open CodingGateway.Proofs.Transfer
open CodingGateway.Proofs.TwoWindows
open CodingGateway.Proofs.Window
open CodingGateway.Proofs.Wire
open CodingGateway.Proofs.WireFormat

/-! ## Decoding -/

section Decode

variable {k : ℕ} {len : UInt16} {shards shards' : ℕ → Shard}

/-- Two outcomes of `decode_block` that agree on the bytes it returns. -/
structure SameOut (k : ℕ) (len : UInt16) (o o' : DecodeOut) : Prop where
  outLen : ∀ i < k, o.outLen i = len
  outLen' : ∀ i < k, o'.outLen i = len
  out : ∀ i < k, ∀ t < len.toNat, o'.out i t = o.out i t

/-- On shards of one length the outcome does not depend on the working arrays: it is the
solution of the equations that the shards state. -/
theorem decodeBlock_agree (hlens : ∀ i < k, (shards i).len = len)
    (hlen : len.toNat ≤ maxPayload) (hsame : ∀ i < k, SameShard k (shards' i) (shards i))
    (locals locals' : DecodeState) (res res' : DecodeOut) :
    Option.Rel (SameOut k len) (decodeBlock locals res shards k)
      (decodeBlock locals' res' shards' k) := by
  have hlens' : ∀ i < k, (shards' i).len = len := fun i hi => (hsame i hi).len.trans (hlens i hi)
  have hcoeffs (i : Fin k) : coeffRow k (shards' i) = coeffRow k (shards i) :=
    coeffRow_congr (hsame i i.isLt)
  have hdata (i : Fin k) :
      dataRow len.toNat (shards' i).data = dataRow len.toNat (shards i).data := by
    funext t
    rw [dataRow, dataRow, (hsame i i.isLt).data t (by rw [hlens i i.isLt]; exact t.isLt)]
  have hspec := decodeBlock_spec locals res shards hlens hlen
  have hspec' := decodeBlock_spec locals' res' shards' hlens' hlen
  simp only [hcoeffs, hdata] at hspec'
  cases hdec : decodeBlock locals res shards k with
  | none =>
      rw [hdec] at hspec
      cases hdec' : decodeBlock locals' res' shards' k with
      | none => exact .none
      | some o' =>
          rw [hdec'] at hspec'
          exact absurd hspec'.1 hspec
  | some o =>
      rw [hdec] at hspec
      cases hdec' : decodeBlock locals' res' shards' k with
      | none =>
          rw [hdec'] at hspec'
          exact absurd hspec.1 hspec'
      | some o' =>
          rw [hdec'] at hspec'
          -- the rows of `o` solve the equations, so they are the rows of `o'`
          have hsolves := (hspec.2.2 fun i => dataRow len.toNat (o.out i)).mpr fun _ => rfl
          have hrows := (hspec'.2.2 fun i => dataRow len.toNat (o.out i)).mp hsolves
          refine .some ⟨hspec.2.1, hspec'.2.1, fun i hi t ht => ?_⟩
          have hbyte := congrFun (hrows ⟨i, hi⟩) ⟨t, ht⟩
          exact (congrArg GF256.byte hbyte).symm

theorem tunWrites_congr {o o' : DecodeOut} (h : SameOut k len o o') :
    tunWrites o' k = tunWrites o k := by
  unfold tunWrites
  apply List.map_congr_left
  intro i hi
  have hik := List.mem_range.mp hi
  have hle := UInt16.le_iff_toNat_le.mp (ipPacketLength_le (o.out i) len)
  rw [h.outLen i hik, h.outLen' i hik, ipPacketLength_congr (h.out i hik)]
  exact prefixList_congr fun t ht => h.out i hik t (by omega)

end Decode

/-! ## Two runs -/

/-- The same datagram and clock readings; the uninitialised memory may differ. -/
structure SameInput (inp inp' : RxInput) : Prop where
  dgram : inp'.dgram = inp.dgram
  insertUs : inp'.insertUs = inp.insertUs
  advanceUs : inp'.advanceUs = inp.advanceUs

/-- Slots that hold the same block, apart from the contents of its shards. -/
structure SameSlot (blk blk' : RxBlock) : Prop where
  blockId : blk'.blockId = blk.blockId
  received : blk'.received = blk.received
  recvCount : blk'.recvCount = blk.recvCount
  decoded : blk'.decoded = blk.decoded
  firstRecvUs : blk'.firstRecvUs = blk.firstRecvUs

/-- Windows with the same blocks in the same slots. -/
structure SameBlocks (win win' : RxWindow) : Prop where
  baseId : win'.baseId = win.baseId
  slots : ∀ i, SameSlot (win.slots i) (win'.slots i)

/-- Both runs end with the same blocks and wrote the same, or neither ends. -/
def SameRun : Option (RxWindow × List RxOutput) → Option (RxWindow × List RxOutput) → Prop :=
  Option.Rel fun r r' => SameBlocks r.1 r'.1 ∧ r.2 = r'.2

/-- A later shard of a block names no more packets than an earlier one, and as many bytes. -/
def KeepsShape (a b : Arrival) : Prop :=
  a.hdr.blockId = b.hdr.blockId →
    b.hdr.k.toNat ≤ a.hdr.k.toNat ∧ b.hdr.payloadLen = a.hdr.payloadLen

instance : DecidableRel KeepsShape := fun a b =>
  inferInstanceAs (Decidable (a.hdr.blockId = b.hdr.blockId →
    b.hdr.k.toNat ≤ a.hdr.k.toNat ∧ b.hdr.payloadLen = a.hdr.payloadLen))

/-- A data shard as two runs take it from one datagram. -/
structure SameArrival (a a' : Arrival) : Prop where
  hdr : a'.hdr = a.hdr
  insertUs : a'.insertUs = a.insertUs
  advanceUs : a'.advanceUs = a.advanceUs
  len : a.shard.len = a.hdr.payloadLen
  fits : a.hdr.payloadLen.toNat ≤ maxPayload
  shard : SameShard a.hdr.k.toNat a'.shard a.shard

/-- Slots that agree on all that the shards in `rest` will make the decoder read. -/
structure SlotAgree (rest : List Arrival) (blk blk' : RxBlock) : Prop where
  slot : SameSlot blk blk'
  counted : Counted blk
  shards : ∀ a ∈ rest, a.hdr.blockId = blk.blockId → ∀ s, blk.received s = true →
    (blk.shards s).len = a.hdr.payloadLen ∧
      SameShard a.hdr.k.toNat (blk'.shards s) (blk.shards s)

theorem slotAgree_zeroBlock (rest : List Arrival) (id : UInt32) :
    SlotAgree rest { zeroBlock with blockId := id } { zeroBlock with blockId := id } where
  slot := ⟨rfl, rfl, rfl, rfl, rfl⟩
  counted := counted_zeroBlock id
  shards _ _ _ s hs := by cases hs

theorem sameTests_slotAgree (rest : List Arrival) : SameTests 0 (SlotAgree rest) where
  recvCount h := h.slot.recvCount
  blockId h _ := by rw [h.slot.blockId, UInt32.add_zero]
  received h := h.slot.received
  decoded h := h.slot.decoded
  firstRecvUs h := h.slot.firstRecvUs
  freed := slotAgree_zeroBlock rest 0
  allocated id := by
    rw [UInt32.add_zero]
    exact slotAgree_zeroBlock rest id

theorem related_tail {a : Arrival} {rest : List Arrival} {win win' : RxWindow}
    (h : Related 0 (SlotAgree (a :: rest)) win win') : Related 0 (SlotAgree rest) win win' where
  baseId := h.baseId
  slots i := ⟨(h.slots i).slot, (h.slots i).counted,
    fun b hb => (h.slots i).shards b (List.mem_cons_of_mem a hb)⟩

theorem sameBlocks_of_related {rest : List Arrival} {win win' : RxWindow}
    (h : Related 0 (SlotAgree rest) win win') : SameBlocks win win' where
  baseId := by rw [h.baseId, UInt32.add_zero]
  slots i := (h.slots i).slot

/-! ## One step -/

section Step

variable {a a' : Arrival} {rest : List Arrival} {win win' : RxWindow} {blk blk' : RxBlock}
  {W fuel : ℕ} {crypto : CryptoCtx}

theorem sameShard_decipher {k : ℕ} {s s' : Shard} (h : SameShard k s' s) (nonce : UInt64) :
    SameShard k { s' with data := cryptoXor crypto s'.data s'.len.toNat nonce }
      { s with data := cryptoXor crypto s.data s.len.toNat nonce } where
  len := h.len
  coeffs := h.coeffs
  data t ht := by
    change cryptoXor crypto s'.data s'.len.toNat nonce t =
      cryptoXor crypto s.data s.len.toNat nonce t
    rw [h.len, cryptoXor_apply, cryptoXor_apply, h.data t ht]

theorem sameShard_mono {k m : ℕ} {s s' : Shard} (h : SameShard k s' s) (hm : m ≤ k) :
    SameShard m s' s :=
  ⟨h.len, fun j hj => h.coeffs j (hj.trans_le hm), h.data⟩

theorem sameShard_stored (blk blk' : RxBlock) (crypto : CryptoCtx) (ha : SameArrival a a') :
    SameShard a.hdr.k.toNat
        ((storeShard blk' a'.hdr a'.shard crypto a'.insertUs).shards a.hdr.shardIdx.toNat)
        ((storeShard blk a.hdr a.shard crypto a.insertUs).shards a.hdr.shardIdx.toNat) ∧
      ((storeShard blk a.hdr a.shard crypto a.insertUs).shards a.hdr.shardIdx.toNat).len =
        a.hdr.payloadLen := by
  simp only [storeShard, ha.hdr, Function.update_self]
  by_cases hon : crypto.enabled = true
  · rw [if_pos hon, if_pos hon]
    exact ⟨sameShard_decipher ha.shard _, ha.len⟩
  · rw [if_neg hon, if_neg hon]
    exact ⟨ha.shard, ha.len⟩

theorem slotAgree_storeShard (h : SlotAgree (a :: rest) blk blk') (ha : SameArrival a a')
    (hshape : ∀ b ∈ rest, KeepsShape a b) (hid : blk.blockId = a.hdr.blockId)
    (hrange : a.hdr.shardIdx.toNat < maxN)
    (hfresh : blk.received a.hdr.shardIdx.toNat = false) (crypto : CryptoCtx) :
    SlotAgree (a :: rest) (storeShard blk a.hdr a.shard crypto a.insertUs)
      (storeShard blk' a'.hdr a'.shard crypto a'.insertUs) where
  slot := by
    constructor <;>
      simp [storeShard, ha.hdr, ha.insertUs, h.slot.blockId, h.slot.received, h.slot.recvCount,
        h.slot.decoded, h.slot.firstRecvUs]
  counted := counted_storeShard h.counted hrange hfresh a.shard crypto a.insertUs
  shards b hb hbid s hs := by
    by_cases hidx : s = a.hdr.shardIdx.toNat
    · obtain ⟨hsame, hlen⟩ := sameShard_stored blk blk' crypto ha
      rw [hidx]
      rcases List.mem_cons.mp hb with rfl | hrest
      · exact ⟨hlen, hsame⟩
      · obtain ⟨hk, hpayload⟩ := hshape b hrest (by rw [hbid]; exact hid.symm)
        exact ⟨hlen.trans hpayload.symm, sameShard_mono hsame hk⟩
    · have hs' : blk.received s = true := by
        simpa [storeShard, Function.update_of_ne hidx] using hs
      have hold := h.shards b hb hbid s hs'
      simpa [storeShard, ha.hdr, Function.update_of_ne hidx] using hold

theorem kShards_agree (h : SlotAgree (a :: rest) blk blk') (hid : a.hdr.blockId = blk.blockId)
    (henough : a.hdr.k.toNat ≤ blk.recvCount) :
    ∀ i < a.hdr.k.toNat, (kShards blk a.hdr.k.toNat i).len = a.hdr.payloadLen ∧
      SameShard a.hdr.k.toNat (kShards blk' a.hdr.k.toNat i) (kShards blk a.hdr.k.toNat i) := by
  intro i hi
  have hcount : a.hdr.k.toNat ≤ (receivedIndices blk).length := by
    rw [receivedIndices, ← h.counted.count]
    exact henough
  have hsame : receivedIndices blk' = receivedIndices blk := by
    rw [receivedIndices, receivedIndices, h.slot.received]
  have hlowest : lowestReceived blk' i = lowestReceived blk i := by
    rw [lowestReceived, lowestReceived, hsame]
  rw [kShards_eq hi hcount, kShards_eq hi (by rw [hsame]; exact hcount), hlowest]
  exact h.shards a List.mem_cons_self hid _
    ((mem_receivedIndices h.counted).mp (lowestReceived_mem (by omega)))

theorem tryDecode_agree (h : SlotAgree (a :: rest) blk blk') (hid : a.hdr.blockId = blk.blockId)
    (hfits : a.hdr.payloadLen.toNat ≤ maxPayload) (garbage garbage' : StackGarbage) :
    SlotAgree (a :: rest) (tryDecode blk a.hdr.k.toNat garbage).1
        (tryDecode blk' a.hdr.k.toNat garbage').1 ∧
      (tryDecode blk' a.hdr.k.toNat garbage').2 = (tryDecode blk a.hdr.k.toNat garbage).2 := by
  unfold tryDecode
  rw [h.slot.decoded, h.slot.recvCount]
  split_ifs with hdec hfew
  · exact ⟨h, rfl⟩
  · exact ⟨h, rfl⟩
  · have hshards := kShards_agree h hid (Nat.not_lt.mp hfew)
    have hout := decodeBlock_agree (fun i hi => (hshards i hi).1) hfits
      (fun i hi => (hshards i hi).2) garbage.locals garbage'.locals garbage.out garbage'.out
    generalize decodeBlock garbage.locals garbage.out (kShards blk a.hdr.k.toNat) a.hdr.k.toNat = x,
      decodeBlock garbage'.locals garbage'.out (kShards blk' a.hdr.k.toNat) a.hdr.k.toNat = x'
      at hout ⊢
    cases hout with
    | none => exact ⟨h, rfl⟩
    | @some o o' ho =>
        have hslot : SlotAgree (a :: rest) { blk with decoded := true }
            { blk' with recvCount := blk.recvCount, decoded := true } :=
          ⟨⟨h.slot.blockId, h.slot.received, rfl, rfl, h.slot.firstRecvUs⟩,
            counted_decoded h.counted, h.shards⟩
        exact ⟨hslot, congrArg (Prod.mk true) (tunWrites_congr ho)⟩

theorem rxStep_agree (fuel W : ℕ) (crypto : CryptoCtx)
    (h : Related 0 (SlotAgree (a :: rest)) win win') (ha : SameArrival a a')
    (hshape : (a :: rest).Pairwise KeepsShape) :
    Option.Rel (fun r r' => (Related 0 (SlotAgree rest) r.1 r'.1 ∧ rest.Pairwise KeepsShape) ∧
      r.2 = r'.2) (rxStep fuel W crypto win a) (rxStep fuel W crypto win' a') := by
  obtain ⟨hhead, htail⟩ := List.pairwise_cons.mp hshape
  have hS := sameTests_slotAgree (a :: rest)
  have hinsert : Related 0 (SlotAgree (a :: rest)) (inserted W crypto win a)
      (inserted W crypto win' a') := by
    rw [inserted, inserted, ha.insertUs]
    apply insert_related hS h a.hdr a'.hdr a.shard a'.shard crypto a.insertUs
      (by rw [ha.hdr, UInt32.add_zero]) (by rw [ha.hdr])
    intro blk blk' hslot hid _ hrange hfresh
    have hstore := slotAgree_storeShard hslot ha hhead hid hrange hfresh crypto
    rwa [ha.insertUs] at hstore
  have hdecode : Related 0 (SlotAgree (a :: rest)) (attempted W crypto win a).1
        (attempted W crypto win' a').1 ∧
      (attempted W crypto win' a').2 = (attempted W crypto win a).2 := by
    have hboth := tryDecode_related (W := W) hS hinsert
      fun blk blk' hslot (hid : blk.blockId = a.hdr.blockId) _ =>
        tryDecode_agree hslot hid.symm ha.fits a.garbage a'.garbage
    rw [UInt32.add_zero] at hboth
    unfold attempted
    rw [ha.hdr]
    exact hboth
  have hdelivered : delivered W crypto win' a' = delivered W crypto win a := by
    unfold delivered
    rw [hdecode.2, ha.hdr]
  have hloop := advanceLoop_related (W := W) hS hdecode.1 a.advanceUs fuel 0
  rw [rxStep_eq_map, rxStep_eq_map, ha.advanceUs, hdelivered]
  unfold rxWindowAdvance
  generalize advanceLoop W a.advanceUs fuel 0 (attempted W crypto win a).1 = x,
    advanceLoop W a.advanceUs fuel 0 (attempted W crypto win' a').1 = x' at hloop ⊢
  cases hloop with
  | none => exact .none
  | some hr => exact .some ⟨⟨related_tail hr.1, htail⟩, congrArg (RxOutput.mk _) hr.2⟩

end Step

/-! ## Runs -/

variable {W fuel : ℕ} {crypto : CryptoCtx} {tctx : TransportCtx} {inputs inputs' : List RxInput}

theorem arrivalOf_of_dataChecks {inp : RxInput} (h : DataChecks inp.dgram.bytes) :
    arrivalOf tctx inp = some ⟨headerOf inp.dgram.bytes,
      shardOf inp.dgram.bytes inp.garbage.shardIn, inp.garbage, inp.insertUs, inp.advanceUs⟩ := by
  unfold arrivalOf
  rw [transportRecv_of_dataChecks tctx inp.dgram inp.garbage.shardIn h]

theorem arrivalOf_of_not_dataChecks {inp : RxInput} (h : ¬ DataChecks inp.dgram.bytes) :
    arrivalOf tctx inp = none := by
  unfold arrivalOf
  rcases transportRecv_cases tctx inp.dgram inp.garbage.shardIn with
    ⟨hdata, _⟩ | ⟨_, hrecv⟩ | ⟨_, hrecv⟩ | hrecv
  · exact absurd hdata h
  · rw [hrecv]
  · rw [hrecv]
  · rw [hrecv]

theorem sameShard_shardOf (bytes : List UInt8) (shardIn shardIn' : Shard) :
    SameShard (headerOf bytes).k.toNat (shardOf bytes shardIn') (shardOf bytes shardIn) where
  len := rfl
  coeffs j hj := by
    simp only [shardOf, memcpy_of_lt _ _ hj]
  data t ht := by
    have hlen : t < (headerOf bytes).payloadLen.toNat := ht
    simp only [shardOf, memcpy_of_lt _ _ hlen]

theorem arrivalOf_agree {inp inp' : RxInput} (h : SameInput inp inp') :
    Option.Rel SameArrival (arrivalOf tctx inp) (arrivalOf tctx inp') := by
  by_cases hdata : DataChecks inp.dgram.bytes
  · have hdata' : DataChecks inp'.dgram.bytes := by
      rw [h.dgram]
      exact hdata
    rw [arrivalOf_of_dataChecks hdata, arrivalOf_of_dataChecks hdata', h.dgram]
    exact .some ⟨rfl, h.insertUs, h.advanceUs, rfl, hdata.payloadLen, sameShard_shardOf _ _ _⟩
  · have hdata' : ¬ DataChecks inp'.dgram.bytes := by
      rw [h.dgram]
      exact hdata
    rw [arrivalOf_of_not_dataChecks hdata, arrivalOf_of_not_dataChecks hdata']
    exact .none

/-- When the shards of each block keep its shape, uninitialised memory is without effect. -/
theorem sameRun_of_keepsShape (hsame : List.Forall₂ SameInput inputs inputs')
    (hshape : (inputs.filterMap (arrivalOf tctx)).Pairwise KeepsShape) :
    SameRun (receiveRun fuel W crypto tctx rxWindowInit inputs)
      (receiveRun fuel W crypto tctx rxWindowInit inputs') := by
  have harrivals : List.Forall₂ SameArrival (inputs.filterMap (arrivalOf tctx))
      (inputs'.filterMap (arrivalOf tctx)) :=
    List.rel_filterMap (fun _ _ h => arrivalOf_agree h) hsame
  have hinit : Related 0 (SlotAgree (inputs.filterMap (arrivalOf tctx))) rxWindowInit
      rxWindowInit := ⟨rfl, fun _ => slotAgree_zeroBlock _ 0⟩
  have hrun := run_rel (R := fun rest win win' =>
      Related 0 (SlotAgree rest) win win' ∧ rest.Pairwise KeepsShape) (I := SameArrival) (O := Eq)
    (fun a a' rest win win' h ha => rxStep_agree fuel W crypto h.1 ha h.2) ⟨hinit, hshape⟩ harrivals
  rw [List.forall₂_eq_eq_eq] at hrun
  unfold receiveRun rxRun
  generalize run (rxStep fuel W crypto) rxWindowInit (inputs.filterMap (arrivalOf tctx)) = x,
    run (rxStep fuel W crypto) rxWindowInit (inputs'.filterMap (arrivalOf tctx)) = x' at hrun ⊢
  cases hrun with
  | none => exact .none
  | some hr => exact .some ⟨sameBlocks_of_related hr.1.1, hr.2⟩

/-! ## Shards of two lengths -/

/-- Two shards of a block of two packets, the first with `len` bytes of payload and the second
with one, on a stack whose bytes are `g`. -/
def twoShards (len : UInt16) (g : UInt8) : List RxInput :=
  let stack : StackGarbage :=
    ⟨⟨fun _ => g, fun _ => g, 0⟩, ⟨fun _ _ => g, fun _ _ => g, fun _ => 0⟩, zeroStack.out⟩
  [⟨⟨0, shardDatagram 0 0 2 2 ⟨fun _ => 1, fun _ => 7, len⟩⟩, stack, 0, fun _ => 0⟩,
    ⟨⟨0, shardDatagram 0 1 2 2 ⟨fun j => if j = 1 then 1 else 0, fun _ => 5, 1⟩⟩, stack, 0,
      fun _ => 0⟩]

theorem sameInput_twoShards (len : UInt16) (g g' : UInt8) :
    List.Forall₂ SameInput (twoShards len g) (twoShards len g') :=
  .cons ⟨rfl, rfl, rfl⟩ (.cons ⟨rfl, rfl, rfl⟩ .nil)

/-- The outputs of the run over `twoShards`. -/
def twoShardsWrites (len : UInt16) (g : UInt8) : Option (List (Option (List (List UInt8)))) :=
  (receiveRun 2 8 (cryptoInit none) ⟨fun _ => ⟨0, 0, true⟩, 1⟩ rxWindowInit (twoShards len g)).map
    fun r => r.2.map fun out => out.delivery.map Delivery.writes

theorem sameRun_twoShards :
    List.Forall₂ SameInput (twoShards 1 0) (twoShards 1 255) ∧
      SameRun
        (receiveRun 2 8 (cryptoInit none) ⟨fun _ => ⟨0, 0, true⟩, 1⟩ rxWindowInit (twoShards 1 0))
        (receiveRun 2 8 (cryptoInit none) ⟨fun _ => ⟨0, 0, true⟩, 1⟩ rxWindowInit
          (twoShards 1 255)) := by
  have hshape : ((twoShards 1 0).filterMap
      (arrivalOf ⟨fun _ => ⟨0, 0, true⟩, 1⟩)).Pairwise KeepsShape := by
    decide +kernel
  exact ⟨sameInput_twoShards 1 0 255, sameRun_of_keepsShape (sameInput_twoShards 1 0 255) hshape⟩

example : twoShardsWrites 2 1 = some [none, some [[2, 6], [5]]] := by decide +kernel

/-- The second byte of the first packet is the stack's. -/
theorem not_sameRun_twoShards :
    List.Forall₂ SameInput (twoShards 2 0) (twoShards 2 1) ∧
      ¬ SameRun
        (receiveRun 2 8 (cryptoInit none) ⟨fun _ => ⟨0, 0, true⟩, 1⟩ rxWindowInit (twoShards 2 0))
        (receiveRun 2 8 (cryptoInit none) ⟨fun _ => ⟨0, 0, true⟩, 1⟩ rxWindowInit
          (twoShards 2 1)) := by
  refine ⟨sameInput_twoShards 2 0 1, fun h => ?_⟩
  have hwrites : twoShardsWrites 2 0 = twoShardsWrites 2 1 := by
    unfold twoShardsWrites
    generalize receiveRun 2 8 (cryptoInit none) ⟨fun _ => ⟨0, 0, true⟩, 1⟩ rxWindowInit
      (twoShards 2 0) = x, receiveRun 2 8 (cryptoInit none) ⟨fun _ => ⟨0, 0, true⟩, 1⟩ rxWindowInit
      (twoShards 2 1) = x' at h
    cases h with
    | none => rfl
    | some hr => rw [Option.map_some, Option.map_some, hr.2]
  exact absurd hwrites (by decide +kernel)

end CodingGateway.Proofs.Noninterference
