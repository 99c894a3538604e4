import CodingGateway.Proofs.ReceiveLoop
import CodingGateway.Proofs.TwoWindows
set_option autoImplicit false

/-!
# Sequence wrap-around

A window whose `base_id` and occupied block ids are shifted by a constant modulo
`2 ^ 32` behaves like the window itself on datagrams shifted by that constant.

* `windowStep_shifted` — one call of `rx_window_insert`, `rx_window_try_decode` or
  `rx_window_advance`;
* `run_shifted` — any sequence of calls.
-/

namespace CodingGateway.Proofs.WrapAround

open CodingGateway.Model
open CodingGateway.Library.Machine
open CodingGateway.Proofs.ReceiveLoop (zeroStack)
open CodingGateway.Proofs.TwoWindows

variable {c : UInt32} {W fuel : ℕ} {crypto : CryptoCtx}

/-! ## Calls on the window -/

/-- A call on the receive window, with what it meets outside the code. -/
inductive WindowCall
  | insert (hdr : WireHeader) (s : Shard) (nowUs : UInt64)
  | tryDecode (blockId : UInt32) (k : ℕ) (garbage : StackGarbage)
  | advance (nowUs : ℕ → UInt64)

/-- What a call returns, the buffers it writes to TUN, and how often it moves `base_id`. -/
structure CallOutput where
  ok : Bool
  writes : List (List UInt8)
  moves : ℕ
deriving DecidableEq

/-- One call; `fuel` bounds the turns of `rx_window_advance`. -/
def windowStep (fuel W : ℕ) (crypto : CryptoCtx) (win : RxWindow) :
    WindowCall → Option (RxWindow × CallOutput)
  | .insert hdr s nowUs => some (rxWindowInsert win hdr s W crypto nowUs, ⟨false, [], 0⟩)
  | .tryDecode blockId k garbage =>
      let (win, ok, writes) := rxWindowTryDecode win blockId k W garbage
      some (win, ⟨ok, writes, 0⟩)
  | .advance nowUs => (rxWindowAdvance fuel win W nowUs).map fun r => (r.1, ⟨false, [], r.2⟩)

/-! ## Shifting -/

def WindowCall.shift (c : UInt32) : WindowCall → WindowCall
  | .insert hdr s nowUs => .insert { hdr with blockId := hdr.blockId + c } s nowUs
  | .tryDecode blockId k garbage => .tryDecode (blockId + c) k garbage
  | .advance nowUs => .advance nowUs

/-- The window with `base_id` and the block ids of the occupied slots shifted. -/
def shiftWindow (c : UInt32) (win : RxWindow) : RxWindow where
  slots i :=
    if 0 < (win.slots i).recvCount then
      { win.slots i with blockId := (win.slots i).blockId + c }
    else win.slots i
  baseId := win.baseId + c

/-- The same slot but for the block id, which is shifted when the slot is occupied. -/
structure SlotShifted (c : UInt32) (blk blk' : RxBlock) : Prop where
  blockId : 0 < blk.recvCount → blk'.blockId = blk.blockId + c
  shards : blk'.shards = blk.shards
  received : blk'.received = blk.received
  recvCount : blk'.recvCount = blk.recvCount
  decoded : blk'.decoded = blk.decoded
  firstRecvUs : blk'.firstRecvUs = blk.firstRecvUs

theorem sameTests_slotShifted (c : UInt32) : SameTests c (SlotShifted c) where
  recvCount h := h.recvCount
  blockId h := h.blockId
  received h := h.received
  decoded h := h.decoded
  firstRecvUs h := h.firstRecvUs
  freed := ⟨fun h => absurd h (Nat.lt_irrefl 0), rfl, rfl, rfl, rfl, rfl⟩
  allocated _ := ⟨fun _ => rfl, rfl, rfl, rfl, rfl, rfl⟩

/-- The second window is the first one shifted; free slots may hold any block id. -/
def Shifted (c : UInt32) : RxWindow → RxWindow → Prop := Related c (SlotShifted c)

theorem shifted_shiftWindow (c : UInt32) (win : RxWindow) :
    Shifted c win (shiftWindow c win) where
  baseId := rfl
  slots i := by
    by_cases hocc : 0 < (win.slots i).recvCount
    · have hslot : (shiftWindow c win).slots i =
          { win.slots i with blockId := (win.slots i).blockId + c } := if_pos hocc
      rw [hslot]
      exact ⟨fun _ => rfl, rfl, rfl, rfl, rfl, rfl⟩
    · have hslot : (shiftWindow c win).slots i = win.slots i := if_neg hocc
      rw [hslot]
      exact ⟨fun h => absurd h hocc, rfl, rfl, rfl, rfl, rfl⟩

/-! ## One call -/

variable {win win' : RxWindow}

theorem storeShard_shifted (hcrypto : crypto.enabled = false) {blk blk' : RxBlock}
    (h : SlotShifted c blk blk') (hid : blk'.blockId = blk.blockId + c) (hdr : WireHeader)
    (s : Shard) (nowUs : UInt64) :
    SlotShifted c (storeShard blk hdr s crypto nowUs)
      (storeShard blk' { hdr with blockId := hdr.blockId + c } s crypto nowUs) := by
  constructor <;>
    simp [storeShard, hcrypto, hid, h.shards, h.received, h.recvCount, h.decoded, h.firstRecvUs]

theorem tryDecode_shifted {blk blk' : RxBlock} (h : SlotShifted c blk blk') (k : ℕ)
    (garbage : StackGarbage) :
    SlotShifted c (tryDecode blk k garbage).1 (tryDecode blk' k garbage).1 ∧
      (tryDecode blk' k garbage).2 = (tryDecode blk k garbage).2 := by
  have hshards : kShards blk' k = kShards blk k := by
    unfold kShards collectShards
    rw [h.received, h.shards]
  unfold tryDecode
  rw [h.decoded, h.recvCount, hshards]
  split_ifs
  · exact ⟨h, rfl⟩
  · exact ⟨h, rfl⟩
  · cases decodeBlock garbage.locals garbage.out (kShards blk k) k with
    | none => exact ⟨h, rfl⟩
    | some o =>
        exact ⟨⟨h.blockId, h.shards, h.received, rfl, rfl, h.firstRecvUs⟩, rfl⟩

theorem windowStep_shifted (hcrypto : crypto.enabled = false) (h : Shifted c win win')
    (call : WindowCall) :
    Option.Rel (fun r r' => Shifted c r.1 r'.1 ∧ r.2 = r'.2)
      (windowStep fuel W crypto win call) (windowStep fuel W crypto win' (call.shift c)) := by
  have hS := sameTests_slotShifted c
  cases call with
  | insert hdr s nowUs =>
      have hinsert : Shifted c (rxWindowInsert win hdr s W crypto nowUs)
          (rxWindowInsert win' { hdr with blockId := hdr.blockId + c } s W crypto nowUs) := by
        apply insert_related hS h hdr { hdr with blockId := hdr.blockId + c } s s crypto nowUs rfl
          rfl
        intro blk blk' hslot hid hid' _ _
        exact storeShard_shifted hcrypto hslot (by rw [hid, hid']) hdr s nowUs
      exact .some ⟨hinsert, rfl⟩
  | tryDecode id k garbage =>
      have hdecode := tryDecode_related (W := W) hS h fun blk blk' hslot (_ : blk.blockId = id) _ =>
        tryDecode_shifted hslot k garbage
      exact .some ⟨hdecode.1, congrArg (fun r => CallOutput.mk r.1 r.2 0) hdecode.2.symm⟩
  | advance nowUs =>
      have hloop := advanceLoop_related (W := W) hS h nowUs fuel 0
      change Option.Rel _ (Option.map _ (advanceLoop W nowUs fuel 0 win))
        (Option.map _ (advanceLoop W nowUs fuel 0 win'))
      generalize advanceLoop W nowUs fuel 0 win = x, advanceLoop W nowUs fuel 0 win' = x' at hloop ⊢
      cases hloop with
      | none => exact .none
      | some hr => exact .some ⟨hr.1, congrArg (CallOutput.mk false []) hr.2⟩

/-! ## Runs -/

/-- The calls made from a window and from the shifted window, on shifted block ids, return
the same values and write the same buffers, and the windows they leave are shifted again. -/
theorem run_shifted (hcrypto : crypto.enabled = false) (h : Shifted c win win')
    (calls : List WindowCall) :
    Option.Rel (fun r r' => Shifted c r.1 r'.1 ∧ r.2 = r'.2)
      (run (windowStep fuel W crypto) win calls)
      (run (windowStep fuel W crypto) win' (calls.map (WindowCall.shift c))) := by
  have hcalls : List.Forall₂ (fun call call' => call' = WindowCall.shift c call) calls
      (calls.map (WindowCall.shift c)) :=
    List.forall₂_map_right_iff.mpr (List.forall₂_same.mpr fun _ _ => rfl)
  have hstep (call call' : WindowCall) (rest : List WindowCall) (w w' : RxWindow)
      (hw : Shifted c w w') (hcall : call' = call.shift c) :
      Option.Rel (fun r r' => Shifted c r.1 r'.1 ∧ r.2 = r'.2)
        (windowStep fuel W crypto w call) (windowStep fuel W crypto w' call') := by
    rw [hcall]
    exact windowStep_shifted hcrypto hw call
  have hrun := run_rel (R := fun _ => Shifted c) (O := Eq) hstep h hcalls
  rw [List.forall₂_eq_eq_eq] at hrun
  exact hrun

/-- Two systematic shards of one byte, the newer block first. -/
def twoBlocks : List WindowCall :=
  let hdr (id : UInt32) : WireHeader :=
    ⟨wireMagic, wireVersion, typeData, id, 0, 1, 1, 0, 1⟩
  let shard : Shard := ⟨fun _ => 1, fun _ => 0, 1⟩
  [.insert (hdr 1) shard 0, .insert (hdr 0) shard 0, .tryDecode 0 1 zeroStack,
    .advance fun _ => 0, .tryDecode 1 1 zeroStack, .advance fun _ => 0]

/-- Shifted by `2 ^ 32 - 1`, the second block is the one where the id wraps to 0. -/
theorem run_shifted_wrap :
    (cryptoInit none).enabled = false ∧
      Shifted 0xFFFFFFFF rxWindowInit (shiftWindow 0xFFFFFFFF rxWindowInit) ∧
      Option.Rel (fun r r' => Shifted 0xFFFFFFFF r.1 r'.1 ∧ r.2 = r'.2)
        (run (windowStep 3 8 (cryptoInit none)) rxWindowInit twoBlocks)
        (run (windowStep 3 8 (cryptoInit none)) (shiftWindow 0xFFFFFFFF rxWindowInit)
          (twoBlocks.map (WindowCall.shift 0xFFFFFFFF))) :=
  ⟨rfl, shifted_shiftWindow _ _, run_shifted rfl (shifted_shiftWindow _ _) twoBlocks⟩

example : (run (windowStep 3 8 (cryptoInit none)) (shiftWindow 0xFFFFFFFF rxWindowInit)
    (twoBlocks.map (WindowCall.shift 0xFFFFFFFF))).map (fun r => (r.1.baseId, r.2.map (·.ok))) =
      some (1, [false, false, true, false, true, false]) := by
  decide +kernel

end CodingGateway.Proofs.WrapAround
