import CodingGateway.Proofs.EventLoop
set_option autoImplicit false

/-!
# Delivery in order

Packets are only ever written for blocks that `base_id` has not passed, and the turn
that writes them moves `base_id` past the block.  As long as `base_id` does not go half
around, the ids of the delivered blocks therefore grow.
-/

namespace CodingGateway.Proofs.InOrder

open CodingGateway.Model
open CodingGateway.Library
open CodingGateway.Proofs.Window
open CodingGateway.Proofs.Advance
open CodingGateway.Proofs.ReceiveLoop
open CodingGateway.Proofs.EventLoop

/-- The ids of the blocks for which packets are written, in the order of writing. -/
def writtenIds (outs : List RxOutput) : List UInt32 :=
  ((deliveries outs).filter fun dl => !dl.writes.isEmpty).map Delivery.blockId

theorem ahead_eq_sub {a b : UInt32} (h : a.toNat ≤ b.toNat) : ahead a b = b.toNat - a.toNat := by
  have hb := b.toNat_lt
  change (b.toBitVec - a.toBitVec).toNat = _
  rw [BitVec.toNat_sub]
  change (2 ^ 32 - a.toNat + b.toNat) % 2 ^ 32 = _
  omega

theorem toNat_eq_add_ahead {a b : UInt32} (h : a.toNat + ahead a b < 2 ^ 32) :
    b.toNat = a.toNat + ahead a b := by
  have hb := add_ofNat_ahead a b
  have hlt := ahead_lt a b
  have hnat := congrArg UInt32.toNat hb
  rw [UInt32.toNat_add, UInt32.toNat_ofNat', Nat.mod_eq_of_lt hlt, Nat.mod_eq_of_lt h] at hnat
  exact hnat.symm

/-- The numbers of blocks are read as natural numbers: `base_id` counts its moves, no block
is ahead of it, and what was written lies behind it in order. -/
structure Ordered (windowSize : ℕ) (win : RxWindow) (outs : List RxOutput) : Prop where
  base : win.baseId.toNat = totalMoves outs
  behind : ∀ id blk, held win windowSize id = some blk → id.toNat ≤ totalMoves outs
  passed : ∀ id ∈ writtenIds outs, id.toNat < totalMoves outs
  sorted : (writtenIds outs).Pairwise fun a b => a.toNat < b.toNat

theorem writtenIds_append (outs : List RxOutput) (out : RxOutput) :
    writtenIds (outs ++ [out]) = writtenIds outs ++
      ((out.delivery.toList.filter fun dl => !dl.writes.isEmpty).map Delivery.blockId) := by
  simp [writtenIds]

section Step

variable {fuel W : ℕ} {crypto : CryptoCtx} {win win' : RxWindow} {a : Arrival} {out : RxOutput}
  {outs : List RxOutput}

theorem mem_writtenIds_step {id : UInt32}
    (hid : id ∈ (out.delivery.toList.filter fun dl => !dl.writes.isEmpty).map Delivery.blockId) :
    ∃ dl, out.delivery = some dl ∧ dl.writes ≠ [] ∧ dl.blockId = id := by
  obtain ⟨dl, hdl, rfl⟩ := List.mem_map.mp hid
  obtain ⟨hmem, hwritten⟩ := List.mem_filter.mp hdl
  exact ⟨dl, Option.mem_toList.mp hmem, by simpa using hwritten, rfl⟩

theorem written_between (hW : W ≤ maxWindow) (hwf : WellFormed W win)
    (hstep : rxStep fuel W crypto win a = some (win', out)) (hmoves : out.moves < 2 ^ 31)
    {dl : Delivery} (hdel : out.delivery = some dl) (hwritten : dl.writes ≠ []) :
    dl.blockId = a.hdr.blockId ∧ ahead win.baseId a.hdr.blockId < W ∧
      ahead win.baseId a.hdr.blockId < out.moves := by
  obtain ⟨hid, ⟨blk, o, hd, _⟩ | ⟨_, hempty, _⟩⟩ := delivery_eq_some hW hwf hstep hdel
  · refine ⟨hid, hd.inside, ?_⟩
    by_contra hge
    have hadv := (rxStep_eq_some.mp hstep).1
    obtain ⟨hbase, hwf₂, hmap, _⟩ := attempted_of_delivers hW hwf hd
    rw [← Nat.zero_add out.moves] at hadv
    obtain ⟨hbase', hmap'⟩ := advanceLoop_moves hwf₂ hadv (by omega)
    obtain ⟨_, hdone, hnewer⟩ := advanceLoop_settled hwf₂ hadv
    rw [hbase] at hbase' hmap'
    have hW' : W ≤ 16 := hW
    have hinside := hd.inside
    have hheld : held win' W a.hdr.blockId = some { blk with decoded := true } := by
      rw [hmap', survivors_of_le (by omega), hmap, Function.update_self]
    have hdist : ahead win'.baseId a.hdr.blockId =
        ahead win.baseId a.hdr.blockId - out.moves := by
      have hmove : ahead win.baseId win'.baseId = out.moves := by
        rw [hbase']
        exact ahead_add_ofNat _ (by omega)
      rw [ahead_of_le (a := win.baseId) (by omega), hmove]
    by_cases heq : ahead win'.baseId a.hdr.blockId = 0
    · rw [eq_of_ahead_eq_zero heq] at hheld
      exact hdone ⟨_, hheld, rfl⟩
    · exact hnewer ⟨_, _, hheld, by omega, by omega⟩
  · exact absurd hempty hwritten

theorem ordered_rxStep (hW : W ≤ maxWindow) (hwf : WellFormed W win)
    (hord : Ordered W win outs) (hstep : rxStep fuel W crypto win a = some (win', out))
    (hmoves : totalMoves (outs ++ [out]) < 2 ^ 31) : Ordered W win' (outs ++ [out]) := by
  rw [totalMoves_append] at hmoves
  have hW' : W ≤ 16 := hW
  have hadv := (rxStep_eq_some.mp hstep).1
  have hwf₂ := attempted_wellFormed hW hwf crypto a
  have hbase₂ := attempted_baseId hW hwf crypto a
  rw [← Nat.zero_add out.moves] at hadv
  obtain ⟨hbase', hmap'⟩ := advanceLoop_moves hwf₂ hadv (by omega)
  obtain ⟨_, _, hnewer⟩ := advanceLoop_settled hwf₂ hadv
  rw [hbase₂] at hbase' hmap'
  have hbase : win'.baseId.toNat = totalMoves outs + out.moves := by
    have hmove : ahead win.baseId win'.baseId = out.moves := by
      rw [hbase']
      exact ahead_add_ofNat _ (by omega)
    have hnat := toNat_eq_add_ahead (a := win.baseId) (b := win'.baseId)
      (by rw [hmove, hord.base]; omega)
    rw [hnat, hmove, hord.base]
  refine ⟨?_, ?_, ?_, ?_⟩
  · rw [totalMoves_append, hbase]
  · -- a block held in the end was held before or came inside the window, and is not newer
    intro id blk hheld
    rw [totalMoves_append]
    have hold := hheld
    rw [hmap'] at hold
    have hattempted := (survivors_eq_some.mp hold).1
    have hbound : id.toNat ≤ totalMoves outs + W := by
      by_cases hid : id = a.hdr.blockId
      · subst hid
        cases hprev : held win W a.hdr.blockId with
        | some b =>
            have hle := hord.behind _ _ hprev
            omega
        | none =>
            obtain ⟨b, hacc⟩ := accepts_of_attempted hW hwf hprev hattempted
            have hinside := (target_eq_some hacc.target).1
            have hnat := toNat_eq_add_ahead (a := win.baseId) (b := a.hdr.blockId)
              (by rw [hord.base]; omega)
            rw [hnat, hord.base]
            omega
      · rw [held_attempted_of_ne hW hwf hid] at hattempted
        have hle := hord.behind _ _ hattempted
        omega
    by_contra hgt
    have hdist := ahead_eq_sub (a := win'.baseId) (b := id) (by omega)
    exact hnewer ⟨id, blk, hheld, by omega, by omega⟩
  · intro id hid
    rw [writtenIds_append, List.mem_append] at hid
    rw [totalMoves_append]
    rcases hid with hid | hid
    · have hlt := hord.passed id hid
      omega
    · obtain ⟨dl, hdel, hwritten, rfl⟩ := mem_writtenIds_step hid
      obtain ⟨hblock, _, hlt⟩ := written_between hW hwf hstep (by omega) hdel hwritten
      have hnat := toNat_eq_add_ahead (a := win.baseId) (b := a.hdr.blockId)
        (by rw [hord.base]; omega)
      rw [hblock, hnat, hord.base]
      omega
  · rw [writtenIds_append, List.pairwise_append]
    refine ⟨hord.sorted, ?_, ?_⟩
    · cases out.delivery with
      | none => exact List.Pairwise.nil
      | some dl =>
          by_cases hempty : dl.writes.isEmpty
          · simp [hempty]
          · simp [hempty]
    · intro x hx y hy
      obtain ⟨dl, hdel, hwritten, rfl⟩ := mem_writtenIds_step hy
      obtain ⟨hblock, _, hlt⟩ := written_between hW hwf hstep (by omega) hdel hwritten
      have hnat := toNat_eq_add_ahead (a := win.baseId) (b := a.hdr.blockId)
        (by rw [hord.base]; omega)
      have hpassed := hord.passed x hx
      rw [hblock, hnat, hord.base]
      omega

end Step

theorem ordered_init (W : ℕ) : Ordered W rxWindowInit [] where
  base := rfl
  behind id blk hheld := by
    rw [held_init] at hheld
    cases hheld
  passed id hid := by cases hid
  sorted := List.Pairwise.nil

theorem ordered_rxRun {fuel W : ℕ} {crypto : CryptoCtx} (hW : W ≤ maxWindow) {win : RxWindow}
    {as : List Arrival} {outs : List RxOutput}
    (hrun : rxRun fuel W crypto rxWindowInit as = some (win, outs))
    (hmoves : totalMoves outs < 2 ^ 31) : Ordered W win outs := by
  revert hmoves
  refine (Machine.run_induction
    (P := fun _ win outs => WellFormed W win ∧ (totalMoves outs < 2 ^ 31 → Ordered W win outs))
    ⟨wellFormed_init W, fun _ => ordered_init W⟩ ?_ hrun).2
  rintro _ win outs a win' out _ ⟨hwf, hord⟩ hstep
  refine ⟨wellFormed_rxStep hW hwf hstep, fun hmoves => ?_⟩
  have hmoves' : totalMoves outs < 2 ^ 31 := by
    rw [totalMoves_append] at hmoves
    omega
  exact ordered_rxStep hW hwf (hord hmoves') hstep hmoves

/-- The outputs of the receive path in a run of the event loop. -/
def rxOutputs (outs : List MainOutput) : List RxOutput := outs.filterMap MainOutput.rx

/-- **In-order, at-most-once delivery.** In every run of the event loop in which `base_id`
moves fewer than `2 ^ 31` times, the blocks whose packets are written to TUN grow in serial
order, each pair of them. -/
theorem written_in_serial_order {fuel : ℕ} {cfg : GatewayConfig} {tctx : TransportCtx}
    {crypto : CryptoCtx} {now : Timeval} {inputs : List MainInput} {st : MainState}
    {outs : List MainOutput} (hW : cfg.windowSize.toNat ≤ maxWindow)
    (hrun : mainRun fuel (mainInit cfg tctx crypto now) inputs = some (st, outs))
    (hmoves : totalMoves (rxOutputs outs) < 2 ^ 31) :
    (writtenIds (rxOutputs outs)).Pairwise fun a b => 0 < serialDiff b a := by
  have hrx : rxRun fuel cfg.windowSize.toNat crypto rxWindowInit
      (inputs.filterMap (feed (mainInit cfg tctx crypto now))) =
        some (st.rxWin, rxOutputs outs) := by
    have hproject := rxRun_of_mainRun hrun
    exact hproject
  have hord := ordered_rxRun hW hrx hmoves
  refine hord.sorted.imp_of_mem fun {a b} ha hb hlt => ?_
  have hb' := hord.passed b hb
  rw [serialDiff_pos_iff, ahead_eq_sub (by omega)]
  omega

/-- A receiver that reads the only shards of blocks 0 and 1, and block 0 once more. -/
def replayRun : Option (MainState × List MainOutput) :=
  let cfg : GatewayConfig := ⟨chars "rx", [], [], 1, 1, 5, 1400, 8, [], 100, 3 / 10, 1 / 5, 0,
    fun _ => zeroPath.cfg, 0, 0, 0, [], false, fun _ => [], 0⟩
  let turn (id : UInt32) : MainInput := { quietTurn with
    arrival := some
      ⟨⟨0, shardDatagram id 0 1 1 ⟨fun _ => 1, fun _ => 7, 1⟩⟩, zeroStack, 0, fun _ => 0⟩ }
  mainRun 4 (mainInit cfg ⟨fun _ => ⟨0, 0, true⟩, 0⟩ (cryptoInit none) ⟨0, 0⟩)
    [turn 0, turn 1, turn 0]

theorem written_in_serial_order_replay :
    ∃ st outs, replayRun = some (st, outs) ∧ writtenIds (rxOutputs outs) = [0, 1] ∧
      (writtenIds (rxOutputs outs)).Pairwise fun a b => 0 < serialDiff b a := by
  have hids : replayRun.map (fun r => writtenIds (rxOutputs r.2)) = some [0, 1] := by
    decide +kernel
  have hmoves : replayRun.map (fun r => totalMoves (rxOutputs r.2)) = some 2 := by
    decide +kernel
  cases hrun : replayRun with
  | none =>
      rw [hrun] at hids
      cases hids
  | some r =>
      rw [hrun, Option.map_some, Option.some.injEq] at hids hmoves
      exact ⟨r.1, r.2, rfl, hids, written_in_serial_order (by decide) hrun (by omega)⟩

end CodingGateway.Proofs.InOrder
