import CodingGateway.Proofs.SentBlocks
set_option autoImplicit false

/-!
# What comes out of the tunnel

* `take_writes_eq_bytes` — the first buffers written for a block are its packets.
* `writesPackets_iff_full` — nothing else is written exactly when the block was full.
-/

namespace CodingGateway.Proofs.Soundness

open CodingGateway.Model
open CodingGateway.Proofs.ReceiveLoop
open CodingGateway.Proofs.SentBlocks
open CodingGateway.Proofs.Transfer

/-- **Soundness of the tunnel.** Whatever datagrams of the blocks of a sender arrive, in
whatever order and with duplicates: when a block is decoded, the first buffers written for it
are the packets that were added to it, in order.  The blocks of a run of fewer than `2 ^ 32`
have different ids. -/
theorem take_writes_eq_bytes {fuel W k : ℕ} {crypto : CryptoCtx} {tctx : TransportCtx}
    {blocks : List SentBlock} {inputs : List RxInput} {win : RxWindow} {outs : List RxOutput}
    (hW : W ≤ maxWindow) (hk : 1 ≤ k ∧ k ≤ maxK) (hids : (blocks.map SentBlock.blockId).Nodup)
    (hfill : ∀ b ∈ blocks, b.Filled k)
    (hinputs : ∀ inp ∈ inputs, FromSender blocks k crypto inp)
    (hrun : receiveRun fuel W crypto tctx rxWindowInit inputs = some (win, outs)) :
    ∀ b ∈ blocks, (∀ p ∈ b.bytes, IsIpPacket p) → ∀ dl ∈ deliveries outs,
      dl.blockId = b.blockId → dl.writes.take b.packets.length = b.bytes := by
  intro b hb hip dl hdl hid
  exact (delivery_of_receiveRun hids hfill hW hk hinputs hrun hdl hb hid).2 hip

/-! ## A block that was flushed before it was full -/

def partialBlock : SentBlock := shortBlock 0 1

/-- The datagrams of that block, as they arrive. -/
def partialInputs : List RxInput :=
  (partialBlock.flush 2 (cryptoInit none)).sent.map fun d =>
    ⟨⟨0, d.2⟩, zeroStack, 0, fun _ => 0⟩

def partialRun : Option (RxWindow × List RxOutput) :=
  receiveRun 3 8 (cryptoInit none) ⟨fun _ => ⟨0, 0, true⟩, 1⟩ rxWindowInit partialInputs

theorem partialRun_delivers :
    ∃ win outs dl, partialRun = some (win, outs) ∧ deliveries outs = [dl] ∧ dl.blockId = 0 ∧
      dl.writes = [shortPacket.bytes, List.replicate 20 0] := by
  have hwrites : partialRun.map (fun r => (deliveries r.2).map fun dl => (dl.blockId, dl.writes)) =
      some [(0, [shortPacket.bytes, List.replicate 20 0])] := by
    decide +kernel
  cases hrun : partialRun with
  | none =>
      rw [hrun] at hwrites
      cases hwrites
  | some r =>
      rw [hrun, Option.map_some, Option.some.injEq, List.map_eq_singleton_iff] at hwrites
      obtain ⟨dl, hdl, hdl'⟩ := hwrites
      rw [Prod.mk.injEq] at hdl'
      exact ⟨r.1, r.2, dl, rfl, hdl, hdl'.1, hdl'.2⟩

theorem partialInputs_fromSender :
    ∀ inp ∈ partialInputs, FromSender [partialBlock] 2 (cryptoInit none) inp := by
  intro inp hinp
  obtain ⟨d, hd, rfl⟩ := List.mem_map.mp hinp
  exact ⟨partialBlock, List.mem_singleton_self _, List.mem_map_of_mem hd⟩

theorem partialBlock_filled : ∀ b ∈ [partialBlock], b.Filled 2 := by
  intro b hb
  rw [List.mem_singleton.mp hb]
  exact ⟨by decide, by decide⟩

theorem partialBlock_isIpPacket : ∀ p ∈ partialBlock.bytes, IsIpPacket p := by
  intro p hp
  have hbytes : p = shortPacket.bytes := List.mem_singleton.mp hp
  rw [hbytes]
  exact Or.inl ⟨by decide, by decide, by decide⟩

theorem partialBlock_nodup : ([partialBlock].map SentBlock.blockId).Nodup := List.nodup_singleton 0

theorem take_writes_eq_bytes_partial :
    ∃ win outs, partialRun = some (win, outs) ∧ ∀ dl ∈ deliveries outs,
      dl.blockId = partialBlock.blockId → dl.writes.take 1 = partialBlock.bytes := by
  obtain ⟨win, outs, _, hrun, _⟩ := partialRun_delivers
  exact ⟨win, outs, hrun, take_writes_eq_bytes (by decide) ⟨by decide, by decide⟩
    partialBlock_nodup partialBlock_filled partialInputs_fromSender hrun partialBlock
    (List.mem_singleton_self _) partialBlock_isIpPacket⟩

/-- One buffer is written for each packet, and no other. -/
def WritesPackets (b : SentBlock) (writes : List (List UInt8)) : Prop :=
  writes.length = b.packets.length ∧ ((∀ p ∈ b.bytes, IsIpPacket p) → writes = b.bytes)

/-- **Spurious packets.** The receiver does not learn how many packets a block was flushed
with: what it writes for a decoded block is one buffer for each packet exactly if the block
was full. -/
theorem writesPackets_iff_full {fuel W k : ℕ} {crypto : CryptoCtx} {tctx : TransportCtx}
    {blocks : List SentBlock} {inputs : List RxInput} {win : RxWindow} {outs : List RxOutput}
    (hW : W ≤ maxWindow) (hk : 1 ≤ k ∧ k ≤ maxK) (hids : (blocks.map SentBlock.blockId).Nodup)
    (hfill : ∀ b ∈ blocks, b.Filled k)
    (hinputs : ∀ inp ∈ inputs, FromSender blocks k crypto inp)
    (hrun : receiveRun fuel W crypto tctx rxWindowInit inputs = some (win, outs)) :
    ∀ b ∈ blocks, ∀ dl ∈ deliveries outs, dl.blockId = b.blockId →
      (WritesPackets b dl.writes ↔ b.packets.length = k) := by
  intro b hb dl hdl hid
  obtain ⟨hlength, htake⟩ := delivery_of_receiveRun hids hfill hW hk hinputs hrun hdl hb hid
  constructor
  · rintro ⟨hcount, _⟩
    rw [← hcount, hlength]
  · intro hfull
    refine ⟨by rw [hlength, hfull], fun hip => ?_⟩
    rw [← htake hip, hfull, ← hlength, List.take_length]

theorem writesPackets_iff_full_partial :
    ∃ win outs, partialRun = some (win, outs) ∧ ∀ dl ∈ deliveries outs,
      dl.blockId = partialBlock.blockId →
        (WritesPackets partialBlock dl.writes ↔ partialBlock.packets.length = 2) := by
  obtain ⟨win, outs, _, hrun, _⟩ := partialRun_delivers
  exact ⟨win, outs, hrun, writesPackets_iff_full (by decide) ⟨by decide, by decide⟩
    partialBlock_nodup partialBlock_filled partialInputs_fromSender hrun partialBlock
    (List.mem_singleton_self _)⟩

/-- For the block with one packet in two slots, a packet of zeros is written too. -/
theorem not_writesPackets_partial :
    ∃ win outs dl, partialRun = some (win, outs) ∧ dl ∈ deliveries outs ∧
      dl.blockId = partialBlock.blockId ∧ partialBlock.packets.length = 1 ∧
      dl.writes = [shortPacket.bytes, List.replicate 20 0] ∧
      ¬ WritesPackets partialBlock dl.writes := by
  obtain ⟨win, outs, dl, hrun, hdl, hid, hwrites⟩ := partialRun_delivers
  refine ⟨win, outs, dl, hrun, by rw [hdl]; exact List.mem_singleton_self dl, hid, rfl, hwrites, ?_⟩
  rw [hwrites]
  rintro ⟨hlength, _⟩
  exact absurd hlength (by decide)

end CodingGateway.Proofs.Soundness
