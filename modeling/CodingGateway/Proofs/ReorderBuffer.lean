import CodingGateway.Proofs.ReceiveLoop
set_option autoImplicit false

/-!
# The receive window as a reorder buffer

What the window is for: it keeps the blocks that are not complete yet by their ids, at most
`windowSize` of them, and knows the id that is due.  Which slot holds a block, what the free
slots hold and in which order slots are searched makes no difference.

* `view_rxStep` — one shard;
* `window_refines_buffer` — every run of the window is the run of the buffer.
-/

namespace CodingGateway.Proofs.ReorderBuffer

open CodingGateway.Model
open CodingGateway.Library
open CodingGateway.Proofs.Advance
open CodingGateway.Proofs.ReceiveLoop
open CodingGateway.Proofs.Window

/-! ## The buffer -/

structure Buffer where
  base : UInt32
  blocks : UInt32 → Option RxBlock

namespace Buffer

open scoped Classical in
section

/-- Nothing is kept, and block 0 is due. -/
def empty : Buffer := ⟨0, fun _ => none⟩

noncomputable def size (buf : Buffer) : ℕ := {id | (buf.blocks id).isSome}.ncard

/-- The block that a shard of this id belongs to: the one kept, or a new one if there is room. -/
noncomputable def entry (W : ℕ) (buf : Buffer) (id : UInt32) : Option RxBlock :=
  if ahead buf.base id < W then
    match buf.blocks id with
    | some blk => some blk
    | none => if buf.size < W then some { zeroBlock with blockId := id } else none
  else none

/-- A shard is stored if it is new to an undecoded block. -/
noncomputable def insert (W : ℕ) (crypto : CryptoCtx) (buf : Buffer) (a : Arrival) : Buffer :=
  match buf.entry W a.hdr.blockId with
  | none => buf
  | some blk =>
      if blk.decoded = false ∧ a.hdr.shardIdx.toNat < maxN ∧
          blk.received a.hdr.shardIdx.toNat = false then
        { buf with
          blocks := Function.update buf.blocks a.hdr.blockId
            (some (storeShard blk a.hdr a.shard crypto a.insertUs)) }
      else buf

/-- The block of the shard is decoded if it can be. -/
noncomputable def decode (W : ℕ) (buf : Buffer) (a : Arrival) : Buffer × Option Delivery :=
  match buf.entry W a.hdr.blockId with
  | none => (buf, none)
  | some blk =>
      let (blk', ok, writes) := tryDecode blk a.hdr.k.toNat a.garbage
      ({ buf with
          blocks := if (buf.blocks a.hdr.blockId).isSome then
            Function.update buf.blocks a.hdr.blockId (some blk') else buf.blocks },
        if ok then some ⟨a.hdr.blockId, writes⟩ else none)

/-- The block due is kept, and may be given up. -/
def Due (buf : Buffer) (nowUs : UInt64) : Prop :=
  ∃ blk, buf.blocks buf.base = some blk ∧ blockDone blk nowUs = true

def Later (buf : Buffer) : Prop :=
  ∃ id blk, buf.blocks id = some blk ∧ 0 < ahead buf.base id ∧ ahead buf.base id < 2 ^ 31

/-- The next id falls due when the block due is done, which is then dropped, or when a later
block is kept. -/
noncomputable def pass (buf : Buffer) (nowUs : UInt64) : Option Buffer :=
  if buf.Due nowUs then some ⟨buf.base + 1, Function.update buf.blocks buf.base none⟩
  else if buf.Later then some { buf with base := buf.base + 1 }
  else none

/-- As many passes as there are, and their number. -/
noncomputable def advance (clock : ℕ → UInt64) : ℕ → ℕ → Buffer → Option (Buffer × ℕ)
  | 0, _, _ => none
  | fuel + 1, n, buf =>
      match buf.pass (clock n) with
      | some buf' => advance clock fuel (n + 1) buf'
      | none => some (buf, n)

noncomputable def step (fuel W : ℕ) (crypto : CryptoCtx) (buf : Buffer) (a : Arrival) :
    Option (Buffer × RxOutput) :=
  let (buf, delivery) := (buf.insert W crypto a).decode W a
  (buf.advance a.advanceUs fuel 0).map fun r => (r.1, ⟨delivery, r.2⟩)

end

end Buffer

/-! ## The window as a buffer -/

/-- What there is to know about a window. -/
def view (W : ℕ) (win : RxWindow) : Buffer := ⟨win.baseId, held win W⟩

section Refinement

variable {fuel W : ℕ} {crypto : CryptoCtx} {win : RxWindow} {a : Arrival} (hW : W ≤ maxWindow)
  (hwf : WellFormed W win)

include hwf

theorem size_view_lt_iff :
    (view W win).size < W ↔ (SlotTable.freeSlot live win.slots W).isSome :=
  SlotTable.ncard_keys_lt_iff hwf.distinct

theorem entry_view (id : UInt32) : (view W win).entry W id = target win W id := by
  unfold Buffer.entry target
  change (if ahead win.baseId id < W then match held win W id with
    | some blk => some blk
    | none => if (view W win).size < W then some { zeroBlock with blockId := id } else none
    else none) = _
  congr 1
  cases held win W id with
  | some blk => rfl
  | none => exact if_congr (size_view_lt_iff hwf) rfl rfl

include hW

theorem view_inserted (crypto : CryptoCtx) (a : Arrival) :
    view W (inserted W crypto win a) = (view W win).insert W crypto a := by
  unfold Buffer.insert
  rw [entry_view hwf]
  obtain ⟨hbase, _, ⟨blk, hacc, hmap⟩ | ⟨hnot, hmap⟩⟩ := inserted_spec hW hwf crypto a
  · rw [hacc.target]
    dsimp only
    rw [if_pos ⟨hacc.undecoded, hacc.inRange, hacc.fresh⟩, view, hbase, hmap]
    rfl
  · have hsame : view W (inserted W crypto win a) = view W win := by rw [view, hbase, hmap]; rfl
    rw [hsame]
    cases htarget : target win W a.hdr.blockId with
    | none => rfl
    | some blk =>
        dsimp only
        rw [if_neg]
        rintro ⟨hundec, hrange, hfresh⟩
        exact hnot blk ⟨htarget, hundec, hrange, hfresh⟩

omit hwf in
/-- A block is found by its id exactly when it is kept or there is room. -/
theorem rxFind_of_target (win : RxWindow) (id : UInt32) :
    match target win W id with
    | some blk => ∃ win' i, rxFind win id W = (win', some i) ∧ win'.slots i = blk
    | none => rxFind win id W = (win, none) := by
  rcases Nat.lt_or_ge (ahead win.baseId id) W with hin | hout
  · cases hheld : held win W id with
    | some blk =>
        obtain ⟨i, _, hfind, hslot, _⟩ := rxFind_held hW hin hheld
        rw [target_of_held hin hheld]
        exact ⟨win, i, hfind, hslot⟩
    | none =>
        cases hfree : SlotTable.freeSlot live win.slots W with
        | some i =>
            rw [target_of_free hin hheld ⟨i, hfree⟩]
            exact ⟨_, i, rxFind_fresh hW hin hheld hfree, Function.update_self ..⟩
        | none =>
            have htarget : target win W id = none := by
              rw [target, if_pos hin, hheld, hfree]
              rfl
            rw [htarget]
            exact rxFind_full hW hheld hfree
  · have htarget : target win W id = none := by
      rw [target, if_neg (Nat.not_lt.mpr hout)]
    rw [htarget]
    exact rxFind_outside hout

omit hwf in
theorem snd_rxWindowTryDecode (win : RxWindow) (id : UInt32) (k : ℕ) (garbage : StackGarbage) :
    (rxWindowTryDecode win id k W garbage).2 =
      match target win W id with
      | some blk => (tryDecode blk k garbage).2
      | none => (false, []) := by
  have hfind := rxFind_of_target hW win id
  cases htarget : target win W id with
  | none =>
      rw [htarget] at hfind
      unfold rxWindowTryDecode
      rw [hfind]
  | some blk =>
      rw [htarget] at hfind
      obtain ⟨win', i, hfind, rfl⟩ := hfind
      unfold rxWindowTryDecode
      rw [hfind]

theorem held_rxWindowTryDecode (id : UInt32) (k : ℕ) (garbage : StackGarbage) :
    held (rxWindowTryDecode win id k W garbage).1 W =
      match target win W id with
      | some blk => if (held win W id).isSome then
          Function.update (held win W) id (some (tryDecode blk k garbage).1) else held win W
      | none => held win W := by
  by_cases hdec : ∃ blk o, ahead win.baseId id < W ∧ held win W id = some blk ∧
      Decodes blk k garbage o
  · obtain ⟨blk, o, hin, hheld, ho⟩ := hdec
    obtain ⟨_, _, hmap, _⟩ := rxWindowTryDecode_of_decodes hW hwf hin hheld ho
    rw [hmap, target_of_held hin hheld]
    dsimp only
    rw [if_pos (by rw [hheld]; rfl), tryDecode_of_decodes ho]
  · obtain ⟨_, _, hmap, _⟩ := rxWindowTryDecode_of_not_decodes hW hwf id k garbage
      fun blk o hin hheld ho => hdec ⟨blk, o, hin, hheld, ho⟩
    rw [hmap]
    cases htarget : target win W id with
    | none => rfl
    | some blk =>
        dsimp only
        obtain ⟨hin, hheld | ⟨hnone, _⟩⟩ := target_eq_some htarget
        · have hnot : ∀ o, ¬ Decodes blk k garbage o := fun o ho => hdec ⟨blk, o, hin, hheld, ho⟩
          rw [if_pos (by rw [hheld]; rfl), tryDecode_of_not_decodes hnot, ← hheld,
            Function.update_eq_self]
        · rw [if_neg (by rw [hnone]; decide)]

theorem view_attempted (a : Arrival) :
    (view W (attempted W crypto win a).1, delivered W crypto win a) =
      ((view W win).insert W crypto a).decode W a := by
  have hwf' := (inserted_spec hW hwf crypto a).2.1
  rw [← view_inserted hW hwf]
  unfold Buffer.decode
  rw [entry_view hwf']
  have hbase := (tryDecode_cases hW hwf' a.hdr.blockId a.hdr.k.toNat a.garbage).1
  have hmap := held_rxWindowTryDecode hW hwf' a.hdr.blockId a.hdr.k.toNat a.garbage
  have hsnd := snd_rxWindowTryDecode hW (inserted W crypto win a) a.hdr.blockId a.hdr.k.toNat
    a.garbage
  unfold delivered attempted
  rw [view, hbase, hmap, hsnd]
  cases htarget : target (inserted W crypto win a) W a.hdr.blockId with
  | none => rfl
  | some blk => rfl

omit hW in
theorem pass_view (nowUs : UInt64) :
    (view W win).pass nowUs =
      if (advancePass win W nowUs).2 then some (view W (advancePass win W nowUs).1) else none := by
  unfold Buffer.pass
  by_cases hdone : BaseDone win W nowUs
  · obtain ⟨blk, hheld, hblk⟩ := hdone
    obtain ⟨win', hpass, hbase, _, hmap⟩ := advancePass_of_baseDone hwf hheld hblk
    rw [if_pos ⟨blk, hheld, hblk⟩, hpass, if_pos rfl, view, view, hbase, hmap]
  · have hdue : ¬ (view W win).Due nowUs := hdone
    rw [if_neg hdue]
    by_cases hlater : (view W win).Later
    · rw [if_pos hlater, advancePass_of_newer hwf hdone hlater, if_pos rfl]
      rfl
    · rw [if_neg hlater, advancePass_of_settled hwf hdone hlater, if_neg Bool.false_ne_true]

omit hwf hW in
theorem view_advanceLoop (clock : ℕ → UInt64) (fuel n : ℕ) {win : RxWindow}
    (hwf : WellFormed W win) :
    (advanceLoop W clock fuel n win).map (fun r => (view W r.1, r.2)) =
      (view W win).advance clock fuel n := by
  induction fuel generalizing n win with
  | zero => rfl
  | succ fuel ih =>
      rw [advanceLoop_succ, Buffer.advance, pass_view hwf]
      rcases hpass : advancePass win W (clock n) with ⟨win', moved⟩
      cases moved with
      | true =>
          have hwf' := (survivors_of_advancePass hwf hpass).2.1
          exact ih (n + 1) hwf'
      | false =>
          obtain ⟨rfl, _⟩ := settled_of_advancePass hwf hpass
          rfl

theorem view_rxStep (a : Arrival) :
    (rxStep fuel W crypto win a).map (fun r => (view W r.1, r.2)) =
      (view W win).step fuel W crypto a := by
  have hattempted : (view W (attempted W crypto win a).1, delivered W crypto win a) =
      ((view W win).insert W crypto a).decode W a := view_attempted hW hwf a
  have hadvance := view_advanceLoop a.advanceUs fuel 0 (attempted_wellFormed hW hwf crypto a)
  unfold Buffer.step
  rw [← hattempted]
  dsimp only
  rw [← hadvance, rxStep_eq_map, Option.map_map, Option.map_map]
  rfl

end Refinement

/-- **The window is a reorder buffer.** In every run, from an empty window, on any data shards
and readings of the clock, the deliveries and the moves of `base_id` are those of the buffer,
and so are the blocks kept in the end; the window hangs exactly where the buffer does. -/
theorem window_refines_buffer {W : ℕ} (hW : W ≤ maxWindow) (fuel : ℕ) (crypto : CryptoCtx)
    (as : List Arrival) :
    (rxRun fuel W crypto rxWindowInit as).map (fun r => (view W r.1, r.2)) =
      Machine.run (Buffer.step fuel W crypto) Buffer.empty as := by
  have hempty : view W rxWindowInit = Buffer.empty := by
    rw [view, Buffer.empty]
    congr 1
    funext id
    exact held_init W id
  rw [← hempty]
  exact Machine.run_map (view W) (WellFormed W)
    (fun _ _ _ _ hwf hstep => wellFormed_rxStep hW hwf hstep)
    (fun _ a hwf => view_rxStep hW hwf a) (wellFormed_init W) as

theorem window_refines_buffer_two :
    (rxRun 3 8 (cryptoInit none) rxWindowInit [twoPacketShard 0 0, twoPacketShard 0 1]).map
        (fun r => (view 8 r.1, r.2)) =
      Machine.run (Buffer.step 3 8 (cryptoInit none)) Buffer.empty
        [twoPacketShard 0 0, twoPacketShard 0 1] :=
  window_refines_buffer (by decide) 3 (cryptoInit none) _

end CodingGateway.Proofs.ReorderBuffer
