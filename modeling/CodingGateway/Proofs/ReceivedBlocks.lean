import CodingGateway.Proofs.InOrder
import CodingGateway.Proofs.Lossless
set_option autoImplicit false

/-!
# A receiver of flushed blocks

What a window holds and delivers when all it reads are shards of the flushes of one sender.

* `within_rxStep` — `base_id` never passes the blocks that were flushed;
* `exists_rxStep` — so `rx_window_advance` always ends;
* `tracks_rxRun` — blocks are delivered in order, each at most once, from their own shards.
-/

namespace CodingGateway.Proofs.ReceivedBlocks

open CodingGateway.Model
open CodingGateway.Library
open CodingGateway.Proofs.Advance
open CodingGateway.Proofs.Flush
open CodingGateway.Proofs.InOrder
open CodingGateway.Proofs.Lossless
open CodingGateway.Proofs.ReceiveLoop
open CodingGateway.Proofs.Sender
open CodingGateway.Proofs.Transfer
open CodingGateway.Proofs.Window

/-! ## Where `base_id` can be -/

/-- `base_id` has not passed the first `n` blocks, and no other block is held. -/
structure Within (n W : ℕ) (win : RxWindow) : Prop where
  wf : WellFormed W win
  base : win.baseId.toNat ≤ n
  inside : ∀ id blk, held win W id = some blk → id.toNat < n

section Advance

variable {n W : ℕ} {win win' : RxWindow} (hn : n < 2 ^ 31)

include hn

theorem within_advancePass {clock : ℕ → UInt64} {pass : ℕ} (h : Within n W win)
    (hmove : advancePass win W (clock pass) = (win', true)) :
    Within n W win' ∧ win'.baseId.toNat = win.baseId.toNat + 1 := by
  obtain ⟨hbase, hwf, hheld⟩ := survivors_of_advancePass h.wf hmove
  have hlt : win.baseId.toNat < n := by
    by_cases hdone : BaseDone win W (clock pass)
    · obtain ⟨blk, hblk, _⟩ := hdone
      exact h.inside _ blk hblk
    · have hnewer : Newer win W := by
        by_contra hnone
        rw [advancePass_of_settled h.wf hdone hnone] at hmove
        cases hmove
      obtain ⟨id, blk, hblk, hpos, hahead⟩ := hnewer
      have hid := h.inside id blk hblk
      have hle := h.base
      have hnat := toNat_eq_add_ahead (a := win.baseId) (b := id) (by omega)
      omega
  have hnext : win'.baseId.toNat = win.baseId.toNat + 1 := by
    rw [hbase, UInt32.toNat_add, UInt32.toNat_one]
    omega
  refine ⟨⟨hwf, by omega, fun id blk hblk => ?_⟩, hnext⟩
  rw [hheld] at hblk
  exact h.inside id blk (survivors_eq_some.mp hblk).1

theorem within_advanceLoop {clock : ℕ → UInt64} {fuel pass m : ℕ} (h : Within n W win)
    (hrun : advanceLoop W clock fuel pass win = some (win', m)) :
    Within n W win' ∧ win'.baseId.toNat + pass = win.baseId.toNat + m := by
  induction fuel generalizing pass win with
  | zero => cases hrun
  | succ fuel ih =>
      rcases hpass : advancePass win W (clock pass) with ⟨next, moved⟩
      rw [advanceLoop_succ, hpass] at hrun
      cases moved with
      | false =>
          obtain ⟨rfl, _⟩ := settled_of_advancePass h.wf hpass
          cases hrun
          exact ⟨h, rfl⟩
      | true =>
          obtain ⟨hnext, hbase⟩ := within_advancePass hn h hpass
          obtain ⟨hwithin, hcount⟩ := ih hnext hrun
          exact ⟨hwithin, by omega⟩

theorem exists_advanceLoop (clock : ℕ → UInt64) {fuel pass : ℕ} (h : Within n W win)
    (hfuel : n < win.baseId.toNat + fuel) :
    ∃ win' m, advanceLoop W clock fuel pass win = some (win', m) := by
  induction fuel generalizing pass win with
  | zero =>
      have hle := h.base
      omega
  | succ fuel ih =>
      rcases hpass : advancePass win W (clock pass) with ⟨next, moved⟩
      rw [advanceLoop_succ, hpass]
      cases moved with
      | false => exact ⟨next, pass, rfl⟩
      | true =>
          obtain ⟨hnext, hbase⟩ := within_advancePass hn h hpass
          have hlater : ∃ win' m, advanceLoop W clock fuel (pass + 1) next = some (win', m) :=
            ih hnext (by omega)
          exact hlater

end Advance

section Step

variable {n fuel W : ℕ} {crypto : CryptoCtx} {win win' : RxWindow} {a : Arrival} {out : RxOutput}
  (hn : n < 2 ^ 31) (hW : W ≤ maxWindow)

include hW

theorem within_attempted (h : Within n W win) (ha : a.hdr.blockId.toNat < n) :
    Within n W (attempted W crypto win a).1 := by
  refine ⟨attempted_wellFormed hW h.wf crypto a, ?_, fun id blk hblk => ?_⟩
  · rw [attempted_baseId hW h.wf crypto a]
    exact h.base
  · by_cases hid : id = a.hdr.blockId
    · rw [hid]
      exact ha
    · rw [held_attempted_of_ne hW h.wf hid] at hblk
      exact h.inside id blk hblk

include hn

theorem within_rxStep (h : Within n W win) (ha : a.hdr.blockId.toNat < n)
    (hstep : rxStep fuel W crypto win a = some (win', out)) :
    Within n W win' ∧ win'.baseId.toNat = win.baseId.toNat + out.moves := by
  have hadv := (rxStep_eq_some.mp hstep).1
  have hbase := attempted_baseId hW h.wf crypto a
  rw [← hbase]
  exact within_advanceLoop hn (within_attempted hW h ha) hadv

theorem exists_rxStep (h : Within n W win) (ha : a.hdr.blockId.toNat < n) (hfuel : n < fuel) :
    ∃ win' out, rxStep fuel W crypto win a = some (win', out) := by
  obtain ⟨win', m, hadv⟩ :
      ∃ win' m, rxWindowAdvance fuel (attempted W crypto win a).1 W a.advanceUs = some (win', m) :=
    exists_advanceLoop hn a.advanceUs (within_attempted hW h ha) (by omega)
  exact ⟨win', ⟨delivered W crypto win a, m⟩, rxStep_eq_some.mpr ⟨hadv, rfl⟩⟩

end Step

/-! ## The blocks held and delivered -/

/-- The flushes of a sender, with ids from 0 on that do not wrap in signed comparisons. -/
structure Flushes (records : List FlushRecord) (k : ℕ) : Prop where
  valid : ∀ r ∈ records, r.Valid k
  ids : records.map (fun r => r.blk.blockId) = (List.range records.length).map UInt32.ofNat
  few : records.length < 2 ^ 31

section Flushes

variable {records : List FlushRecord} {k : ℕ}

theorem Flushes.keys (h : Flushes records k) :
    records.map (fun r => r.blk.blockId.toNat) = List.range records.length := by
  have hnat : ∀ i ∈ List.range records.length, (UInt32.ofNat i).toNat = i := by
    intro i hi
    have hlt := List.mem_range.mp hi
    have hfew := h.few
    rw [UInt32.toNat_ofNat']
    omega
  calc records.map (fun r => r.blk.blockId.toNat)
      = (records.map fun r => r.blk.blockId).map UInt32.toNat := by rw [List.map_map]; rfl
    _ = (List.range records.length).map fun i => (UInt32.ofNat i).toNat := by
        rw [h.ids, List.map_map]
        rfl
    _ = List.range records.length := by rw [List.map_congr_left hnat, List.map_id']

theorem Flushes.toNat_lt (h : Flushes records k) {r : FlushRecord} (hr : r ∈ records) :
    r.blk.blockId.toNat < records.length := by
  have hmem : r.blk.blockId.toNat ∈ records.map fun r => r.blk.blockId.toNat :=
    List.mem_map_of_mem hr
  rw [h.keys] at hmem
  exact List.mem_range.mp hmem

theorem Flushes.eq_of_blockId (h : Flushes records k) {r r' : FlushRecord} (hr : r ∈ records)
    (hr' : r' ∈ records) (hid : r.blk.blockId = r'.blk.blockId) : r = r' := by
  have hnodup : (records.map fun r => r.blk.blockId.toNat).Nodup := by
    rw [h.keys]
    exact List.nodup_range
  apply List.inj_on_of_nodup_map hnodup hr hr'
  rw [hid]

end Flushes

/-- The arrival is a shard of one of the flushes. -/
def ShardOf (records : List FlushRecord) (k : ℕ) (crypto : CryptoCtx) (a : Arrival) : Prop :=
  ∃ r ∈ records, ∃ s < r.count, Carries r.blk k crypto r.env s a

/-- What is held under the id of a flush are its shards. -/
def OwnShards (records : List FlushRecord) (k : ℕ) (id : UInt32) (rb : RxBlock) : Prop :=
  ∀ r ∈ records, r.blk.blockId = id → Restored r.blk k r.env rb

/-- One buffer for each slot of the block: the packets of the flush, and then zeros. -/
structure DeliversRecord (k : ℕ) (r : FlushRecord) (dl : Delivery) : Prop where
  restores : RestoresRecord r dl
  fillers : dl.writes.drop r.packets.length = fillers k r.blk
  count : dl.writes.length = k

/-- The window and the outputs of a receiver of the flushes. -/
structure Tracks (records : List FlushRecord) (k W : ℕ) (win : RxWindow) (outs : List RxOutput) :
    Prop where
  within : Within records.length W win
  base : win.baseId.toNat = totalMoves outs
  own : ∀ id rb, held win W id = some rb → OwnShards records k id rb
  delivered : ∀ dl ∈ deliveries outs, ∃ r ∈ records, DeliversRecord k r dl

section Track

variable {records : List FlushRecord} {fuel W k : ℕ} {crypto : CryptoCtx} {win win' : RxWindow}
  {a : Arrival} {out : RxOutput} {outs : List RxOutput} (hflush : Flushes records k)
  (hW : W ≤ maxWindow)

include hflush

theorem toNat_blockId_of_shardOf (ha : ShardOf records k crypto a) :
    a.hdr.blockId.toNat < records.length := by
  obtain ⟨r, hr, s, _, hcarry⟩ := ha
  rw [hcarry.blockId]
  exact hflush.toNat_lt hr

theorem ownShards_storeShard (ha : ShardOf records k crypto a) {rb : RxBlock}
    (h : OwnShards records k a.hdr.blockId rb) :
    OwnShards records k a.hdr.blockId (storeShard rb a.hdr a.shard crypto a.insertUs) := by
  intro r hr hid
  obtain ⟨r', hr', s, _, hcarry⟩ := ha
  obtain rfl := hflush.eq_of_blockId hr hr' (hid.trans hcarry.blockId)
  exact restored_storeShard (h r hr hid) hcarry

include hW

theorem ownShards_inserted (hwf : WellFormed W win)
    (hold : ∀ id rb, held win W id = some rb → OwnShards records k id rb)
    (ha : ShardOf records k crypto a) :
    ∀ id rb, held (inserted W crypto win a) W id = some rb → OwnShards records k id rb :=
  forall_held_insert hW hwf hold (fun _ _ _ => restored_zeroBlock _ k _ _)
    fun _ _ h => ownShards_storeShard hflush ha h

theorem deliversRecord_of_rxStep (hwf : WellFormed W win)
    (hold : ∀ id rb, held win W id = some rb → OwnShards records k id rb)
    (ha : ShardOf records k crypto a) (hstep : rxStep fuel W crypto win a = some (win', out))
    {dl : Delivery} (hdel : out.delivery = some dl) (hk : 1 ≤ k) :
    ∃ r ∈ records, DeliversRecord k r dl := by
  have hown := ownShards_inserted hflush hW hwf hold ha
  obtain ⟨r, hr, s, _, hcarry⟩ := ha
  have hvalid := hflush.valid r hr
  obtain ⟨hid, ⟨rb, o, hdelivers, hwrites⟩ | ⟨_, _, hzero⟩⟩ := delivery_eq_some hW hwf hstep hdel
  · have hcount := counted_of_held (inserted_spec hW hwf crypto a).2.1 hdelivers.held
    have hrestored := hown _ rb hdelivers.held r hr hcarry.blockId.symm
    have hdec := hdelivers.decodes
    rw [hcarry.blockSize] at hdec hwrites
    refine ⟨r, hr, ⟨hid.trans hcarry.blockId, fun hip => ?_⟩, ?_, ?_⟩
    · rw [hwrites]
      exact tunWrites_of_restored hvalid.holds hvalid.nonempty hvalid.fits hcount hrestored hdec hip
    · rw [hwrites]
      exact drop_tunWrites_of_restored hvalid.holds hvalid.nonempty hvalid.fits hcount hrestored
        hdec
    · rw [hwrites]
      exact length_tunWrites o k
  · rw [hcarry.blockSize] at hzero
    omega

theorem tracks_rxStep (hk : 1 ≤ k) (h : Tracks records k W win outs)
    (ha : ShardOf records k crypto a) (hstep : rxStep fuel W crypto win a = some (win', out)) :
    Tracks records k W win' (outs ++ [out]) := by
  have hid := toNat_blockId_of_shardOf hflush ha
  obtain ⟨hwithin, hbase⟩ := within_rxStep hflush.few hW h.within hid hstep
  refine ⟨hwithin, ?_, ?_, ?_⟩
  · rw [hbase, h.base, totalMoves_append]
  · exact forall_held_rxStep hW h.within.wf hstep h.own (fun _ _ _ => restored_zeroBlock _ k _ _)
      (fun _ _ hb => ownShards_storeShard hflush ha hb) fun _ hb => hb
  · intro dl hdl
    rw [deliveries_append, List.mem_append, Option.mem_toList] at hdl
    rcases hdl with hdl | hdl
    · exact h.delivered dl hdl
    · exact deliversRecord_of_rxStep hflush hW h.within.wf h.own ha hstep hdl hk

theorem tracks_rxRun (hk : 1 ≤ k) {as : List Arrival} (has : ∀ a ∈ as, ShardOf records k crypto a)
    (hrun : rxRun fuel W crypto rxWindowInit as = some (win, outs)) :
    Tracks records k W win outs := by
  revert has
  refine Machine.run_induction
    (P := fun as win outs => (∀ a ∈ as, ShardOf records k crypto a) → Tracks records k W win outs)
    (fun _ => ?_) ?_ hrun
  · refine ⟨⟨wellFormed_init W, Nat.zero_le _, fun id rb hheld => ?_⟩, rfl,
      fun id rb hheld => ?_, fun dl hdl => by cases hdl⟩
    · rw [held_init] at hheld
      cases hheld
    · rw [held_init] at hheld
      cases hheld
  · intro as win outs a win' out _ ih hstep has
    have htracks := ih fun x hx => has x (List.mem_append_left _ hx)
    have ha := has a (List.mem_append_right _ (List.mem_singleton_self a))
    exact tracks_rxStep hflush hW hk htracks ha hstep

end Track

/-! ## The order of deliveries -/

theorem exists_sublist_of_keys {α β : Type*} {R : α → β → Prop} (key : α → ℕ) (tag : β → ℕ) :
    ∀ {l : List α} {xs : List β}, (l.map key).Pairwise (· < ·) → (xs.map tag).Pairwise (· < ·) →
      (∀ x ∈ xs, ∃ a ∈ l, key a = tag x ∧ R a x) →
      ∃ sub : List α, sub.Sublist l ∧ List.Forall₂ R sub xs
  | [], [], _, _, _ => ⟨[], .slnil, .nil⟩
  | [], x :: xs, _, _, hmatch => by
      obtain ⟨a, ha, _⟩ := hmatch x List.mem_cons_self
      cases ha
  | a :: l, [], _, _, _ => ⟨[], List.nil_sublist _, .nil⟩
  | a :: l, x :: xs, hl, hxs, hmatch => by
      rw [List.map_cons, List.pairwise_cons] at hl hxs
      have hkey : ∀ b ∈ l, key a < key b := fun b hb => hl.1 _ (List.mem_map_of_mem hb)
      have htag : ∀ y ∈ xs, tag x < tag y := fun y hy => hxs.1 _ (List.mem_map_of_mem hy)
      by_cases hhead : key a = tag x
      · -- `a` is the match of `x`, and of nothing later
        have hrest : ∀ y ∈ xs, ∃ b ∈ l, key b = tag y ∧ R b y := by
          intro y hy
          obtain ⟨b, hb, heq, hR⟩ := hmatch y (List.mem_cons_of_mem x hy)
          have hlt := htag y hy
          rcases List.mem_cons.mp hb with rfl | hb
          · omega
          · exact ⟨b, hb, heq, hR⟩
        obtain ⟨sub, hsub, hall⟩ := exists_sublist_of_keys key tag hl.2 hxs.2 hrest
        obtain ⟨b, hb, heq, hR⟩ := hmatch x List.mem_cons_self
        rcases List.mem_cons.mp hb with rfl | hb
        · exact ⟨b :: sub, hsub.cons_cons b, .cons hR hall⟩
        · have hlt := hkey b hb
          omega
      · -- nothing matches `a`
        obtain ⟨b₀, hb₀, heq₀, _⟩ := hmatch x List.mem_cons_self
        have hlt₀ : key a < tag x := by
          rcases List.mem_cons.mp hb₀ with rfl | hb₀
          · exact absurd heq₀ hhead
          · exact heq₀ ▸ hkey b₀ hb₀
        have hrest : ∀ y ∈ x :: xs, ∃ b ∈ l, key b = tag y ∧ R b y := by
          intro y hy
          obtain ⟨b, hb, heq, hR⟩ := hmatch y hy
          have hle : tag x ≤ tag y := by
            rcases List.mem_cons.mp hy with rfl | hy
            · exact le_rfl
            · exact (htag y hy).le
          rcases List.mem_cons.mp hb with rfl | hb
          · omega
          · exact ⟨b, hb, heq, hR⟩
        have hsorted : ((x :: xs).map tag).Pairwise (· < ·) := List.pairwise_cons.mpr hxs
        obtain ⟨sub, hsub, hall⟩ := exists_sublist_of_keys key tag hl.2 hsorted hrest
        exact ⟨sub, hsub.cons a, hall⟩

/-- What is delivered are flushed blocks, in the order in which they were flushed and each at
most once. -/
theorem exists_sources {records : List FlushRecord} {fuel W k : ℕ} {crypto : CryptoCtx}
    {win : RxWindow} {as : List Arrival} {outs : List RxOutput} (hflush : Flushes records k)
    (hW : W ≤ maxWindow) (hk : 1 ≤ k) (has : ∀ a ∈ as, ShardOf records k crypto a)
    (hrun : rxRun fuel W crypto rxWindowInit as = some (win, outs)) :
    ∃ sources : List FlushRecord, sources.Sublist records ∧
      List.Forall₂ (DeliversRecord k) sources (deliveries outs) := by
  have htracks := tracks_rxRun hflush hW hk has hrun
  have hmoves : totalMoves outs < 2 ^ 31 := by
    rw [← htracks.base]
    exact htracks.within.base.trans_lt hflush.few
  have hwritten : (deliveries outs).filter (fun dl => !dl.writes.isEmpty) = deliveries outs := by
    rw [List.filter_eq_self]
    intro dl hdl
    obtain ⟨r, _, hr⟩ := htracks.delivered dl hdl
    have hpos : dl.writes ≠ [] := List.length_pos_iff.mp (by rw [hr.count]; exact hk)
    simpa using hpos
  have hsorted := (ordered_rxRun hW hrun hmoves).sorted
  rw [writtenIds, hwritten, List.pairwise_map] at hsorted
  refine exists_sublist_of_keys (fun r => r.blk.blockId.toNat) (fun dl => dl.blockId.toNat) ?_ ?_
    fun dl hdl => ?_
  · rw [hflush.keys]
    exact List.pairwise_lt_range
  · rw [List.pairwise_map]
    exact hsorted
  · obtain ⟨r, hr, hdelivers⟩ := htracks.delivered dl hdl
    exact ⟨r, hr, by rw [hdelivers.restores.1], hdelivers⟩

end CodingGateway.Proofs.ReceivedBlocks
