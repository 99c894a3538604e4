import CodingGateway.Proofs.ReceiveLoop
import CodingGateway.Proofs.Turns
set_option autoImplicit false

/-!
# Shards ahead of the window

`rx_find` admits a shard only below `base_id + window_size`, and only if its block has a
slot or one is free; nothing moves the window for a shard that is not admitted.

* `kept_iff` — which shards are kept, told from the blocks held before;
* `settlesAt_of_noneAhead` — every admitted one, unless a block is held ahead of its block or
  the clock goes back.
-/

namespace CodingGateway.Proofs.Resync

open CodingGateway.Model
open CodingGateway.Library
open CodingGateway.Proofs.Window
open CodingGateway.Proofs.Advance
open CodingGateway.Proofs.ReceiveLoop
open CodingGateway.Proofs.Turns

/-- A window that processing data shards from the start can lead to. -/
def Reachable (windowSize : ℕ) (crypto : CryptoCtx) (win : RxWindow) : Prop :=
  ∃ fuel as outs, rxRun fuel windowSize crypto rxWindowInit as = some (win, outs)

/-- Slot `i` is in use for the block of the shard. -/
def HasBlock (win : RxWindow) (a : Arrival) (i : ℕ) : Prop :=
  0 < (win.slots i).recvCount ∧ (win.slots i).blockId = a.hdr.blockId

/-- The shard was there before, or its block was decoded before. -/
def Superfluous (win : RxWindow) (a : Arrival) : Prop :=
  ∃ i, HasBlock win a i ∧
    ((win.slots i).received a.hdr.shardIdx.toNat = true ∨ (win.slots i).decoded = true)

/-- `rx_window_advance` ends, and the window it leaves covers the shard's block and holds the
shard. -/
def EndsHeld (windowSize : ℕ) (win : RxWindow) (a : Arrival) : Prop :=
  ∃ fuel win' n, rxWindowAdvance fuel win windowSize a.advanceUs = some (win', n) ∧
    0 ≤ serialDiff a.hdr.blockId win'.baseId ∧
    serialDiff a.hdr.blockId win'.baseId < windowSize ∧
    ∃ i, HasBlock win' a i ∧ (win'.slots i).received a.hdr.shardIdx.toNat = true

/-- A turn of `rx_window_advance` finds the shard's block at `base_id` and at least 50 ms old. -/
def JustExpired (windowSize : ℕ) (win : RxWindow) (a : Arrival) : Prop :=
  ∃ p, (∀ q < p, moves windowSize a.advanceUs win q = true) ∧
    (windowAt windowSize a.advanceUs win p).baseId = a.hdr.blockId ∧
    ∃ i, HasBlock (windowAt windowSize a.advanceUs win p) a i ∧
      Expired ((windowAt windowSize a.advanceUs win p).slots i) (a.advanceUs p)

/-- What is to become of a shard in `rx_window_insert` and the `rx_window_advance` after it. -/
def Kept (windowSize : ℕ) (crypto : CryptoCtx) (win : RxWindow) (a : Arrival) : Prop :=
  Superfluous win a ∨ EndsHeld windowSize (inserted windowSize crypto win a) a ∨
    JustExpired windowSize (inserted windowSize crypto win a) a

/-- The block of the shard is below the end of the window, and has a slot or finds one free. -/
structure Admissible (windowSize : ℕ) (win : RxWindow) (a : Arrival) : Prop where
  inside : serialDiff a.hdr.blockId win.baseId < windowSize
  slot : (∃ i, HasBlock win a i) ∨ ∃ i < windowSize, (win.slots i).recvCount = 0

/-- The blocks in the window, and the undecoded one of the shard. -/
def withShard (windowSize : ℕ) (win : RxWindow) (a : Arrival) : UInt32 → Option Due :=
  Function.update (dues windowSize win) a.hdr.blockId (some ⟨false, firstUs windowSize win a⟩)

/-- `base_id`, drawn by the blocks in the window, stands at the shard's block in turn `p`; the
block was not given up on an earlier visit, and now either is at least 50 ms old or stays, with
nothing newer to draw `base_id` on. -/
structure SettlesAt (windowSize : ℕ) (win : RxWindow) (a : Arrival) (p : ℕ) : Prop where
  arrives : win.baseId + UInt32.ofNat p = a.hdr.blockId
  reached : Reaches a.advanceUs win.baseId (withShard windowSize win a) p
  left : LeftAt a.advanceUs win.baseId a.hdr.blockId ⟨false, firstUs windowSize win a⟩ p
  rests : (firstUs windowSize win a).toNat + rxBlockTimeoutUs.toNat ≤ (a.advanceUs p).toNat ∨
    a.advanceUs p - firstUs windowSize win a < rxBlockTimeoutUs ∧
      ¬ NewerAt a.advanceUs win.baseId (withShard windowSize win a) p

/-- The other blocks in the window are behind the shard's in serial order. -/
def NoneAhead (win : RxWindow) (a : Arrival) : Prop :=
  ∀ i, 0 < (win.slots i).recvCount → (win.slots i).blockId ≠ a.hdr.blockId →
    2 ^ 31 < ahead a.hdr.blockId (win.slots i).blockId

section Step

variable {W p : ℕ} {crypto : CryptoCtx} {win : RxWindow} {a : Arrival}

theorem hasBlock_iff (hwf : WellFormed W win) (p : RxBlock → Prop) :
    (∃ i, HasBlock win a i ∧ p (win.slots i)) ↔
      ∃ blk, held win W a.hdr.blockId = some blk ∧ p blk := by
  constructor
  · rintro ⟨i, ⟨hlive, hid⟩, hp⟩
    exact ⟨win.slots i, by rw [← hid]; exact held_of_slot hwf hlive, hp⟩
  · rintro ⟨blk, hheld, hp⟩
    obtain ⟨i, _, rfl, hlive, hid⟩ := (held_eq_some hwf).mp hheld
    exact ⟨i, ⟨live_iff.mp hlive, hid⟩, hp⟩

theorem exists_hasBlock_iff (hwf : WellFormed W win) :
    (∃ i, HasBlock win a i) ↔ ∃ blk, held win W a.hdr.blockId = some blk := by
  simpa using hasBlock_iff (a := a) hwf fun _ => True

theorem freeSlot_iff : (∃ i, SlotTable.freeSlot live win.slots W = some i) ↔
    ∃ i < W, (win.slots i).recvCount = 0 := by
  rw [← Option.ne_none_iff_exists', ne_eq, SlotTable.freeSlot_eq_none]
  simp only [live_iff]
  constructor
  · intro h
    by_contra hfull
    exact h fun i hi => Nat.pos_of_ne_zero fun h0 => hfull ⟨i, hi, h0⟩
  · rintro ⟨i, hi, h0⟩ hfull
    have hlive := hfull i hi
    omega

theorem settled_of_reachable (hW : W ≤ maxWindow) (hreach : Reachable W crypto win) :
    WellFormed W win ∧ ¬ Newer win W := by
  obtain ⟨fuel, as, outs, hrun⟩ := hreach
  refine Machine.run_induction (P := fun _ win _ => WellFormed W win ∧ ¬ Newer win W)
    ⟨wellFormed_init W, ?_⟩ ?_ hrun
  · rintro ⟨id, blk, hheld, _⟩
    rw [held_init] at hheld
    cases hheld
  · rintro _ win _ a win' out _ ⟨hwf, _⟩ hstep
    obtain ⟨hwf', _, hnewer⟩ := advanceLoop_settled (attempted_wellFormed hW hwf crypto a)
      (rxStep_eq_some.mp hstep).1
    exact ⟨hwf', hnewer⟩

/-- A block at or ahead of `base_id` that the window holds is the base block. -/
theorem eq_base_of_held (hnewer : ¬ Newer win W) {id : UInt32} {blk : RxBlock}
    (hheld : held win W id = some blk) (hid : 0 ≤ serialDiff id win.baseId) :
    id = win.baseId := by
  refine eq_of_ahead_eq_zero (Nat.eq_zero_of_not_pos fun hpos => hnewer ⟨id, blk, hheld, hpos, ?_⟩)
  have hneg := serialDiff_neg_iff win.baseId id
  omega

theorem admissible_of_held (hpos : 0 < W) (hW : W ≤ maxWindow) (hwf : WellFormed W win)
    (hnewer : ¬ Newer win W) (hahead : 0 ≤ serialDiff a.hdr.blockId win.baseId) {blk : RxBlock}
    (hheld : held (inserted W crypto win a) W a.hdr.blockId = some blk) :
    Admissible W win a := by
  obtain ⟨_, _, ⟨b, hacc, _⟩ | ⟨_, hmap⟩⟩ := inserted_spec hW hwf crypto a
  · obtain ⟨hin, hslot⟩ := target_eq_some hacc.target
    have hle := le_serialDiff_iff win.baseId a.hdr.blockId W
    refine ⟨by omega, ?_⟩
    rcases hslot with hb | ⟨_, _, hfree⟩
    · exact Or.inl ((exists_hasBlock_iff hwf).mpr ⟨b, hb⟩)
    · exact Or.inr (freeSlot_iff.mp hfree)
  · rw [hmap] at hheld
    refine ⟨?_, Or.inl ((exists_hasBlock_iff hwf).mpr ⟨blk, hheld⟩)⟩
    rw [eq_base_of_held hnewer hheld hahead, serialDiff_self]
    omega

/-- A block that a turn finds was held before the call. -/
theorem left_of_hasBlock (hwf : WellFormed W win)
    (hmoved : ∀ q < p, moves W a.advanceUs win q = true) {i : ℕ}
    (hblock : HasBlock (windowAt W a.advanceUs win p) a i) :
    held win W a.hdr.blockId = some ((windowAt W a.advanceUs win p).slots i) ∧
      LeftAt a.advanceUs win.baseId a.hdr.blockId
        (due ((windowAt W a.advanceUs win p).slots i)) p := by
  have hbegins := begins_of_moves hwf hmoved
  have hheld := held_of_slot hbegins.wf hblock.1
  rw [hblock.2] at hheld
  exact (hbegins.held _ _).mp hheld

theorem held_inserted_of_kept (hW : W ≤ maxWindow) (hwf : WellFormed W win)
    (h : Kept W crypto win a) : ∃ b, held (inserted W crypto win a) W a.hdr.blockId = some b := by
  obtain ⟨_, hwf₁, hins⟩ := inserted_spec hW hwf crypto a
  rcases h with ⟨i, hblock, _⟩ | ⟨_, _, n, hadv, _, _, i, hblock, _⟩ | ⟨p, hmoved, _, i, hblock, _⟩
  · obtain ⟨blk, hblk⟩ := (exists_hasBlock_iff hwf).mp ⟨i, hblock⟩
    rcases hins with ⟨b, _, hmap⟩ | ⟨_, hmap⟩
    · exact ⟨_, by rw [hmap, Function.update_self]⟩
    · exact ⟨blk, by rw [hmap, hblk]⟩
  · obtain ⟨_, rfl, _, hmoved⟩ := rxWindowAdvance_eq_some.mp hadv
    exact ⟨_, (left_of_hasBlock hwf₁ hmoved hblock).1⟩
  · exact ⟨_, (left_of_hasBlock hwf₁ hmoved hblock).1⟩

theorem accepts_of_admissible (hwf : WellFormed W win)
    (hahead : 0 ≤ serialDiff a.hdr.blockId win.baseId) (hrange : a.hdr.shardIdx.toNat < maxN)
    (hadm : Admissible W win a) :
    (∃ b, Accepts win W a.hdr b) ∨ Superfluous win a := by
  have hfound := hasBlock_iff (a := a) hwf fun blk =>
    blk.received a.hdr.shardIdx.toNat = true ∨ blk.decoded = true
  have hin : ahead win.baseId a.hdr.blockId < W := by
    have h1 := le_serialDiff_iff win.baseId a.hdr.blockId W
    have h2 := serialDiff_neg_iff win.baseId a.hdr.blockId
    have h3 := hadm.inside
    omega
  cases hheld : held win W a.hdr.blockId with
  | some blk =>
      by_cases hdec : blk.decoded = true
      · exact Or.inr (hfound.mpr ⟨blk, hheld, Or.inr hdec⟩)
      by_cases hrecv : blk.received a.hdr.shardIdx.toNat = true
      · exact Or.inr (hfound.mpr ⟨blk, hheld, Or.inl hrecv⟩)
      · exact Or.inl ⟨blk, target_of_held hin hheld, Bool.eq_false_iff.mpr hdec, hrange,
          Bool.eq_false_iff.mpr hrecv⟩
  | none =>
      rcases hadm.slot with hblock | hfree
      · obtain ⟨b, hb⟩ := (exists_hasBlock_iff hwf).mp hblock
        rw [hheld] at hb
        cases hb
      · exact Or.inl ⟨_, target_of_free hin hheld (freeSlot_iff.mpr hfree), rfl, hrange, rfl⟩

theorem dues_inserted (hW : W ≤ maxWindow) (hwf : WellFormed W win) (crypto : CryptoCtx)
    {b : RxBlock} (hacc : Accepts win W a.hdr b) :
    dues W (inserted W crypto win a) = withShard W win a ∧
      ∃ stored, held (inserted W crypto win a) W a.hdr.blockId = some stored ∧
        due stored = ⟨false, firstUs W win a⟩ ∧
        stored.received a.hdr.shardIdx.toNat = true := by
  obtain ⟨_, _, hmap⟩ := insert_of_accepts a.shard crypto a.insertUs hW hwf hacc
  have hstored : held (inserted W crypto win a) W a.hdr.blockId =
      some (storeShard b a.hdr a.shard crypto a.insertUs) :=
    (congrFun hmap _).trans (Function.update_self ..)
  have hdue : due (storeShard b a.hdr a.shard crypto a.insertUs) =
      ⟨false, firstUs W win a⟩ := by
    rw [due, storeShard_decoded, hacc.undecoded, storeShard_firstRecvUs, firstUs]
    rcases (target_eq_some hacc.target).2 with hheld | ⟨hnone, rfl, _⟩
    · have hlive := held_live hheld
      rw [hheld, if_neg (by omega)]
      rfl
    · rw [hnone]
      rfl
  refine ⟨?_, _, hstored, hdue, Function.update_self ..⟩
  funext id
  by_cases hid : id = a.hdr.blockId
  · rw [hid, dues, hstored, withShard, Function.update_self, Option.map_some, hdue]
  · rw [dues, held_inserted_of_ne hW hwf crypto hid, withShard, Function.update_of_ne hid, dues]

theorem turn_of_hasBlock (hW : W ≤ maxWindow) (hwf : WellFormed W win) {b : RxBlock}
    (hacc : Accepts win W a.hdr b)
    (hmoved : ∀ q < p, moves W a.advanceUs (inserted W crypto win a) q = true)
    (hbase : (windowAt W a.advanceUs (inserted W crypto win a) p).baseId = a.hdr.blockId) {i : ℕ}
    (hblock : HasBlock (windowAt W a.advanceUs (inserted W crypto win a) p) a i) :
    win.baseId + UInt32.ofNat p = a.hdr.blockId ∧
      Reaches a.advanceUs win.baseId (withShard W win a) p ∧
      LeftAt a.advanceUs win.baseId a.hdr.blockId ⟨false, firstUs W win a⟩ p ∧
      due ((windowAt W a.advanceUs (inserted W crypto win a) p).slots i) =
        ⟨false, firstUs W win a⟩ := by
  obtain ⟨hbase₁, hwf₁, _⟩ := inserted_spec hW hwf crypto a
  obtain ⟨hdues, stored, hstored, hdue, _⟩ := dues_inserted hW hwf crypto hacc
  have hreaches := (reaches_iff hwf₁).mpr hmoved
  obtain ⟨hheld, hleft⟩ := left_of_hasBlock hwf₁ hmoved hblock
  obtain rfl := Option.some.inj (hstored.symm.trans hheld)
  rw [(begins_of_moves hwf₁ hmoved).base, hbase₁] at hbase
  rw [hdues, hbase₁] at hreaches
  rw [hdue, hbase₁] at hleft
  exact ⟨hbase, hreaches, hleft, hdue⟩

theorem settlesAt_of_kept (hW : W ≤ maxWindow) (hwf : WellFormed W win)
    {b : RxBlock} (hacc : Accepts win W a.hdr b) (h : Kept W crypto win a)
    (hnew : ¬ Superfluous win a) : ∃ p, SettlesAt W win a p := by
  obtain ⟨hbase₁, hwf₁, _⟩ := inserted_spec hW hwf crypto a
  obtain ⟨hdues, _⟩ := dues_inserted hW hwf crypto hacc
  rcases h with hsup | ⟨_, _, n, hadv, hahead, _, i, hblock, _⟩ |
    ⟨p, hmoved, hbase, i, hblock, hexp⟩
  · exact absurd hsup hnew
  · obtain ⟨_, rfl, hidle, hmoved⟩ := rxWindowAdvance_eq_some.mp hadv
    have hbegins := begins_of_moves hwf₁ hmoved
    have hends : ¬ MovesAt a.advanceUs win.baseId (withShard W win a) n := by
      rw [← hdues, ← hbase₁, ← moves_iff_of_begins hbegins, hidle]
      exact Bool.false_ne_true
    have hnewer : ¬ NewerAt a.advanceUs win.baseId (withShard W win a) n :=
      fun hnewer => hends (Or.inr hnewer)
    have hbase : (windowAt W a.advanceUs (inserted W crypto win a) n).baseId = a.hdr.blockId := by
      have hheld := held_of_slot hbegins.wf hblock.1
      rw [hblock.2] at hheld
      refine (eq_base_of_held ?_ hheld hahead).symm
      rw [newer_iff_of_begins hbegins, hdues, hbase₁]
      exact hnewer
    obtain ⟨harr, hreach, hleft, _⟩ := turn_of_hasBlock hW hwf hacc hmoved hbase hblock
    refine ⟨n, harr, hreach, hleft, Or.inr ⟨UInt64.not_le.mp fun hold => ?_, hnewer⟩⟩
    refine hends (Or.inl ⟨⟨false, firstUs W win a⟩, ⟨?_, ?_⟩, ?_⟩)
    · rw [harr, withShard, Function.update_self]
    · rw [harr]
      exact hleft
    · exact decide_eq_true hold
  · obtain ⟨harr, hreach, hleft, hdue⟩ := turn_of_hasBlock hW hwf hacc hmoved hbase hblock
    have hfirst : ((windowAt W a.advanceUs (inserted W crypto win a) p).slots i).firstRecvUs =
        firstUs W win a := congrArg Due.firstRecvUs hdue
    rw [Expired, hfirst] at hexp
    exact ⟨p, harr, hreach, hleft, Or.inl hexp⟩

theorem kept_of_settlesAt (hpos : 0 < W) (hW : W ≤ maxWindow) (hwf : WellFormed W win)
    {b : RxBlock} (hacc : Accepts win W a.hdr b) (h : SettlesAt W win a p) :
    Kept W crypto win a := by
  obtain ⟨hbase₁, hwf₁, _⟩ := inserted_spec hW hwf crypto a
  obtain ⟨hdues, stored, hstored, hdue, hrecv⟩ := dues_inserted hW hwf crypto hacc
  have hreaches : Reaches a.advanceUs (inserted W crypto win a).baseId
      (dues W (inserted W crypto win a)) p := by
    rw [hbase₁, hdues]
    exact h.reached
  have hmoved := (reaches_iff hwf₁).mp hreaches
  have hbegins := begins_of_moves hwf₁ hmoved
  have hbase : (windowAt W a.advanceUs (inserted W crypto win a) p).baseId = a.hdr.blockId := by
    rw [hbegins.base, hbase₁, h.arrives]
  have hleft : LeftAt a.advanceUs (inserted W crypto win a).baseId a.hdr.blockId
      (due stored) p := by
    rw [hbase₁, hdue]
    exact h.left
  obtain ⟨i, _, hslot, hlive, hid⟩ :=
    (held_eq_some hbegins.wf).mp ((hbegins.held _ _).mpr ⟨hstored, hleft⟩)
  have hblock : HasBlock (windowAt W a.advanceUs (inserted W crypto win a) p) a i :=
    ⟨by rw [hslot]; exact live_iff.mp hlive, by rw [hslot, hid]⟩
  rcases h.rests with hexp | ⟨hyoung, hnewer⟩
  · refine Or.inr (Or.inr ⟨p, hmoved, hbase, i, hblock, ?_⟩)
    have hfirst : stored.firstRecvUs = firstUs W win a := congrArg Due.firstRecvUs hdue
    rw [hslot, Expired, hfirst]
    exact hexp
  · have hidle : moves W a.advanceUs (inserted W crypto win a) p = false := by
      rw [← Bool.not_eq_true, moves_iff_of_begins hbegins, hbase₁, hdues]
      rintro (⟨d, hd, hdone⟩ | hnew)
      · rw [h.arrives, HeldAt, withShard, Function.update_self, Option.some.injEq] at hd
        rw [← hd.1, Due.done, Bool.false_or, decide_eq_true_iff] at hdone
        exact absurd hdone (UInt64.not_le.mpr hyoung)
      · exact hnewer hnew
    refine Or.inr (Or.inl ⟨p + 1, _, p,
      rxWindowAdvance_eq_some.mpr ⟨p.lt_succ_self, rfl, hidle, hmoved⟩, ?_, ?_, i, hblock, ?_⟩)
    · rw [hbase, serialDiff_self]
    · rw [hbase, serialDiff_self]
      exact Int.natCast_pos.mpr hpos
    · rw [hslot]
      exact hrecv

theorem settlesAt_of_noneAhead (hwf : WellFormed W win)
    (hahead : 0 ≤ serialDiff a.hdr.blockId win.baseId) (hnone : NoneAhead win a)
    (hclock : firstUs W win a ≤ a.advanceUs (ahead win.baseId a.hdr.blockId)) :
    SettlesAt W win a (ahead win.baseId a.hdr.blockId) := by
  have hfar : ahead win.baseId a.hdr.blockId < 2 ^ 31 := by
    have h := serialDiff_neg_iff win.baseId a.hdr.blockId
    omega
  have hbefore (q : ℕ) (hq : q < ahead win.baseId a.hdr.blockId) :
      ahead win.baseId (win.baseId + UInt32.ofNat q) = q :=
    ahead_add_ofNat win.baseId (hq.trans (ahead_lt _ _))
  have hleft : LeftAt a.advanceUs win.baseId a.hdr.blockId ⟨false, firstUs W win a⟩
      (ahead win.baseId a.hdr.blockId) := by
    intro q hq heq
    have hself := hbefore q hq
    rw [heq] at hself
    omega
  refine ⟨add_ofNat_ahead _ _, fun q hq => Or.inr ?_, hleft, ?_⟩
  · refine ⟨a.hdr.blockId, _, ⟨Function.update_self .., fun r hr => hleft r (hr.trans hq)⟩, ?_⟩
    have hself := hbefore q hq
    have hon : ahead win.baseId (win.baseId + UInt32.ofNat q) ≤
        ahead win.baseId a.hdr.blockId := by
      omega
    rw [ahead_of_le hon, hself]
    omega
  · by_cases hold : rxBlockTimeoutUs ≤
      a.advanceUs (ahead win.baseId a.hdr.blockId) - firstUs W win a
    · left
      have hle := UInt64.le_iff_toNat_le.mp hclock
      rw [UInt64.le_iff_toNat_le, UInt64.toNat_sub_of_le _ _ hclock] at hold
      omega
    · refine Or.inr ⟨UInt64.not_le.mp hold, ?_⟩
      rintro ⟨id, d, ⟨hd, _⟩, hpos, hlt⟩
      rw [add_ofNat_ahead] at hpos hlt
      have hne : id ≠ a.hdr.blockId := fun heq => by
        rw [heq, ahead_self] at hpos
        omega
      rw [withShard, Function.update_of_ne hne, dues_eq_some] at hd
      obtain ⟨_, hblk, _⟩ := hd
      obtain ⟨i, _, rfl, hlive, rfl⟩ := (held_eq_some hwf).mp hblk
      have h := hnone i (live_iff.mp hlive) hne
      omega

end Step

/-- **Resynchronisation.** A shard at or ahead of `base_id` is kept exactly if it is admissible
and either was superfluous or has its block come to rest at `base_id`. -/
theorem kept_iff {W : ℕ} {crypto : CryptoCtx} {win : RxWindow} {a : Arrival}
    (hpos : 0 < W) (hW : W ≤ maxWindow) (hreach : Reachable W crypto win)
    (hahead : 0 ≤ serialDiff a.hdr.blockId win.baseId) (hrange : a.hdr.shardIdx.toNat < maxN) :
    Kept W crypto win a ↔
      Admissible W win a ∧ (Superfluous win a ∨ ∃ p, SettlesAt W win a p) := by
  obtain ⟨hwf, hnewer⟩ := settled_of_reachable hW hreach
  constructor
  · intro hkept
    obtain ⟨b, hb⟩ := held_inserted_of_kept hW hwf hkept
    have hadm := admissible_of_held hpos hW hwf hnewer hahead hb
    refine ⟨hadm, or_iff_not_imp_left.mpr fun hnew => ?_⟩
    rcases accepts_of_admissible hwf hahead hrange hadm with ⟨b, hacc⟩ | hsup
    · exact settlesAt_of_kept hW hwf hacc hkept hnew
    · exact absurd hsup hnew
  · rintro ⟨hadm, hsup | ⟨p, hsettles⟩⟩
    · exact Or.inl hsup
    · rcases accepts_of_admissible hwf hahead hrange hadm with ⟨b, hacc⟩ | hsup
      · exact kept_of_settlesAt hpos hW hwf hacc hsettles
      · exact Or.inl hsup

theorem reachable_init (W : ℕ) (crypto : CryptoCtx) : Reachable W crypto rxWindowInit :=
  ⟨1, [], [], rfl⟩

theorem kept_iff_init :
    (Kept 8 (cryptoInit none) rxWindowInit (twoPacketShard 3 0) ↔
      Admissible 8 rxWindowInit (twoPacketShard 3 0) ∧
        (Superfluous rxWindowInit (twoPacketShard 3 0) ∨
          ∃ p, SettlesAt 8 rxWindowInit (twoPacketShard 3 0) p)) ∧
      Admissible 8 rxWindowInit (twoPacketShard 3 0) ∧
      SettlesAt 8 rxWindowInit (twoPacketShard 3 0) 3 := by
  have hadm : Admissible 8 rxWindowInit (twoPacketShard 3 0) :=
    ⟨by decide, Or.inr ⟨0, by decide, rfl⟩⟩
  have hnone : NoneAhead rxWindowInit (twoPacketShard 3 0) :=
    fun _ hlive => absurd hlive (Nat.lt_irrefl 0)
  refine ⟨kept_iff (by decide) (by decide) (reachable_init 8 _) (by decide) (by decide), hadm, ?_⟩
  exact settlesAt_of_noneAhead (wellFormed_init 8) (by decide) hnone (by decide)

/-- A restarted receiver drops block 8 when its window has 8 slots, though all are free. -/
theorem not_kept_beyond_window :
    Reachable 8 (cryptoInit none) rxWindowInit ∧
      0 ≤ serialDiff (twoPacketShard 8 0).hdr.blockId rxWindowInit.baseId ∧
      (twoPacketShard 8 0).hdr.shardIdx.toNat < maxN ∧
      ¬ Kept 8 (cryptoInit none) rxWindowInit (twoPacketShard 8 0) := by
  obtain ⟨hwf, hnewer⟩ := settled_of_reachable (by decide) (reachable_init 8 (cryptoInit none))
  refine ⟨reachable_init 8 _, by decide, by decide, fun hkept => ?_⟩
  obtain ⟨b, hb⟩ := held_inserted_of_kept (by decide) hwf hkept
  have hadm := admissible_of_held (by decide) (by decide) hwf hnewer (by decide) hb
  exact absurd hadm.inside (by decide)

end CodingGateway.Proofs.Resync
