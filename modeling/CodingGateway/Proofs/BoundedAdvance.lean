import CodingGateway.Proofs.Advance
import CodingGateway.Proofs.WrapAround
import Mathlib.Data.Nat.Find
set_option autoImplicit false

/-!
# How far one call moves the window

The loop of `rx_window_advance` has no bound of its own.  After any calls a block held
is in the window or behind it, and the blocks in the window pull `base_id` over at most
`W` ids.  A block that was left behind pulls too, once it looks newer again.

* `endsWithin_iff` — when a call stays within `W` moves;
* `not_endsWithin_wrapped` — a run after which it does not.
-/

namespace CodingGateway.Proofs.BoundedAdvance

open CodingGateway.Model
open CodingGateway.Library
open CodingGateway.Library.Machine
open CodingGateway.Proofs.Window
open CodingGateway.Proofs.Advance
open CodingGateway.Proofs.ReceiveLoop (twoPacketShard zeroStack)
open CodingGateway.Proofs.WrapAround

variable {fuel W : ℕ} {crypto : CryptoCtx} {win win' : RxWindow} {clock : ℕ → UInt64}

/-! ## Blocks in the window and behind it -/

/-- Every block held is in the window, or behind `base_id` in serial order. -/
structure Tracked (W : ℕ) (win : RxWindow) : Prop where
  wellFormed : WellFormed W win
  near : ∀ id blk, held win W id = some blk →
    ahead win.baseId id < W ∨ 2 ^ 31 ≤ ahead win.baseId id

theorem tracked_init (W : ℕ) : Tracked W rxWindowInit where
  wellFormed := wellFormed_init W
  near id blk hheld := by
    rw [held_init] at hheld
    cases hheld

theorem tracked_insert (hW : W ≤ maxWindow) (h : Tracked W win) (hdr : WireHeader) (s : Shard)
    (nowUs : UInt64) : Tracked W (rxWindowInsert win hdr s W crypto nowUs) := by
  obtain ⟨hbase, hwf, ⟨blk, hblk, hmap⟩ | ⟨-, hmap⟩⟩ :=
    insert_cases s crypto nowUs hW h.wellFormed hdr
  · refine ⟨hwf, fun id b hheld => ?_⟩
    rw [hbase]
    by_cases hid : id = hdr.blockId
    · rw [hid]
      exact Or.inl (target_eq_some hblk.target).1
    · rw [hmap, Function.update_of_ne hid] at hheld
      exact h.near id b hheld
  · refine ⟨hwf, fun id b hheld => ?_⟩
    rw [hmap] at hheld
    rw [hbase]
    exact h.near id b hheld

theorem tracked_tryDecode (hW : W ≤ maxWindow) (h : Tracked W win) (id : UInt32) (k : ℕ)
    (garbage : StackGarbage) : Tracked W (rxWindowTryDecode win id k W garbage).1 := by
  obtain ⟨hbase, hwf, -⟩ := tryDecode_cases hW h.wellFormed id k garbage
  refine ⟨hwf, ?_⟩
  rw [hbase]
  exact forall_held_tryDecode hW h.wellFormed h.near fun _ _ hnear => hnear

theorem tracked_advance (hpos : 0 < W) (h : Tracked W win) {n : ℕ}
    (hrun : rxWindowAdvance fuel win W clock = some (win', n)) : Tracked W win' := by
  obtain ⟨hwf, -, hnewer⟩ := advanceLoop_settled h.wellFormed hrun
  refine ⟨hwf, fun id blk hheld => ?_⟩
  by_contra hfar
  exact hnewer ⟨id, blk, hheld, by omega, by omega⟩

theorem tracked_windowStep (hpos : 0 < W) (hW : W ≤ maxWindow) (h : Tracked W win)
    {call : WindowCall} {out : CallOutput}
    (hstep : windowStep fuel W crypto win call = some (win', out)) : Tracked W win' := by
  cases call with
  | insert hdr s nowUs =>
      cases hstep
      exact tracked_insert hW h hdr s nowUs
  | tryDecode id k garbage =>
      cases hstep
      exact tracked_tryDecode hW h id k garbage
  | advance nowUs =>
      obtain ⟨⟨win₁, n⟩, hadvance, hout⟩ := Option.map_eq_some_iff.mp hstep
      cases hout
      exact tracked_advance hpos h hadvance

theorem tracked_run (hpos : 0 < W) (hW : W ≤ maxWindow) {calls : List WindowCall}
    {outs : List CallOutput}
    (hrun : run (windowStep fuel W crypto) rxWindowInit calls = some (win, outs)) :
    Tracked W win :=
  run_induction (P := fun _ win _ => Tracked W win) (tracked_init W)
    (fun _ _ _ _ _ _ _ h hstep => tracked_windowStep hpos hW h hstep) hrun

/-! ## Where a call stops -/

/-- One call ends after at most `W` moves of `base_id`. -/
def EndsWithin (W : ℕ) (win : RxWindow) (clock : ℕ → UInt64) : Prop :=
  ∃ fuel win' n, rxWindowAdvance fuel win W clock = some (win', n) ∧ n ≤ W

/-- No block that was left behind looks newer than a block in the window, nor than its successor
if that block is done when the loop comes to it. -/
def NoneReturns (W : ℕ) (win : RxWindow) (clock : ℕ → UInt64) : Prop :=
  ∀ x b y c, held win W x = some b → W ≤ ahead win.baseId x → held win W y = some c →
    ahead win.baseId y < W → serialDiff x y ≤ 0 ∧
      (blockDone c (clock (ahead win.baseId y)) = true → serialDiff x (y + 1) ≤ 0)

theorem exists_newest (W : ℕ) (win : RxWindow) :
    (∀ x b, held win W x = some b → W ≤ ahead win.baseId x) ∨
      ∃ id blk, held win W id = some blk ∧ ahead win.baseId id < W ∧
        ∀ x b, held win W x = some b → ahead win.baseId x < W →
          ahead win.baseId x ≤ ahead win.baseId id := by
  classical
  let Offset (d : ℕ) : Prop := ∃ x b, held win W x = some b ∧ ahead win.baseId x = d
  by_cases hsome : ∃ x b, held win W x = some b ∧ ahead win.baseId x < W
  · right
    obtain ⟨x, b, hx, hlt⟩ := hsome
    have hoffset : Offset (ahead win.baseId x) := ⟨x, b, hx, rfl⟩
    have hle : ahead win.baseId x ≤ W - 1 := by omega
    obtain ⟨id, blk, hheld, hid⟩ := Nat.findGreatest_spec (P := Offset) hle hoffset
    have hbound := Nat.findGreatest_le (P := Offset) (W - 1)
    refine ⟨id, blk, hheld, by omega, fun y c hy hylt => ?_⟩
    rw [hid]
    exact Nat.le_findGreatest (by omega) ⟨y, c, hy, rfl⟩
  · left
    intro x b hx
    exact not_lt.mp fun hlt => hsome ⟨x, b, hx, hlt⟩

/-- A block behind the window is not newer than one in it. -/
theorem far_of_serialDiff {x y : UInt32} (hx : 2 ^ 31 ≤ ahead win.baseId x)
    (hy : ahead win.baseId y < 2 ^ 30) (hdiff : serialDiff x y ≤ 0) : 2 ^ 31 ≤ ahead y x := by
  have hsub := ahead_of_le (by omega : ahead win.baseId y ≤ ahead win.baseId x)
  have hpos := serialDiff_pos_iff y x
  omega

theorem endsWithin_of_noneReturns (hW : W ≤ maxWindow) (h : Tracked W win)
    (hreturn : NoneReturns W win clock) : EndsWithin W win clock := by
  have hsmall : W < 2 ^ 30 := hW.trans_lt (by decide)
  rcases exists_newest W win with hnone | ⟨id, blk, hheld, hid, hnewest⟩
  · have hfar : ∀ x b, held win W x = some b → 2 ^ 31 ≤ ahead win.baseId x := fun x b hx =>
      (h.near x b hx).resolve_left (not_lt.mpr (hnone x b hx))
    have hbase : held win W win.baseId = none := by
      by_contra hsome
      obtain ⟨b, hb⟩ := Option.ne_none_iff_exists'.mp hsome
      have hb' := hfar _ b hb
      rw [ahead_self] at hb'
      omega
    have hnewer : ¬ Newer win W := by
      rintro ⟨x, b, hx, -, hlt⟩
      exact absurd (hfar x b hx) (not_le.mpr hlt)
    exact ⟨0 + 1, win, 0, advance_idle h.wellFormed hbase hnewer clock 0 0, Nat.zero_le W⟩
  · have hbehind : ∀ x b, held win W x = some b → x ≠ id → 2 ^ 31 ≤ ahead id x ∧
        (blockDone blk (clock (ahead win.baseId id)) = true → 2 ^ 31 ≤ ahead (id + 1) x) := by
      intro x b hx hne
      rcases lt_or_ge (ahead win.baseId x) W with hin | hout
      · have hlt : ahead win.baseId x < ahead win.baseId id := by
          apply lt_of_le_of_ne (hnewest x b hx hin)
          intro heq
          apply hne
          rw [← add_ofNat_ahead win.baseId x, heq, add_ofNat_ahead]
        have hback := ahead_of_lt hlt
        have hnext : ahead (id + 1) x = ahead id x - 1 := ahead_add_one (by omega)
        exact ⟨by omega, fun _ => by omega⟩
      · have hfar := (h.near x b hx).resolve_left (not_lt.mpr hout)
        obtain ⟨hdiff, hdone⟩ := hreturn x b id blk hx hout hheld hid
        have hahead := far_of_serialDiff hfar (by omega) hdiff
        refine ⟨hahead, fun hblk => ?_⟩
        have hnext : ahead (id + 1) x = ahead id x - 1 := ahead_add_one (by omega)
        have hpos := serialDiff_pos_iff (id + 1) x
        have hdiff' := hdone hblk
        omega
    obtain ⟨win', n, hrun, -, -, -, hn⟩ :=
      advance_stops h.wellFormed hheld (by omega) hbehind le_rfl
    refine ⟨_, win', n, hrun, ?_⟩
    rw [hn]
    split_ifs <;> omega

theorem noneReturns_of_endsWithin (hW : W ≤ maxWindow) (h : Tracked W win)
    (hends : EndsWithin W win clock) : NoneReturns W win clock := by
  have hsmall : W < 2 ^ 30 := hW.trans_lt (by decide)
  obtain ⟨fuel, win', n, hrun, hn⟩ := hends
  obtain ⟨hwf', hdone, hnewer⟩ := advanceLoop_settled h.wellFormed hrun
  have hrun' : advanceLoop W clock fuel 0 win = some (win', 0 + n) := by
    rw [Nat.zero_add]
    exact hrun
  obtain ⟨hbase, hmap⟩ := advanceLoop_moves h.wellFormed hrun' (by omega)
  have hself : ahead win.baseId win'.baseId = n := by
    rw [hbase]
    exact ahead_add_ofNat win.baseId (by omega)
  -- a block at least `n` ahead is still held, `n` nearer
  have hlater {z : UInt32} {d : RxBlock} (hz : held win W z = some d)
      (hle : n ≤ ahead win.baseId z) :
      held win' W z = some d ∧ ahead win'.baseId z = ahead win.baseId z - n := by
    refine ⟨by rw [hmap, survivors_of_le hle, hz], ?_⟩
    rw [ahead_of_le (hself.symm ▸ hle), hself]
  intro x b y c hx hxout hy hyin
  have hxfar := (h.near x b hx).resolve_left (not_lt.mpr hxout)
  obtain ⟨hx', hxahead⟩ := hlater hx (by omega)
  have hxstill : 2 ^ 31 ≤ ahead win'.baseId x := by
    by_contra hlt
    exact hnewer ⟨x, b, hx', by omega, by omega⟩
  have hreached : ahead win.baseId y ≤ n := by
    by_contra hlt
    obtain ⟨hy', hyahead⟩ := hlater hy (by omega)
    exact hnewer ⟨y, c, hy', by omega, by omega⟩
  have hyx : ahead y x = ahead win.baseId x - ahead win.baseId y := ahead_of_le (by omega)
  constructor
  · have hpos := serialDiff_pos_iff y x
    omega
  · intro hblk
    have hpassed : ahead win.baseId y < n := by
      apply lt_of_le_of_ne hreached
      intro heq
      obtain ⟨hy', -⟩ := hlater hy heq.ge
      have hyid : y = win'.baseId := by
        rw [hbase, ← heq, add_ofNat_ahead]
      rw [heq] at hblk
      exact hdone ⟨c, hyid ▸ hy', hblk⟩
    have hnext : ahead (y + 1) x = ahead y x - 1 := ahead_add_one (by omega)
    have hpos := serialDiff_pos_iff (y + 1) x
    omega

/-- **Bounded advance.** In every state that calls lead to from the start, `rx_window_advance`
ends after at most `W` moves of `base_id` exactly when no block left behind the window looks
newer than a block in it, nor than the successor of one that is done when its turn comes. -/
theorem endsWithin_iff (hpos : 0 < W) (hW : W ≤ maxWindow) {calls : List WindowCall}
    {outs : List CallOutput}
    (hrun : run (windowStep fuel W crypto) rxWindowInit calls = some (win, outs))
    (clock : ℕ → UInt64) : EndsWithin W win clock ↔ NoneReturns W win clock :=
  ⟨noneReturns_of_endsWithin hW (tracked_run hpos hW hrun),
    endsWithin_of_noneReturns hW (tracked_run hpos hW hrun)⟩

theorem endsWithin_iff_twoBlocks :
    ∃ win outs, run (windowStep 3 8 (cryptoInit none)) rxWindowInit (twoBlocks.take 2) =
        some (win, outs) ∧
      (EndsWithin 8 win (fun _ => 0) ↔ NoneReturns 8 win (fun _ => 0)) :=
  have hrun : run (windowStep 3 8 (cryptoInit none)) rxWindowInit (twoBlocks.take 2) =
      some (_, _) := rfl
  ⟨_, _, hrun, endsWithin_iff (by decide) (by decide) hrun fun _ => 0⟩

/-! ## A block that returns -/

/-- The calls for one shard, as `main` makes them. -/
def shardCalls (id : UInt32) (idx : UInt8) : List WindowCall :=
  [.insert (twoPacketShard id idx).hdr (twoPacketShard id idx).shard 0, .tryDecode id 2 zeroStack,
    .advance fun _ => 0]

def half (id : UInt32) : RxBlock :=
  storeShard { zeroBlock with blockId := id } (twoPacketShard id 0).hdr (twoPacketShard id 0).shard
    (cryptoInit none) 0

def full (id : UInt32) : RxBlock :=
  storeShard (half id) (twoPacketShard id 1).hdr (twoPacketShard id 1).shard (cryptoInit none) 0

theorem full_decodes (id : UInt32) : ∃ o, Decodes (full id) 2 zeroStack o := by
  have hsome : (decodeBlock zeroStack.locals zeroStack.out (kShards (full 0) 2) 2).isSome =
      true := by
    decide +kernel
  have hreceived : (full id).received = (full 0).received := rfl
  have hshards : (full id).shards = (full 0).shards := by
    simp [full, half, storeShard, cryptoInit, twoPacketShard]
  have hsame : kShards (full id) 2 = kShards (full 0) 2 := by
    unfold kShards collectShards
    rw [hreceived, hshards]
  obtain ⟨o, ho⟩ := Option.isSome_iff_exists.mp hsome
  rw [← hsame] at ho
  exact ⟨o, rfl, (le_refl 2 : 2 ≤ (full id).recvCount), ho⟩

theorem not_decodes_half (id : UInt32) (o : DecodeOut) : ¬ Decodes (half id) 2 zeroStack o :=
  fun h => Nat.not_succ_le_self 1 h.enough

theorem run_first_stored {id : UInt32} (hwf : WellFormed 8 win) (hin : ahead win.baseId id < 8)
    (hnone : held win 8 id = none) (hfree : ∃ i, SlotTable.freeSlot live win.slots 8 = some i) :
    ∃ win' outs, run (windowStep 10 8 (cryptoInit none)) win ((shardCalls id 0).take 2) =
        some (win', outs) ∧ WellFormed 8 win' ∧ win'.baseId = win.baseId ∧
      held win' 8 = Function.update (held win 8) id (some (half id)) := by
  have hacc : Accepts win 8 (twoPacketShard id 0).hdr { zeroBlock with blockId := id } :=
    ⟨target_of_free hin hnone hfree, rfl, (by decide : (0 : UInt8).toNat < maxN), rfl⟩
  obtain ⟨hbase₁, hwf₁, hmap₁⟩ :=
    insert_of_accepts (twoPacketShard id 0).shard (cryptoInit none) 0 (by decide) hwf hacc
  set win₁ := rxWindowInsert win (twoPacketShard id 0).hdr (twoPacketShard id 0).shard 8
    (cryptoInit none) 0 with hwin₁
  have hheld₁ : held win₁ 8 id = some (half id) := by
    rw [hmap₁]
    exact Function.update_self ..
  obtain ⟨hbase₂, hwf₂, hmap₂, -⟩ :=
    rxWindowTryDecode_of_not_decodes (by decide) hwf₁ id 2 zeroStack fun blk o _ hblk => by
      rw [hheld₁] at hblk
      cases hblk
      exact not_decodes_half id o
  exact ⟨_, _, rfl, hwf₂, hbase₂.trans hbase₁, hmap₂.trans hmap₁⟩

theorem half_waits (id : UInt32) : blockDone (half id) 0 = false := by
  have hwaits : blockDone (half id) 0 = blockDone (half 0) 0 := rfl
  rw [hwaits]
  decide

/-- The first shard of a block that is newer than all others: `base_id` moves up to it, over
blocks that stay. -/
theorem run_first {id : UInt32} (hwf : WellFormed 8 win) (hin : ahead win.baseId id < 8)
    (hold : ∀ x b, held win 8 x = some b →
      x ≠ id ∧ 2 ^ 31 < ahead id x ∧ blockDone b 0 = false)
    (hfree : ∃ i, SlotTable.freeSlot live win.slots 8 = some i) :
    ∃ win' outs, run (windowStep 10 8 (cryptoInit none)) win (shardCalls id 0) =
        some (win', outs) ∧ WellFormed 8 win' ∧ win'.baseId = id ∧
      held win' 8 = Function.update (held win 8) id (some (half id)) := by
  have hnone : held win 8 id = none := by
    by_contra hsome
    obtain ⟨b, hb⟩ := Option.ne_none_iff_exists'.mp hsome
    exact (hold id b hb).1 rfl
  obtain ⟨win₁, outs₁, hrun₁, hwf₁, hbase₁, hmap₁⟩ := run_first_stored hwf hin hnone hfree
  have hheld₁ : held win₁ 8 id = some (half id) := by
    rw [hmap₁, Function.update_self]
  have hin₁ : ahead win₁.baseId id < 8 := by
    rw [hbase₁]
    exact hin
  have hnewest : ∀ x b, held win₁ 8 x = some b → x ≠ id → 2 ^ 31 < ahead id x := by
    intro x b hx hne
    rw [hmap₁, Function.update_of_ne hne] at hx
    exact (hold x b hx).2.1
  obtain ⟨win₂, n, hrun₂, hwf₂, hmap₂, hbase₂, -⟩ :=
    advance_settles hwf₁ hheld₁ (by omega) hnewest (fun _ => 0) (by omega : _ ≤ 10)
  have hkeep : held win₂ 8 = held win₁ 8 := by
    rw [hmap₂]
    funext x
    cases hx : held win₁ 8 x with
    | none => exact survivors_eq_none_of_none hx
    | some b =>
        refine survivors_eq_some.mpr ⟨hx, fun _ => ?_⟩
        by_cases hid : x = id
        · rw [hid, hheld₁] at hx
          cases hx
          exact half_waits id
        · rw [hmap₁, Function.update_of_ne hid] at hx
          exact (hold x b hx).2.2
  rw [half_waits, if_neg Bool.false_ne_true] at hbase₂
  refine ⟨win₂, outs₁ ++ [⟨false, [], n⟩], ?_, hwf₂, hbase₂, hkeep.trans hmap₁⟩
  have hcalls : shardCalls id 0 = (shardCalls id 0).take 2 ++ [.advance fun _ => 0] := rfl
  rw [hcalls, run_concat_eq_some]
  refine ⟨win₁, outs₁, _, hrun₁, ?_, rfl⟩
  rw [windowStep, hrun₂, Option.map_some]

theorem run_second_decoded {id : UInt32} (hwf : WellFormed 8 win) (hbase : win.baseId = id)
    (hheld : held win 8 id = some (half id)) :
    ∃ win' outs, run (windowStep 10 8 (cryptoInit none)) win ((shardCalls id 1).take 2) =
        some (win', outs) ∧ WellFormed 8 win' ∧ win'.baseId = id ∧
      held win' 8 = Function.update (held win 8) id (some { full id with decoded := true }) := by
  have hin : ahead win.baseId id < 8 := by
    rw [hbase, ahead_self]
    decide
  have hacc : Accepts win 8 (twoPacketShard id 1).hdr (half id) :=
    ⟨target_of_held hin hheld, rfl, (by decide : (1 : UInt8).toNat < maxN), rfl⟩
  obtain ⟨hbase₁, hwf₁, hmap₁⟩ :=
    insert_of_accepts (twoPacketShard id 1).shard (cryptoInit none) 0 (by decide) hwf hacc
  set win₁ := rxWindowInsert win (twoPacketShard id 1).hdr (twoPacketShard id 1).shard 8
    (cryptoInit none) 0 with hwin₁
  have hstored : held win₁ 8 = Function.update (held win 8) id (some (full id)) := hmap₁
  have hheld₁ : held win₁ 8 id = some (full id) := by
    rw [hstored, Function.update_self]
  obtain ⟨o, hdecodes⟩ := full_decodes id
  obtain ⟨hbase₂, hwf₂, hmap₂, -⟩ :=
    rxWindowTryDecode_of_decodes (by decide) hwf₁ (hbase₁.symm ▸ hin) hheld₁ hdecodes
  refine ⟨_, _, rfl, hwf₂, hbase₂.trans (hbase₁.trans hbase), ?_⟩
  rw [hstored, Function.update_idem] at hmap₂
  exact hmap₂

theorem run_second {id : UInt32} (hwf : WellFormed 8 win) (hbase : win.baseId = id)
    (hheld : held win 8 id = some (half id))
    (hold : ∀ x b, held win 8 x = some b → x ≠ id → 2 ^ 31 < ahead id x) :
    ∃ win' outs, run (windowStep 10 8 (cryptoInit none)) win (shardCalls id 1) =
        some (win', outs) ∧ WellFormed 8 win' ∧ win'.baseId = id + 1 ∧
      held win' 8 = Function.update (held win 8) id none := by
  obtain ⟨win₁, outs₁, hrun₁, hwf₁, hbase₁, hmap₁⟩ := run_second_decoded hwf hbase hheld
  have hheld₁ : held win₁ 8 id = some { full id with decoded := true } := by
    rw [hmap₁, Function.update_self]
  have hother {x : UInt32} (hne : x ≠ id) : held win₁ 8 x = held win 8 x := by
    rw [hmap₁, Function.update_of_ne hne]
  have hzero : ahead win₁.baseId id = 0 := by
    rw [hbase₁, ahead_self]
  obtain ⟨win₂, n, hrun₂, hwf₂, hmap₂, hbase₂, -⟩ :=
    advance_settles hwf₁ hheld₁ (by omega)
      (fun x b hx hne => hold x b (hother hne ▸ hx) hne) (fun _ => 0) (by omega : _ ≤ 10)
  refine ⟨win₂, outs₁ ++ [⟨false, [], n⟩], ?_, hwf₂, hbase₂, ?_⟩
  · have hcalls : shardCalls id 1 = (shardCalls id 1).take 2 ++ [.advance fun _ => 0] := rfl
    rw [hcalls, run_concat_eq_some]
    refine ⟨win₁, outs₁, _, hrun₁, ?_, rfl⟩
    rw [windowStep, hrun₂, Option.map_some]
  · rw [hmap₂, hbase₁, ahead_self]
    funext x
    by_cases hx : x = id
    · rw [hx, Function.update_self]
      simp [survivors, hheld₁, blockDone]
    · have hpos : ahead id x ≠ 0 := fun h0 => hx (eq_of_ahead_eq_zero h0)
      rw [survivors_of_le (by omega), Function.update_of_ne hx, hother hx]

/-- Only block 0 is held, with one shard of two. -/
structure LeftBehind (id : UInt32) (win : RxWindow) : Prop where
  wellFormed : WellFormed 8 win
  baseId : win.baseId = id
  held : held win 8 = Function.update (fun _ => none) 0 (some (half 0))

theorem LeftBehind.eq_zero {id x : UInt32} {b : RxBlock} (h : LeftBehind id win)
    (hx : Window.held win 8 x = some b) : x = 0 ∧ b = half 0 := by
  rw [h.held] at hx
  by_cases hzero : x = 0
  · rw [hzero, Function.update_self] at hx
    exact ⟨hzero, (Option.some.inj hx).symm⟩
  · rw [Function.update_of_ne hzero] at hx
    cases hx

theorem LeftBehind.exists_free {id : UInt32} (h : LeftBehind id win) :
    ∃ i, SlotTable.freeSlot live win.slots 8 = some i :=
  SlotTable.exists_free h.wellFormed.distinct {0} (by decide)
    fun _ _ hx => Finset.mem_singleton.mpr (h.eq_zero hx).1

theorem run_block {base id : UInt32} (h : LeftBehind base win) (hin : ahead base id < 8)
    (hne : id ≠ 0) (hfar : 2 ^ 31 < ahead id 0) :
    ∃ win' outs, run (windowStep 10 8 (cryptoInit none)) win
        (shardCalls id 0 ++ shardCalls id 1) = some (win', outs) ∧ LeftBehind (id + 1) win' := by
  have hold : ∀ x b, held win 8 x = some b →
      x ≠ id ∧ 2 ^ 31 < ahead id x ∧ blockDone b 0 = false := by
    intro x b hx
    obtain ⟨rfl, rfl⟩ := h.eq_zero hx
    exact ⟨hne.symm, hfar, half_waits 0⟩
  obtain ⟨win₁, outs₁, hrun₁, hwf₁, hbase₁, hmap₁⟩ :=
    run_first h.wellFormed (h.baseId.symm ▸ hin) hold h.exists_free
  have hheld₁ : held win₁ 8 id = some (half id) := by
    rw [hmap₁, Function.update_self]
  have hold₁ : ∀ x b, held win₁ 8 x = some b → x ≠ id → 2 ^ 31 < ahead id x := by
    intro x b hx hxid
    rw [hmap₁, Function.update_of_ne hxid] at hx
    exact (hold x b hx).2.1
  obtain ⟨win₂, outs₂, hrun₂, hwf₂, hbase₂, hmap₂⟩ := run_second hwf₁ hbase₁ hheld₁ hold₁
  refine ⟨win₂, outs₁ ++ outs₂, ?_, hwf₂, hbase₂, ?_⟩
  · exact run_append_eq_some.mpr ⟨win₁, outs₁, outs₂, hrun₁, hrun₂, rfl⟩
  · have hnone : held win 8 id = none := by
      rw [h.held, Function.update_of_ne hne]
    calc held win₂ 8 = Function.update (held win 8) id none := by
          rw [hmap₂, hmap₁, Function.update_idem]
      _ = held win 8 := Function.update_eq_self_iff.mpr hnone.symm
      _ = Function.update (fun _ => none) 0 (some (half 0)) := h.held

/-- One shard of block 0, then blocks 1 to `m + 1` in full. -/
def leaveBehind : ℕ → List WindowCall
  | 0 => shardCalls 0 0 ++ (shardCalls 1 0 ++ shardCalls 1 1)
  | m + 1 => leaveBehind m ++
      (shardCalls (UInt32.ofNat (m + 2)) 0 ++ shardCalls (UInt32.ofNat (m + 2)) 1)

theorem ahead_ofNat_zero {n : ℕ} (hpos : 0 < n) (hn : n < 2 ^ 32) :
    ahead (UInt32.ofNat n) 0 = 2 ^ 32 - n := by
  have hself : ahead 0 (UInt32.ofNat n) = n := by
    have hadd := ahead_add_ofNat 0 hn
    rw [UInt32.zero_add] at hadd
    exact hadd
  have hne : UInt32.ofNat n ≠ 0 := by
    intro hzero
    rw [hzero, ahead_self] at hself
    omega
  rw [ahead_back hne, hself]

theorem leftBehind_run (m : ℕ) (hm : m + 2 ≤ 2 ^ 31) :
    ∃ win outs, run (windowStep 10 8 (cryptoInit none)) rxWindowInit (leaveBehind m) =
      some (win, outs) ∧ LeftBehind (UInt32.ofNat (m + 2)) win := by
  induction m with
  | zero =>
      have hfree : ∃ i, SlotTable.freeSlot live rxWindowInit.slots 8 = some i := ⟨0, rfl⟩
      obtain ⟨win₁, outs₁, hrun₁, hwf₁, hbase₁, hmap₁⟩ :=
        run_first (wellFormed_init 8) (by decide : ahead rxWindowInit.baseId 0 < 8)
          (fun x b hx => by rw [held_init] at hx; cases hx) hfree
      have hempty : held rxWindowInit 8 = fun _ => none := funext (held_init 8)
      rw [hempty] at hmap₁
      obtain ⟨win₂, outs₂, hrun₂, hleft⟩ :=
        run_block ⟨hwf₁, hbase₁, hmap₁⟩ (by decide : ahead 0 1 < 8) (by decide) (by decide)
      exact ⟨win₂, outs₁ ++ outs₂,
        run_append_eq_some.mpr ⟨win₁, outs₁, outs₂, hrun₁, hrun₂, rfl⟩, hleft⟩
  | succ m ih =>
      obtain ⟨win₁, outs₁, hrun₁, hleft₁⟩ := ih (by omega)
      have hfar := ahead_ofNat_zero (by omega : 0 < m + 2) (by omega)
      have hne : UInt32.ofNat (m + 2) ≠ 0 := by
        intro hzero
        rw [hzero, ahead_self] at hfar
        omega
      obtain ⟨win₂, outs₂, hrun₂, hleft₂⟩ :=
        run_block hleft₁ (by rw [ahead_self]; decide) hne (by omega)
      refine ⟨win₂, outs₁ ++ outs₂,
        run_append_eq_some.mpr ⟨win₁, outs₁, outs₂, hrun₁, hrun₂, rfl⟩, ?_⟩
      have hnext : UInt32.ofNat (m + 1 + 2) = UInt32.ofNat (m + 2) + 1 :=
        UInt32.ofNat_add (m + 2) 1
      rw [hnext]
      exact hleft₂

/-- After `2 ^ 31` blocks, one shard of the block after the next: on its way there `base_id`
gets to a point from which block 0 looks newer. -/
theorem not_endsWithin_wrapped :
    ∃ win outs, run (windowStep 10 8 (cryptoInit none)) rxWindowInit
        (leaveBehind (2 ^ 31 - 2) ++ (shardCalls 0x80000001 0).take 2) = some (win, outs) ∧
      ¬ EndsWithin 8 win fun _ => 0 := by
  obtain ⟨win₁, outs₁, hrun₁, hleft⟩ := leftBehind_run (2 ^ 31 - 2) (by norm_num)
  have hbase : win₁.baseId = 0x80000000 := hleft.baseId
  have hin : ahead win₁.baseId 0x80000001 < 8 := by
    rw [hbase]
    decide
  have hnone : held win₁ 8 0x80000001 = none := by
    rw [hleft.held]
    exact Function.update_of_ne (by decide) ..
  obtain ⟨win₂, outs₂, hrun₂, hwf₂, hbase₂, hmap₂⟩ :=
    run_first_stored hleft.wellFormed hin hnone hleft.exists_free
  have hrun := run_append_eq_some.mpr ⟨win₁, outs₁, outs₂, hrun₁, hrun₂, rfl⟩
  refine ⟨win₂, outs₁ ++ outs₂, hrun, fun hends => ?_⟩
  have hreturn := noneReturns_of_endsWithin (by decide) (tracked_run (by decide) (by decide) hrun)
    hends
  have hbase₂' : win₂.baseId = 0x80000000 := hbase₂.trans hbase
  have hzero : held win₂ 8 0 = some (half 0) := by
    rw [hmap₂, Function.update_of_ne (by decide), hleft.held, Function.update_self]
  have hnew : held win₂ 8 0x80000001 = some (half 0x80000001) := by
    rw [hmap₂, Function.update_self]
  have hdiff := (hreturn 0 _ 0x80000001 _ hzero (by rw [hbase₂']; decide) hnew
    (by rw [hbase₂']; decide)).1
  exact absurd hdiff (by decide)

end CodingGateway.Proofs.BoundedAdvance
