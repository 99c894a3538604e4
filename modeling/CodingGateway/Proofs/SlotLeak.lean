import CodingGateway.Proofs.ReceiveLoop
set_option autoImplicit false

/-!
# Slots left behind

`rx_window_advance` frees a slot only when it gives its block up, but moves `base_id`
towards any newer block.  So a slot is left behind exactly when a newer block opens while
the base block is neither decoded nor old enough.  Without such a step no block but the
base block ever stays in the window.
-/

namespace CodingGateway.Proofs.SlotLeak

open CodingGateway.Model
open CodingGateway.Library
open CodingGateway.Proofs.Window
open CodingGateway.Proofs.Advance
open CodingGateway.Proofs.ReceiveLoop

/-- Every slot in use holds a block of the window, none holds one that `base_id` has passed,
and `rx_find` has a slot for every block of the window. -/
structure SlotsInWindow (windowSize : ℕ) (win : RxWindow) : Prop where
  inside : ∀ i, 0 < (win.slots i).recvCount →
    0 ≤ serialDiff (win.slots i).blockId win.baseId ∧
      serialDiff (win.slots i).blockId win.baseId < windowSize
  found : ∀ id, 0 ≤ serialDiff id win.baseId → serialDiff id win.baseId < windowSize →
    (rxFind win id windowSize).2 ≠ none

/-- The shard opens a newer block while the base block waits: undecoded, and less than 50 ms
old at the first clock reading of `rx_window_advance`. -/
structure Overtakes (windowSize : ℕ) (win : RxWindow) (a : Arrival) : Prop where
  newer : 0 < serialDiff a.hdr.blockId win.baseId
  inside : serialDiff a.hdr.blockId win.baseId < windowSize
  inRange : a.hdr.shardIdx.toNat < maxN
  waiting : ∃ i, 0 < (win.slots i).recvCount ∧ (win.slots i).blockId = win.baseId ∧
    blockDone (win.slots i) (a.advanceUs 0) = false

/-- No block but the base block is in the window. -/
structure AtBase (windowSize : ℕ) (win : RxWindow) : Prop where
  wf : WellFormed windowSize win
  only : ∀ id blk, held win windowSize id = some blk → id = win.baseId

variable {fuel W : ℕ} {crypto : CryptoCtx} {win : RxWindow} {a : Arrival}

theorem atBase_init (W : ℕ) : AtBase W rxWindowInit where
  wf := wellFormed_init W
  only id blk hheld := by
    rw [held_init] at hheld
    cases hheld

theorem exists_free_of_atBase (hbase : AtBase W win) {id : UInt32}
    (hid : ahead win.baseId id < W) (hnone : held win W id = none) :
    ∃ i, SlotTable.freeSlot live win.slots W = some i := by
  by_cases hself : id = win.baseId
  · refine SlotTable.exists_free hbase.wf.distinct ∅ (by simp; omega) ?_
    intro x b hx
    have hx' := hbase.only x b hx
    rw [hx', ← hself] at hx
    change held win W id = some b at hx
    rw [hnone] at hx
    cases hx
  · have hpos : ahead win.baseId id ≠ 0 := fun h0 => hself (eq_of_ahead_eq_zero h0)
    refine SlotTable.exists_free hbase.wf.distinct {win.baseId} (by simp; omega) ?_
    intro x b hx
    exact Finset.mem_singleton.mpr (hbase.only x b hx)

theorem slotsInWindow_of_atBase (hpos : 0 < W) (hW : W ≤ maxWindow) (hbase : AtBase W win) :
    SlotsInWindow W win where
  inside i hlive := by
    rw [hbase.only _ _ (held_of_slot hbase.wf hlive), serialDiff_self]
    omega
  found id hnonneg hlt := by
    have hid : ahead win.baseId id < W := by
      have h1 := le_serialDiff_iff win.baseId id W
      have h2 := serialDiff_neg_iff win.baseId id
      omega
    cases hheld : held win W id with
    | some blk =>
        obtain ⟨i, _, hfind, _⟩ := rxFind_held hW hid hheld
        rw [hfind]
        exact Option.some_ne_none i
    | none =>
        obtain ⟨i, hfree⟩ := exists_free_of_atBase hbase hid hheld
        rw [rxFind_fresh hW hid hheld hfree]
        exact Option.some_ne_none i

theorem waiting_iff (hwf : WellFormed W win) {nowUs : UInt64} :
    (∃ i, 0 < (win.slots i).recvCount ∧ (win.slots i).blockId = win.baseId ∧
      blockDone (win.slots i) nowUs = false) ↔
      ∃ blk, held win W win.baseId = some blk ∧ blockDone blk nowUs = false := by
  constructor
  · rintro ⟨i, hlive, hid, hwait⟩
    exact ⟨win.slots i, by rw [← hid]; exact held_of_slot hwf hlive, hwait⟩
  · rintro ⟨blk, hheld, hwait⟩
    obtain ⟨i, _, rfl, hlive, hid⟩ := (held_eq_some hwf).mp hheld
    exact ⟨i, live_iff.mp hlive, hid, hwait⟩

theorem id_of_attempted (hW : W ≤ maxWindow) (hbase : AtBase W win) {id : UInt32} {blk : RxBlock}
    (h : held (attempted W crypto win a).1 W id = some blk) :
    id = win.baseId ∨ id = a.hdr.blockId := by
  by_cases hid : id = a.hdr.blockId
  · exact Or.inr hid
  · rw [held_attempted_of_ne hW hbase.wf hid] at h
    exact Or.inl (hbase.only id blk h)

/-- What a step does to a window with only the base block, when the block of the shard is
in the window after the decoding attempt. -/
theorem rxStep_of_atBase_held (hpos : 0 < W) (hW : W ≤ maxWindow) (hfuel : maxWindow + 2 ≤ fuel)
    (hbase : AtBase W win) {blk : RxBlock}
    (hheld : held (attempted W crypto win a).1 W a.hdr.blockId = some blk) :
    ∃ win' out, rxStep fuel W crypto win a = some (win', out) ∧ WellFormed W win' ∧
      held win' W = survivors a.advanceUs 0 win.baseId (ahead win.baseId a.hdr.blockId + 1)
        (held (attempted W crypto win a).1 W) ∧
      win'.baseId = if blockDone blk (a.advanceUs (ahead win.baseId a.hdr.blockId)) then
        a.hdr.blockId + 1 else a.hdr.blockId := by
  have hW' : W ≤ 16 := hW
  have hmax : maxWindow = 16 := rfl
  have hin : ahead win.baseId a.hdr.blockId < W := by
    cases hprev : held win W a.hdr.blockId with
    | none =>
        obtain ⟨b, hacc⟩ := accepts_of_attempted hW hbase.wf hprev hheld
        exact (target_eq_some hacc.target).1
    | some b =>
        rw [hbase.only _ _ hprev, ahead_self]
        exact hpos
  have hnewest : ∀ x b, held (attempted W crypto win a).1 W x = some b → x ≠ a.hdr.blockId →
      2 ^ 31 < ahead a.hdr.blockId x := by
    intro x b hx hne
    rcases id_of_attempted hW hbase hx with hself | hself
    · have hback := ahead_back (a := win.baseId) (b := a.hdr.blockId)
        (fun h => hne (hself.trans h.symm))
      rw [hself]
      omega
    · exact absurd hself hne
  obtain ⟨win', moves, hstep, hwf', hmap, hbase'⟩ := rxStep_of_newest hW hbase.wf crypto hheld
    (by omega) hnewest (by omega : ahead win.baseId a.hdr.blockId + 2 ≤ fuel)
  exact ⟨win', _, hstep, hwf', hmap, hbase'⟩

theorem atBase_rxStep (hpos : 0 < W) (hW : W ≤ maxWindow) (hfuel : maxWindow + 2 ≤ fuel)
    (hbase : AtBase W win) (hnot : ¬ Overtakes W win a) :
    ∃ win' out, rxStep fuel W crypto win a = some (win', out) ∧ AtBase W win' := by
  have hmax : maxWindow = 16 := rfl
  cases hheld : held (attempted W crypto win a).1 W a.hdr.blockId with
  | some blk =>
      obtain ⟨win', out, hstep, hwf', hmap, hbase'⟩ :=
        rxStep_of_atBase_held hpos hW hfuel hbase hheld
      refine ⟨win', out, hstep, hwf', fun id b hid => ?_⟩
      rw [hmap, survivors_eq_some] at hid
      obtain ⟨hid, hdone⟩ := hid
      by_cases hself : id = a.hdr.blockId
      · subst hself
        rw [hheld, Option.some.injEq] at hid
        subst hid
        have hwait := hdone (Nat.lt_succ_self _)
        rw [Nat.zero_add] at hwait
        rw [hbase', hwait]
        rfl
      · -- the base block was passed and stayed: the step overtook it
        have hbaseId : id = win.baseId := (id_of_attempted hW hbase hid).resolve_right hself
        subst hbaseId
        rw [held_attempted_of_ne hW hbase.wf hself] at hid
        rw [ahead_self] at hdone
        have hprev : held win W a.hdr.blockId = none := by
          by_contra hsome
          obtain ⟨b', hb'⟩ := Option.ne_none_iff_exists'.mp hsome
          exact hself (hbase.only _ _ hb').symm
        obtain ⟨b', hacc⟩ := accepts_of_attempted hW hbase.wf hprev hheld
        have hin := (target_eq_some hacc.target).1
        have hne : ahead win.baseId a.hdr.blockId ≠ 0 :=
          fun h0 => hself (eq_of_ahead_eq_zero h0).symm
        have hserial := le_serialDiff_iff win.baseId a.hdr.blockId W
        refine absurd ⟨?_, ?_, hacc.inRange, ?_⟩ hnot
        · rw [serialDiff_pos_iff]
          omega
        · omega
        · exact (waiting_iff hbase.wf).mpr ⟨b, hid, hdone (by omega)⟩
  | none =>
      have honly : ∀ x b, held (attempted W crypto win a).1 W x = some b → x = win.baseId := by
        intro x b hx
        refine (id_of_attempted hW hbase hx).resolve_right fun hself => ?_
        rw [hself, hheld] at hx
        cases hx
      cases hself : held (attempted W crypto win a).1 W win.baseId with
      | some blk =>
          obtain ⟨win', moves, hstep, hwf', hmap, hbase'⟩ := rxStep_of_newest hW hbase.wf crypto
            hself (by rw [ahead_self]; omega) (fun x b hx hne => absurd (honly x b hx) hne)
            (by rw [ahead_self]; omega : ahead win.baseId win.baseId + 2 ≤ fuel)
          refine ⟨win', _, hstep, hwf', fun id b hid => ?_⟩
          rw [hmap, survivors_eq_some, ahead_self] at hid
          obtain ⟨hid, hdone⟩ := hid
          obtain rfl := honly id b hid
          rw [hself, Option.some.injEq] at hid
          subst hid
          rw [ahead_self] at hdone hbase'
          rw [hbase', hdone (by omega)]
          rfl
      | none =>
          have hempty : ∀ x b, held (attempted W crypto win a).1 W x ≠ some b := by
            intro x b hx
            rw [honly x b hx, hself] at hx
            cases hx
          obtain ⟨f, rfl⟩ : ∃ f, fuel = f + 1 := ⟨fuel - 1, by omega⟩
          refine ⟨_, _, rxStep_of_idle hW hbase.wf crypto hself ?_ f,
            attempted_wellFormed hW hbase.wf crypto a, fun id b hid => absurd hid (hempty id b)⟩
          rintro ⟨x, b, hx, _⟩
          exact hempty x b hx

theorem leak_of_overtakes (hpos : 0 < W) (hW : W ≤ maxWindow) (hfuel : maxWindow + 2 ≤ fuel)
    (hbase : AtBase W win) (hover : Overtakes W win a) :
    ∃ win' out, rxStep fuel W crypto win a = some (win', out) ∧ ¬ SlotsInWindow W win' := by
  have hW' : W ≤ 16 := hW
  obtain ⟨hnewer, hinside, hrange, hwaiting⟩ := hover
  obtain ⟨old, hold, hwait⟩ := (waiting_iff hbase.wf).mp hwaiting
  rw [serialDiff_pos_iff] at hnewer
  have hin : ahead win.baseId a.hdr.blockId < W := by
    have hserial := le_serialDiff_iff win.baseId a.hdr.blockId W
    omega
  have hne : a.hdr.blockId ≠ win.baseId := by
    intro h
    rw [h, ahead_self] at hnewer
    omega
  have hprev : held win W a.hdr.blockId = none := by
    by_contra hsome
    obtain ⟨b, hb⟩ := Option.ne_none_iff_exists'.mp hsome
    exact hne (hbase.only _ _ hb)
  have hacc : Accepts win W a.hdr { zeroBlock with blockId := a.hdr.blockId } :=
    ⟨target_of_free hin hprev (exists_free_of_atBase hbase hin hprev), rfl, hrange, rfl⟩
  obtain ⟨blk, hheld, _⟩ := held_attempted_of_accepts hW hbase.wf crypto hacc
  obtain ⟨win', out, hstep, hwf', hmap, hbase'⟩ :=
    rxStep_of_atBase_held hpos hW hfuel hbase hheld
  refine ⟨win', out, hstep, fun hslots => ?_⟩
  have hleft : held win' W win.baseId = some old := by
    rw [hmap, survivors_eq_some, held_attempted_of_ne hW hbase.wf hne.symm, ahead_self]
    exact ⟨hold, fun _ => hwait⟩
  obtain ⟨i, _, hslot, hlive, hid⟩ := (held_eq_some hwf').mp hleft
  have hnonneg := (hslots.inside i (by rw [hslot]; exact live_iff.mp hlive)).1
  rw [hslot, hid] at hnonneg
  have hneg : serialDiff win.baseId win'.baseId < 0 := by
    have hback := ahead_back (a := win.baseId) (b := a.hdr.blockId) hne
    rw [serialDiff_neg_iff, hbase']
    by_cases hdone : blockDone blk (a.advanceUs (ahead win.baseId a.hdr.blockId)) = true
    · rw [if_pos hdone, ahead_add_one (by omega)]
      omega
    · rw [if_neg hdone]
      omega
  omega

/-- No step of the run overtakes a waiting base block. -/
def NeverOvertakes (fuel windowSize : ℕ) (crypto : CryptoCtx) (as : List Arrival) : Prop :=
  ∀ js a win outs, js ++ [a] <+: as →
    rxRun fuel windowSize crypto rxWindowInit js = some (win, outs) → ¬ Overtakes windowSize win a

theorem atBase_rxRun (hpos : 0 < W) (hW : W ≤ maxWindow) (hfuel : maxWindow + 2 ≤ fuel)
    {as : List Arrival} (hnot : NeverOvertakes fuel W crypto as) :
    ∃ win outs, rxRun fuel W crypto rxWindowInit as = some (win, outs) ∧ AtBase W win :=
  Machine.exists_run (P := fun _ win _ => AtBase W win) (atBase_init W)
    fun js win outs a hpre hrun hbase =>
      atBase_rxStep hpos hW hfuel hbase (hnot js a win outs hpre hrun)

/-- **Slots in the window.** In every run of data shards from the empty window, the slots
in use hold blocks of the window in every state reached, and every step terminates, exactly
when no step overtakes a waiting base block. -/
theorem slotsInWindow_iff_neverOvertakes {fuel W : ℕ} (hpos : 0 < W) (hW : W ≤ maxWindow)
    (hfuel : maxWindow + 2 ≤ fuel) (crypto : CryptoCtx) (as : List Arrival) :
    (∀ js, js <+: as → ∃ win outs,
        rxRun fuel W crypto rxWindowInit js = some (win, outs) ∧ SlotsInWindow W win) ↔
      NeverOvertakes fuel W crypto as := by
  constructor
  · intro hall
    induction as using List.reverseRecOn with
    | nil =>
        intro js a win outs hpre
        exact absurd (List.prefix_nil.mp hpre) (by simp)
    | append_singleton as a ih =>
        have hnot := ih fun js hpre => hall js (hpre.trans (List.prefix_append as [a]))
        intro js b win outs hpre hrun
        rcases List.prefix_concat_iff.mp hpre with hlast | hearlier
        · -- the last step starts from a window with the base block only
          obtain ⟨rfl, hab⟩ := List.append_inj' hlast rfl
          cases hab
          obtain ⟨win₁, outs₁, hrun₁, hbase⟩ := atBase_rxRun hpos hW hfuel hnot
          rw [hrun₁] at hrun
          cases hrun
          intro hover
          obtain ⟨win', out, hstep, hbad⟩ := leak_of_overtakes hpos hW hfuel hbase hover
          obtain ⟨w, os, hrun', hgood⟩ := hall _ List.prefix_rfl
          have hleak := Machine.run_concat_eq_some.mpr ⟨win, outs, out, hrun₁, hstep, rfl⟩
          rw [rxRun, hleak] at hrun'
          cases hrun'
          exact hbad hgood
        · exact hnot js b win outs hearlier hrun
  · intro hnot js hpre
    obtain ⟨win, outs, hrun, hbase⟩ := atBase_rxRun hpos hW hfuel
      fun ks a w os hks => hnot ks a w os (hks.trans hpre)
    exact ⟨win, outs, hrun, slotsInWindow_of_atBase hpos hW hbase⟩

theorem slotsInWindow_iff_neverOvertakes_one :
    (∀ js, js <+: [twoPacketShard 0 0] → ∃ win outs,
        rxRun 18 8 (cryptoInit none) rxWindowInit js = some (win, outs) ∧ SlotsInWindow 8 win) ↔
      NeverOvertakes 18 8 (cryptoInit none) [twoPacketShard 0 0] :=
  slotsInWindow_iff_neverOvertakes (by decide) (by decide) (by decide) _ _

/-- One shard of block 0 and one of block 1: `base_id` moves to 1 and block 0 keeps its slot. -/
theorem slot_behind_base :
    ∃ win outs, rxRun 18 8 (cryptoInit none) rxWindowInit
        [twoPacketShard 0 0, twoPacketShard 1 0] = some (win, outs) ∧
      ¬ SlotsInWindow 8 win := by
  have hslot : (rxRun 18 8 (cryptoInit none) rxWindowInit
      [twoPacketShard 0 0, twoPacketShard 1 0]).map (fun r =>
        ((r.1.slots 0).recvCount, serialDiff (r.1.slots 0).blockId r.1.baseId)) =
          some (1, -1) := by
    decide +kernel
  obtain ⟨r, hrun, hslot⟩ := Option.map_eq_some_iff.mp hslot
  rw [Prod.mk.injEq] at hslot
  refine ⟨r.1, r.2, hrun, fun hslots => ?_⟩
  have hinside := (hslots.inside 0 (by omega)).1
  omega

end CodingGateway.Proofs.SlotLeak
