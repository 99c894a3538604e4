import CodingGateway.Proofs.Transfer
set_option autoImplicit false

/-!
# A window that collects one block

While only shards of the block at `base_id` arrive and the block is young, the window keeps
what arrived of it, and each shard either completes the block, which moves `base_id` past it,
or does not.  Other blocks may lie about in the window as long as they are behind.

* `rxStep_collects`, `rxStep_completes` — one shard of the block.
* `rxStep_passed` — a shard that comes after the block.
-/

namespace CodingGateway.Proofs.OneBlock

open CodingGateway.Model
open CodingGateway.Library
open CodingGateway.Proofs.Advance
open CodingGateway.Proofs.ReceiveLoop
open CodingGateway.Proofs.Transfer
open CodingGateway.Proofs.Window

/-- The slot has the shards `seen` of the block, the first of them since `start`. -/
structure Collected (blk : TxBlock) (k : ℕ) (env : FlushEnv) (start : UInt64) (seen : List ℕ)
    (rb : RxBlock) : Prop where
  undecoded : rb.decoded = false
  received : ∀ s, rb.received s = true ↔ s ∈ seen
  first : rb.firstRecvUs = start
  restored : Restored blk k env rb

/-- The window is at the block and has the shards `seen` of it; `Stale` says which other ids
may be held. -/
structure Collecting (W : ℕ) (blk : TxBlock) (k : ℕ) (env : FlushEnv) (Stale : UInt32 → Prop)
    (start : UInt64) (seen : List ℕ) (win : RxWindow) : Prop where
  wf : WellFormed W win
  base : win.baseId = blk.blockId
  others : ∀ x ≠ blk.blockId, ∀ rb, held win W x = some rb → Stale x
  fresh : seen = [] → held win W blk.blockId = none ∧
    ∃ i, SlotTable.freeSlot live win.slots W = some i
  collected : seen ≠ [] → ∃ rb, held win W blk.blockId = some rb ∧
    Collected blk k env start seen rb

/-- The window has just left block `id` behind. -/
structure Passed (W : ℕ) (id : UInt32) (Stale : UInt32 → Prop) (win : RxWindow) : Prop where
  wf : WellFormed W win
  base : win.baseId = id + 1
  others : ∀ x rb, held win W x = some rb → Stale x

section Step

variable {fuel W k s : ℕ} {crypto : CryptoCtx} {blk : TxBlock} {env : FlushEnv}
  {Stale : UInt32 → Prop} {start : UInt64} {seen : List ℕ} {win : RxWindow} {a : Arrival}

theorem collected_storeShard {rb : RxBlock} (ha : Carries blk k crypto env s a)
    (hundec : rb.decoded = false) (hrecv : ∀ t, rb.received t = true ↔ t ∈ seen)
    (hrestored : Restored blk k env rb)
    (hfirst : (storeShard rb a.hdr a.shard crypto a.insertUs).firstRecvUs = start) :
    Collected blk k env start (seen ++ [s]) (storeShard rb a.hdr a.shard crypto a.insertUs) := by
  refine ⟨hundec, fun t => ?_, hfirst, restored_storeShard hrestored ha⟩
  change Function.update rb.received a.hdr.shardIdx.toNat true t = true ↔ _
  rw [ha.shardIdx, Function.update_apply, List.mem_append, List.mem_singleton]
  by_cases hts : t = s
  · simp [hts]
  · rw [if_neg hts, hrecv t]
    simp [hts]

theorem inserted_collecting (hW : 1 ≤ W ∧ W ≤ maxWindow)
    (h : Collecting W blk k env Stale start seen win) (hs : s < maxN)
    (ha : Carries blk k crypto env s a) (hstart : seen = [] → a.insertUs = start) :
    WellFormed W (inserted W crypto win a) ∧
      (inserted W crypto win a).baseId = blk.blockId ∧
      (∀ x ≠ blk.blockId, ∀ rb, held (inserted W crypto win a) W x = some rb → Stale x) ∧
      ∃ rb, held (inserted W crypto win a) W blk.blockId = some rb ∧
        Collected blk k env start (seen ++ [s]) rb := by
  have hinside : ahead win.baseId a.hdr.blockId < W := by
    rw [h.base, ha.blockId, ahead_self]
    exact hW.1
  have hidx : a.hdr.shardIdx.toNat < maxN := by
    rw [ha.shardIdx]
    exact hs
  obtain ⟨hbase, hwf, hmap⟩ := inserted_spec hW.2 h.wf crypto a
  refine ⟨hwf, hbase.trans h.base, ?_⟩
  rcases hmap with ⟨rb, hacc, hmap⟩ | ⟨hnot, hmap⟩
  · rw [hmap]
    refine ⟨fun x hx rb' hx' => ?_, _, by rw [ha.blockId, Function.update_self], ?_⟩
    · rw [Function.update_of_ne (by rw [ha.blockId]; exact hx)] at hx'
      exact h.others x hx rb' hx'
    · have htarget := hacc.target
      by_cases hseen : seen = []
      · rw [ha.blockId, target_of_free (by rw [← ha.blockId]; exact hinside) (h.fresh hseen).1
          (h.fresh hseen).2, Option.some.injEq] at htarget
        subst htarget
        exact collected_storeShard ha rfl (fun t => by simp [hseen, zeroBlock])
          (restored_zeroBlock _ _ _ _) (hstart hseen)
      · obtain ⟨rb', hheld, hcollected⟩ := h.collected hseen
        have hlive := held_live hheld
        rw [ha.blockId, target_of_held (by rw [← ha.blockId]; exact hinside) hheld,
          Option.some.injEq] at htarget
        subst htarget
        have hkeep : (storeShard rb' a.hdr a.shard crypto a.insertUs).firstRecvUs =
            rb'.firstRecvUs := if_neg (by omega)
        exact collected_storeShard ha hcollected.undecoded hcollected.received hcollected.restored
          (hkeep.trans hcollected.first)
  · rw [hmap]
    refine ⟨h.others, ?_⟩
    by_cases hseen : seen = []
    · obtain ⟨hnone, hfree⟩ := h.fresh hseen
      rw [← ha.blockId] at hnone
      exact absurd ⟨target_of_free hinside hnone hfree, rfl, hidx, rfl⟩ (hnot _)
    · obtain ⟨rb, hheld, hcollected⟩ := h.collected hseen
      refine ⟨rb, hheld, hcollected.undecoded, fun t => ?_, hcollected.first, hcollected.restored⟩
      rw [← ha.blockId] at hheld
      have hold : rb.received s = true := by
        by_contra hnew
        refine hnot rb ⟨target_of_held hinside hheld, hcollected.undecoded, hidx, ?_⟩
        rw [ha.shardIdx]
        exact Bool.eq_false_iff.mpr hnew
      rw [hcollected.received t, List.mem_append, List.mem_singleton]
      refine ⟨Or.inl, ?_⟩
      rintro (hmem | rfl)
      · exact hmem
      · exact (hcollected.received t).mp hold

variable (hstale : ∀ x, Stale x → x ≠ blk.blockId ∧ 2 ^ 31 < ahead blk.blockId x)
include hstale

theorem rxStep_completes (hW : 1 ≤ W ∧ W ≤ maxWindow) (hfuel : 2 ≤ fuel)
    (h : Collecting W blk k env Stale start seen win) (hs : s < maxN)
    (ha : Carries blk k crypto env s a) (hstart : seen = [] → a.insertUs = start) {rb : RxBlock}
    {o : DecodeOut} (hheld : held (inserted W crypto win a) W blk.blockId = some rb)
    (hdec : Decodes rb k a.garbage o) :
    ∃ win' moves, rxStep fuel W crypto win a =
        some (win', ⟨some ⟨blk.blockId, tunWrites o k⟩, moves⟩) ∧
      Passed W blk.blockId Stale win' := by
  obtain ⟨hwf, hbase, hothers, _⟩ := inserted_collecting hW h hs ha hstart
  rw [← ha.blockId] at hheld
  rw [← ha.blockSize] at hdec
  have hinside : ahead win.baseId a.hdr.blockId < W := by
    rw [h.base, ha.blockId, ahead_self]
    exact hW.1
  have hdel : Delivers W crypto win a rb o := ⟨hinside, hheld, hdec⟩
  obtain ⟨_, _, hmap, _⟩ := attempted_of_delivers hW.2 h.wf hdel
  have hdone : held (attempted W crypto win a).1 W blk.blockId =
      some { rb with decoded := true } := by
    rw [hmap, ← ha.blockId, Function.update_self]
  have hold : ∀ x ≠ blk.blockId, ∀ b, held (attempted W crypto win a).1 W x = some b → Stale x := by
    intro x hx b hb
    rw [hmap, Function.update_of_ne (by rw [ha.blockId]; exact hx)] at hb
    exact hothers x hx b hb
  have hahead : ahead win.baseId blk.blockId = 0 := by rw [h.base, ahead_self]
  have hroom : ahead win.baseId blk.blockId + 2 ≤ fuel := by
    rw [hahead]
    exact hfuel
  obtain ⟨win', moves, hstep, hwf', hheld', hbase'⟩ :=
    rxStep_of_newest hW.2 h.wf crypto hdone (by rw [hahead]; decide)
      (fun x b hx hne => (hstale x (hold x hne b hx)).2) hroom
  rw [delivered_of_delivers hW.2 h.wf hdel, ha.blockSize, ha.blockId] at hstep
  refine ⟨win', moves, hstep, hwf', hbase', fun x b hb => ?_⟩
  rw [hheld'] at hb
  obtain ⟨hb, hopen⟩ := survivors_eq_some.mp hb
  by_cases hx : x = blk.blockId
  · subst hx
    have hfalse := hopen (Nat.lt_succ_self _)
    rw [hdone, Option.some.injEq] at hb
    rw [← hb] at hfalse
    cases hfalse
  · exact hold x hx b hb

theorem rxStep_collects (hW : 1 ≤ W ∧ W ≤ maxWindow) (hk : 1 ≤ k) (hfuel : 2 ≤ fuel)
    (h : Collecting W blk k env Stale start seen win) (hs : s < maxN)
    (ha : Carries blk k crypto env s a) (hstart : seen = [] → a.insertUs = start)
    (hnot : ∀ rb, held (inserted W crypto win a) W blk.blockId = some rb →
      ∀ o, ¬ Decodes rb k a.garbage o)
    (hyoung : ∀ p, a.advanceUs p - start < rxBlockTimeoutUs) :
    ∃ win' moves, rxStep fuel W crypto win a = some (win', ⟨none, moves⟩) ∧
      Collecting W blk k env Stale start (seen ++ [s]) win' := by
  obtain ⟨hwf, hbase, hothers, rb, hheld, hcollected⟩ := inserted_collecting hW h hs ha hstart
  have hnotDelivers : ∀ rb' o, ¬ Delivers W crypto win a rb' o := by
    intro rb' o hdel
    have hheld' := hdel.held
    have hdec := hdel.decodes
    rw [ha.blockId] at hheld'
    rw [ha.blockSize] at hdec
    exact hnot rb' hheld' o hdec
  obtain ⟨_, _, hmap, _⟩ := attempted_of_not_delivers hW.2 h.wf hnotDelivers
  rw [← hmap] at hheld
  have hold : ∀ x ≠ blk.blockId, ∀ b, held (attempted W crypto win a).1 W x = some b → Stale x := by
    intro x hx b hb
    rw [hmap] at hb
    exact hothers x hx b hb
  have hahead : ahead win.baseId blk.blockId = 0 := by rw [h.base, ahead_self]
  have hroom : ahead win.baseId blk.blockId + 2 ≤ fuel := by
    rw [hahead]
    exact hfuel
  obtain ⟨win', moves, hstep, hwf', hheld', hbase'⟩ :=
    rxStep_of_newest hW.2 h.wf crypto hheld (by rw [hahead]; decide)
      (fun x b hx hne => (hstale x (hold x hne b hx)).2) hroom
  have hopen : ∀ p, blockDone rb (a.advanceUs p) = false := by
    intro p
    rw [blockDone, hcollected.undecoded, hcollected.first, Bool.false_or,
      decide_eq_false_iff_not, UInt64.not_le]
    exact hyoung p
  rw [hopen, if_neg Bool.false_ne_true] at hbase'
  rw [delivered_of_not_delivers hW.2 h.wf hnotDelivers (by rw [ha.blockSize]; omega)] at hstep
  refine ⟨win', moves, hstep, hwf', hbase', fun x hx b hb => ?_, fun hnil => ?_, fun _ => ?_⟩
  · rw [hheld'] at hb
    exact hold x hx b (survivors_eq_some.mp hb).1
  · exact absurd hnil (List.append_ne_nil_of_right_ne_nil seen (List.cons_ne_nil s []))
  · refine ⟨rb, ?_, hcollected⟩
    rw [hheld']
    exact survivors_eq_some.mpr ⟨hheld, fun _ => hopen _⟩

theorem rxStep_passed (hW : 1 ≤ W ∧ W ≤ maxWindow) (hk : 1 ≤ k) (hfuel : 1 ≤ fuel)
    (h : Passed W blk.blockId Stale win) (ha : Carries blk k crypto env s a) :
    ∃ win' moves, rxStep fuel W crypto win a = some (win', ⟨none, moves⟩) ∧
      Passed W blk.blockId Stale win' := by
  have hmax : W ≤ 16 := hW.2
  have hold : W ≤ ahead win.baseId a.hdr.blockId := by
    rw [h.base, ha.blockId, ahead_add_one_self]
    omega
  have hnot : ∀ rb o, ¬ Delivers W crypto win a rb o := fun rb o hdel =>
    Nat.not_lt.mpr hold hdel.inside
  have hmap : held (inserted W crypto win a) W = held win W := by
    obtain ⟨_, _, ⟨rb, hacc, _⟩ | ⟨_, hmap⟩⟩ := inserted_spec hW.2 h.wf crypto a
    · exact absurd (target_eq_some hacc.target).1 (Nat.not_lt.mpr hold)
    · exact hmap
  obtain ⟨hbase, hwf, hmap', _⟩ := attempted_of_not_delivers hW.2 h.wf hnot
  have hbehind : ∀ x rb, held (attempted W crypto win a).1 W x = some rb →
      Stale x ∧ 2 ^ 31 ≤ ahead (blk.blockId + 1) x := by
    intro x rb hx
    rw [hmap', hmap] at hx
    obtain ⟨hne, hfar⟩ := hstale x (h.others x rb hx)
    refine ⟨h.others x rb hx, ?_⟩
    rw [ahead_add_one (by omega)]
    omega
  have hnewer : ¬ Newer (attempted W crypto win a).1 W := by
    rintro ⟨x, rb, hx, _, hnear⟩
    rw [hbase, h.base] at hnear
    exact absurd hnear (Nat.not_lt.mpr (hbehind x rb hx).2)
  have hnone : held (attempted W crypto win a).1 W win.baseId = none := by
    cases hheld : held (attempted W crypto win a).1 W win.baseId with
    | none => rfl
    | some rb =>
        have hfar := (hbehind _ rb hheld).2
        rw [h.base, ahead_self] at hfar
        omega
  obtain ⟨fuel, rfl⟩ : ∃ f, fuel = f + 1 := ⟨fuel - 1, by omega⟩
  have hstep := rxStep_of_idle hW.2 h.wf crypto hnone hnewer fuel
  rw [delivered_of_not_delivers hW.2 h.wf hnot (by rw [ha.blockSize]; omega)] at hstep
  exact ⟨_, _, hstep, hwf, hbase.trans h.base, fun x rb hx => (hbehind x rb hx).1⟩

end Step

end CodingGateway.Proofs.OneBlock
