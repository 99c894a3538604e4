import CodingGateway.Proofs.Window
set_option autoImplicit false

/-!
# Moving the window

`rx_window_advance` moves `base_id` over done blocks and towards any newer block.

* `survivors` is what a number of moves leaves of the blocks held;
* `advanceLoop_settled` and `advanceLoop_moves` — a terminating call is such a number of
  moves, up to a base block that is not done with no newer block around;
* `advance_to` — `base_id` reaches every newer block;
* `advance_stops`, `advance_settles` — it stops there, or one further, when nothing newer is held.
-/

namespace CodingGateway.Proofs.Advance

open CodingGateway.Model
open CodingGateway.Library
open CodingGateway.Proofs.Window

variable {W : ℕ} {win : RxWindow} {nowUs : UInt64}

/-- The window holds a block ahead of `base_id` in serial order. -/
def Newer (win : RxWindow) (windowSize : ℕ) : Prop :=
  ∃ id blk, held win windowSize id = some blk ∧ 0 < ahead win.baseId id ∧
    ahead win.baseId id < 2 ^ 31

/-- The base block may be given up at this reading of the clock. -/
def BaseDone (win : RxWindow) (windowSize : ℕ) (nowUs : UInt64) : Prop :=
  ∃ blk, held win windowSize win.baseId = some blk ∧ blockDone blk nowUs = true

/-- The first shard of the block arrived at least 50 ms before this reading of the clock, both
readings taken as numbers.  `rx_window_advance` subtracts them modulo `2 ^ 64`. -/
def Expired (blk : RxBlock) (nowUs : UInt64) : Prop :=
  blk.firstRecvUs.toNat + rxBlockTimeoutUs.toNat ≤ nowUs.toNat

instance (blk : RxBlock) (nowUs : UInt64) : Decidable (Expired blk nowUs) :=
  inferInstanceAs (Decidable (_ ≤ _))

theorem age_of_le {blk : RxBlock} {nowUs : UInt64} (hle : blk.firstRecvUs ≤ nowUs) :
    rxBlockTimeoutUs ≤ nowUs - blk.firstRecvUs ↔ Expired blk nowUs := by
  have hnat := UInt64.le_iff_toNat_le.mp hle
  rw [Expired, UInt64.le_iff_toNat_le, UInt64.toNat_sub_of_le _ _ hle]
  omega

theorem Expired.blockDone {blk : RxBlock} {nowUs : UInt64} (h : Expired blk nowUs) :
    blockDone blk nowUs = true := by
  have hle : blk.firstRecvUs ≤ nowUs :=
    UInt64.le_iff_toNat_le.mpr ((Nat.le_add_right _ _).trans h)
  rw [Model.blockDone, Bool.or_eq_true, decide_eq_true_iff]
  exact Or.inr ((age_of_le hle).mpr h)

theorem baseSlot_eq (win : RxWindow) (W : ℕ) :
    baseSlot win W = SlotTable.slotOf live RxBlock.blockId win.slots W win.baseId := rfl

theorem hasNewer_iff (hwf : WellFormed W win) : hasNewer win W = true ↔ Newer win W := by
  have hany := SlotTable.any_live_iff hwf.distinct
    (fun blk => decide (0 < serialDiff blk.blockId win.baseId))
  have hmap : hasNewer win W = (List.range W).any fun i => live (win.slots i) &&
      decide (0 < serialDiff (win.slots i).blockId win.baseId) := rfl
  rw [hmap, hany]
  constructor
  · rintro ⟨id, blk, hheld, hpos⟩
    have hid := held_blockId hheld
    rw [decide_eq_true_iff, serialDiff_pos_iff, hid] at hpos
    exact ⟨id, blk, hheld, hpos⟩
  · rintro ⟨id, blk, hheld, hpos⟩
    refine ⟨id, blk, hheld, ?_⟩
    rw [decide_eq_true_iff, serialDiff_pos_iff, held_blockId hheld]
    exact hpos

/-! ## One turn -/

theorem advancePass_of_baseDone (hwf : WellFormed W win) {blk : RxBlock}
    (hheld : held win W win.baseId = some blk) (hdone : blockDone blk nowUs = true) :
    ∃ win', advancePass win W nowUs = (win', true) ∧ win'.baseId = win.baseId + 1 ∧
      WellFormed W win' ∧ held win' W = Function.update (held win W) win.baseId none := by
  obtain ⟨i, hi, hslot, rfl, hlive, hkey⟩ := SlotTable.exists_of_lookup hheld
  refine ⟨{ win.setSlot i zeroBlock with baseId := win.baseId + 1 }, ?_, rfl, ?_, ?_⟩
  · unfold advancePass
    rw [baseSlot_eq, hslot]
    exact if_pos hdone
  · have hwf' := wellFormed_setSlot hwf hi (SlotTable.fits_of_free live_zeroBlock)
      (fun hlive' => by simp at hlive')
    exact ⟨hwf'.distinct, hwf'.idle, hwf'.counted⟩
  · rw [← hkey]
    exact SlotTable.lookup_update_free hwf.distinct hi live_zeroBlock hlive

theorem advancePass_of_not_baseDone (hdone : ¬ BaseDone win W nowUs) :
    advancePass win W nowUs =
      if hasNewer win W then ({ win with baseId := win.baseId + 1 }, true) else (win, false) := by
  unfold advancePass
  rw [baseSlot_eq]
  cases hslot : SlotTable.slotOf live RxBlock.blockId win.slots W win.baseId with
  | none => rfl
  | some i =>
      have hheld : held win W win.baseId = some (win.slots i) := by
        rw [held, SlotTable.lookup, hslot, Option.map_some]
      have hnot : ¬ blockDone (win.slots i) nowUs = true := fun h => hdone ⟨_, hheld, h⟩
      simp only [if_neg hnot]

theorem advancePass_of_newer (hwf : WellFormed W win) (hdone : ¬ BaseDone win W nowUs)
    (hnewer : Newer win W) :
    advancePass win W nowUs = ({ win with baseId := win.baseId + 1 }, true) := by
  rw [advancePass_of_not_baseDone hdone, if_pos ((hasNewer_iff hwf).mpr hnewer)]

theorem advancePass_of_settled (hwf : WellFormed W win) (hdone : ¬ BaseDone win W nowUs)
    (hnewer : ¬ Newer win W) : advancePass win W nowUs = (win, false) := by
  rw [advancePass_of_not_baseDone hdone, if_neg fun h => hnewer ((hasNewer_iff hwf).mp h)]

/-! ## Several turns -/

/-- What is left of the blocks when `base_id` has moved `moves` times from `base`: a block
passed is freed if it was done at the turn that passed it. -/
def survivors (clock : ℕ → UInt64) (pass : ℕ) (base : UInt32) (moves : ℕ)
    (blocks : UInt32 → Option RxBlock) : UInt32 → Option RxBlock := fun id =>
  if ahead base id < moves then
    (blocks id).filter fun blk => !blockDone blk (clock (pass + ahead base id))
  else blocks id

section Survivors

variable {clock : ℕ → UInt64} {pass moves : ℕ} {base id : UInt32}
  {blocks : UInt32 → Option RxBlock} {blk : RxBlock}

@[simp] theorem survivors_zero : survivors clock pass base 0 blocks = blocks := rfl

theorem survivors_of_le (h : moves ≤ ahead base id) :
    survivors clock pass base moves blocks id = blocks id := if_neg (Nat.not_lt.mpr h)

theorem survivors_eq_some :
    survivors clock pass base moves blocks id = some blk ↔
      blocks id = some blk ∧
        (ahead base id < moves → blockDone blk (clock (pass + ahead base id)) = false) := by
  unfold survivors
  by_cases h : ahead base id < moves
  · rw [if_pos h, Option.filter_eq_some_iff]
    simp [h]
  · rw [if_neg h]
    simp [h]

theorem survivors_eq_none_of_none (h : blocks id = none) :
    survivors clock pass base moves blocks id = none := by
  unfold survivors
  rw [h, Option.filter_none, ite_self]

theorem survivors_succ (hmoves : moves < 2 ^ 32) :
    survivors clock pass base (moves + 1) blocks =
      survivors clock (pass + 1) (base + 1) moves (survivors clock pass base 1 blocks) := by
  funext id
  by_cases hbase : ahead base id = 0
  · have hid := eq_of_ahead_eq_zero hbase
    subst hid
    have hfar : moves ≤ ahead (id + 1) id := by
      rw [ahead_add_one_self]
      omega
    rw [survivors_of_le hfar]
    simp [survivors]
  · have hone := ahead_add_one (Nat.pos_of_ne_zero hbase)
    have hclock : pass + 1 + (ahead base id - 1) = pass + ahead base id := by omega
    have hlt : ahead base id - 1 < moves ↔ ahead base id < moves + 1 := by omega
    unfold survivors
    rw [hone, hclock, if_neg (by omega : ¬ ahead base id < 1)]
    simp only [hlt]

end Survivors

theorem survivors_of_advancePass (hwf : WellFormed W win) {clock : ℕ → UInt64} {pass : ℕ}
    {win' : RxWindow} (h : advancePass win W (clock pass) = (win', true)) :
    win'.baseId = win.baseId + 1 ∧ WellFormed W win' ∧
      held win' W = survivors clock pass win.baseId 1 (held win W) := by
  by_cases hdone : BaseDone win W (clock pass)
  · obtain ⟨blk, hheld, hblk⟩ := hdone
    obtain ⟨win₁, hpass, hbase, hwf', hmap⟩ := advancePass_of_baseDone hwf hheld hblk
    rw [h] at hpass
    cases hpass
    refine ⟨hbase, hwf', ?_⟩
    rw [hmap]
    funext id
    by_cases hid : id = win.baseId
    · subst hid
      rw [Function.update_self]
      simp [survivors, hheld, Option.filter, hblk]
    · have hpos : ahead win.baseId id ≠ 0 := fun h0 => hid (eq_of_ahead_eq_zero h0)
      rw [Function.update_of_ne hid, survivors_of_le (by omega)]
  · rw [advancePass_of_not_baseDone hdone] at h
    split_ifs at h with hnewer
    · cases h
      refine ⟨rfl, ⟨hwf.distinct, hwf.idle, hwf.counted⟩, ?_⟩
      change held win W = _
      funext id
      by_cases hid : id = win.baseId
      · subst hid
        cases hheld : held win W win.baseId with
        | none => rw [survivors_eq_none_of_none hheld]
        | some blk =>
            refine (survivors_eq_some.mpr ⟨hheld, fun _ => ?_⟩).symm
            rw [ahead_self, Nat.add_zero]
            exact Bool.eq_false_iff.mpr fun hblk => hdone ⟨blk, hheld, hblk⟩
      · have hpos : ahead win.baseId id ≠ 0 := fun h0 => hid (eq_of_ahead_eq_zero h0)
        rw [survivors_of_le (by omega)]
    · cases h

theorem advanceLoop_succ (clock : ℕ → UInt64) (fuel pass : ℕ) (win : RxWindow) :
    advanceLoop W clock (fuel + 1) pass win =
      if (advancePass win W (clock pass)).2 then
        advanceLoop W clock fuel (pass + 1) (advancePass win W (clock pass)).1
      else some ((advancePass win W (clock pass)).1, pass) := by
  rw [advanceLoop]
  rcases hpass : advancePass win W (clock pass) with ⟨win', moved⟩
  cases moved <;> rfl

theorem advanceLoop_of_moved {clock : ℕ → UInt64} {pass : ℕ} {win' : RxWindow}
    (h : advancePass win W (clock pass) = (win', true)) (fuel : ℕ) :
    advanceLoop W clock (fuel + 1) pass win = advanceLoop W clock fuel (pass + 1) win' := by
  rw [advanceLoop_succ, h, if_pos rfl]

theorem settled_of_advancePass (hwf : WellFormed W win) {win' : RxWindow}
    (h : advancePass win W nowUs = (win', false)) :
    win' = win ∧ ¬ BaseDone win W nowUs ∧ ¬ Newer win W := by
  by_cases hdone : BaseDone win W nowUs
  · obtain ⟨blk, hheld, hblk⟩ := hdone
    obtain ⟨win₁, hpass, _⟩ := advancePass_of_baseDone hwf hheld hblk
    rw [h] at hpass
    cases hpass
  · rw [advancePass_of_not_baseDone hdone] at h
    split_ifs at h with hnewer
    · cases h
    · cases h
      exact ⟨rfl, hdone, fun hn => hnewer ((hasNewer_iff hwf).mpr hn)⟩

theorem le_of_advanceLoop {clock : ℕ → UInt64} {fuel pass n : ℕ} {win' : RxWindow}
    (h : advanceLoop W clock fuel pass win = some (win', n)) : pass ≤ n := by
  induction fuel generalizing win pass with
  | zero => cases h
  | succ fuel ih =>
      rw [advanceLoop_succ] at h
      split_ifs at h with hmoved
      · have hle := ih h
        omega
      · cases h
        exact le_rfl

theorem advanceLoop_settled {clock : ℕ → UInt64} {fuel pass n : ℕ} {win' : RxWindow}
    (hwf : WellFormed W win) (h : advanceLoop W clock fuel pass win = some (win', n)) :
    WellFormed W win' ∧ ¬ BaseDone win' W (clock n) ∧ ¬ Newer win' W := by
  induction fuel generalizing win pass with
  | zero => cases h
  | succ fuel ih =>
      rcases hpass : advancePass win W (clock pass) with ⟨win₁, moved⟩
      cases moved with
      | true =>
          rw [advanceLoop_of_moved hpass] at h
          exact ih (survivors_of_advancePass hwf hpass).2.1 h
      | false =>
          obtain ⟨rfl, hdone, hnewer⟩ := settled_of_advancePass hwf hpass
          rw [advanceLoop_succ, hpass, if_neg Bool.false_ne_true] at h
          cases h
          exact ⟨hwf, hdone, hnewer⟩

/-- Whatever a call leaves in the window was there before. -/
theorem held_of_advanceLoop {clock : ℕ → UInt64} {fuel pass n : ℕ} {win' : RxWindow}
    (hwf : WellFormed W win) (h : advanceLoop W clock fuel pass win = some (win', n))
    {id : UInt32} {blk : RxBlock} (hheld : held win' W id = some blk) :
    held win W id = some blk := by
  induction fuel generalizing win pass with
  | zero => cases h
  | succ fuel ih =>
      rcases hpass : advancePass win W (clock pass) with ⟨win₁, moved⟩
      cases moved with
      | true =>
          rw [advanceLoop_of_moved hpass] at h
          obtain ⟨_, hwf₁, hmap⟩ := survivors_of_advancePass hwf hpass
          have hheld₁ := ih hwf₁ h
          rw [hmap] at hheld₁
          exact (survivors_eq_some.mp hheld₁).1
      | false =>
          obtain ⟨rfl, _, _⟩ := settled_of_advancePass hwf hpass
          rw [advanceLoop_succ, hpass, if_neg Bool.false_ne_true] at h
          cases h
          exact hheld

theorem advanceLoop_moves {clock : ℕ → UInt64} {fuel pass n : ℕ} {win' : RxWindow}
    (hwf : WellFormed W win) (h : advanceLoop W clock fuel pass win = some (win', pass + n))
    (hn : n < 2 ^ 32) :
    win'.baseId = win.baseId + UInt32.ofNat n ∧
      held win' W = survivors clock pass win.baseId n (held win W) := by
  induction fuel generalizing win pass n with
  | zero => cases h
  | succ fuel ih =>
      rcases hpass : advancePass win W (clock pass) with ⟨win₁, moved⟩
      cases moved with
      | true =>
          rw [advanceLoop_of_moved hpass] at h
          obtain ⟨hbase, hwf₁, hmap⟩ := survivors_of_advancePass hwf hpass
          have hle := le_of_advanceLoop h
          obtain ⟨m, rfl⟩ : ∃ m, n = m + 1 := ⟨n - 1, by omega⟩
          rw [show pass + (m + 1) = pass + 1 + m by omega] at h
          obtain ⟨hbase', hmap'⟩ := ih hwf₁ h (by omega)
          constructor
          · rw [hbase', hbase, Nat.add_comm m 1, UInt32.ofNat_add, ← UInt32.add_assoc]
            rfl
          · rw [hmap', hmap, hbase, ← survivors_succ (by omega)]
      | false =>
          obtain ⟨rfl, _, _⟩ := settled_of_advancePass hwf hpass
          rw [advanceLoop_succ, hpass, if_neg Bool.false_ne_true] at h
          simp only [Option.some.injEq, Prod.mk.injEq] at h
          obtain ⟨rfl, hpn⟩ := h
          obtain rfl : n = 0 := by omega
          exact ⟨(UInt32.add_zero _).symm, by rw [survivors_zero]⟩

/-! ## Towards a newer block -/

theorem advance_to (hwf : WellFormed W win) {id : UInt32} {blk : RxBlock}
    (hheld : held win W id = some blk) (hid : ahead win.baseId id < 2 ^ 31) (clock : ℕ → UInt64)
    (pass : ℕ) :
    ∃ win', win'.baseId = id ∧ WellFormed W win' ∧
      held win' W = survivors clock pass win.baseId (ahead win.baseId id) (held win W) ∧
      ∀ fuel, advanceLoop W clock (fuel + ahead win.baseId id) pass win =
        advanceLoop W clock fuel (pass + ahead win.baseId id) win' := by
  induction hd : ahead win.baseId id generalizing win pass with
  | zero =>
      refine ⟨win, (eq_of_ahead_eq_zero hd).symm, hwf, rfl, fun fuel => rfl⟩
  | succ d ih =>
      have hnewer : Newer win W := ⟨id, blk, hheld, by omega, hid⟩
      obtain ⟨win₁, hpass⟩ : ∃ win₁, advancePass win W (clock pass) = (win₁, true) := by
        by_cases hdone : BaseDone win W (clock pass)
        · obtain ⟨b, hb, hblk⟩ := hdone
          obtain ⟨win₁, hpass, _⟩ := advancePass_of_baseDone hwf hb hblk
          exact ⟨win₁, hpass⟩
        · exact ⟨_, advancePass_of_newer hwf hdone hnewer⟩
      obtain ⟨hbase, hwf₁, hmap⟩ := survivors_of_advancePass hwf hpass
      have hd₁ : ahead win₁.baseId id = d := by
        rw [hbase, ahead_add_one (by omega), hd]
        rfl
      have hheld₁ : held win₁ W id = some blk := by
        rw [hmap, survivors_of_le (by omega), hheld]
      obtain ⟨win', hbase', hwf', hmap', hloop⟩ := ih hwf₁ hheld₁ (by omega) (pass + 1) hd₁
      refine ⟨win', hbase', hwf', ?_, fun fuel => ?_⟩
      · rw [hmap', hmap, hbase, ← survivors_succ (by omega)]
      · rw [← Nat.add_assoc fuel d 1, advanceLoop_of_moved hpass, hloop]
        congr 1
        omega

theorem advance_idle (hwf : WellFormed W win) (hbase : held win W win.baseId = none)
    (hnewer : ¬ Newer win W) (clock : ℕ → UInt64) (fuel pass : ℕ) :
    advanceLoop W clock (fuel + 1) pass win = some (win, pass) := by
  have hdone : ¬ BaseDone win W (clock pass) := by
    rintro ⟨blk, hheld, _⟩
    rw [hbase] at hheld
    cases hheld
  rw [advanceLoop_succ, advancePass_of_settled hwf hdone hnewer, if_neg Bool.false_ne_true]

/-- `base_id` stops at a block, or just past it when that block is done, if nothing held is
newer there. -/
theorem advance_stops (hwf : WellFormed W win) {id : UInt32} {blk : RxBlock} {clock : ℕ → UInt64}
    (hheld : held win W id = some blk) (hid : ahead win.baseId id < 2 ^ 31)
    (hbehind : ∀ x b, held win W x = some b → x ≠ id → 2 ^ 31 ≤ ahead id x ∧
      (blockDone blk (clock (ahead win.baseId id)) = true → 2 ^ 31 ≤ ahead (id + 1) x))
    {fuel : ℕ} (hfuel : ahead win.baseId id + 2 ≤ fuel) :
    ∃ win' n, rxWindowAdvance fuel win W clock = some (win', n) ∧ WellFormed W win' ∧
      held win' W = survivors clock 0 win.baseId (ahead win.baseId id + 1) (held win W) ∧
      win'.baseId = (if blockDone blk (clock (ahead win.baseId id)) then id + 1 else id) ∧
      n = (if blockDone blk (clock (ahead win.baseId id)) then ahead win.baseId id + 1
        else ahead win.baseId id) := by
  obtain ⟨win₁, hbase₁, hwf₁, hmap₁, hloop⟩ := advance_to hwf hheld hid clock 0
  set d := ahead win.baseId id with hd
  have hheld₁ : held win₁ W id = some blk := by
    rw [hmap₁, survivors_of_le le_rfl, hheld]
  have hold : ∀ {x b}, held win₁ W x = some b → held win W x = some b := by
    intro x b hx
    rw [hmap₁] at hx
    exact (survivors_eq_some.mp hx).1
  obtain ⟨f, rfl⟩ : ∃ f, fuel = f + 1 + 1 + d := ⟨fuel - 2 - d, by omega⟩
  have hrun : rxWindowAdvance (f + 1 + 1 + d) win W clock =
      advanceLoop W clock (f + 1 + 1) d win₁ := by
    rw [rxWindowAdvance, hloop, Nat.zero_add]
  have hlast : survivors clock 0 win.baseId (d + 1) (held win W) =
      survivors clock d id 1 (held win₁ W) := by
    funext x
    by_cases hx : x = id
    · subst hx
      rw [hmap₁]
      simp [survivors, ← hd]
    · have hne : ahead win.baseId x ≠ d := fun heq =>
        hx (eq_of_ahead_eq_zero (by rw [ahead_of_le (by omega : d ≤ ahead win.baseId x)]; omega))
      have hpos : ahead id x ≠ 0 := fun h0 => hx (eq_of_ahead_eq_zero h0)
      rw [survivors_of_le (by omega : 1 ≤ ahead id x), hmap₁]
      unfold survivors
      have hlt : ahead win.baseId x < d + 1 ↔ ahead win.baseId x < d := by omega
      simp only [hlt]
  rw [hrun, hlast]
  by_cases hblk : blockDone blk (clock d) = true
  · obtain ⟨win₂, hpass, _⟩ :=
      advancePass_of_baseDone hwf₁ (by rw [hbase₁]; exact hheld₁) hblk
    obtain ⟨hbase₂, hwf₂, hmap₂⟩ := survivors_of_advancePass hwf₁ hpass
    rw [hbase₁] at hbase₂ hmap₂
    have hfar : ∀ {x b}, held win₂ W x = some b → 2 ^ 31 ≤ ahead (id + 1) x := by
      intro x b hx
      rw [hmap₂] at hx
      by_cases hxid : x = id
      · rw [hxid, ahead_add_one_self]
        omega
      · exact (hbehind x b (hold (survivors_eq_some.mp hx).1) hxid).2 hblk
    have hnone : held win₂ W win₂.baseId = none := by
      rw [hbase₂]
      by_contra hsome
      obtain ⟨b, hb⟩ := Option.ne_none_iff_exists'.mp hsome
      have hb' := hfar hb
      rw [ahead_self] at hb'
      omega
    have hnewer : ¬ Newer win₂ W := by
      rintro ⟨x, b, hx, _, hlt⟩
      rw [hbase₂] at hlt
      have hx' := hfar hx
      omega
    refine ⟨win₂, d + 1, ?_, hwf₂, hmap₂, ?_, ?_⟩
    · rw [advanceLoop_of_moved hpass, advance_idle hwf₂ hnone hnewer]
    · rw [if_pos hblk, hbase₂]
    · rw [if_pos hblk]
  · have hdone : ¬ BaseDone win₁ W (clock d) := by
      rintro ⟨b, hb, hbdone⟩
      rw [hbase₁, hheld₁] at hb
      cases hb
      exact hblk hbdone
    have hnewer : ¬ Newer win₁ W := by
      rintro ⟨x, b, hx, hpos, hlt⟩
      rw [hbase₁] at hpos hlt
      by_cases hxid : x = id
      · rw [hxid, ahead_self] at hpos
        omega
      · exact absurd (hbehind x b (hold hx) hxid).1 (not_le.mpr hlt)
    refine ⟨win₁, d, ?_, hwf₁, ?_, ?_, ?_⟩
    · rw [advanceLoop_succ, advancePass_of_settled hwf₁ hdone hnewer, if_neg Bool.false_ne_true]
    · funext x
      by_cases hx : x = id
      · rw [hx, hheld₁]
        refine (survivors_eq_some.mpr ⟨hheld₁, fun _ => ?_⟩).symm
        rw [ahead_self, Nat.add_zero]
        exact Bool.eq_false_iff.mpr hblk
      · have hpos : ahead id x ≠ 0 := fun h0 => hx (eq_of_ahead_eq_zero h0)
        rw [survivors_of_le (by omega)]
    · rw [if_neg hblk, hbase₁]
    · rw [if_neg hblk]

theorem advance_settles (hwf : WellFormed W win) {id : UInt32} {blk : RxBlock}
    (hheld : held win W id = some blk) (hid : ahead win.baseId id < 2 ^ 31)
    (hnewest : ∀ x b, held win W x = some b → x ≠ id → 2 ^ 31 < ahead id x)
    (clock : ℕ → UInt64) {fuel : ℕ} (hfuel : ahead win.baseId id + 2 ≤ fuel) :
    ∃ win' n, rxWindowAdvance fuel win W clock = some (win', n) ∧ WellFormed W win' ∧
      held win' W = survivors clock 0 win.baseId (ahead win.baseId id + 1) (held win W) ∧
      win'.baseId = (if blockDone blk (clock (ahead win.baseId id)) then id + 1 else id) ∧
      n = (if blockDone blk (clock (ahead win.baseId id)) then ahead win.baseId id + 1
        else ahead win.baseId id) := by
  refine advance_stops hwf hheld hid (fun x b hx hne => ?_) hfuel
  have hfar := hnewest x b hx hne
  have hnext : ahead (id + 1) x = ahead id x - 1 := ahead_add_one (by omega)
  exact ⟨hfar.le, fun _ => by omega⟩

end CodingGateway.Proofs.Advance
