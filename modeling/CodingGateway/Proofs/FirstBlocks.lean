import CodingGateway.Proofs.ReceiveLoop
set_option autoImplicit false

/-!
# A window within its first blocks

As long as only shards of the `W` blocks from some id `b` on arrive, `base_id` stays among
them, nothing ahead of it is held, and a shard of a newer block moves it up at once.
-/

namespace CodingGateway.Proofs.FirstBlocks

open CodingGateway.Model
open CodingGateway.Library
open CodingGateway.Proofs.Advance
open CodingGateway.Proofs.ReceiveLoop
open CodingGateway.Proofs.Window

/-- The id of block number `j`. -/
def nth (b : UInt32) (j : ℕ) : UInt32 := b + UInt32.ofNat j

theorem ahead_nth_of_le (b : UInt32) {i j : ℕ} (hij : i ≤ j) (hj : j < 2 ^ 32) :
    ahead (nth b i) (nth b j) = j - i := by
  have hi := ahead_add_ofNat b (hij.trans_lt hj)
  have hj' := ahead_add_ofNat b hj
  unfold nth
  rw [ahead_of_le (a := b) (by omega), hi, hj']

theorem ahead_nth_of_lt (b : UInt32) {i j : ℕ} (hji : j < i) (hi : i < 2 ^ 32) :
    ahead (nth b i) (nth b j) = 2 ^ 32 + j - i := by
  have hi' := ahead_add_ofNat b hi
  have hj := ahead_add_ofNat b (hji.trans hi)
  unfold nth
  rw [ahead_of_lt (a := b) (by omega), hi', hj]

theorem nth_injective (b : UInt32) {i j : ℕ} (hi : i < 2 ^ 32) (hj : j < 2 ^ 32)
    (h : nth b i = nth b j) : i = j := by
  have hi' := ahead_add_ofNat b hi
  have hj' := ahead_add_ofNat b hj
  unfold nth at h
  rw [h, hj'] at hi'
  exact hi'.symm

theorem nth_succ (b : UInt32) (j : ℕ) : nth b j + 1 = nth b (j + 1) := by
  unfold nth
  rw [UInt32.ofNat_add, UInt32.add_assoc]
  rfl

/-- `base_id` is at block number `pos`, and every block held is one of the first `W` and not
ahead of it. -/
structure Within (W : ℕ) (b : UInt32) (pos : ℕ) (win : RxWindow) : Prop where
  wf : WellFormed W win
  base : win.baseId = nth b pos
  le : pos ≤ W
  behind : ∀ id rb, held win W id = some rb → ∃ j ≤ pos, j < W ∧ id = nth b j

/-- What a step does when a shard of block `C` arrives: `base_id` moves up to the newest block,
or past it if that is done, and blocks that are not done stay. -/
structure Moved (W : ℕ) (b : UInt32) (pos C : ℕ) (tried : RxWindow) (clock : ℕ → UInt64)
    (pos' : ℕ) (win' : RxWindow) : Prop where
  le : max pos C ≤ pos'
  stop : pos' = max pos C ∨ pos' = max pos C + 1 ∧ ∃ rb,
    held tried W (nth b (max pos C)) = some rb ∧ ∃ p, blockDone rb (clock p) = true
  old : ∀ id rb, held win' W id = some rb → held tried W id = some rb
  keeps : ∀ id rb, held tried W id = some rb → (∀ p, blockDone rb (clock p) = false) →
    held win' W id = some rb

section Step

variable {W : ℕ} {b : UInt32} {pos : ℕ} {win : RxWindow} {a : Arrival} {crypto : CryptoCtx} {C : ℕ}
  (hW : W ≤ maxWindow) (h : Within W b pos win) (hC : C < W) (ha : a.hdr.blockId = nth b C)
include hW h hC ha

theorem behind_attempted {id : UInt32} {rb : RxBlock}
    (hheld : held (attempted W crypto win a).1 W id = some rb) :
    ∃ j ≤ max pos C, j < W ∧ id = nth b j := by
  by_cases hid : id = a.hdr.blockId
  · exact ⟨C, Nat.le_max_right .., hC, hid.trans ha⟩
  · rw [held_attempted_of_ne hW h.wf hid] at hheld
    obtain ⟨j, hj, hjW, hid⟩ := h.behind id rb hheld
    exact ⟨j, by omega, hjW, hid⟩

theorem accepts_of_fresh (hpos : pos ≤ C) (hnone : held win W a.hdr.blockId = none)
    (hidx : a.hdr.shardIdx.toNat < maxN) :
    Accepts win W a.hdr { zeroBlock with blockId := a.hdr.blockId } := by
  unfold maxWindow at hW
  have hinside : ahead win.baseId a.hdr.blockId < W := by
    rw [h.base, ha, ahead_nth_of_le b hpos (by omega)]
    omega
  have hfree : ∃ i, SlotTable.freeSlot live win.slots W = some i := by
    refine SlotTable.exists_free h.wf.distinct ((Finset.range C).image (nth b)) ?_ ?_
    · have hcard := Finset.card_image_le (s := Finset.range C) (f := nth b)
      rw [Finset.card_range] at hcard
      omega
    · intro id rb hheld
      obtain ⟨j, hj, _, rfl⟩ := h.behind id rb hheld
      rw [Finset.mem_image]
      refine ⟨j, Finset.mem_range.mpr (lt_of_le_of_ne (hj.trans hpos) fun heq => ?_), rfl⟩
      change held win W (nth b j) = some rb at hheld
      rw [heq, ← ha, hnone] at hheld
      cases hheld
  exact ⟨target_of_free hinside hnone hfree, rfl, hidx, rfl⟩

theorem exists_held_attempted (crypto : CryptoCtx) (hpos : pos ≤ C)
    (hidx : a.hdr.shardIdx.toNat < maxN) :
    ∃ rb, held (attempted W crypto win a).1 W (nth b C) = some rb := by
  rw [← ha]
  by_cases hacc : ∃ rb, Accepts win W a.hdr rb
  · obtain ⟨rb, hacc⟩ := hacc
    obtain ⟨rb', hheld, _⟩ := held_attempted_of_accepts hW h.wf crypto hacc
    exact ⟨rb', hheld⟩
  · cases hold : held win W a.hdr.blockId with
    | none => exact absurd ⟨_, accepts_of_fresh hW h hC ha hpos hold hidx⟩ hacc
    | some rb =>
        have hsame : held (inserted W crypto win a) W a.hdr.blockId = some rb := by
          obtain ⟨_, _, ⟨rb', hacc', _⟩ | ⟨_, hmap⟩⟩ := inserted_spec hW h.wf crypto a
          · exact absurd ⟨rb', hacc'⟩ hacc
          · rw [hmap, hold]
        rcases held_attempted_cases hW h.wf crypto a with ⟨rb', _, hmap⟩ | hmap
        · rw [hmap, Function.update_self]
          exact ⟨_, rfl⟩
        · rw [hmap, hsame]
          exact ⟨rb, rfl⟩

theorem within_rxStep {fuel : ℕ} (crypto : CryptoCtx) (hidx : a.hdr.shardIdx.toNat < maxN)
    (hfuel : W + 2 ≤ fuel) :
    ∃ win' out pos', rxStep fuel W crypto win a = some (win', out) ∧ Within W b pos' win' ∧
      Moved W b pos C (attempted W crypto win a).1 a.advanceUs pos' win' := by
  have hle := h.le
  have hmax : W ≤ 16 := hW
  cases hnewest : held (attempted W crypto win a).1 W (nth b (max pos C)) with
  | some rb =>
      have hlt : max pos C < W := by
        obtain ⟨j, _, hjW, hj⟩ := behind_attempted hW h hC ha hnewest
        rw [nth_injective b (by omega) (by omega) hj]
        exact hjW
      have hahead : ahead win.baseId (nth b (max pos C)) = max pos C - pos := by
        rw [h.base, ahead_nth_of_le b (Nat.le_max_left ..) (by omega)]
      have hothers : ∀ x rb', held (attempted W crypto win a).1 W x = some rb' →
          x ≠ nth b (max pos C) → 2 ^ 31 < ahead (nth b (max pos C)) x := by
        intro x rb' hx hne
        obtain ⟨j, hj, hjW, rfl⟩ := behind_attempted hW h hC ha hx
        have hjlt : j < max pos C := lt_of_le_of_ne hj fun heq => hne (by rw [heq])
        rw [ahead_nth_of_lt b hjlt (by omega)]
        omega
      have hroom : ahead win.baseId (nth b (max pos C)) + 2 ≤ fuel := by
        rw [hahead]
        omega
      obtain ⟨win', moves, hstep, hwf', hheld', hbase'⟩ :=
        rxStep_of_newest hW h.wf crypto hnewest (by omega) hothers hroom
      have hkeep : ∀ id rb', held (attempted W crypto win a).1 W id = some rb' →
          (∀ p, blockDone rb' (a.advanceUs p) = false) → held win' W id = some rb' := by
        intro id rb' hid hnot
        rw [hheld']
        exact survivors_eq_some.mpr ⟨hid, fun _ => hnot _⟩
      have hold : ∀ id rb', held win' W id = some rb' →
          held (attempted W crypto win a).1 W id = some rb' := by
        intro id rb' hid
        rw [hheld'] at hid
        exact (survivors_eq_some.mp hid).1
      have hbehind : ∀ pos', max pos C ≤ pos' → ∀ id rb', held win' W id = some rb' →
          ∃ j ≤ pos', j < W ∧ id = nth b j := by
        intro pos' hpos' id rb' hid
        obtain ⟨j, hj, hjW, heq⟩ := behind_attempted hW h hC ha (hold id rb' hid)
        exact ⟨j, hj.trans hpos', hjW, heq⟩
      by_cases hdone : blockDone rb (a.advanceUs (ahead win.baseId (nth b (max pos C)))) = true
      · rw [if_pos hdone, nth_succ] at hbase'
        exact ⟨win', _, max pos C + 1, hstep,
          ⟨hwf', hbase', hlt, hbehind _ (Nat.le_succ _)⟩, Nat.le_succ _,
          Or.inr ⟨rfl, rb, hnewest, _, hdone⟩, hold, hkeep⟩
      · rw [if_neg hdone] at hbase'
        exact ⟨win', _, max pos C, hstep, ⟨hwf', hbase', hlt.le, hbehind _ le_rfl⟩, le_rfl,
          Or.inl rfl, hold, hkeep⟩
  | none =>
      have hlow : C < pos := by
        by_contra hge
        obtain ⟨rb, hrb⟩ := exists_held_attempted hW h hC ha crypto (Nat.not_lt.mp hge) hidx
        rw [Nat.max_eq_right (Nat.not_lt.mp hge), hrb] at hnewest
        cases hnewest
      rw [Nat.max_eq_left hlow.le] at hnewest
      have hbase := attempted_baseId hW h.wf crypto a
      have hnewer : ¬ Newer (attempted W crypto win a).1 W := by
        rintro ⟨id, rb, hid, hpos, hhalf⟩
        obtain ⟨j, hj, hjW, rfl⟩ := behind_attempted hW h hC ha hid
        rw [Nat.max_eq_left hlow.le] at hj
        rw [hbase, h.base] at hpos hhalf
        rcases Nat.lt_or_eq_of_le hj with hlt | rfl
        · rw [ahead_nth_of_lt b hlt (by omega)] at hhalf
          omega
        · rw [ahead_self] at hpos
          omega
      obtain ⟨fuel, rfl⟩ : ∃ f, fuel = f + 1 := ⟨fuel - 1, by omega⟩
      have hidle : held (attempted W crypto win a).1 W win.baseId = none := by
        rw [h.base]
        exact hnewest
      have hstep := rxStep_of_idle hW h.wf crypto hidle hnewer fuel
      have hwf' := attempted_wellFormed hW h.wf crypto a
      refine ⟨_, _, pos, hstep, ⟨hwf', hbase.trans h.base, hle, ?_⟩,
        (Nat.max_eq_left hlow.le).le, Or.inl (Nat.max_eq_left hlow.le).symm, fun _ _ hid => hid,
        fun _ _ hid _ => hid⟩
      intro id rb hid
      obtain ⟨j, hj, hjW, heq⟩ := behind_attempted hW h hC ha hid
      exact ⟨j, by omega, hjW, heq⟩

end Step

end CodingGateway.Proofs.FirstBlocks
