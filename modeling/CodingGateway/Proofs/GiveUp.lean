import CodingGateway.Proofs.Turns
import Mathlib.Data.Nat.Find
set_option autoImplicit false

/-!
# What one call gives up

One call of `rx_window_advance`, turn by turn, on a window in any state.  It frees the
first slot of a base block that is done, but its second reason to move `base_id`, a
newer block, does not look at the base block at all.

* `windowAt_eq_cleared` — the window as long as only done blocks are passed;
* `givesUpRightly_iff` — when a call passes only blocks that may be given up.
-/

namespace CodingGateway.Proofs.GiveUp

open CodingGateway.Model
open CodingGateway.Proofs.Window
open CodingGateway.Proofs.Advance (Expired)
open CodingGateway.Proofs.Turns (windowAt moves rxWindowAdvance_eq_windowAt)

variable {W : ℕ} {clock : ℕ → UInt64} {win : RxWindow} {nowUs : UInt64} {p i : ℕ}

/-! ## The law of a turn -/

/-- The block is decoded, or its first shard arrived at least 50 ms ago. -/
def MayGiveUp (blk : RxBlock) (nowUs : UInt64) : Prop :=
  blk.decoded = true ∨ Expired blk nowUs

instance (blk : RxBlock) (nowUs : UInt64) : Decidable (MayGiveUp blk nowUs) :=
  inferInstanceAs (Decidable (_ ∨ _))

theorem MayGiveUp.blockDone {blk : RxBlock} (h : MayGiveUp blk nowUs) :
    blockDone blk nowUs = true := by
  rcases h with hdec | hexp
  · rw [Model.blockDone, hdec, Bool.true_or]
  · exact hexp.blockDone

/-- Every turn of the call that moves `base_id` past the block of an occupied slot finds a
block that may be given up, and frees the slot. -/
def GivesUpRightly (W : ℕ) (clock : ℕ → UInt64) (win : RxWindow) : Prop :=
  ∀ p, (∀ q ≤ p, moves W clock win q = true) → ∀ i < W,
    0 < ((windowAt W clock win p).slots i).recvCount →
    ((windowAt W clock win p).slots i).blockId = (windowAt W clock win p).baseId →
      MayGiveUp ((windowAt W clock win p).slots i) (clock p) ∧
        ((windowAt W clock win (p + 1)).slots i).recvCount = 0

/-! ## Slots by their distance from `base_id` -/

/-- Slot `i` is occupied by a block `p` ahead of `base_id`. -/
def At (W : ℕ) (win : RxWindow) (p i : ℕ) : Prop :=
  i < W ∧ 0 < (win.slots i).recvCount ∧ ahead win.baseId (win.slots i).blockId = p

/-- Slot `i` is the first one with a block `p` ahead. -/
def FirstAt (W : ℕ) (win : RxWindow) (p i : ℕ) : Prop :=
  At W win p i ∧ ∀ j < i, ¬ At W win p j

/-- Some block is newer than the one `p` ahead, in serial order. -/
def NewerThan (W : ℕ) (win : RxWindow) (p : ℕ) : Prop :=
  ∃ d j, At W win d j ∧ p < d ∧ d < p + 2 ^ 31

theorem exists_firstAt (h : At W win p i) : ∃ j, FirstAt W win p j := by
  classical
  have hsome : ∃ j, At W win p j := ⟨i, h⟩
  exact ⟨Nat.find hsome, Nat.find_spec hsome, fun j hj => Nat.find_min hsome hj⟩

theorem firstAt_unique {j : ℕ} (hi : FirstAt W win p i) (hj : FirstAt W win p j) : i = j := by
  rcases lt_trichotomy i j with hlt | heq | hgt
  · exact absurd hi.1 (hj.2 i hlt)
  · exact heq
  · exact absurd hj.1 (hi.2 j hgt)

theorem at_zero_iff : At W win 0 i ↔
    i < W ∧ 0 < (win.slots i).recvCount ∧ (win.slots i).blockId = win.baseId := by
  constructor
  · rintro ⟨hi, hocc, hzero⟩
    exact ⟨hi, hocc, eq_of_ahead_eq_zero hzero⟩
  · rintro ⟨hi, hocc, hid⟩
    exact ⟨hi, hocc, by rw [hid, ahead_self]⟩

theorem baseSlot_eq_some : baseSlot win W = some i ↔ FirstAt W win 0 i := by
  have hholds (j : ℕ) : (decide (0 < (win.slots j).recvCount) &&
      (win.slots j).blockId == win.baseId) = true ↔
        0 < (win.slots j).recvCount ∧ (win.slots j).blockId = win.baseId := by
    rw [Bool.and_eq_true, decide_eq_true_iff, beq_iff_eq]
  rw [baseSlot, List.find?_range_eq_some]
  simp only [Bool.not_eq_true', ← Bool.not_eq_true, hholds, List.mem_range, FirstAt, at_zero_iff]
  constructor
  · rintro ⟨hocc, hi, hfirst⟩
    exact ⟨⟨hi, hocc⟩, fun j hj hat => hfirst j hj hat.2⟩
  · rintro ⟨⟨hi, hocc⟩, hfirst⟩
    exact ⟨hocc, hi, fun j hj hat => hfirst j hj ⟨hj.trans hi, hat⟩⟩

theorem hasNewer_iff : hasNewer win W = true ↔ NewerThan W win 0 := by
  rw [hasNewer, List.any_eq_true]
  simp only [Bool.and_eq_true, decide_eq_true_eq, serialDiff_pos_iff, List.mem_range]
  constructor
  · rintro ⟨j, hj, hocc, hpos, hlt⟩
    exact ⟨_, j, ⟨hj, hocc, rfl⟩, hpos, by omega⟩
  · rintro ⟨d, j, ⟨hj, hocc, rfl⟩, hpos, hlt⟩
    exact ⟨j, hj, hocc, hpos, by omega⟩

/-! ## One turn -/

/-- The block at `base_id` is done. -/
def DoneAt (W : ℕ) (clock : ℕ → UInt64) (win : RxWindow) (p : ℕ) : Prop :=
  ∃ i, FirstAt W win p i ∧ blockDone (win.slots i) (clock p) = true

theorem advancePass_of_done (hfirst : FirstAt W win 0 i)
    (hdone : blockDone (win.slots i) nowUs = true) :
    advancePass win W nowUs =
      ({ win.setSlot i zeroBlock with baseId := win.baseId + 1 }, true) := by
  rw [advancePass, baseSlot_eq_some.mpr hfirst]
  exact if_pos hdone

theorem advancePass_of_waiting
    (hwait : ∀ i, FirstAt W win 0 i → blockDone (win.slots i) nowUs = false) :
    advancePass win W nowUs =
      if hasNewer win W then ({ win with baseId := win.baseId + 1 }, true) else (win, false) := by
  unfold advancePass
  cases hbase : baseSlot win W with
  | none => rfl
  | some i =>
      have hnot : ¬ blockDone (win.slots i) nowUs = true :=
        Bool.not_eq_true _ ▸ hwait i (baseSlot_eq_some.mp hbase)
      exact if_neg hnot

/-! ## Passing done blocks only -/

/-- The window moved by `p`, the slots of the blocks passed being free. -/
def cleared (W : ℕ) (win : RxWindow) (p : ℕ) : RxWindow where
  slots i :=
    if i < W ∧ 0 < (win.slots i).recvCount ∧ ahead win.baseId (win.slots i).blockId < p then
      zeroBlock
    else win.slots i
  baseId := win.baseId + UInt32.ofNat p

@[simp] theorem cleared_zero : cleared W win 0 = win := by
  simp [cleared]

theorem cleared_slot_of_at {d : ℕ} (h : At W win d i) (hpd : p ≤ d) :
    (cleared W win p).slots i = win.slots i := by
  apply if_neg
  rintro ⟨-, -, hlt⟩
  have hd := h.2.2
  omega

theorem at_cleared {d : ℕ} : At W (cleared W win p) d i ↔ At W win (p + d) i := by
  have hbase (id : UInt32) (hle : p ≤ ahead win.baseId id) :
      ahead (cleared W win p).baseId id = ahead win.baseId id - p := by
    have hp : p < 2 ^ 32 := hle.trans_lt (ahead_lt _ _)
    have hself := ahead_add_ofNat win.baseId hp
    have hfar := ahead_of_le (hself.symm ▸ hle : ahead win.baseId _ ≤ ahead win.baseId id)
    rw [hself] at hfar
    exact hfar
  constructor
  · rintro ⟨hi, hocc, hd⟩
    by_cases hpassed : i < W ∧ 0 < (win.slots i).recvCount ∧
        ahead win.baseId (win.slots i).blockId < p
    · have hfree : (cleared W win p).slots i = zeroBlock := if_pos hpassed
      rw [hfree] at hocc
      exact absurd hocc (Nat.lt_irrefl 0)
    · have hkeep : (cleared W win p).slots i = win.slots i := if_neg hpassed
      rw [hkeep] at hocc hd
      have hle : p ≤ ahead win.baseId (win.slots i).blockId :=
        not_lt.mp fun hlt => hpassed ⟨hi, hocc, hlt⟩
      rw [hbase _ hle] at hd
      exact ⟨hi, hocc, by omega⟩
  · intro hat
    have hkeep := cleared_slot_of_at hat (Nat.le_add_right p d)
    obtain ⟨hi, hocc, hd⟩ := hat
    refine ⟨hi, by rw [hkeep]; exact hocc, ?_⟩
    rw [hkeep, hbase _ (by omega)]
    omega

theorem firstAt_cleared : FirstAt W (cleared W win p) 0 i ↔ FirstAt W win p i := by
  simp only [FirstAt, at_cleared, Nat.add_zero]

theorem newerThan_cleared : NewerThan W (cleared W win p) 0 ↔ NewerThan W win p := by
  constructor
  · rintro ⟨d, j, hat, hpos, hlt⟩
    exact ⟨p + d, j, at_cleared.mp hat, by omega, by omega⟩
  · rintro ⟨d, j, hat, hpos, hlt⟩
    have hd : p + (d - p) = d := by omega
    exact ⟨d - p, j, at_cleared.mpr (hd.symm ▸ hat), by omega, by omega⟩

theorem cleared_slot_of_firstAt (h : FirstAt W win p i) :
    (cleared W win p).slots i = win.slots i := cleared_slot_of_at h.1 le_rfl

theorem cleared_baseId_succ :
    (cleared W win p).baseId + 1 = (cleared W win (p + 1)).baseId := by
  show win.baseId + UInt32.ofNat p + 1 = win.baseId + UInt32.ofNat (p + 1)
  rw [UInt32.ofNat_add, ← UInt32.add_assoc]
  rfl

theorem cleared_slot_succ (hi : ¬ At W win p i) :
    (cleared W win p).slots i = (cleared W win (p + 1)).slots i := by
  have hiff : (i < W ∧ 0 < (win.slots i).recvCount ∧
      ahead win.baseId (win.slots i).blockId < p) ↔
        (i < W ∧ 0 < (win.slots i).recvCount ∧
          ahead win.baseId (win.slots i).blockId < p + 1) := by
    constructor
    · rintro ⟨hW, hocc, hlt⟩
      exact ⟨hW, hocc, by omega⟩
    · rintro ⟨hW, hocc, hlt⟩
      have hne : ahead win.baseId (win.slots i).blockId ≠ p := fun h => hi ⟨hW, hocc, h⟩
      exact ⟨hW, hocc, by omega⟩
  simp only [cleared, hiff]

theorem cleared_succ_of_only (hat : At W win p i) (honly : ∀ j, At W win p j → j = i) :
    { (cleared W win p).setSlot i zeroBlock with baseId := (cleared W win p).baseId + 1 } =
      cleared W win (p + 1) := by
  have hslots : Function.update (cleared W win p).slots i zeroBlock =
      (cleared W win (p + 1)).slots := by
    funext j
    by_cases hj : j = i
    · rw [hj, Function.update_self]
      obtain ⟨hW, hocc, hp⟩ := hat
      exact (if_pos ⟨hW, hocc, by omega⟩).symm
    · rw [Function.update_of_ne hj]
      exact cleared_slot_succ fun hat' => hj (honly j hat')
  exact congr (congrArg RxWindow.mk hslots) cleared_baseId_succ

theorem cleared_succ_of_none (hnone : ∀ j, ¬ At W win p j) :
    { cleared W win p with baseId := (cleared W win p).baseId + 1 } = cleared W win (p + 1) := by
  have hslots : (cleared W win p).slots = (cleared W win (p + 1)).slots := by
    funext j
    exact cleared_slot_succ (hnone j)
  exact congr (congrArg RxWindow.mk hslots) cleared_baseId_succ

/-- Turn `p` moves `base_id` if the turns before passed done blocks only. -/
def MovesAt (W : ℕ) (clock : ℕ → UInt64) (win : RxWindow) (p : ℕ) : Prop :=
  DoneAt W clock win p ∨ NewerThan W win p

/-- When the code takes the first slot `p` ahead for done, its block may be given up and no
other slot has its id; when not, no block is newer. -/
def RightAt (W : ℕ) (clock : ℕ → UInt64) (win : RxWindow) (p : ℕ) : Prop :=
  ∀ i, FirstAt W win p i →
    if blockDone (win.slots i) (clock p) then
      MayGiveUp (win.slots i) (clock p) ∧ ∀ j, At W win p j → j = i
    else ¬ NewerThan W win p

theorem moves_iff (h : windowAt W clock win p = cleared W win p) :
    moves W clock win p = true ↔ MovesAt W clock win p := by
  unfold moves
  rw [h]
  by_cases hdone : DoneAt W clock win p
  · obtain ⟨i, hfirst, hi⟩ := hdone
    have hslot := cleared_slot_of_firstAt hfirst
    rw [advancePass_of_done (firstAt_cleared.mpr hfirst) (by rw [hslot]; exact hi)]
    exact iff_of_true rfl (Or.inl ⟨i, hfirst, hi⟩)
  · have hwait : ∀ i, FirstAt W (cleared W win p) 0 i →
        blockDone ((cleared W win p).slots i) (clock p) = false := by
      intro i hfirst
      have hfirst' := firstAt_cleared.mp hfirst
      rw [cleared_slot_of_firstAt hfirst']
      exact Bool.eq_false_iff.mpr fun hi => hdone ⟨i, hfirst', hi⟩
    rw [advancePass_of_waiting hwait, MovesAt, or_iff_right hdone, ← newerThan_cleared,
      ← hasNewer_iff]
    split_ifs with hnewer
    · exact iff_of_true rfl hnewer
    · exact iff_of_false nofun hnewer

theorem cleared_of_moves (h : windowAt W clock win p = cleared W win p)
    (hmoves : MovesAt W clock win p) (hright : RightAt W clock win p) :
    windowAt W clock win (p + 1) = cleared W win (p + 1) := by
  have hnext : windowAt W clock win (p + 1) = (advancePass (cleared W win p) W (clock p)).1 := by
    rw [windowAt, h]
  rw [hnext]
  by_cases hsome : ∃ i, At W win p i
  · obtain ⟨_, hat⟩ := hsome
    obtain ⟨i, hfirst⟩ := exists_firstAt hat
    have hi := hright i hfirst
    split_ifs at hi with hdone
    · have hslot := cleared_slot_of_firstAt hfirst
      rw [advancePass_of_done (firstAt_cleared.mpr hfirst) (by rw [hslot]; exact hdone)]
      exact cleared_succ_of_only hfirst.1 hi.2
    · rcases hmoves with ⟨j, hj, hjdone⟩ | hnewer
      · rw [firstAt_unique hj hfirst] at hjdone
        exact absurd hjdone hdone
      · exact absurd hnewer hi
  · have hnone : ∀ j, ¬ At W win p j := fun j hj => hsome ⟨j, hj⟩
    have hwait : ∀ i, FirstAt W (cleared W win p) 0 i →
        blockDone ((cleared W win p).slots i) (clock p) = false :=
      fun i hfirst => absurd (firstAt_cleared.mp hfirst).1 (hnone i)
    rw [advancePass_of_waiting hwait, if_pos]
    · exact cleared_succ_of_none hnone
    · rw [hasNewer_iff, newerThan_cleared]
      rcases hmoves with ⟨j, hj, -⟩ | hnewer
      · exact absurd hj.1 (hnone j)
      · exact hnewer

theorem windowAt_eq_cleared (hmoves : ∀ q < p, MovesAt W clock win q)
    (hright : ∀ q < p, RightAt W clock win q) :
    windowAt W clock win p = cleared W win p := by
  induction p with
  | zero => exact cleared_zero.symm
  | succ p ih =>
      have hp := ih (fun q hq => hmoves q (by omega)) fun q hq => hright q (by omega)
      exact cleared_of_moves hp (hmoves p (by omega)) (hright p (by omega))

/-! ## When a call gives up done blocks only -/

/-- Every base block that the call comes to is right. -/
def OnlyDone (W : ℕ) (clock : ℕ → UInt64) (win : RxWindow) : Prop :=
  ∀ p, (∀ q < p, MovesAt W clock win q) → RightAt W clock win p

theorem windowAt_of_onlyDone (h : OnlyDone W clock win)
    (hmoves : ∀ q < p, MovesAt W clock win q) :
    windowAt W clock win p = cleared W win p :=
  windowAt_eq_cleared hmoves fun q hq => h q fun r hr => hmoves r (by omega)

theorem movesAt_of_moves (h : OnlyDone W clock win) (hmoved : ∀ q < p, moves W clock win q = true) :
    ∀ q < p, MovesAt W clock win q := by
  induction p with
  | zero => exact fun q hq => absurd hq (Nat.not_lt_zero q)
  | succ p ih =>
      have hbefore := ih fun q hq => hmoved q (by omega)
      intro q hq
      rcases Nat.lt_succ_iff_lt_or_eq.mp hq with hlt | rfl
      · exact hbefore q hlt
      · exact (moves_iff (windowAt_of_onlyDone h hbefore)).mp (hmoved q hq)

theorem givesUpRightly_of_onlyDone (h : OnlyDone W clock win) : GivesUpRightly W clock win := by
  intro p hmoved i hi hocc hid
  have hbefore : ∀ q < p, MovesAt W clock win q :=
    movesAt_of_moves h fun q hq => hmoved q hq.le
  have hwin := windowAt_of_onlyDone h hbefore
  have hmoves := (moves_iff hwin).mp (hmoved p le_rfl)
  rw [hwin] at hocc hid ⊢
  have hat : At W win p i := at_cleared.mp (at_zero_iff.mpr ⟨hi, hocc, hid⟩)
  obtain ⟨j, hfirst⟩ := exists_firstAt hat
  have hj := h p hbefore j hfirst
  split_ifs at hj with hdone
  · obtain ⟨hmay, honly⟩ := hj
    obtain rfl := honly i hat
    have hnext := cleared_of_moves hwin hmoves (h p hbefore)
    rw [hnext, cleared_slot_of_firstAt hfirst]
    have hfreed : (cleared W win (p + 1)).slots i = zeroBlock :=
      if_pos ⟨hat.1, hat.2.1, by rw [hat.2.2]; omega⟩
    rw [hfreed]
    exact ⟨hmay, rfl⟩
  · rcases hmoves with ⟨j', hj', hjdone⟩ | hnewer
    · rw [firstAt_unique hj' hfirst] at hjdone
      exact absurd hjdone hdone
    · exact absurd hnewer hj

theorem onlyDone_of_givesUpRightly (h : GivesUpRightly W clock win) : OnlyDone W clock win := by
  intro p
  induction p using Nat.strong_induction_on with
  | _ p ih =>
      intro hbefore i hfirst
      have hright : ∀ q < p, RightAt W clock win q := fun q hq =>
        ih q hq fun r hr => hbefore r (hr.trans hq)
      have hwin (q : ℕ) (hq : q ≤ p) : windowAt W clock win q = cleared W win q :=
        windowAt_eq_cleared (fun r hr => hbefore r (by omega)) fun r hr => hright r (by omega)
      have hmoved : ∀ q < p, moves W clock win q = true := fun q hq =>
        (moves_iff (hwin q hq.le)).mpr (hbefore q hq)
      -- what the law says of a slot `p` ahead, when turn `p` moves
      have hlaw (hp : MovesAt W clock win p) (j : ℕ) (hat : At W win p j) :
          MayGiveUp (win.slots j) (clock p) ∧
            ((windowAt W clock win (p + 1)).slots j).recvCount = 0 := by
        have hslot := cleared_slot_of_at hat le_rfl
        have hzero := at_zero_iff.mp (at_cleared.mpr hat : At W (cleared W win p) 0 j)
        rw [← hwin p le_rfl] at hzero hslot
        rw [← hslot]
        apply h p _ j hat.1 hzero.2.1 hzero.2.2
        intro q hq
        rcases Nat.lt_or_eq_of_le hq with hlt | rfl
        · exact hmoved q hlt
        · exact (moves_iff (hwin q le_rfl)).mpr hp
      split_ifs with hdone
      · refine ⟨(hlaw (Or.inl ⟨i, hfirst, hdone⟩) i hfirst.1).1, fun j hat => ?_⟩
        have hfreed := (hlaw (Or.inl ⟨i, hfirst, hdone⟩) j hat).2
        by_contra hji
        have hslot := cleared_slot_of_firstAt hfirst
        rw [windowAt, hwin p le_rfl,
          advancePass_of_done (firstAt_cleared.mpr hfirst) (by rw [hslot]; exact hdone)] at hfreed
        have hkeep : Function.update (cleared W win p).slots i zeroBlock j = win.slots j := by
          rw [Function.update_of_ne hji, cleared_slot_of_at hat le_rfl]
        have hocc : 0 < (Function.update (cleared W win p).slots i zeroBlock j).recvCount := by
          rw [hkeep]
          exact hat.2.1
        exact absurd hfreed hocc.ne'
      · intro hnewer
        exact hdone (hlaw (Or.inr hnewer) i hfirst.1).1.blockDone

/-- **What one call gives up.** From any window and under any clock, every turn that moves
`base_id` past an occupied slot finds a block that may be given up and frees the slot, exactly
when every base block that the call comes to is either rightly taken for done and in one slot, or
has no newer block behind it.  The turns are those of the call. -/
theorem givesUpRightly_iff (W : ℕ) (clock : ℕ → UInt64) (win : RxWindow) :
    (GivesUpRightly W clock win ↔ OnlyDone W clock win) ∧
      ∀ fuel, rxWindowAdvance fuel win W clock =
        ((List.range fuel).find? fun q => !moves W clock win q).map
          fun n => (windowAt W clock win n, n) :=
  ⟨⟨onlyDone_of_givesUpRightly, givesUpRightly_of_onlyDone⟩,
    rxWindowAdvance_eq_windowAt W clock win⟩

/-- One of two shards of block 0, then a shard of block 1, at the same time. -/
def overtaken : RxWindow :=
  let hdr (id : UInt32) : WireHeader := ⟨wireMagic, wireVersion, typeData, id, 0, 2, 3, 0, 1⟩
  let shard : Shard := ⟨fun _ => 1, fun _ => 0, 1⟩
  rxWindowInsert (rxWindowInsert rxWindowInit (hdr 0) shard 8 (cryptoInit none) 0) (hdr 1) shard 8
    (cryptoInit none) 0

/-- Block 0 is passed at the very time its shard arrived, and its slot stays occupied. -/
theorem not_givesUpRightly_overtaken :
    ¬ GivesUpRightly 8 (fun _ => 0) overtaken ∧
      (rxWindowAdvance 5 overtaken 8 fun _ => 0).map (fun r => (r.1.baseId, r.2,
        (r.1.slots 0).recvCount, (r.1.slots 0).decoded)) = some (1, 1, 1, false) := by
  constructor
  · intro hright
    have hmoves : ∀ q ≤ 0, moves 8 (fun _ => 0) overtaken q = true := by
      decide +kernel
    have hlaw := hright 0 hmoves 0 (by decide) (by decide +kernel) (by decide +kernel)
    exact absurd hlaw.1 (by decide +kernel)
  · decide +kernel

/-- A clock that goes back by a microsecond makes a block look old, whatever else is held. -/
example :
    let win := rxWindowInsert rxWindowInit ⟨wireMagic, wireVersion, typeData, 0, 0, 2, 3, 0, 1⟩
      ⟨fun _ => 1, fun _ => 0, 1⟩ 8 (cryptoInit none) 1000
    moves 8 (fun _ => 999) win 0 = true ∧ ¬ MayGiveUp (win.slots 0) 999 := by
  decide +kernel

end CodingGateway.Proofs.GiveUp
