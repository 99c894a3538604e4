import CodingGateway.Model.Main
import CodingGateway.Proofs.Advance
set_option autoImplicit false

/-!
# The turns of a call

One call of `rx_window_advance`, turn by turn, and what each of its turns does, told from the
blocks held before the call: turn `p` is at the id `p` after `base_id`, and a block is gone by
then only if an earlier turn came to it and took it for done.

* `rxWindowAdvance_eq_windowAt` — the turns of a call, and where it ends;
* `begins_of_moves` — what is held when a turn begins;
* `moves_iff_of_begins` — whether it moves `base_id`;
* `reaches_iff` — which turns are made.
-/

namespace CodingGateway.Proofs.Turns

open CodingGateway.Model
open CodingGateway.Proofs.Window
open CodingGateway.Proofs.Advance

variable {W : ℕ} {clock : ℕ → UInt64} {win : RxWindow} {nowUs : UInt64} {p : ℕ}

/-! ## Turn by turn -/

/-- The window after `p` turns. -/
def windowAt (W : ℕ) (clock : ℕ → UInt64) (win : RxWindow) : ℕ → RxWindow
  | 0 => win
  | p + 1 => (advancePass (windowAt W clock win p) W (clock p)).1

/-- Turn `p` moves `base_id`. -/
def moves (W : ℕ) (clock : ℕ → UInt64) (win : RxWindow) (p : ℕ) : Bool :=
  (advancePass (windowAt W clock win p) W (clock p)).2

theorem advancePass_idle (h : (advancePass win W nowUs).2 = false) :
    (advancePass win W nowUs).1 = win := by
  unfold advancePass at h ⊢
  cases hbase : baseSlot win W with
  | none =>
      simp only [hbase] at h ⊢
      split_ifs at h ⊢
      rfl
  | some i =>
      simp only [hbase] at h ⊢
      split_ifs at h ⊢
      rfl

theorem advanceLoop_eq_windowAt (fuel p : ℕ) :
    advanceLoop W clock fuel p (windowAt W clock win p) =
      ((List.range' p fuel).find? fun q => !moves W clock win q).map
        fun n => (windowAt W clock win n, n) := by
  induction fuel generalizing p with
  | zero => rfl
  | succ fuel ih =>
      have hpass : (advancePass (windowAt W clock win p) W (clock p)).2 = moves W clock win p := rfl
      rw [advanceLoop_succ, hpass, List.range'_succ, List.find?_cons]
      cases hmoves : moves W clock win p with
      | true => exact ih (p + 1)
      | false =>
          simp only [Bool.not_false, Option.map_some, Bool.false_eq_true, if_false]
          rw [advancePass_idle hmoves]

/-- A call ends at the first turn that moves nothing, in the window that the turns before it
lead to. -/
theorem rxWindowAdvance_eq_windowAt (W : ℕ) (clock : ℕ → UInt64) (win : RxWindow) (fuel : ℕ) :
    rxWindowAdvance fuel win W clock =
      ((List.range fuel).find? fun q => !moves W clock win q).map
        fun n => (windowAt W clock win n, n) := by
  rw [List.range_eq_range']
  exact advanceLoop_eq_windowAt fuel 0

theorem rxWindowAdvance_eq_some {fuel n : ℕ} {win' : RxWindow} :
    rxWindowAdvance fuel win W clock = some (win', n) ↔
      n < fuel ∧ win' = windowAt W clock win n ∧ moves W clock win n = false ∧
        ∀ q < n, moves W clock win q = true := by
  rw [rxWindowAdvance_eq_windowAt, Option.map_eq_some_iff]
  simp only [List.find?_range_eq_some, Bool.not_eq_true', Bool.not_eq_false', List.mem_range,
    Prod.mk.injEq]
  constructor
  · rintro ⟨m, ⟨hidle, hlt, hmoved⟩, rfl, rfl⟩
    exact ⟨hlt, rfl, hidle, hmoved⟩
  · rintro ⟨hlt, rfl, hidle, hmoved⟩
    exact ⟨n, ⟨hidle, hlt, hmoved⟩, rfl, rfl⟩

/-! ## From the blocks held before -/

/-- What `rx_window_advance` reads of a block. -/
structure Due where
  decoded : Bool
  firstRecvUs : UInt64

/-- The block may be given up, as `blockDone` has it. -/
def Due.done (d : Due) (nowUs : UInt64) : Bool :=
  d.decoded || decide (rxBlockTimeoutUs ≤ nowUs - d.firstRecvUs)

def due (blk : RxBlock) : Due := ⟨blk.decoded, blk.firstRecvUs⟩

def dues (W : ℕ) (win : RxWindow) (id : UInt32) : Option Due := (held win W id).map due

theorem dues_eq_some {id : UInt32} {d : Due} :
    dues W win id = some d ↔ ∃ blk, held win W id = some blk ∧ due blk = d :=
  Option.map_eq_some_iff

/-- When the first shard of the block of a shard arrived, that shard included. -/
def firstUs (W : ℕ) (win : RxWindow) (a : Arrival) : UInt64 :=
  ((held win W a.hdr.blockId).map RxBlock.firstRecvUs).getD a.insertUs

section Blocks

variable (clock : ℕ → UInt64) (base : UInt32) (blocks : UInt32 → Option Due)

/-- No turn before `p` came to the block and took it for done. -/
def LeftAt (id : UInt32) (d : Due) (p : ℕ) : Prop :=
  ∀ q < p, base + UInt32.ofNat q = id → d.done (clock q) = false

/-- The block is held when turn `p` begins. -/
def HeldAt (p : ℕ) (id : UInt32) (d : Due) : Prop :=
  blocks id = some d ∧ LeftAt clock base id d p

/-- A block newer than the one that turn `p` comes to is held. -/
def NewerAt (p : ℕ) : Prop :=
  ∃ id d, HeldAt clock base blocks p id d ∧ 0 < ahead (base + UInt32.ofNat p) id ∧
    ahead (base + UInt32.ofNat p) id < 2 ^ 31

/-- Turn `p` moves `base_id`, if the turns before it did. -/
def MovesAt (p : ℕ) : Prop :=
  (∃ d, HeldAt clock base blocks p (base + UInt32.ofNat p) d ∧ d.done (clock p) = true) ∨
    NewerAt clock base blocks p

/-- Turn `p` is made. -/
def Reaches (p : ℕ) : Prop := ∀ q < p, MovesAt clock base blocks q

/-- Turn `p` is made and frees the slot of a block that is not decoded. -/
def GivesUpAt (p : ℕ) : Prop :=
  Reaches clock base blocks p ∧
    ∃ d, HeldAt clock base blocks p (base + UInt32.ofNat p) d ∧ d.decoded = false ∧
      d.done (clock p) = true

end Blocks

theorem leftAt_succ {base id : UInt32} {d : Due} :
    LeftAt clock base id d (p + 1) ↔ LeftAt clock base id d p ∧
      (base + UInt32.ofNat p = id → d.done (clock p) = false) := by
  constructor
  · exact fun h => ⟨fun q hq => h q (by omega), h p (Nat.lt_succ_self p)⟩
  · rintro ⟨hbefore, hlast⟩ q hq
    rcases Nat.lt_succ_iff_lt_or_eq.mp hq with hlt | rfl
    · exact hbefore q hlt
    · exact hlast

structure Begins (W : ℕ) (clock : ℕ → UInt64) (win : RxWindow) (p : ℕ) : Prop where
  wf : WellFormed W (windowAt W clock win p)
  base : (windowAt W clock win p).baseId = win.baseId + UInt32.ofNat p
  held : ∀ id blk, held (windowAt W clock win p) W id = some blk ↔
    Window.held win W id = some blk ∧ LeftAt clock win.baseId id (due blk) p

theorem begins_zero (hwf : WellFormed W win) : Begins W clock win 0 where
  wf := hwf
  base := (UInt32.add_zero _).symm
  held _ _ := (and_iff_left fun q hq => absurd hq (Nat.not_lt_zero q)).symm

theorem begins_succ (h : Begins W clock win p) (hmoves : moves W clock win p = true) :
    Begins W clock win (p + 1) := by
  have hpass : advancePass (windowAt W clock win p) W (clock p) =
      (windowAt W clock win (p + 1), true) := by
    rw [← hmoves]
    rfl
  obtain ⟨hbase, hwf, hheld⟩ := survivors_of_advancePass h.wf hpass
  refine ⟨hwf, ?_, fun id blk => ?_⟩
  · rw [hbase, h.base, UInt32.ofNat_add, ← UInt32.add_assoc]
    rfl
  · have hhere : ahead (windowAt W clock win p).baseId id < 1 ↔
        win.baseId + UInt32.ofNat p = id := by
      rw [Nat.lt_one_iff, ← h.base]
      exact ⟨fun hzero => (eq_of_ahead_eq_zero hzero).symm, fun heq => by rw [heq, ahead_self]⟩
    rw [hheld, survivors_eq_some, h.held, leftAt_succ, and_assoc]
    refine and_congr_right fun _ => and_congr_right fun _ => ?_
    constructor
    · intro hdone heq
      have hzero := Nat.lt_one_iff.mp (hhere.mpr heq)
      have hpast := hdone (hhere.mpr heq)
      rwa [hzero, Nat.add_zero] at hpast
    · intro hdone hlt
      rw [Nat.lt_one_iff.mp hlt, Nat.add_zero]
      exact hdone (hhere.mp hlt)

theorem heldAt_of_begins (h : Begins W clock win p) {id : UInt32} {d : Due} :
    HeldAt clock win.baseId (dues W win) p id d ↔
      ∃ blk, held (windowAt W clock win p) W id = some blk ∧ due blk = d := by
  rw [HeldAt, dues_eq_some]
  constructor
  · rintro ⟨⟨blk, hblk, rfl⟩, hleft⟩
    exact ⟨blk, (h.held _ _).mpr ⟨hblk, hleft⟩, rfl⟩
  · rintro ⟨blk, hblk, rfl⟩
    obtain ⟨hold, hleft⟩ := (h.held _ _).mp hblk
    exact ⟨⟨blk, hold, rfl⟩, hleft⟩

theorem baseDone_iff_of_begins (h : Begins W clock win p) :
    BaseDone (windowAt W clock win p) W (clock p) ↔
      ∃ d, HeldAt clock win.baseId (dues W win) p (win.baseId + UInt32.ofNat p) d ∧
        d.done (clock p) = true := by
  unfold BaseDone
  simp only [heldAt_of_begins h, ← h.base]
  constructor
  · rintro ⟨blk, hblk, hdone⟩
    exact ⟨due blk, ⟨blk, hblk, rfl⟩, hdone⟩
  · rintro ⟨_, ⟨blk, hblk, rfl⟩, hdone⟩
    exact ⟨blk, hblk, hdone⟩

theorem newer_iff_of_begins (h : Begins W clock win p) :
    Newer (windowAt W clock win p) W ↔ NewerAt clock win.baseId (dues W win) p := by
  unfold Newer NewerAt
  simp only [heldAt_of_begins h, ← h.base]
  constructor
  · rintro ⟨id, blk, hblk, hpos⟩
    exact ⟨id, due blk, ⟨blk, hblk, rfl⟩, hpos⟩
  · rintro ⟨id, _, ⟨blk, hblk, rfl⟩, hpos⟩
    exact ⟨id, blk, hblk, hpos⟩

theorem moves_iff_of_begins (h : Begins W clock win p) :
    moves W clock win p = true ↔ MovesAt clock win.baseId (dues W win) p := by
  rw [MovesAt, ← baseDone_iff_of_begins h, ← newer_iff_of_begins h, moves]
  by_cases hbase : BaseDone (windowAt W clock win p) W (clock p)
  · obtain ⟨blk, hheld, hblk⟩ := hbase
    obtain ⟨win', hpass, _⟩ := advancePass_of_baseDone h.wf hheld hblk
    rw [hpass]
    exact iff_of_true rfl (Or.inl ⟨blk, hheld, hblk⟩)
  · rw [or_iff_right hbase]
    by_cases hnew : Newer (windowAt W clock win p) W
    · rw [advancePass_of_newer h.wf hbase hnew]
      exact iff_of_true rfl hnew
    · rw [advancePass_of_settled h.wf hbase hnew]
      exact iff_of_false Bool.false_ne_true hnew

section Call

variable (hwf : WellFormed W win)
include hwf

theorem begins_of_moves (h : ∀ q < p, moves W clock win q = true) : Begins W clock win p := by
  induction p with
  | zero => exact begins_zero hwf
  | succ p ih =>
      exact begins_succ (ih fun q hq => h q (by omega)) (h p (Nat.lt_succ_self p))

theorem reaches_iff :
    Reaches clock win.baseId (dues W win) p ↔ ∀ q < p, moves W clock win q = true := by
  induction p with
  | zero => exact iff_of_true nofun nofun
  | succ p ih =>
      have hlast (hmoved : ∀ q < p, moves W clock win q = true) :
          moves W clock win p = true ↔ MovesAt clock win.baseId (dues W win) p :=
        moves_iff_of_begins (begins_of_moves hwf hmoved)
      constructor
      · intro h
        have hbefore := ih.mp fun q hq => h q (by omega)
        intro q hq
        rcases Nat.lt_succ_iff_lt_or_eq.mp hq with hlt | rfl
        · exact hbefore q hlt
        · exact (hlast hbefore).mpr (h q hq)
      · intro h q hq
        have hbefore : ∀ r < p, moves W clock win r = true := fun r hr => h r (by omega)
        rcases Nat.lt_succ_iff_lt_or_eq.mp hq with hlt | rfl
        · exact ih.mpr hbefore q hlt
        · exact (hlast hbefore).mp (h q hq)

end Call

end CodingGateway.Proofs.Turns
