import CodingGateway.Library.Machine
import CodingGateway.Model.Main
import CodingGateway.Proofs.Advance
set_option autoImplicit false

/-!
# The receive loop

`rxRun` processes data shards one after the other, as the event loop does.  A step is
an insertion, a decoding attempt and the moves of the window; the three are named
here so that invariants can be carried over each of them.

* `rxRun_of_mainRun` — the window of the event loop follows `rxRun` on the data shards
  that it reads.
-/

namespace CodingGateway.Proofs.ReceiveLoop

open CodingGateway.Model
open CodingGateway.Library
open CodingGateway.Proofs.Window
open CodingGateway.Proofs.Advance

/-- The window and the outputs after a sequence of data shards. -/
def rxRun (fuel windowSize : ℕ) (crypto : CryptoCtx) :
    RxWindow → List Arrival → Option (RxWindow × List RxOutput) :=
  Machine.run (rxStep fuel windowSize crypto)

/-- The data shard that `transport_recv` finds in a datagram. -/
def arrivalOf (tctx : TransportCtx) (inp : RxInput) : Option Arrival :=
  match transportRecv tctx inp.dgram inp.garbage.shardIn with
  | .data hdr shard _ => some ⟨hdr, shard, inp.garbage, inp.insertUs, inp.advanceUs⟩
  | _ => none

/-- The window and the outputs after a sequence of datagrams. -/
def receiveRun (fuel windowSize : ℕ) (crypto : CryptoCtx) (tctx : TransportCtx) (win : RxWindow)
    (inputs : List RxInput) : Option (RxWindow × List RxOutput) :=
  rxRun fuel windowSize crypto win (inputs.filterMap (arrivalOf tctx))

def deliveries (outs : List RxOutput) : List Delivery := outs.filterMap RxOutput.delivery

/-- How often `base_id` moved in a run. -/
def totalMoves (outs : List RxOutput) : ℕ := (outs.map RxOutput.moves).sum

@[simp] theorem deliveries_append (outs : List RxOutput) (out : RxOutput) :
    deliveries (outs ++ [out]) = deliveries outs ++ out.delivery.toList := by
  rw [deliveries, deliveries, List.filterMap_append]
  cases hdel : out.delivery with
  | none => rw [List.filterMap_cons_none hdel]; rfl
  | some dl => rw [List.filterMap_cons_some hdel]; rfl

@[simp] theorem totalMoves_append (outs : List RxOutput) (out : RxOutput) :
    totalMoves (outs ++ [out]) = totalMoves outs + out.moves := by
  simp [totalMoves]

def zeroStack : StackGarbage :=
  ⟨⟨fun _ => 0, fun _ => 0, 0⟩, ⟨fun _ _ => 0, fun _ _ => 0, fun _ => 0⟩,
    ⟨fun _ _ => 0, fun _ => 0⟩⟩

/-- A shard of a block of two packets, at time zero. -/
def twoPacketShard (id : UInt32) (idx : UInt8) : Arrival where
  hdr := ⟨wireMagic, wireVersion, typeData, id, idx, 2, 3, 0, 1⟩
  shard := ⟨fun j => if j = idx.toNat then 1 else 0, fun _ => 0, 1⟩
  garbage := zeroStack
  insertUs := 0
  advanceUs _ := 0

/-! ## One step -/

section Step

variable {fuel W : ℕ} {crypto : CryptoCtx} {win win' : RxWindow} {a : Arrival} {out : RxOutput}

def inserted (windowSize : ℕ) (crypto : CryptoCtx) (win : RxWindow) (a : Arrival) : RxWindow :=
  rxWindowInsert win a.hdr a.shard windowSize crypto a.insertUs

/-- The window once decoding was tried, whether it succeeded, and the packets written. -/
def attempted (windowSize : ℕ) (crypto : CryptoCtx) (win : RxWindow) (a : Arrival) :
    RxWindow × Bool × List (List UInt8) :=
  rxWindowTryDecode (inserted windowSize crypto win a) a.hdr.blockId a.hdr.k.toNat windowSize
    a.garbage

def delivered (windowSize : ℕ) (crypto : CryptoCtx) (win : RxWindow) (a : Arrival) :
    Option Delivery :=
  if (attempted windowSize crypto win a).2.1 then
    some ⟨a.hdr.blockId, (attempted windowSize crypto win a).2.2⟩
  else none

/-- What the block of the shard decodes to in this step. -/
structure Delivers (windowSize : ℕ) (crypto : CryptoCtx) (win : RxWindow) (a : Arrival)
    (blk : RxBlock) (o : DecodeOut) : Prop where
  inside : ahead win.baseId a.hdr.blockId < windowSize
  held : held (inserted windowSize crypto win a) windowSize a.hdr.blockId = some blk
  decodes : Decodes blk a.hdr.k.toNat a.garbage o

theorem rxStep_eq_map (fuel W : ℕ) (crypto : CryptoCtx) (win : RxWindow) (a : Arrival) :
    rxStep fuel W crypto win a =
      (rxWindowAdvance fuel (attempted W crypto win a).1 W a.advanceUs).map fun r =>
        (r.1, ⟨delivered W crypto win a, r.2⟩) := by
  cases hadv : rxWindowAdvance fuel (attempted W crypto win a).1 W a.advanceUs with
  | none =>
      unfold attempted inserted at hadv
      simp only [rxStep, hadv, Option.map_none]
  | some r =>
      unfold attempted inserted at hadv
      simp only [rxStep, hadv, Option.map_some, delivered, attempted, inserted]
      rfl

theorem rxStep_eq_some :
    rxStep fuel W crypto win a = some (win', out) ↔
      rxWindowAdvance fuel (attempted W crypto win a).1 W a.advanceUs = some (win', out.moves) ∧
        out.delivery = delivered W crypto win a := by
  rw [rxStep_eq_map, Option.map_eq_some_iff]
  constructor
  · rintro ⟨r, hadv, hr⟩
    obtain ⟨rfl, rfl⟩ := Prod.mk.inj hr
    exact ⟨hadv, rfl⟩
  · rintro ⟨hadv, hdel⟩
    exact ⟨(win', out.moves), hadv, by rw [← hdel]⟩

variable (hW : W ≤ maxWindow) (hwf : WellFormed W win)
include hW hwf

theorem inserted_spec (crypto : CryptoCtx) (a : Arrival) :
    (inserted W crypto win a).baseId = win.baseId ∧ WellFormed W (inserted W crypto win a) ∧
      ((∃ blk, Accepts win W a.hdr blk ∧
          held (inserted W crypto win a) W = Function.update (held win W) a.hdr.blockId
            (some (storeShard blk a.hdr a.shard crypto a.insertUs))) ∨
        (∀ blk, ¬ Accepts win W a.hdr blk) ∧
          held (inserted W crypto win a) W = held win W) :=
  insert_cases a.shard crypto a.insertUs hW hwf a.hdr

theorem held_inserted_of_ne (crypto : CryptoCtx) {id : UInt32} (hid : id ≠ a.hdr.blockId) :
    held (inserted W crypto win a) W id = held win W id := by
  obtain ⟨_, _, ⟨blk, _, hmap⟩ | ⟨_, hmap⟩⟩ :=
    inserted_spec hW hwf crypto a
  · rw [hmap, Function.update_of_ne hid]
  · rw [hmap]

theorem attempted_of_delivers {blk : RxBlock} {o : DecodeOut}
    (h : Delivers W crypto win a blk o) :
    (attempted W crypto win a).1.baseId = win.baseId ∧
      WellFormed W (attempted W crypto win a).1 ∧
      held (attempted W crypto win a).1 W =
        Function.update (held (inserted W crypto win a) W) a.hdr.blockId
          (some { blk with decoded := true }) ∧
      (attempted W crypto win a).2 = (true, tunWrites o a.hdr.k.toNat) := by
  obtain ⟨hbase, hwf', _⟩ := inserted_spec hW hwf crypto a
  have hspec := rxWindowTryDecode_of_decodes hW hwf' (by rw [hbase]; exact h.inside) h.held
    h.decodes
  rw [hbase] at hspec
  exact hspec

theorem delivered_of_delivers {blk : RxBlock} {o : DecodeOut}
    (h : Delivers W crypto win a blk o) :
    delivered W crypto win a = some ⟨a.hdr.blockId, tunWrites o a.hdr.k.toNat⟩ := by
  obtain ⟨_, _, _, hres⟩ := attempted_of_delivers hW hwf h
  rw [delivered, hres]
  rfl

theorem attempted_of_not_delivers (h : ∀ blk o, ¬ Delivers W crypto win a blk o) :
    (attempted W crypto win a).1.baseId = win.baseId ∧
      WellFormed W (attempted W crypto win a).1 ∧
      held (attempted W crypto win a).1 W = held (inserted W crypto win a) W ∧
      (attempted W crypto win a).2.2 = [] ∧
      ((attempted W crypto win a).2.1 = true → a.hdr.k.toNat = 0) := by
  obtain ⟨hbase, hwf', _⟩ := inserted_spec hW hwf crypto a
  have hspec := rxWindowTryDecode_of_not_decodes hW hwf' a.hdr.blockId a.hdr.k.toNat a.garbage
    (fun blk o hid hheld hdec => h blk o ⟨by rw [← hbase]; exact hid, hheld, hdec⟩)
  rw [hbase] at hspec
  obtain ⟨hbase', hwf'', hmap, hwrites, hok⟩ := hspec
  exact ⟨hbase', hwf'', hmap, hwrites, fun h => (hok h).1⟩

theorem delivered_of_not_delivers (h : ∀ blk o, ¬ Delivers W crypto win a blk o)
    (hk : a.hdr.k.toNat ≠ 0) : delivered W crypto win a = none := by
  obtain ⟨_, _, _, _, hok⟩ := attempted_of_not_delivers hW hwf h
  exact if_neg fun hdel => hk (hok hdel)

theorem attempted_baseId (crypto : CryptoCtx) (a : Arrival) :
    (attempted W crypto win a).1.baseId = win.baseId := by
  obtain ⟨hbase, hwf', _⟩ := inserted_spec hW hwf crypto a
  calc (attempted W crypto win a).1.baseId
      = (inserted W crypto win a).baseId :=
        (tryDecode_cases hW hwf' a.hdr.blockId a.hdr.k.toNat a.garbage).1
    _ = win.baseId := hbase

theorem attempted_wellFormed (crypto : CryptoCtx) (a : Arrival) :
    WellFormed W (attempted W crypto win a).1 :=
  wellFormed_tryDecode hW (wellFormed_insert _ crypto _ hW hwf a.hdr) _ _ _

theorem held_attempted_cases (crypto : CryptoCtx) (a : Arrival) :
    (∃ blk, held (inserted W crypto win a) W a.hdr.blockId = some blk ∧
        held (attempted W crypto win a).1 W =
          Function.update (held (inserted W crypto win a) W) a.hdr.blockId
            (some { blk with decoded := true })) ∨
      held (attempted W crypto win a).1 W = held (inserted W crypto win a) W := by
  have hwf' := (inserted_spec hW hwf crypto a).2.1
  exact (tryDecode_cases hW hwf' a.hdr.blockId a.hdr.k.toNat a.garbage).2.2

theorem held_attempted_of_ne {id : UInt32} (hid : id ≠ a.hdr.blockId) :
    held (attempted W crypto win a).1 W id = held win W id := by
  rw [← held_inserted_of_ne hW hwf crypto hid]
  rcases held_attempted_cases hW hwf crypto a with ⟨blk, _, hmap⟩ | hmap
  · rw [hmap, Function.update_of_ne hid]
  · rw [hmap]

/-- A block that comes into the window does so with a shard of its own. -/
theorem accepts_of_attempted {blk : RxBlock} (hnew : held win W a.hdr.blockId = none)
    (h : held (attempted W crypto win a).1 W a.hdr.blockId = some blk) :
    ∃ b, Accepts win W a.hdr b := by
  obtain ⟨_, _, ⟨b, hacc, _⟩ | ⟨_, hmap⟩⟩ := inserted_spec hW hwf crypto a
  · exact ⟨b, hacc⟩
  · rw [← hmap] at hnew
    rcases held_attempted_cases hW hwf crypto a with ⟨blk, hheld, _⟩ | hsame
    · rw [hnew] at hheld
      cases hheld
    · rw [hsame, hnew] at h
      cases h

/-- An accepted shard's block is in the window after the decoding attempt, with the same
shards. -/
theorem held_attempted_of_accepts (crypto : CryptoCtx) {b : RxBlock}
    (hacc : Accepts win W a.hdr b) :
    ∃ blk, held (attempted W crypto win a).1 W a.hdr.blockId = some blk ∧
      blk = { storeShard b a.hdr a.shard crypto a.insertUs with decoded := blk.decoded } := by
  obtain ⟨_, _, hmap⟩ := insert_of_accepts a.shard crypto a.insertUs hW hwf hacc
  have hheld : held (inserted W crypto win a) W a.hdr.blockId =
      some (storeShard b a.hdr a.shard crypto a.insertUs) := by
    change held (rxWindowInsert ..) W _ = _
    rw [hmap, Function.update_self]
  rcases held_attempted_cases hW hwf crypto a with ⟨blk, hblk, hdecoded⟩ | hsame
  · rw [hheld, Option.some.injEq] at hblk
    subst hblk
    rw [hdecoded, Function.update_self]
    exact ⟨_, rfl, rfl⟩
  · rw [hsame, hheld]
    exact ⟨_, rfl, rfl⟩

theorem rxStep_of_newest (crypto : CryptoCtx) {a : Arrival} {id : UInt32} {blk : RxBlock}
    (hheld : held (attempted W crypto win a).1 W id = some blk)
    (hid : ahead win.baseId id < 2 ^ 31)
    (hnewest : ∀ x b, held (attempted W crypto win a).1 W x = some b → x ≠ id →
      2 ^ 31 < ahead id x) (hfuel : ahead win.baseId id + 2 ≤ fuel) :
    ∃ win' moves, rxStep fuel W crypto win a = some (win', ⟨delivered W crypto win a, moves⟩) ∧
      WellFormed W win' ∧
      held win' W = survivors a.advanceUs 0 win.baseId (ahead win.baseId id + 1)
        (held (attempted W crypto win a).1 W) ∧
      win'.baseId = if blockDone blk (a.advanceUs (ahead win.baseId id)) then id + 1 else id := by
  have hbase := attempted_baseId hW hwf crypto a
  rw [← hbase] at hid hfuel
  obtain ⟨win', n, hadv, hwf', hmap, hbase', _⟩ := advance_settles
    (attempted_wellFormed hW hwf crypto a) hheld hid hnewest a.advanceUs hfuel
  rw [hbase] at hmap hbase'
  exact ⟨win', n, rxStep_eq_some.mpr ⟨hadv, rfl⟩, hwf', hmap, hbase'⟩

theorem rxStep_of_idle (crypto : CryptoCtx) {a : Arrival}
    (hnone : held (attempted W crypto win a).1 W win.baseId = none)
    (hnewer : ¬ Newer (attempted W crypto win a).1 W) (fuel : ℕ) :
    rxStep (fuel + 1) W crypto win a =
      some ((attempted W crypto win a).1, ⟨delivered W crypto win a, 0⟩) := by
  rw [← attempted_baseId hW hwf crypto a] at hnone
  exact rxStep_eq_some.mpr
    ⟨advance_idle (attempted_wellFormed hW hwf crypto a) hnone hnewer a.advanceUs fuel 0, rfl⟩

omit hW hwf in
theorem delivery_eq_some (hW : W ≤ maxWindow) (hwf : WellFormed W win)
    (h : rxStep fuel W crypto win a = some (win', out)) {dl : Delivery}
    (hdel : out.delivery = some dl) :
    dl.blockId = a.hdr.blockId ∧
      ((∃ blk o, Delivers W crypto win a blk o ∧ dl.writes = tunWrites o a.hdr.k.toNat) ∨
        (∀ blk o, ¬ Delivers W crypto win a blk o) ∧ dl.writes = [] ∧ a.hdr.k.toNat = 0) := by
  obtain ⟨_, hout⟩ := rxStep_eq_some.mp h
  rw [hdel, delivered] at hout
  split_ifs at hout with hok
  · cases hout
    refine ⟨rfl, ?_⟩
    by_cases hd : ∃ blk o, Delivers W crypto win a blk o
    · obtain ⟨blk, o, hd⟩ := hd
      obtain ⟨_, _, _, hres⟩ := attempted_of_delivers hW hwf hd
      exact Or.inl ⟨blk, o, hd, by rw [hres]⟩
    · have hnot : ∀ blk o, ¬ Delivers W crypto win a blk o := fun blk o h => hd ⟨blk, o, h⟩
      obtain ⟨_, _, _, hwrites, hk⟩ := attempted_of_not_delivers hW hwf hnot
      exact Or.inr ⟨hnot, hwrites, hk hok⟩

end Step

/-- The rule for properties of the blocks held: they hold after a step if an empty block has
them and both storing the shard and marking a block decoded keep them. -/
theorem forall_held_rxStep {fuel W : ℕ} {crypto : CryptoCtx} {win win' : RxWindow} {a : Arrival}
    {out : RxOutput} {Q : UInt32 → RxBlock → Prop} (hW : W ≤ maxWindow) (hwf : WellFormed W win)
    (hstep : rxStep fuel W crypto win a = some (win', out))
    (hold : ∀ id blk, held win W id = some blk → Q id blk)
    (hempty : Q a.hdr.blockId { zeroBlock with blockId := a.hdr.blockId })
    (hstore : ∀ blk, Accepts win W a.hdr blk → Q a.hdr.blockId blk →
      Q a.hdr.blockId (storeShard blk a.hdr a.shard crypto a.insertUs))
    (hdec : ∀ blk, Q a.hdr.blockId blk → Q a.hdr.blockId { blk with decoded := true }) :
    ∀ id blk, held win' W id = some blk → Q id blk := by
  have hinserted : ∀ id blk, held (inserted W crypto win a) W id = some blk → Q id blk :=
    forall_held_insert hW hwf hold hempty hstore
  have hattempted : ∀ id blk, held (attempted W crypto win a).1 W id = some blk → Q id blk :=
    forall_held_tryDecode hW (inserted_spec hW hwf crypto a).2.1 hinserted fun blk _ => hdec blk
  intro id blk hheld
  exact hattempted id blk (held_of_advanceLoop (attempted_wellFormed hW hwf crypto a)
    (rxStep_eq_some.mp hstep).1 hheld)

/-! ## Runs -/

section Runs

variable {fuel W : ℕ} {crypto : CryptoCtx}

theorem wellFormed_rxStep (hW : W ≤ maxWindow) {win win' : RxWindow} {a : Arrival} {out : RxOutput}
    (hwf : WellFormed W win) (h : rxStep fuel W crypto win a = some (win', out)) :
    WellFormed W win' := by
  have hadv := (rxStep_eq_some.mp h).1
  exact (advanceLoop_settled (attempted_wellFormed hW hwf crypto a) hadv).1

end Runs

end CodingGateway.Proofs.ReceiveLoop
