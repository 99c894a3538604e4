import CodingGateway.Proofs.OneBlock
import CodingGateway.Proofs.SentBlocks
import CodingGateway.Library.GaussJordan
set_option autoImplicit false

/-!
# One lost shard

A coded shard has no zero coefficient, so with one more of the systematic shards missing it
still makes the block decodable, and the shards of lowest index are these.

* `decoded_of_oneLost` — the block is decoded and its packets are recovered.
-/

namespace CodingGateway.Proofs.SingleLoss

open CodingGateway.Model
open CodingGateway.Library
open CodingGateway.Proofs.Completeness
open CodingGateway.Proofs.Elimination
open CodingGateway.Proofs.FieldTables
open CodingGateway.Proofs.Flush
open CodingGateway.Proofs.OneBlock
open CodingGateway.Proofs.ReceiveLoop
open CodingGateway.Proofs.RoundTrip
open CodingGateway.Proofs.SentBlocks
open CodingGateway.Proofs.Transfer
open CodingGateway.Proofs.Window

/-- All systematic shards but one, and a coded one. -/
structure Recoverable (k : ℕ) (seen : List ℕ) : Prop where
  systematic : ∃ lost, ∀ s < k, s ≠ lost → s ∈ seen
  coded : ∃ s ∈ seen, k ≤ s

theorem drawCoeff_ne_zero (r : ℕ) : drawCoeff r ≠ 0 := by
  unfold drawCoeff
  dsimp only
  split_ifs with hzero
  · decide
  · exact hzero

/-! ## The shards of lowest index -/

section Lowest

variable {blk : TxBlock} {k : ℕ} {env : FlushEnv} {start : UInt64} {seen : List ℕ} {rb : RxBlock}

theorem receivedIndices_split (rb : RxBlock) (hk : k ≤ maxN) :
    receivedIndices rb = (List.range k).filter rb.received ++
      ((List.range (maxN - k)).map (k + ·)).filter rb.received := by
  obtain ⟨d, hd⟩ := Nat.exists_eq_add_of_le hk
  rw [receivedIndices, hd, Nat.add_sub_cancel_left, List.range_add, List.filter_append]

theorem lowestReceived_injective {i j : ℕ} (hi : i < (receivedIndices rb).length)
    (hj : j < (receivedIndices rb).length) (h : lowestReceived rb i = lowestReceived rb j) :
    i = j := by
  rw [lowestReceived, lowestReceived, List.getD_eq_getElem _ _ hi, List.getD_eq_getElem _ _ hj] at h
  have hnodup : (receivedIndices rb).Nodup := List.nodup_range.filter _
  exact (hnodup.getElem_inj_iff).mp h

/-- What the first `k` received shards are. -/
structure LowestShards (k : ℕ) (rb : RxBlock) : Prop where
  enough : k ≤ (receivedIndices rb).length
  systematic : ∀ i, i + 1 < k → lowestReceived rb i < k
  miss : ∀ i, i + 1 = k → k ≤ lowestReceived rb i → ∃ lost < k, rb.received lost = false

theorem lowestShards_of_recoverable (h : Recoverable k seen) (hk : k ≤ maxN) (hcount : Counted rb)
    (hrecv : ∀ s, rb.received s = true ↔ s ∈ seen) : LowestShards k rb := by
  have hsplit := receivedIndices_split rb hk
  set low := (List.range k).filter rb.received with hlow
  set high := ((List.range (maxN - k)).map (k + ·)).filter rb.received
  have hmem : ∀ s ∈ low, s < k := by
    intro s hs
    exact List.mem_range.mp (List.mem_filter.mp hs).1
  have hget : ∀ i < low.length, lowestReceived rb i < k := by
    intro i hi
    have hlt : i < (receivedIndices rb).length := by
      rw [hsplit, List.length_append]
      omega
    rw [lowestReceived, List.getD_eq_getElem _ _ hlt]
    simp only [hsplit, List.getElem_append_left hi]
    exact hmem _ (List.getElem_mem hi)
  obtain ⟨lost, hlost⟩ := h.systematic
  have hmost : k ≤ low.length + 1 := by
    have hsub : List.range k ⊆ lost :: low := by
      intro s hs
      by_cases hne : s = lost
      · rw [hne]
        exact List.mem_cons_self
      · refine List.mem_cons_of_mem lost (List.mem_filter.mpr ⟨hs, ?_⟩)
        exact (hrecv s).mpr (hlost s (List.mem_range.mp hs) hne)
    have hle := (List.nodup_range.subperm hsub).length_le
    rwa [List.length_range, List.length_cons] at hle
  have hcoded : 0 < high.length := by
    obtain ⟨s, hs, hge⟩ := h.coded
    have hrs := (hrecv s).mpr hs
    refine List.length_pos_of_mem (List.mem_filter.mpr ⟨List.mem_map.mpr ⟨s - k, ?_, ?_⟩, hrs⟩)
    · have hbound := hcount.bound s hrs
      exact List.mem_range.mpr (by omega)
    · omega
  refine ⟨?_, fun i hi => hget i (by omega), fun i hi hge => ?_⟩
  · rw [hsplit, List.length_append]
    omega
  · have hshort : low.length < k := by
      by_contra hlong
      exact absurd (hget i (by omega)) (Nat.not_lt.mpr hge)
    by_contra hall
    have hsub : List.range k ⊆ low := by
      intro s hs
      refine List.mem_filter.mpr ⟨hs, ?_⟩
      by_contra hnot
      exact hall ⟨s, List.mem_range.mp hs, Bool.eq_false_iff.mpr hnot⟩
    have hle := (List.nodup_range.subperm hsub).length_le
    rw [List.length_range] at hle
    omega

theorem linearIndependent_lowest (hk : 1 ≤ k) (h : LowestShards k rb) (hcount : Counted rb)
    (hrestored : Restored blk k env rb) :
    LinearIndependent GF256 (fun i : Fin k => coeffRow k (rb.shards (lowestReceived rb i))) := by
  have hrecv : ∀ i < k, rb.received (lowestReceived rb i) = true := fun i hi =>
    (mem_receivedIndices hcount).mp (lowestReceived_mem (by have := h.enough; omega))
  have hrow : ∀ i < k, coeffRow k (rb.shards (lowestReceived rb i)) =
      coeffRow k (encoded blk k env (lowestReceived rb i)) := fun i hi =>
    coeffRow_congr (hrestored _ (hrecv i hi))
  have hinj : ∀ i < k, ∀ j < k, lowestReceived rb i = lowestReceived rb j → i = j :=
    fun i hi j hj => lowestReceived_injective (by have := h.enough; omega)
      (by have := h.enough; omega)
  let last : Fin k := ⟨k - 1, by omega⟩
  let hit (i : Fin k) : Fin k :=
    if hlt : lowestReceived rb i < k then ⟨lowestReceived rb i, hlt⟩ else last
  have hbefore : ∀ i : Fin k, i ≠ last → lowestReceived rb i < k := by
    intro i hi
    have hne : i.val ≠ k - 1 := fun heq => hi (Fin.ext heq)
    exact h.systematic i (by omega)
  have hhit : ∀ i : Fin k, ∀ hlt : lowestReceived rb i < k, hit i = ⟨lowestReceived rb i, hlt⟩ :=
    fun i hlt => dif_pos hlt
  have hunit : ∀ i : Fin k, lowestReceived rb i < k →
      coeffRow k (rb.shards (lowestReceived rb i)) = Pi.single (hit i) 1 := by
    intro i hlt
    rw [hrow i i.isLt, hhit i hlt]
    exact coeffRow_encodeShard_systematic _ _ _ _ _ hlt
  have hdistinct : ∀ i j : Fin k, lowestReceived rb i < k → lowestReceived rb j < k →
      hit i = hit j → i = j := by
    intro i j hi hj heq
    rw [hhit i hi, hhit j hj, Fin.mk.injEq] at heq
    exact Fin.ext (hinj i i.isLt j j.isLt heq)
  by_cases hlast : lowestReceived rb last < k
  · refine GaussJordan.linearIndependent_of_unit_rows last (hit last) hit
      (fun i hi => hunit i (hbefore i hi))
      (fun i hi j hj => hdistinct i j (hbefore i hi) (hbefore j hj))
      (fun i hi heq => hi (hdistinct i last (hbefore i hi) hlast heq)) ?_
    rw [hunit last hlast, Pi.single_eq_same]
    exact one_ne_zero
  · obtain ⟨lost, hlt, hnot⟩ := h.miss last (by dsimp only [last]; omega) (Nat.not_lt.mp hlast)
    refine GaussJordan.linearIndependent_of_unit_rows last ⟨lost, hlt⟩ hit
      (fun i hi => hunit i (hbefore i hi))
      (fun i hi j hj => hdistinct i j (hbefore i hi) (hbefore j hj)) (fun i hi heq => ?_) ?_
    · rw [hhit i (hbefore i hi), Fin.mk.injEq] at heq
      have hreceived := hrecv i i.isLt
      rw [heq, hnot] at hreceived
      cases hreceived
    · have hcoeff := coeffs_encodeShard_coded (filled blk k).pkts (filled blk k).pktLen k
        (env.rand (lowestReceived rb last)) (env.shards (lowestReceived rb last))
        (Nat.not_lt.mp hlast) hlt
      rw [hrow last last.isLt]
      intro hzero
      have hbyte := congrArg GF256.byte hzero
      change (encoded blk k env (lowestReceived rb last)).coeffs lost = 0 at hbyte
      rw [encoded, hcoeff] at hbyte
      exact drawCoeff_ne_zero _ hbyte

end Lowest

/-! ## The run -/

/-- Datagrams of the flush of a block in `n` shards, with the index of each: one shard in `k` may
be missing, a coded one is among them, and but for the last the clock is less than 50 ms past
the first. -/
structure OneLost (blk : TxBlock) (k n : ℕ) (crypto : CryptoCtx) (env : FlushEnv)
    (start : UInt64) (xs : List (ℕ × RxInput)) : Prop where
  shards : ∀ x ∈ xs, x.1 < n ∧ x.2.dgram.bytes = datagram blk k n crypto env x.1
  arrived : Recoverable k (xs.map Prod.fst)
  first : ∀ x ∈ xs.head?, x.2.insertUs = start
  young : ∀ x ∈ xs.dropLast, ∀ p, x.2.advanceUs p - start < rxBlockTimeoutUs

/-- The window is at the block, has room for it, and holds no block that is not behind. -/
structure PositionedAt (W : ℕ) (id : UInt32) (win : RxWindow) : Prop where
  wf : WellFormed W win
  base : win.baseId = id
  behind : ∀ x rb, held win W x = some rb → 2 ^ 31 < ahead id x
  free : ∃ i, SlotTable.freeSlot live win.slots W = some i

/-- The delivery has a buffer for each packet, which starts with the packet. -/
def Recovers (blk : TxBlock) (k : ℕ) (packets : List TunPacket) (dl : Delivery) : Prop :=
  dl.blockId = blk.blockId ∧
    (∃ o : DecodeOut, dl.writes = tunWrites o k ∧ ∀ j (hj : j < packets.length),
      packets[j].bytes.length ≤ (o.outLen j).toNat ∧
        ∀ t < packets[j].bytes.length, o.out j t = arrayOf packets[j].bytes t) ∧
    ((∀ pkt ∈ packets, IsIpPacket pkt.bytes) →
      dl.writes.take packets.length = packets.map TunPacket.bytes)

section Run

variable {fuel W k n : ℕ} {crypto : CryptoCtx} {blk : TxBlock} {packets : List TunPacket}
  {env : FlushEnv} {start : UInt64} {win : RxWindow} {xs : List (ℕ × RxInput)}

theorem PositionedAt.collecting (h : PositionedAt W blk.blockId win) :
    Collecting W blk k env (fun x => 2 ^ 31 < ahead blk.blockId x) start [] win := by
  refine ⟨h.wf, h.base, fun x _ rb hx => h.behind x rb hx, fun _ => ⟨?_, h.free⟩,
    fun hne => absurd rfl hne⟩
  cases hheld : held win W blk.blockId with
  | none => rfl
  | some rb =>
      have hfar := h.behind _ rb hheld
      rw [ahead_self] at hfar
      omega

theorem stale_of_behind (id : UInt32) :
    ∀ x, 2 ^ 31 < ahead id x → x ≠ id ∧ 2 ^ 31 < ahead id x := by
  intro x hx
  refine ⟨?_, hx⟩
  rintro rfl
  rw [ahead_self] at hx
  omega

theorem exists_decodes_of_recoverable {seen : List ℕ} {rb : RxBlock} (hk : 1 ≤ k ∧ k ≤ maxK)
    (hlen : (shardLen blk k).toNat ≤ maxPayload) (h : Recoverable k seen) (hcount : Counted rb)
    (hcollected : Collected blk k env start seen rb) (garbage : StackGarbage) :
    ∃ o, Decodes rb k garbage o := by
  have hlowest := lowestShards_of_recoverable h (hk.2.trans (by decide)) hcount hcollected.received
  have hlens : ∀ s, rb.received s = true → (rb.shards s).len = shardLen blk k :=
    fun s hs => (hcollected.restored s hs).len.trans (encoded_len ..)
  exact (exists_decodes_iff hcount hlens hlen hcollected.undecoded garbage).mpr
    ⟨hlowest.enough, linearIndependent_lowest hk.1 hlowest hcount hcollected.restored⟩

/-- What holds while the datagrams come in: until the block is decoded the shards seen are not
enough, and after that it is behind. -/
def Recovering (W k : ℕ) (blk : TxBlock) (packets : List TunPacket) (env : FlushEnv)
    (start : UInt64) (seen : List ℕ) (win : RxWindow) (outs : List RxOutput) : Prop :=
  (Collecting W blk k env (fun x => 2 ^ 31 < ahead blk.blockId x) start seen win ∧
      ¬ Recoverable k seen ∧ deliveries outs = []) ∨
    (Passed W blk.blockId (fun x => 2 ^ 31 < ahead blk.blockId x) win ∧
      ∃ dl, deliveries outs = [dl] ∧ Recovers blk k packets dl)

variable (hholds : Holds blk packets) (hpos : packets ≠ []) (hfits : packets.length ≤ k)
include hholds hpos hfits

theorem recovers_of_decodes {rb : RxBlock} {garbage : StackGarbage} {o : DecodeOut}
    (hcount : Counted rb) (hrestored : Restored blk k env rb) (hdec : Decodes rb k garbage o) :
    Recovers blk k packets ⟨blk.blockId, tunWrites o k⟩ := by
  refine ⟨rfl, ⟨o, rfl, fun j hj => ⟨?_, ?_⟩⟩, ?_⟩
  · rw [(out_of_restored hholds hpos hfits hcount hrestored hdec j (by omega)).1]
    exact length_le_shardLen hholds hfits hj
  · exact packet_of_restored hholds hpos hfits hcount hrestored hdec hj
  · exact tunWrites_of_restored hholds hpos hfits hcount hrestored hdec

theorem recovering_rxStep (hW : 1 ≤ W ∧ W ≤ maxWindow) (hk : 1 ≤ k ∧ k ≤ maxK) (hfuel : 2 ≤ fuel)
    {seen : List ℕ} {outs : List RxOutput} {s : ℕ} {a : Arrival}
    (h : Recovering W k blk packets env start seen win outs) (hs : s < maxN)
    (ha : Carries blk k crypto env s a) (hstart : seen = [] → a.insertUs = start)
    (hyoung : ¬ Recoverable k (seen ++ [s]) → ∀ p, a.advanceUs p - start < rxBlockTimeoutUs) :
    ∃ win' out, rxStep fuel W crypto win a = some (win', out) ∧
      Recovering W k blk packets env start (seen ++ [s]) win' (outs ++ [out]) := by
  rcases h with ⟨hcollecting, hnot, hnone⟩ | ⟨hpassed, dl, hdl, hrecovers⟩
  · obtain ⟨hwf, _, _, rb, hheld, hcollected⟩ := inserted_collecting hW hcollecting hs ha hstart
    have hcount := counted_of_held hwf hheld
    by_cases hdec : ∃ o, Decodes rb k a.garbage o
    · obtain ⟨o, hdec⟩ := hdec
      obtain ⟨win', moves, hstep, hpassed⟩ := rxStep_completes (stale_of_behind blk.blockId) hW
        hfuel hcollecting hs ha hstart hheld hdec
      refine ⟨win', _, hstep, Or.inr ⟨hpassed, _, ?_,
        recovers_of_decodes hholds hpos hfits hcount hcollected.restored hdec⟩⟩
      rw [deliveries_append, hnone]
      rfl
    · have hnot' : ¬ Recoverable k (seen ++ [s]) := fun hrec =>
        hdec (exists_decodes_of_recoverable hk (shardLen_le hholds hpos) hrec hcount hcollected
          a.garbage)
      have hundec : ∀ rb', held (inserted W crypto win a) W blk.blockId = some rb' →
          ∀ o, ¬ Decodes rb' k a.garbage o := by
        intro rb' hheld' o hdec'
        rw [hheld, Option.some.injEq] at hheld'
        subst hheld'
        exact hdec ⟨o, hdec'⟩
      obtain ⟨win', moves, hstep, hcollecting'⟩ :=
        rxStep_collects (stale_of_behind blk.blockId) hW hk.1 hfuel hcollecting hs ha hstart
          hundec (hyoung hnot')
      refine ⟨win', _, hstep, Or.inl ⟨hcollecting', hnot', ?_⟩⟩
      rw [deliveries_append, hnone]
      rfl
  · obtain ⟨win', moves, hstep, hpassed'⟩ := rxStep_passed (stale_of_behind blk.blockId) hW
      hk.1 (by omega : 1 ≤ fuel) hpassed ha
    refine ⟨win', _, hstep, Or.inr ⟨hpassed', dl, ?_, hrecovers⟩⟩
    rw [deliveries_append, hdl]
    rfl

/-- **Single-erasure recovery.** Let a window at a block receive, in any order and with
duplicates, shards of the block among which are all systematic ones but one and a coded one,
soon after each other.  Whatever `rand()` returned, the block is decoded, once, and its packets
are recovered. -/
theorem decoded_of_oneLost (hW : 1 ≤ W ∧ W ≤ maxWindow) (hk : 1 ≤ k ∧ k ≤ maxK) (hn : n ≤ maxN)
    (hfuel : 2 ≤ fuel) (tctx : TransportCtx) (hwin : PositionedAt W blk.blockId win)
    (hloss : OneLost blk k n crypto env start xs) :
    ∃ win' outs dl, receiveRun fuel W crypto tctx win (xs.map Prod.snd) = some (win', outs) ∧
      deliveries outs = [dl] ∧ Recovers blk k packets dl := by
  have hparsed : ∀ x ∈ xs, ∃ a, arrivalOf tctx x.2 = some a ∧ Carries blk k crypto env x.1 a ∧
      a.insertUs = x.2.insertUs ∧ a.advanceUs = x.2.advanceUs := by
    intro x hx
    obtain ⟨hlt, hbytes⟩ := hloss.shards x hx
    obtain ⟨a, ha, hcarry, _, hinsert, hadvance⟩ :=
      exists_carries hk.2 (hlt.trans_le hn) (shardLen_le hholds hpos) tctx hbytes
    exact ⟨a, ha, hcarry, hinsert, hadvance⟩
  have hrun : receiveRun fuel W crypto tctx win (xs.map Prod.snd) =
      Machine.run (fun win x => (arrivalOf tctx (Prod.snd x)).bind (rxStep fuel W crypto win))
        win xs := by
    rw [receiveRun, List.filterMap_map]
    exact Machine.run_filterMap fun x hx => (hparsed x hx).imp fun a ha => ha.1
  have hexists : ∃ win' outs, Machine.run
      (fun win x => (arrivalOf tctx (Prod.snd x)).bind (rxStep fuel W crypto win)) win xs =
        some (win', outs) ∧ Recovering W k blk packets env start (xs.map Prod.fst) win' outs := by
    refine Machine.exists_run (P := fun pre win outs =>
      Recovering W k blk packets env start (pre.map Prod.fst) win outs) ?_ ?_
    · refine Or.inl ⟨hwin.collecting, ?_, rfl⟩
      rintro ⟨_, s, hs, _⟩
      cases hs
    · rintro pre win outs x ⟨post, hpost⟩ _ hpre
      have hx : x ∈ xs := by
        rw [← hpost]
        simp
      obtain ⟨a, ha, hcarry, hinsert, hadvance⟩ := hparsed x hx
      have hstart : pre.map Prod.fst = [] → a.insertUs = start := by
        intro hnil
        obtain rfl := List.map_eq_nil_iff.mp hnil
        rw [hinsert]
        exact hloss.first x (by rw [← hpost]; rfl)
      have hyoung : ¬ Recoverable k (pre.map Prod.fst ++ [x.1]) →
          ∀ p, a.advanceUs p - start < rxBlockTimeoutUs := by
        intro hnot
        -- With the last datagram the shards are enough, so this is not the last one.
        have hlast : post ≠ [] := by
          rintro rfl
          refine hnot ?_
          have harrived := hloss.arrived
          rw [← hpost, List.append_nil, List.map_append] at harrived
          exact harrived
        rw [hadvance]
        refine hloss.young x ?_
        rw [← hpost, List.dropLast_append_of_ne_nil hlast]
        simp
      obtain ⟨win', out, hstep, hrecovering⟩ := recovering_rxStep hholds hpos hfits hW hk hfuel
        hpre ((hloss.shards x hx).1.trans_le hn) hcarry hstart hyoung
      refine ⟨win', out, by rw [ha, Option.bind_some, hstep], ?_⟩
      rw [List.map_append]
      exact hrecovering
  obtain ⟨win', outs, hrun', hend⟩ := hexists
  rcases hend with ⟨_, hnot, _⟩ | ⟨_, dl, hdl, hrecovers⟩
  · exact absurd hloss.arrived hnot
  · exact ⟨win', outs, dl, hrun.trans hrun', hdl, hrecovers⟩

end Run

/-! ## A lost packet and its repair -/

def pairBlock : TxBlock :=
  (txBlockAddPkt
    (txBlockAddPkt (txBlockInit 0) (arrayOf shortPacket.bytes)
      (UInt16.ofNat shortPacket.bytes.length) 2 ⟨0, 0⟩).1
    (arrayOf longerPacket.bytes) (UInt16.ofNat longerPacket.bytes.length) 2 ⟨0, 0⟩).1

theorem holds_pairBlock : Holds pairBlock [shortPacket, longerPacket] :=
  holds_txBlockAddPkt (holds_txBlockAddPkt (holds_txBlockInit 0) (by decide) shortPacket ⟨0, 0⟩)
    (by decide) longerPacket ⟨0, 0⟩

/-- The shard of its second packet arrives, and the coded shard. -/
def repairOnly : List (ℕ × RxInput) :=
  [2, 1].map fun s => (s, ⟨⟨0, datagram pairBlock 2 3 (cryptoInit none)
    ⟨fun _ _ => 0, fun _ => zeroStack.shardIn, fun _ => true⟩ s⟩, zeroStack, 0, fun _ => 0⟩)

theorem decoded_of_oneLost_repair :
    ∃ win' outs dl, receiveRun 2 8 (cryptoInit none) ⟨fun _ => ⟨0, 0, true⟩, 1⟩ rxWindowInit
        (repairOnly.map Prod.snd) = some (win', outs) ∧ deliveries outs = [dl] ∧
      Recovers pairBlock 2 [shortPacket, longerPacket] dl := by
  have hwin : PositionedAt 8 pairBlock.blockId rxWindowInit := by
    refine ⟨wellFormed_init 8, rfl, fun x rb hx => ?_, 0, by decide⟩
    rw [held_init] at hx
    cases hx
  have hloss : OneLost pairBlock 2 3 (cryptoInit none)
      ⟨fun _ _ => 0, fun _ => zeroStack.shardIn, fun _ => true⟩ 0 repairOnly := by
    refine ⟨fun x hx => ?_, ⟨⟨0, fun s hs hne => ?_⟩, 2, ?_, le_rfl⟩, fun x hx => ?_,
      fun x hx p => ?_⟩
    · obtain ⟨s, hs, rfl⟩ := List.mem_map.mp hx
      refine ⟨?_, rfl⟩
      rcases List.mem_pair.mp hs with rfl | rfl <;> decide
    · obtain rfl : s = 1 := by omega
      exact List.mem_cons_of_mem 2 List.mem_cons_self
    · exact List.mem_cons_self
    · rw [← Option.some.inj hx]
    · rw [List.mem_singleton.mp hx]
      exact (by decide : (0 : UInt64) - 0 < rxBlockTimeoutUs)
  exact decoded_of_oneLost holds_pairBlock (List.cons_ne_nil _ _) le_rfl ⟨by decide, by decide⟩
    ⟨by decide, by decide⟩ (by decide) le_rfl _ hwin hloss

end CodingGateway.Proofs.SingleLoss
