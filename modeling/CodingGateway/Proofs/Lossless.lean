import CodingGateway.Proofs.DeadPath
import CodingGateway.Proofs.OneBlock
import CodingGateway.Proofs.Sender
import CodingGateway.Proofs.SentBlocks
import Mathlib.LinearAlgebra.StdBasis
set_option autoImplicit false

/-!
# A lossless network

When the datagrams of a block arrive in sending order, its first `k` shards fill the only
slot in use, the `k`-th one completes the block, and the window is empty again with
`base_id` at the next block; the surplus shards come too late and change nothing.
-/

namespace CodingGateway.Proofs.Lossless

open CodingGateway.Model
open CodingGateway.Library
open CodingGateway.Proofs.Advance
open CodingGateway.Proofs.Completeness
open CodingGateway.Proofs.DeadPath
open CodingGateway.Proofs.Elimination
open CodingGateway.Proofs.EventLoop
open CodingGateway.Proofs.FieldTables
open CodingGateway.Proofs.Flush
open CodingGateway.Proofs.OneBlock
open CodingGateway.Proofs.ReceiveLoop
open CodingGateway.Proofs.RoundTrip
open CodingGateway.Proofs.SentBlocks
open CodingGateway.Proofs.Sender
open CodingGateway.Proofs.Transfer
open CodingGateway.Proofs.Window
open CodingGateway.Proofs.Wire

/-! ## The window between blocks -/

/-- Nothing is held, and `base_id` is `id`. -/
structure Settled (W : ℕ) (id : UInt32) (win : RxWindow) : Prop where
  wf : WellFormed W win
  base : win.baseId = id
  empty : ∀ x, held win W x = none

theorem Settled.collecting {W k : ℕ} {r : FlushRecord} {win : RxWindow}
    (h : Settled W r.blk.blockId win) (hW : 1 ≤ W) (start : UInt64) :
    Collecting W r.blk k r.env (fun _ => False) start [] win := by
  have hfree : ∃ i, SlotTable.freeSlot live win.slots W = some i := by
    refine SlotTable.exists_free h.wf.distinct ∅ (by rw [Finset.card_empty]; exact hW)
      fun id rb hid => ?_
    change held win W id = some rb at hid
    rw [h.empty id] at hid
    cases hid
  refine ⟨h.wf, h.base, fun x _ rb hx => ?_, fun _ => ⟨h.empty _, hfree⟩,
    fun hne => absurd rfl hne⟩
  rw [h.empty x] at hx
  cases hx

theorem settled_of_passed {W : ℕ} {id : UInt32} {win : RxWindow}
    (h : Passed W id (fun _ => False) win) : Settled W (id + 1) win :=
  ⟨h.wf, h.base, fun x => Option.eq_none_iff_forall_ne_some.mpr fun rb hx => h.others x rb hx⟩

theorem passed_of_settled {W : ℕ} {id : UInt32} {win : RxWindow} (h : Settled W (id + 1) win) :
    Passed W id (fun _ => False) win := by
  refine ⟨h.wf, h.base, fun x rb hx => ?_⟩
  rw [h.empty x] at hx
  cases hx

/-- The delivery is the one of the flush, and its packets are written first. -/
def RestoresRecord (r : FlushRecord) (dl : Delivery) : Prop :=
  dl.blockId = r.blk.blockId ∧ ((∀ pkt ∈ r.packets, IsIpPacket pkt.bytes) →
    dl.writes.take r.packets.length = r.packets.map TunPacket.bytes)

section Step

variable {fuel W k m : ℕ} {crypto : CryptoCtx} {r : FlushRecord} {start : UInt64} {win : RxWindow}
  {a : Arrival} {rb : RxBlock}

theorem receivedIndices_of_first (h : Collected r.blk k r.env start (List.range m) rb)
    (hcount : Counted rb) (hm : m ≤ maxN) :
    receivedIndices rb = List.range m ∧ rb.recvCount = m := by
  have hindices : receivedIndices rb = List.range m := by
    have hfilter : (List.range maxN).filter rb.received =
        (List.range maxN).filter fun s => decide (s < m) :=
      List.filter_congr fun s _ => by
        rw [Bool.eq_iff_iff, h.received s, decide_eq_true_iff, List.mem_range]
    rw [receivedIndices, hfilter]
    obtain ⟨d, hd⟩ := Nat.exists_eq_add_of_le hm
    rw [hd, List.range_add, List.filter_append]
    have hlow : (List.range m).filter (fun s => decide (s < m)) = List.range m := by
      simp [List.filter_eq_self]
    have hhigh : ((List.range d).map (m + ·)).filter (fun s => decide (s < m)) = [] := by
      simp [List.filter_eq_nil_iff]
    rw [hlow, hhigh, List.append_nil]
  have hlen : rb.recvCount = (receivedIndices rb).length := hcount.count
  exact ⟨hindices, by rw [hlen, hindices, List.length_range]⟩

theorem exists_decodes_of_first (h : Collected r.blk k r.env start (List.range k) rb)
    (hcount : Counted rb) (hr : r.Valid k) (hk : k ≤ maxK) (garbage : StackGarbage) :
    ∃ o, Decodes rb k garbage o := by
  have hmax : maxK ≤ maxN := by decide
  obtain ⟨hindices, _⟩ := receivedIndices_of_first h hcount (hk.trans hmax)
  have hlens : ∀ s, rb.received s = true → (rb.shards s).len = shardLen r.blk k :=
    fun s hs => (h.restored s hs).len.trans (encoded_len ..)
  refine (exists_decodes_iff hcount hlens (shardLen_le hr.holds hr.nonempty) h.undecoded
    garbage).mpr
    ⟨by rw [hindices, List.length_range], ?_⟩
  have hrows : (fun i : Fin k => coeffRow k (rb.shards (lowestReceived rb i))) =
      fun i : Fin k => Pi.single i 1 := by
    funext i
    have hlow : lowestReceived rb i = i := by
      rw [lowestReceived, hindices, List.getD_eq_getElem _ _ (by simp), List.getElem_range]
    have hmem : (i : ℕ) ∈ List.range k := List.mem_range.mpr i.isLt
    rw [hlow, coeffRow_congr (h.restored i ((h.received i).mpr hmem))]
    exact coeffRow_encodeShard_systematic _ _ _ _ _ i.isLt
  rw [hrows]
  exact Pi.linearIndependent_single_one (Fin k) GF256

theorem rxStep_filling (hW : 1 ≤ W ∧ W ≤ maxWindow) (hk : k ≤ maxK) (hfuel : 2 ≤ fuel)
    (h : Collecting W r.blk k r.env (fun _ => False) start (List.range m) win) (hm : m + 1 < k)
    (ha : Carries r.blk k crypto r.env m a) (hstart : m = 0 → a.insertUs = start)
    (hyoung : ∀ p, a.advanceUs p - start < rxBlockTimeoutUs) :
    ∃ win' moves, rxStep fuel W crypto win a = some (win', ⟨none, moves⟩) ∧
      Collecting W r.blk k r.env (fun _ => False) start (List.range (m + 1)) win' := by
  have hmaxK : k ≤ 16 := hk
  have hmaxN : maxN = 32 := rfl
  have hstart' : List.range m = [] → a.insertUs = start := fun hnil =>
    hstart (List.range_eq_nil.mp hnil)
  rw [List.range_succ]
  refine rxStep_collects (fun x hx => hx.elim) hW (by omega) hfuel h (by omega) ha hstart'
    (fun rb hheld o hdec => ?_) hyoung
  obtain ⟨hwf, _, _, rb', hheld', hcollected⟩ :=
    inserted_collecting hW h (by omega) ha hstart'
  rw [hheld, Option.some.injEq] at hheld'
  subst hheld'
  rw [← List.range_succ] at hcollected
  have hcount :=
    (receivedIndices_of_first hcollected (counted_of_held hwf hheld) (by omega)).2
  have henough := hdec.enough
  omega

theorem rxStep_completes_first (hW : 1 ≤ W ∧ W ≤ maxWindow) (hk : k ≤ maxK) (hfuel : 2 ≤ fuel)
    (hr : r.Valid k) (h : Collecting W r.blk k r.env (fun _ => False) start (List.range m) win)
    (hm : m + 1 = k) (ha : Carries r.blk k crypto r.env m a)
    (hstart : m = 0 → a.insertUs = start) :
    ∃ win' moves dl, rxStep fuel W crypto win a = some (win', ⟨some dl, moves⟩) ∧
      Settled W (r.blk.blockId + 1) win' ∧ RestoresRecord r dl := by
  have hmaxK : k ≤ 16 := hk
  have hmaxN : maxN = 32 := rfl
  have hstart' : List.range m = [] → a.insertUs = start := fun hnil =>
    hstart (List.range_eq_nil.mp hnil)
  obtain ⟨hwf, _, _, rb, hheld, hcollected⟩ :=
    inserted_collecting hW h (by omega) ha hstart'
  rw [← List.range_succ, Nat.succ_eq_add_one, hm] at hcollected
  have hcount := counted_of_held hwf hheld
  obtain ⟨o, hdec⟩ := exists_decodes_of_first hcollected hcount hr hk a.garbage
  have hwrites :=
    tunWrites_of_restored hr.holds hr.nonempty hr.fits hcount hcollected.restored hdec
  obtain ⟨win', moves, hstep, hpassed⟩ :=
    rxStep_completes (fun x hx => hx.elim) hW hfuel h (by omega) ha hstart' hheld hdec
  exact ⟨win', moves, _, hstep, settled_of_passed hpassed, rfl, hwrites⟩

end Step

/-! ## The datagrams of one flush -/

section Block

variable {fuel W k : ℕ} {crypto : CryptoCtx} {r : FlushRecord} {win : RxWindow}

/-- What holds after the first shards of a flush. -/
def Received (W k : ℕ) (r : FlushRecord) (start : UInt64) (count : ℕ) (win : RxWindow)
    (outs : List RxOutput) : Prop :=
  (count < k ∧ Collecting W r.blk k r.env (fun _ => False) start (List.range count) win ∧
      deliveries outs = []) ∨
    (k ≤ count ∧ Settled W (r.blk.blockId + 1) win ∧
      ∃ dl, deliveries outs = [dl] ∧ RestoresRecord r dl)

/-- All shards of a flush, in order, with no reading of the clock before the `k`-th of them that
is 50 ms past the first. -/
structure InOrder (r : FlushRecord) (k : ℕ) (crypto : CryptoCtx) (start : UInt64)
    (as : List Arrival) : Prop where
  length : as.length = r.count
  carries : ∀ s (hs : s < as.length), Carries r.blk k crypto r.env s as[s]
  first : ∀ hs : 0 < as.length, as[0].insertUs = start
  timely : ∀ a ∈ as.take (k - 1), ∀ p, a.advanceUs p - start < rxBlockTimeoutUs

theorem received_rxRun (hW : 1 ≤ W ∧ W ≤ maxWindow) (hk : 1 ≤ k ∧ k ≤ maxK) (hfuel : 2 ≤ fuel)
    (hr : r.Valid k) {start : UInt64} {as : List Arrival} (has : InOrder r k crypto start as)
    (hwin : Settled W r.blk.blockId win) :
    ∃ win' outs, rxRun fuel W crypto win as = some (win', outs) ∧
      Settled W (r.blk.blockId + 1) win' ∧ ∃ dl, deliveries outs = [dl] ∧ RestoresRecord r dl := by
  have hrun : ∃ win' outs, rxRun fuel W crypto win as = some (win', outs) ∧
      Received W k r start as.length win' outs := by
    refine Machine.exists_run (P := fun pre win outs => Received W k r start pre.length win outs)
      (Or.inl ⟨hk.1, hwin.collecting hW.1 start, rfl⟩) ?_
    rintro pre win outs a ⟨post, rfl⟩ _ hpre
    have hlt : pre.length < (pre ++ [a] ++ post).length := by simp
    have ha : Carries r.blk k crypto r.env pre.length a := by
      have hcarry := has.carries pre.length hlt
      simpa using hcarry
    have hstart : pre.length = 0 → a.insertUs = start := by
      intro hzero
      obtain rfl := List.length_eq_zero_iff.mp hzero
      exact has.first (by simp)
    rw [List.length_append, List.length_singleton]
    rcases hpre with ⟨hshort, hfill, hnone⟩ | ⟨hfull, hsettled, dl, hdl, hrestores⟩
    · rcases Nat.lt_or_eq_of_le (Nat.succ_le_of_lt hshort) with hmore | hlast
      · have hearly : a ∈ (pre ++ [a] ++ post).take (k - 1) := by
          rw [List.append_assoc, List.take_append]
          refine List.mem_append_right _ ?_
          obtain ⟨d, hd⟩ : ∃ d, k - 1 - pre.length = d + 1 := ⟨k - 2 - pre.length, by omega⟩
          rw [hd, List.singleton_append, List.take_succ_cons]
          exact List.mem_cons_self
        obtain ⟨win', moves, hstep, hfill'⟩ :=
          rxStep_filling hW hk.2 hfuel hfill hmore ha hstart (has.timely a hearly)
        exact ⟨win', _, hstep, Or.inl ⟨hmore, hfill', by rw [deliveries_append, hnone]; rfl⟩⟩
      · obtain ⟨win', moves, dl, hstep, hsettled, hrestores⟩ :=
          rxStep_completes_first hW hk.2 hfuel hr hfill hlast ha hstart
        exact ⟨win', _, hstep, Or.inr ⟨hlast.ge, hsettled, dl,
          by rw [deliveries_append, hnone]; rfl, hrestores⟩⟩
    · obtain ⟨win', moves, hstep, hpassed⟩ := rxStep_passed (fun x hx => hx.elim) hW hk.1
        (by omega : 1 ≤ fuel) (passed_of_settled hsettled) ha
      exact ⟨win', _, hstep, Or.inr ⟨by omega, settled_of_passed hpassed, dl,
        by rw [deliveries_append, hdl]; rfl, hrestores⟩⟩
  obtain ⟨win', outs, hrun, hreceived⟩ := hrun
  have henough := hr.enough
  rcases hreceived with ⟨hshort, _⟩ | ⟨_, hsettled, hdl⟩
  · rw [has.length] at hshort
    omega
  · exact ⟨win', outs, hrun, hsettled, hdl⟩

end Block

/-! ## The datagrams of many flushes -/

/-- Until the `k`-th shard of a block, the clock is less than 50 ms past the block's first. -/
def Timely (k : ℕ) (as : List Arrival) : Prop :=
  ∀ a rest, (a :: rest) <:+ as → a.hdr.shardIdx = 0 →
    ∀ x ∈ (a :: rest).take (k - 1), ∀ p, x.advanceUs p - a.insertUs < rxBlockTimeoutUs

theorem map_some_filterMap {α β : Type*} {f : α → Option β} {l : List α}
    (h : ∀ x ∈ l, ∃ y, f x = some y) : (l.filterMap f).map some = l.map f := by
  induction l with
  | nil => rfl
  | cons x l ih =>
      obtain ⟨y, hy⟩ := h x List.mem_cons_self
      rw [List.filterMap_cons_some hy, List.map_cons, List.map_cons, hy,
        ih fun z hz => h z (List.mem_cons_of_mem x hz)]

section Blocks

variable {fuel W k : ℕ} {crypto : CryptoCtx}

theorem inOrder_of_datagrams (hk : 1 ≤ k ∧ k ≤ maxK) {r : FlushRecord} (hr : r.Valid k)
    (tctx : TransportCtx) {inputs : List RxInput}
    (hbytes : inputs.map (fun inp => inp.dgram.bytes) = r.datagrams k crypto) {later : List Arrival}
    (htimely : Timely k (inputs.filterMap (arrivalOf tctx) ++ later)) :
    ∃ start, InOrder r k crypto start (inputs.filterMap (arrivalOf tctx)) := by
  have hcount : inputs.length = r.count := by
    have hlen := congrArg List.length hbytes
    simpa [FlushRecord.datagrams] using hlen
  have harrive : ∀ s (hs : s < inputs.length), ∃ a, arrivalOf tctx inputs[s] = some a ∧
      Carries r.blk k crypto r.env s a := by
    intro s hs
    have hdgram : inputs[s].dgram.bytes = datagram r.blk k r.count crypto r.env s := by
      have hget := congrArg (fun l => l[s]?) hbytes
      simp only [FlushRecord.datagrams, List.getElem?_map] at hget
      rw [List.getElem?_eq_getElem hs, List.getElem?_range (by omega)] at hget
      exact Option.some.inj hget
    have hbound := hr.bounded
    obtain ⟨a, ha, hcarry, _⟩ := exists_carries hk.2 (by omega)
      (shardLen_le hr.holds hr.nonempty) tctx hdgram
    exact ⟨a, ha, hcarry⟩
  have hsome : (inputs.filterMap (arrivalOf tctx)).map some = inputs.map (arrivalOf tctx) := by
    refine map_some_filterMap fun inp hinp => ?_
    obtain ⟨s, hs, rfl⟩ := List.getElem_of_mem hinp
    exact (harrive s hs).imp fun a ha => ha.1
  have hlength : (inputs.filterMap (arrivalOf tctx)).length = r.count := by
    have hlen := congrArg List.length hsome
    rw [List.length_map, List.length_map] at hlen
    rw [hlen, hcount]
  have hcarries : ∀ s (hs : s < (inputs.filterMap (arrivalOf tctx)).length),
      Carries r.blk k crypto r.env s (inputs.filterMap (arrivalOf tctx))[s] := by
    intro s hs
    obtain ⟨a, ha, hcarry⟩ := harrive s (by omega)
    have hget := congrArg (fun l => l[s]?) hsome
    simp only [List.getElem?_map] at hget
    rw [List.getElem?_eq_getElem hs, List.getElem?_eq_getElem (by omega), Option.map_some,
      Option.map_some, ha] at hget
    rw [Option.some.inj (Option.some.inj hget)]
    exact hcarry
  have henough := hr.enough
  generalize inputs.filterMap (arrivalOf tctx) = as at hlength hcarries htimely ⊢
  cases as with
  | nil =>
      rw [List.length_nil] at hlength
      omega
  | cons a rest =>
      refine ⟨a.insertUs, hlength, hcarries, fun _ => rfl, fun x hx => ?_⟩
      have hzero : a.hdr.shardIdx = 0 :=
        UInt8.toNat_inj.mp (hcarries 0 (Nat.succ_pos _)).shardIdx
      refine htimely a (rest ++ later) List.suffix_rfl hzero x ?_
      rw [← List.cons_append, List.take_append]
      exact List.mem_append_left _ hx

theorem restores_rxRun (hW : 1 ≤ W ∧ W ≤ maxWindow) (hk : 1 ≤ k ∧ k ≤ maxK) (hfuel : 2 ≤ fuel)
    (tctx : TransportCtx) {records : List FlushRecord} (hvalid : ∀ r ∈ records, r.Valid k) {n : ℕ}
    (hids : records.map (fun r => r.blk.blockId) =
      (List.range' n records.length).map UInt32.ofNat) {inputs : List RxInput}
    (hbytes : inputs.map (fun inp => inp.dgram.bytes) =
      records.flatMap fun r => r.datagrams k crypto)
    (htimely : Timely k (inputs.filterMap (arrivalOf tctx))) {win : RxWindow}
    (hwin : Settled W (UInt32.ofNat n) win) :
    ∃ win' outs, rxRun fuel W crypto win (inputs.filterMap (arrivalOf tctx)) = some (win', outs) ∧
      List.Forall₂ RestoresRecord records (deliveries outs) := by
  induction records generalizing n inputs win with
  | nil =>
      obtain rfl := List.map_eq_nil_iff.mp hbytes
      exact ⟨win, [], rfl, List.Forall₂.nil⟩
  | cons r records ih =>
      rw [List.flatMap_cons, List.map_eq_append_iff] at hbytes
      obtain ⟨inputs₁, inputs₂, rfl, hbytes₁, hbytes₂⟩ := hbytes
      rw [List.length_cons, List.range'_succ, List.map_cons, List.map_cons, List.cons.injEq] at hids
      obtain ⟨hid, hids⟩ := hids
      rw [List.filterMap_append] at htimely ⊢
      obtain ⟨start, horder⟩ :=
        inOrder_of_datagrams hk (hvalid r List.mem_cons_self) tctx hbytes₁ htimely
      rw [← hid] at hwin
      obtain ⟨win₁, outs₁, hrun₁, hsettled, dl, hdl, hrestores⟩ :=
        received_rxRun hW hk hfuel (hvalid r List.mem_cons_self) horder hwin
      have hnext : r.blk.blockId + 1 = UInt32.ofNat (n + 1) := by
        rw [hid]
        exact (UInt32.ofNat_add n 1).symm
      rw [hnext] at hsettled
      obtain ⟨win₂, outs₂, hrun₂, hall⟩ := ih (fun r' hr' => hvalid r' (List.mem_cons_of_mem r hr'))
        hids hbytes₂ (fun a rest hsuffix => htimely a rest (hsuffix.trans (List.suffix_append _ _)))
        hsettled
      refine ⟨win₂, outs₁ ++ outs₂, Machine.run_append_eq_some.mpr ⟨win₁, outs₁, outs₂, hrun₁,
        hrun₂, rfl⟩, ?_⟩
      have happend : deliveries (outs₁ ++ outs₂) = dl :: deliveries outs₂ := by
        rw [deliveries, List.filterMap_append]
        change deliveries outs₁ ++ deliveries outs₂ = _
        rw [hdl]
        rfl
      rw [happend]
      exact List.Forall₂.cons hrestores hall

end Blocks

/-! ## The tunnel -/

theorem filterMap_arrivalOf_filter (tctx : TransportCtx) (inputs : List RxInput) :
    (inputs.filter fun inp => isData inp.dgram.bytes).filterMap (arrivalOf tctx) =
      inputs.filterMap (arrivalOf tctx) := by
  rw [List.filterMap_filter]
  apply List.filterMap_congr
  intro inp _
  cases hdata : isData inp.dgram.bytes with
  | true => rfl
  | false =>
      unfold arrivalOf
      cases hrecv : transportRecv tctx inp.dgram inp.garbage.shardIn with
      | data hdr shard path =>
          rw [isData_of_transportRecv hrecv] at hdata
          cases hdata
      | error => rfl
      | probe ts path => rfl
      | probeEcho ts path => rfl

/-- What the first buffers of each delivery hold, for deliveries that restore the flushes. -/
theorem writes_of_restores {k : ℕ} {records : List FlushRecord} {dls : List Delivery}
    (h : List.Forall₂ RestoresRecord records dls) (hvalid : ∀ r ∈ records, r.Valid k)
    (hip : ∀ r ∈ records, ∀ pkt ∈ r.packets, IsIpPacket pkt.bytes) :
    dls.map Delivery.blockId = (records.map FlushRecord.blk).map TxBlock.blockId ∧
      (List.zipWith (fun (blk : TxBlock) dl => dl.writes.take blk.pktCount)
        (records.map FlushRecord.blk) dls).flatten =
        (records.flatMap FlushRecord.packets).map TunPacket.bytes := by
  induction h with
  | nil => exact ⟨rfl, rfl⟩
  | @cons r dl records dls hrestores _ ih =>
      obtain ⟨hids, hwrites⟩ := ih (fun r' hr' => hvalid r' (List.mem_cons_of_mem r hr'))
        fun r' hr' => hip r' (List.mem_cons_of_mem r hr')
      have hcount : r.blk.pktCount = r.packets.length := (hvalid r List.mem_cons_self).holds.count
      have htake : dl.writes.take r.blk.pktCount = r.packets.map TunPacket.bytes := by
        rw [hcount]
        exact hrestores.2 (hip r List.mem_cons_self)
      constructor
      · rw [List.map_cons, List.map_cons, List.map_cons, hids, hrestores.1]
      · rw [List.map_cons, List.zipWith_cons_cons, List.flatten_cons, hwrites, htake,
          List.flatMap_cons, List.map_append]

/-- **Transparent tunnel.** A sender reads packets, flushes full and old blocks on a link that
is up and drains the last one; the network loses nothing, reorders nothing and is quick.  Then
the receiver decodes the blocks of the sender, all of them and in order, and the packets
written first for each block are, all in all, the packets that the sender read. -/
theorem writes_eq_packetsRead {fuelS fuelR W : ℕ} {cfg : GatewayConfig} {tctx rtctx : TransportCtx}
    {crypto : CryptoCtx} {now : Timeval} {inputs : List MainInput} {st : MainState}
    {outs : List MainOutput} {env : FlushEnv} {rinputs : List RxInput}
    (hmode : cfg.mode = chars "tx" ∨ cfg.mode = chars "both")
    (hk : 1 ≤ cfg.k.toNat ∧ cfg.k.toNat ≤ maxK)
    (hrun : mainRun fuelS (mainInit cfg tctx crypto now) inputs = some (st, outs))
    (hrel : Reliable fuelS (mainInit cfg tctx crypto now) inputs)
    (haccept : ∀ i, env.accepted i = true)
    (hip : ∀ pkt ∈ packetsRead inputs, IsIpPacket pkt.bytes)
    (hW : 1 ≤ W ∧ W ≤ maxWindow) (hfuel : 2 ≤ fuelR)
    (hnet : rinputs.map (fun inp => inp.dgram.bytes) =
      (outs.flatMap MainOutput.sent ++ (mainDrain st env).2.2).map Prod.snd)
    (htimely : Timely cfg.k.toNat (rinputs.filterMap (arrivalOf rtctx))) :
    ∃ win routs, receiveRun fuelR W crypto rtctx rxWindowInit rinputs = some (win, routs) ∧
      (deliveries routs).map Delivery.blockId =
        (outs.flatMap MainOutput.flushed ++ (mainDrain st env).2.1).map TxBlock.blockId ∧
      (List.zipWith (fun (blk : TxBlock) dl => dl.writes.take blk.pktCount)
        (outs.flatMap MainOutput.flushed ++ (mainDrain st env).2.1) (deliveries routs)).flatten =
        (packetsRead inputs).map TunPacket.bytes := by
  obtain ⟨records, hvalid, hids, hread, hflushed, hsent⟩ :=
    records_of_mainDrain hmode hk hrel hrun haccept
  rw [List.range_eq_range'] at hids
  have hbytes : (rinputs.filter fun inp => isData inp.dgram.bytes).map
      (fun inp => inp.dgram.bytes) = records.flatMap fun r => r.datagrams cfg.k.toNat crypto := by
    rw [← hsent, ← hnet, List.filter_map]
    rfl
  rw [← filterMap_arrivalOf_filter] at htimely
  have hsettled : Settled W (UInt32.ofNat 0) rxWindowInit :=
    ⟨emptyAt_init.wellFormed W, rfl, emptyAt_init.held W⟩
  obtain ⟨win, routs, hrxRun, hrestores⟩ :=
    restores_rxRun hW hk hfuel rtctx hvalid hids hbytes htimely hsettled
  rw [filterMap_arrivalOf_filter] at hrxRun
  rw [hread] at hip ⊢
  rw [hflushed]
  obtain ⟨hblocks, hwrites⟩ := writes_of_restores hrestores hvalid fun r hr pkt hpkt =>
    hip pkt (List.mem_flatMap_of_mem hr hpkt)
  exact ⟨win, routs, hrxRun, hblocks, hwrites⟩

/-! ## Three packets through the tunnel -/

def packetTurn : MainInput := { quietTurn with packet := some shortPacket }

def longerTurn : MainInput := { quietTurn with packet := some longerPacket }

/-- Two packets fill a block, and the third one waits for the drain. -/
def threeTurns : List MainInput := [packetTurn, longerTurn, packetTurn]

def packetStart : MainState := mainInit onePathConfig onePathSocket (cryptoInit none) ⟨0, 0⟩

theorem threeTurns_reliable : Reliable 1 packetStart threeTurns where
  up pre st outs hpre hrun := by
    have hcheck : ∀ n ≤ 3, (mainRun 1 packetStart (threeTurns.take n)).map
        (fun r => (r.1.sctx.pathCount, r.1.sctx.usable 0)) = some (1, true) := by
      decide +kernel
    have husable := hcheck pre.length hpre.length_le
    rw [← List.prefix_iff_eq_take.mp hpre, hrun, Option.map_some, Option.some.injEq,
      Prod.mk.injEq] at husable
    have hsockets : st.tctx = onePathSocket := (sameSetup_mainRun hrun).tctx
    refine ⟨⟨0, by rw [husable.1]; decide, husable.2⟩, fun i _ => ?_⟩
    rw [hsockets]
    exact ⟨rfl, le_rfl⟩
  accepted inp hinp i := by
    simp only [threeTurns, List.mem_cons, List.not_mem_nil, or_false] at hinp
    rcases hinp with rfl | rfl | rfl <;> exact ⟨rfl, rfl⟩

def promptInput (d : ℕ × List UInt8) : RxInput := ⟨⟨0, d.2⟩, zeroStack, 0, fun _ => 0⟩

theorem arrivalOf_promptInput {tctx : TransportCtx} {d : ℕ × List UInt8} {a : Arrival}
    (h : arrivalOf tctx (promptInput d) = some a) : a.insertUs = 0 ∧ a.advanceUs = fun _ => 0 := by
  unfold arrivalOf at h
  split at h
  · cases h
    exact ⟨rfl, rfl⟩
  · cases h

theorem timely_promptInput (k : ℕ) (tctx : TransportCtx) (sent : List (ℕ × List UInt8)) :
    Timely k ((sent.map promptInput).filterMap (arrivalOf tctx)) := by
  have hprompt : ∀ a ∈ (sent.map promptInput).filterMap (arrivalOf tctx),
      a.insertUs = 0 ∧ a.advanceUs = fun _ => 0 := by
    intro a ha
    obtain ⟨inp, hinp, harr⟩ := List.mem_filterMap.mp ha
    obtain ⟨d, _, rfl⟩ := List.mem_map.mp hinp
    exact arrivalOf_promptInput harr
  intro a rest hsuffix _ x hx p
  have ha := hprompt a (hsuffix.subset List.mem_cons_self)
  have hx := hprompt x (hsuffix.subset (List.mem_of_mem_take hx))
  rw [ha.1, hx.2]
  exact (by decide : (0 : UInt64) - 0 < rxBlockTimeoutUs)

theorem writes_eq_packetsRead_three :
    ∃ st outs win routs, mainRun 1 packetStart threeTurns = some (st, outs) ∧
      receiveRun 2 8 (cryptoInit none) onePathSocket rxWindowInit
        ((outs.flatMap MainOutput.sent ++ (mainDrain st quietTurn.fullFlush).2.2).map
          promptInput) = some (win, routs) ∧
      (outs.flatMap MainOutput.flushed ++ (mainDrain st quietTurn.fullFlush).2.1).map
        TxBlock.pktCount = [2, 1] ∧
      (List.zipWith (fun (blk : TxBlock) dl => dl.writes.take blk.pktCount)
        (outs.flatMap MainOutput.flushed ++ (mainDrain st quietTurn.fullFlush).2.1)
        (deliveries routs)).flatten =
          [shortPacket.bytes, longerPacket.bytes, shortPacket.bytes] := by
  have hcheck : (mainRun 1 packetStart threeTurns).map (fun r =>
      (r.2.flatMap MainOutput.flushed ++ (mainDrain r.1 quietTurn.fullFlush).2.1).map
        TxBlock.pktCount) = some [2, 1] := by
    decide +kernel
  obtain ⟨⟨st, outs⟩, hrun, hcounts⟩ := Option.map_eq_some_iff.mp hcheck
  have hip : ∀ pkt ∈ packetsRead threeTurns, IsIpPacket pkt.bytes := by
    intro pkt hpkt
    have hread : packetsRead threeTurns = [shortPacket, longerPacket, shortPacket] := rfl
    simp only [hread, List.mem_cons, List.not_mem_nil, or_false] at hpkt
    rcases hpkt with rfl | rfl | rfl <;> exact Or.inl ⟨by decide, by decide, by decide⟩
  have hnet : ((outs.flatMap MainOutput.sent ++ (mainDrain st quietTurn.fullFlush).2.2).map
      promptInput).map (fun inp => inp.dgram.bytes) =
        (outs.flatMap MainOutput.sent ++ (mainDrain st quietTurn.fullFlush).2.2).map Prod.snd := by
    rw [List.map_map]
    rfl
  obtain ⟨win, routs, hreceive, _, hwrites⟩ := writes_eq_packetsRead (W := 8) (Or.inl rfl)
    ⟨by decide, by decide⟩ hrun threeTurns_reliable (fun _ => rfl) hip
    ⟨by decide, by decide⟩ le_rfl hnet (timely_promptInput _ _ _)
  exact ⟨st, outs, win, routs, hrun, hreceive, hcounts, hwrites⟩

end CodingGateway.Proofs.Lossless
