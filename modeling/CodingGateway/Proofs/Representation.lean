import CodingGateway.Proofs.BoundedAdvance
set_option autoImplicit false

/-!
# What a slot holds

Beside the window we keep, for each slot, the datagrams that `rx_find` took to it since
the slot was allocated.  A slot marks an index as received exactly once, for the first
datagram of that list with the index, and keeps that datagram's shard, decrypted.

* `represents_run` — this, and the shape of the window, after any calls.
-/

namespace CodingGateway.Proofs.Representation

open CodingGateway.Model
open CodingGateway.Library
open CodingGateway.Library.Machine
open CodingGateway.Proofs.Window
open CodingGateway.Proofs.WrapAround
open CodingGateway.Proofs.BoundedAdvance

/-- A datagram as `transport_recv` hands it over. -/
abbrev Datagram := WireHeader × Shard

variable {fuel W : ℕ} {crypto : CryptoCtx} {win win' : RxWindow} {log : ℕ → List Datagram}
  {blk : RxBlock} {datagrams : List Datagram} {id : UInt32} {i : ℕ}

/-! ## The log of the slots -/

/-- The datagrams of a slot since it was allocated: none if it is free. -/
def slotLog (win : RxWindow) (log : ℕ → List Datagram) (i : ℕ) : List Datagram :=
  if (win.slots i).recvCount = 0 then [] else log i

/-- The log after a call that makes `win'` of `win`. -/
def logAfter (W : ℕ) (win : RxWindow) (log : ℕ → List Datagram) (win' : RxWindow) :
    WindowCall → ℕ → List Datagram
  | .insert hdr s _ =>
      match (rxFind win hdr.blockId W).2 with
      | none => log
      | some i => Function.update log i (slotLog win log i ++ [(hdr, s)])
  | .tryDecode id _ _ =>
      match (rxFind win id W).2 with
      | none => log
      | some i => Function.update log i (slotLog win log i)
  | .advance _ => slotLog win' log

def loggedStep (fuel W : ℕ) (crypto : CryptoCtx) (st : RxWindow × (ℕ → List Datagram))
    (call : WindowCall) : Option ((RxWindow × (ℕ → List Datagram)) × CallOutput) :=
  (windowStep fuel W crypto st.1 call).map fun r => ((r.1, logAfter W st.1 st.2 r.1 call), r.2)

theorem exists_log {calls : List WindowCall} {outs : List CallOutput}
    (hrun : run (windowStep fuel W crypto) win calls = some (win', outs))
    (log : ℕ → List Datagram) :
    ∃ log', run (loggedStep fuel W crypto) (win, log) calls = some ((win', log'), outs) := by
  induction calls generalizing win log outs with
  | nil =>
      cases hrun
      exact ⟨log, rfl⟩
  | cons call calls ih =>
      obtain ⟨win₁, out, outs', hcall, hrest, rfl⟩ := run_cons_eq_some.mp hrun
      have hlogged : loggedStep fuel W crypto (win, log) call =
          some ((win₁, logAfter W win log win₁ call), out) := by
        rw [loggedStep, hcall, Option.map_some]
      obtain ⟨log', hrun'⟩ := ih hrest (logAfter W win log win₁ call)
      exact ⟨log', run_cons_eq_some.mpr ⟨_, out, outs', hlogged, hrun', rfl⟩⟩

/-! ## What holds of one slot -/

def decrypted (crypto : CryptoCtx) (d : Datagram) : Shard :=
  if crypto.enabled then
    { d.2 with
      data := cryptoXor crypto d.2.data d.2.len.toNat
        (shardNonce d.1.blockId d.1.shardIdx.toNat) }
  else d.2

def firstWith (datagrams : List Datagram) (idx : ℕ) : Option Datagram :=
  datagrams.find? fun d => d.1.shardIdx.toNat == idx

/-- A slot and its datagrams: they are for its block, what is received is the first of its index,
and until the block is decoded nothing is passed over. -/
structure Faithful (crypto : CryptoCtx) (blk : RxBlock) (datagrams : List Datagram) : Prop where
  counted : Counted blk
  sameBlock : ∀ d ∈ datagrams, d.1.blockId = blk.blockId
  stored : ∀ idx, blk.received idx = true →
    ∃ d, firstWith datagrams idx = some d ∧ blk.shards idx = decrypted crypto d
  seen : blk.decoded = false → ∀ d ∈ datagrams, d.1.shardIdx.toNat < maxN →
    blk.received d.1.shardIdx.toNat = true

theorem received_of_empty (h : Counted blk) (hzero : blk.recvCount = 0) (idx : ℕ) :
    blk.received idx = false := by
  by_contra hrecv
  have htrue : blk.received idx = true := by simpa using hrecv
  have hmem : idx ∈ (List.range maxN).filter blk.received :=
    List.mem_filter.mpr ⟨List.mem_range.mpr (h.bound idx htrue), htrue⟩
  have hpos := List.length_pos_of_mem hmem
  rw [← h.count] at hpos
  omega

theorem faithful_empty (h : Counted blk) (hzero : blk.recvCount = 0) :
    Faithful crypto blk [] where
  counted := h
  sameBlock _ hd := by cases hd
  stored idx hidx := by
    rw [received_of_empty h hzero] at hidx
    cases hidx
  seen _ _ hd := by cases hd

theorem faithful_decoded (h : Faithful crypto blk datagrams) :
    Faithful crypto { blk with decoded := true } datagrams where
  counted := counted_decoded h.counted
  sameBlock := h.sameBlock
  stored := h.stored
  seen hdec := by cases hdec

theorem firstWith_append (datagrams : List Datagram) (d : Datagram) (idx : ℕ) :
    firstWith (datagrams ++ [d]) idx = (firstWith datagrams idx).or (firstWith [d] idx) :=
  List.find?_append

theorem sameBlock_append (h : Faithful crypto blk datagrams) {d : Datagram}
    (hid : d.1.blockId = blk.blockId) :
    ∀ d' ∈ datagrams ++ [d], d'.1.blockId = blk.blockId := by
  intro d' hd'
  rcases List.mem_append.mp hd' with hold | hnew
  · exact h.sameBlock d' hold
  · rw [List.mem_singleton.mp hnew]
    exact hid

theorem faithful_reject (h : Faithful crypto blk datagrams) {d : Datagram}
    (hid : d.1.blockId = blk.blockId)
    (hreject : blk.decoded = false → d.1.shardIdx.toNat < maxN →
      blk.received d.1.shardIdx.toNat = true) :
    Faithful crypto blk (datagrams ++ [d]) where
  counted := h.counted
  sameBlock := sameBlock_append h hid
  stored idx hidx := by
    obtain ⟨first, hfirst, hshard⟩ := h.stored idx hidx
    refine ⟨first, ?_, hshard⟩
    rw [firstWith_append, hfirst, Option.some_or]
  seen hdec d' hd' := by
    rcases List.mem_append.mp hd' with hold | hnew
    · exact h.seen hdec d' hold
    · rw [List.mem_singleton.mp hnew]
      exact hreject hdec

theorem faithful_store (h : Faithful crypto blk datagrams) {hdr : WireHeader} (s : Shard)
    (nowUs : UInt64) (hid : hdr.blockId = blk.blockId) (hdec : blk.decoded = false)
    (hrange : hdr.shardIdx.toNat < maxN) (hfresh : blk.received hdr.shardIdx.toNat = false) :
    Faithful crypto (storeShard blk hdr s crypto nowUs) (datagrams ++ [(hdr, s)]) where
  counted := counted_storeShard h.counted hrange hfresh s crypto nowUs
  sameBlock := sameBlock_append h hid
  stored idx hidx := by
    rw [firstWith_append]
    by_cases hself : idx = hdr.shardIdx.toNat
    · have hnone : firstWith datagrams idx = none := by
        apply List.find?_eq_none.mpr
        intro d hd hd'
        rw [beq_iff_eq] at hd'
        have hseen := h.seen hdec d hd (by rw [hd', hself]; exact hrange)
        rw [hd', hself, hfresh] at hseen
        cases hseen
      refine ⟨(hdr, s), ?_, ?_⟩
      · rw [hnone, Option.none_or]
        exact List.find?_cons_of_pos (beq_iff_eq.mpr hself.symm)
      · rw [hself]
        exact Function.update_self ..
    · have hold : blk.received idx = true := by
        simpa [storeShard, Function.update_of_ne hself] using hidx
      obtain ⟨first, hfirst, hshard⟩ := h.stored idx hold
      refine ⟨first, by rw [hfirst, Option.some_or], ?_⟩
      rw [← hshard]
      exact Function.update_of_ne hself ..
  seen _ d hd hlt := by
    show Function.update blk.received hdr.shardIdx.toNat true d.1.shardIdx.toNat = true
    by_cases hself : d.1.shardIdx.toNat = hdr.shardIdx.toNat
    · rw [hself, Function.update_self]
    · rw [Function.update_of_ne hself]
      rcases List.mem_append.mp hd with hold | hnew
      · exact h.seen hdec d hold hlt
      · rw [List.mem_singleton.mp hnew] at hself
        exact absurd rfl hself

/-! ## What a call does to the slots -/

/-- How `rx_find` ends: without a slot, at the slot in use that has the id, or at a free slot,
which it clears. -/
inductive Found (win : RxWindow) (id : UInt32) : RxWindow × Option ℕ → Prop
  | missing : Found win id (win, none)
  | held (i : ℕ) (hlive : 0 < (win.slots i).recvCount) (hid : (win.slots i).blockId = id) :
      Found win id (win, some i)
  | fresh (i : ℕ) (hfree : (win.slots i).recvCount = 0) :
      Found win id (win.setSlot i { zeroBlock with blockId := id }, some i)

theorem found_rxFind (win : RxWindow) (id : UInt32) (W : ℕ) : Found win id (rxFind win id W) := by
  unfold rxFind
  split_ifs with hbehind hbeyond
  · exact .missing
  · exact .missing
  · split
    · next i hfound =>
        have hslot := List.find?_some hfound
        rw [Bool.and_eq_true, decide_eq_true_iff, beq_iff_eq] at hslot
        exact .held i hslot.1 hslot.2
    · split
      · next i hfree =>
          have hslot := List.find?_some hfree
          exact .fresh i (beq_iff_eq.mp hslot)
      · exact .missing

theorem found_of_rxFind {win₁ : RxWindow} {r : Option ℕ} (hfind : rxFind win id W = (win₁, r)) :
    Found win id (win₁, r) := by
  rw [← hfind]
  exact found_rxFind win id W

theorem eq_of_rxFind_none {win₁ : RxWindow} (hfind : rxFind win id W = (win₁, none)) :
    win₁ = win := by
  cases found_of_rxFind hfind with
  | missing => rfl

/-- What `rx_window_insert` makes of the block it finds. -/
def insertedBlock (blk : RxBlock) (hdr : WireHeader) (s : Shard) (crypto : CryptoCtx)
    (nowUs : UInt64) : RxBlock :=
  if blk.decoded then blk
  else if maxN ≤ hdr.shardIdx.toNat then blk
  else if blk.received hdr.shardIdx.toNat then blk
  else storeShard blk hdr s crypto nowUs

theorem setSlot_slots_self (win : RxWindow) (i : ℕ) (blk : RxBlock) :
    (win.setSlot i blk).slots i = blk := Function.update_self ..

theorem setSlot_slots_of_ne (win : RxWindow) {i j : ℕ} (hij : i ≠ j) (blk : RxBlock) :
    (win.setSlot j blk).slots i = win.slots i := Function.update_of_ne hij ..

theorem setSlot_self (win : RxWindow) (i : ℕ) : win.setSlot i (win.slots i) = win := by
  rw [RxWindow.setSlot, Function.update_eq_self]

theorem rxWindowInsert_of_find {win₁ : RxWindow} {hdr : WireHeader}
    (hfind : rxFind win hdr.blockId W = (win₁, some i)) (s : Shard) (nowUs : UInt64) :
    rxWindowInsert win hdr s W crypto nowUs =
      win₁.setSlot i (insertedBlock (win₁.slots i) hdr s crypto nowUs) := by
  unfold rxWindowInsert insertedBlock
  rw [hfind]
  simp only
  split_ifs
  · exact (setSlot_self win₁ i).symm
  · exact (setSlot_self win₁ i).symm
  · exact (setSlot_self win₁ i).symm
  · rfl

theorem faithful_insertedBlock (h : Faithful crypto blk datagrams) {hdr : WireHeader}
    (hid : hdr.blockId = blk.blockId) (s : Shard) (nowUs : UInt64) :
    Faithful crypto (insertedBlock blk hdr s crypto nowUs) (datagrams ++ [(hdr, s)]) := by
  unfold insertedBlock
  split_ifs with hdec hrange hrecv
  · exact faithful_reject h hid fun hnot => by rw [hdec] at hnot; cases hnot
  · exact faithful_reject h hid fun _ hlt => absurd hlt (not_lt.mpr hrange)
  · exact faithful_reject h hid fun _ _ => hrecv
  · exact faithful_store h s nowUs hid (by simpa using hdec) (not_le.mp hrange)
      (by simpa using hrecv)

theorem tryDecode_block (blk : RxBlock) (k : ℕ) (garbage : StackGarbage) :
    (tryDecode blk k garbage).1 = blk ∨
      (tryDecode blk k garbage).1 = { blk with decoded := true } := by
  by_cases hdec : ∃ o, Decodes blk k garbage o
  · obtain ⟨o, ho⟩ := hdec
    rw [tryDecode_of_decodes ho]
    exact Or.inr rfl
  · rw [tryDecode_of_not_decodes fun o ho => hdec ⟨o, ho⟩]
    exact Or.inl rfl

theorem faithful_tryDecode (h : Faithful crypto blk datagrams) (k : ℕ) (garbage : StackGarbage) :
    Faithful crypto (tryDecode blk k garbage).1 datagrams := by
  rcases tryDecode_block blk k garbage with hsame | hset
  · rw [hsame]
    exact h
  · rw [hset]
    exact faithful_decoded h

theorem advancePass_slots (win : RxWindow) (W : ℕ) (nowUs : UInt64) (i : ℕ) :
    (advancePass win W nowUs).1.slots i = win.slots i ∨
      (advancePass win W nowUs).1.slots i = zeroBlock := by
  unfold advancePass
  split
  · next j _ =>
      split_ifs
      · by_cases hij : i = j
        · right
          rw [hij]
          exact Function.update_self ..
        · left
          exact Function.update_of_ne hij ..
      · exact Or.inl rfl
      · exact Or.inl rfl
  · split_ifs
    · exact Or.inl rfl
    · exact Or.inl rfl

theorem advanceLoop_slots {clock : ℕ → UInt64} {pass n : ℕ}
    (hloop : advanceLoop W clock fuel pass win = some (win', n)) (i : ℕ) :
    win'.slots i = win.slots i ∨ win'.slots i = zeroBlock := by
  induction fuel generalizing pass win with
  | zero => cases hloop
  | succ fuel ih =>
      have hpass := advancePass_slots win W (clock pass) i
      simp only [advanceLoop] at hloop
      split at hloop
      · next win₁ hmoved =>
          rw [hmoved] at hpass
          rcases ih hloop with hsame | hwiped
          · rw [hsame]
            exact hpass
          · exact Or.inr hwiped
      · next win₁ hstopped =>
          rw [hstopped] at hpass
          cases hloop
          exact hpass

/-! ## The log after a call -/

def AllFaithful (crypto : CryptoCtx) (win : RxWindow) (log : ℕ → List Datagram) : Prop :=
  ∀ i, Faithful crypto (win.slots i) (log i)

theorem allFaithful_init (crypto : CryptoCtx) :
    AllFaithful crypto rxWindowInit fun _ => [] := fun _ =>
  faithful_empty (counted_zeroBlock 0) rfl

theorem faithful_slotLog (h : AllFaithful crypto win log) (i : ℕ) :
    Faithful crypto (win.slots i) (slotLog win log i) := by
  unfold slotLog
  split_ifs with hfree
  · exact faithful_empty (h i).counted hfree
  · exact h i

theorem find_faithful (h : AllFaithful crypto win log) {win₁ : RxWindow}
    (hfind : rxFind win id W = (win₁, some i)) :
    (∀ j, j ≠ i → win₁.slots j = win.slots j) ∧ (win₁.slots i).blockId = id ∧
      Faithful crypto (win₁.slots i) (slotLog win log i) := by
  cases found_of_rxFind hfind with
  | held _ hlive hid => exact ⟨fun _ _ => rfl, hid, faithful_slotLog h i⟩
  | fresh _ hfree =>
      have hslot : (win.setSlot i { zeroBlock with blockId := id }).slots i =
          { zeroBlock with blockId := id } := Function.update_self ..
      rw [hslot, slotLog, if_pos hfree]
      exact ⟨fun j hj => Function.update_of_ne hj .., rfl,
        faithful_empty (counted_zeroBlock id) rfl⟩

theorem allFaithful_update (h : AllFaithful crypto win log) {win₁ : RxWindow}
    (hother : ∀ j, j ≠ i → win₁.slots j = win.slots j) (hblk : Faithful crypto blk datagrams) :
    AllFaithful crypto (win₁.setSlot i blk) (Function.update log i datagrams) := by
  intro j
  by_cases hji : j = i
  · rw [hji, Function.update_self]
    show Faithful crypto (Function.update win₁.slots i blk i) datagrams
    rw [Function.update_self]
    exact hblk
  · rw [Function.update_of_ne hji]
    show Faithful crypto (Function.update win₁.slots i blk j) (log j)
    rw [Function.update_of_ne hji, hother j hji]
    exact h j

theorem allFaithful_insert (h : AllFaithful crypto win log) (hdr : WireHeader) (s : Shard)
    (nowUs : UInt64) :
    AllFaithful crypto (rxWindowInsert win hdr s W crypto nowUs)
      (logAfter W win log (rxWindowInsert win hdr s W crypto nowUs) (.insert hdr s nowUs)) := by
  rcases hfind : rxFind win hdr.blockId W with ⟨win₁, _ | i⟩
  · have hsame : rxWindowInsert win hdr s W crypto nowUs = win := by
      rw [rxWindowInsert, hfind]
      exact eq_of_rxFind_none hfind
    rw [hsame, logAfter, hfind]
    exact h
  · obtain ⟨hother, hid, hslot⟩ := find_faithful h hfind
    rw [rxWindowInsert_of_find hfind, logAfter, hfind]
    exact allFaithful_update h hother (faithful_insertedBlock hslot hid.symm s nowUs)

theorem allFaithful_tryDecode (h : AllFaithful crypto win log) (id : UInt32) (k : ℕ)
    (garbage : StackGarbage) :
    AllFaithful crypto (rxWindowTryDecode win id k W garbage).1
      (logAfter W win log (rxWindowTryDecode win id k W garbage).1 (.tryDecode id k garbage)) := by
  rcases hfind : rxFind win id W with ⟨win₁, _ | i⟩
  · have hsame : (rxWindowTryDecode win id k W garbage).1 = win := by
      rw [rxWindowTryDecode, hfind]
      exact eq_of_rxFind_none hfind
    rw [hsame, logAfter, hfind]
    exact h
  · obtain ⟨hother, -, hslot⟩ := find_faithful h hfind
    have hresult : (rxWindowTryDecode win id k W garbage).1 =
        win₁.setSlot i (tryDecode (win₁.slots i) k garbage).1 := by
      rw [rxWindowTryDecode, hfind]
    rw [hresult, logAfter, hfind]
    exact allFaithful_update h hother (faithful_tryDecode hslot k garbage)

theorem allFaithful_advance (h : AllFaithful crypto win log) {clock : ℕ → UInt64} {n : ℕ}
    (hrun : rxWindowAdvance fuel win W clock = some (win', n)) :
    AllFaithful crypto win' (slotLog win' log) := by
  intro i
  rcases advanceLoop_slots hrun i with hsame | hwiped
  · unfold slotLog
    rw [hsame]
    exact faithful_slotLog h i
  · have hnone : slotLog win' log i = [] := if_pos (by rw [hwiped]; rfl)
    rw [hnone, hwiped]
    exact faithful_empty (counted_zeroBlock 0) rfl

theorem allFaithful_loggedStep (h : AllFaithful crypto win log) {log' : ℕ → List Datagram}
    {call : WindowCall} {out : CallOutput}
    (hstep : loggedStep fuel W crypto (win, log) call = some ((win', log'), out)) :
    AllFaithful crypto win' log' := by
  obtain ⟨r, hcall, hout⟩ := Option.map_eq_some_iff.mp hstep
  cases hout
  cases call with
  | insert hdr s nowUs =>
      cases hcall
      exact allFaithful_insert h hdr s nowUs
  | tryDecode id k garbage =>
      cases hcall
      exact allFaithful_tryDecode h id k garbage
  | advance nowUs =>
      obtain ⟨⟨win₁, n⟩, hadvance, hcall'⟩ := Option.map_eq_some_iff.mp hcall
      cases hcall'
      exact allFaithful_advance h hadvance

/-! ## What no call changes -/

/-- The same block, with every shard it had. -/
structure BlockKept (blk blk' : RxBlock) : Prop where
  sameBlock : blk'.blockId = blk.blockId
  received : ∀ idx, blk.received idx = true → blk'.received idx = true
  shards : ∀ idx, blk.received idx = true → blk'.shards idx = blk.shards idx

theorem blockKept_refl (blk : RxBlock) : BlockKept blk blk := ⟨rfl, fun _ h => h, fun _ _ => rfl⟩

theorem blockKept_insertedBlock (blk : RxBlock) (hdr : WireHeader) (s : Shard)
    (crypto : CryptoCtx) (nowUs : UInt64) :
    BlockKept blk (insertedBlock blk hdr s crypto nowUs) := by
  unfold insertedBlock
  split_ifs with hdec hrange hrecv
  · exact blockKept_refl blk
  · exact blockKept_refl blk
  · exact blockKept_refl blk
  · have hother : ∀ idx, blk.received idx = true → idx ≠ hdr.shardIdx.toNat := by
      rintro idx hidx rfl
      exact hrecv hidx
    refine ⟨rfl, fun idx hidx => ?_, fun idx hidx => ?_⟩
    · show Function.update blk.received hdr.shardIdx.toNat true idx = true
      rw [Function.update_of_ne (hother idx hidx)]
      exact hidx
    · exact Function.update_of_ne (hother idx hidx) ..

theorem blockKept_tryDecode (blk : RxBlock) (k : ℕ) (garbage : StackGarbage) :
    BlockKept blk (tryDecode blk k garbage).1 := by
  rcases tryDecode_block blk k garbage with hsame | hset
  · rw [hsame]
    exact blockKept_refl blk
  · rw [hset]
    exact ⟨rfl, fun _ h => h, fun _ _ => rfl⟩

theorem find_slots_of_live {win₁ : RxWindow} {r : Option ℕ} (hfind : rxFind win id W = (win₁, r))
    {j : ℕ} (hlive : 0 < (win.slots j).recvCount) : win₁.slots j = win.slots j := by
  cases found_of_rxFind hfind with
  | missing => rfl
  | held _ _ _ => rfl
  | fresh i hfree =>
      have hji : j ≠ i := by
        rintro rfl
        omega
      exact Function.update_of_ne hji ..

theorem blockKept_setSlot {win₁ : RxWindow} {r : Option ℕ}
    (hfind : rxFind win id W = (win₁, r)) (hblk : BlockKept (win₁.slots i) blk) {j : ℕ}
    (hlive : 0 < (win.slots j).recvCount) :
    BlockKept (win.slots j) ((win₁.setSlot i blk).slots j) := by
  rw [← find_slots_of_live hfind hlive]
  show BlockKept (win₁.slots j) (Function.update win₁.slots i blk j)
  by_cases hji : j = i
  · rw [hji, Function.update_self]
    exact hblk
  · rw [Function.update_of_ne hji]
    exact blockKept_refl _

/-- Whatever a call brings, a slot in use keeps its shards or is wiped. -/
theorem windowStep_kept {call : WindowCall} {out : CallOutput}
    (hstep : windowStep fuel W crypto win call = some (win', out))
    (hlive : 0 < (win.slots i).recvCount) :
    (∃ clock, call = .advance clock ∧ win'.slots i = zeroBlock) ∨
      BlockKept (win.slots i) (win'.slots i) := by
  cases call with
  | insert hdr s nowUs =>
      cases hstep
      right
      rcases hfind : rxFind win hdr.blockId W with ⟨win₁, _ | j⟩
      · rw [rxWindowInsert, hfind, eq_of_rxFind_none hfind]
        exact blockKept_refl _
      · rw [rxWindowInsert_of_find hfind]
        exact blockKept_setSlot hfind (blockKept_insertedBlock ..) hlive
  | tryDecode id k garbage =>
      cases hstep
      right
      show BlockKept (win.slots i) ((rxWindowTryDecode win id k W garbage).1.slots i)
      rcases hfind : rxFind win id W with ⟨win₁, _ | j⟩
      · rw [rxWindowTryDecode, hfind, eq_of_rxFind_none hfind]
        exact blockKept_refl _
      · rw [rxWindowTryDecode, hfind]
        exact blockKept_setSlot hfind (blockKept_tryDecode ..) hlive
  | advance nowUs =>
      obtain ⟨⟨win₁, n⟩, hadvance, hcall⟩ := Option.map_eq_some_iff.mp hstep
      cases hcall
      rcases advanceLoop_slots hadvance i with hsame | hwiped
      · rw [hsame]
        exact Or.inr (blockKept_refl _)
      · exact Or.inl ⟨nowUs, rfl, hwiped⟩

/-! ## After any calls -/

/-- The window and the log of its slots. -/
structure Represents (W : ℕ) (crypto : CryptoCtx) (win : RxWindow) (log : ℕ → List Datagram) :
    Prop where
  distinct : ∀ i j, 0 < (win.slots i).recvCount → 0 < (win.slots j).recvCount →
    (win.slots i).blockId = (win.slots j).blockId → i = j
  idle : ∀ i, W ≤ i → (win.slots i).recvCount = 0
  faithful : AllFaithful crypto win log

theorem represents_of_wellFormed (hwf : WellFormed W win) (h : AllFaithful crypto win log) :
    Represents W crypto win log where
  distinct i j hi hj hid := by
    have hlt : ∀ l, 0 < (win.slots l).recvCount → l < W := by
      intro l hl
      by_contra hge
      have hidle := live_eq_false.mp (hwf.idle l (not_lt.mp hge))
      omega
    exact hwf.distinct i (hlt i hi) j (hlt j hj) (live_iff.mpr hi) (live_iff.mpr hj) hid
  idle i hi := live_eq_false.mp (hwf.idle i hi)
  faithful := h

theorem allFaithful_run {calls : List WindowCall} {outs : List CallOutput}
    (hrun : run (loggedStep fuel W crypto) (rxWindowInit, fun _ => []) calls =
      some ((win, log), outs)) : AllFaithful crypto win log :=
  run_induction (P := fun _ st _ => AllFaithful crypto st.1 st.2) (allFaithful_init crypto)
    (fun _ _ _ _ _ _ _ h hstep => allFaithful_loggedStep h hstep) hrun

/-- **The window's representation.** After any calls the slots in use hold different blocks
and lie in the window, their counts are right, and each received shard is the first datagram
of its index that came to the slot, decrypted once.  No call changes such a shard; only
`rx_window_advance` wipes it. -/
theorem represents_run (hpos : 0 < W) (hW : W ≤ maxWindow) {calls : List WindowCall}
    {outs : List CallOutput}
    (hrun : run (windowStep fuel W crypto) rxWindowInit calls = some (win, outs)) :
    ∃ log, run (loggedStep fuel W crypto) (rxWindowInit, fun _ => []) calls =
        some ((win, log), outs) ∧
      Represents W crypto win log ∧
      ∀ call win' out, windowStep fuel W crypto win call = some (win', out) →
        ∀ i, 0 < (win.slots i).recvCount →
          (∃ clock, call = .advance clock ∧ win'.slots i = zeroBlock) ∨
            BlockKept (win.slots i) (win'.slots i) := by
  obtain ⟨log, hlogged⟩ := exists_log hrun fun _ => []
  have hwf := (tracked_run hpos hW hrun).wellFormed
  exact ⟨log, hlogged, represents_of_wellFormed hwf (allFaithful_run hlogged),
    fun _ _ _ hstep _ hlive => windowStep_kept hstep hlive⟩

theorem represents_run_twoBlocks :
    ∃ win outs, run (windowStep 3 8 (cryptoInit none)) rxWindowInit (twoBlocks.take 2) =
        some (win, outs) ∧
      ∃ log, run (loggedStep 3 8 (cryptoInit none)) (rxWindowInit, fun _ => [])
          (twoBlocks.take 2) = some ((win, log), outs) ∧
        Represents 8 (cryptoInit none) win log ∧
        ∀ call win' out, windowStep 3 8 (cryptoInit none) win call = some (win', out) →
          ∀ i, 0 < (win.slots i).recvCount →
            (∃ clock, call = .advance clock ∧ win'.slots i = zeroBlock) ∨
              BlockKept (win.slots i) (win'.slots i) :=
  have hrun : run (windowStep 3 8 (cryptoInit none)) rxWindowInit (twoBlocks.take 2) =
      some (_, _) := rfl
  ⟨_, _, hrun, represents_run (by decide) (by decide) hrun⟩

end CodingGateway.Proofs.Representation
