import CodingGateway.Proofs.BlockCompletion
import CodingGateway.Proofs.DeadPath
import CodingGateway.Proofs.EventLoop
import CodingGateway.Proofs.IndexSafety
import CodingGateway.Proofs.Representation
import Mathlib.Data.Nat.Count
set_option autoImplicit false

/-!
# Decode accounting

Blocks enter the window in `rx_window_insert` and leave it in `rx_window_advance`, while the
counters are raised in `main` alone.  Beside a run we count the blocks admitted, those
freed undecoded and those written to TUN.

* `undecoded_inserted`, `undecoded_attempted`, `undecoded_advance` — how each call changes
  the number of undecoded blocks;
* `freed_iff_givesUpAt` — when one is given up;
* `conserved_iff_regular` — the counters agree with these counts exactly as long as no
  block is given up and every block decoded has packets that are all written.
-/

namespace CodingGateway.Proofs.DecodeAccounting

open CodingGateway.Model
open CodingGateway.Library
open CodingGateway.Library.Machine
open CodingGateway.Proofs.BlockCompletion
open CodingGateway.Proofs.DeadPath
open CodingGateway.Proofs.Window
open CodingGateway.Proofs.ReceiveLoop
open CodingGateway.Proofs.EventLoop
open CodingGateway.Proofs.Representation
open CodingGateway.Proofs.IndexSafety
open CodingGateway.Proofs.Turns

/-! ## Counting slots -/

/-- The slot is in use and its block is not decoded. -/
def pending (blk : RxBlock) : Bool := live blk && !blk.decoded

/-- The occupied slots that hold an undecoded block. -/
def undecoded (W : ℕ) (win : RxWindow) : ℕ :=
  Nat.count (fun i => pending (win.slots i) = true) W

/-- The free slots that a call puts to use. -/
def admissions (W : ℕ) (win win' : RxWindow) : ℕ :=
  Nat.count (fun i => live (win.slots i) = false ∧ live (win'.slots i) = true) W

/-- The slots that a call frees although their block is not decoded. -/
def losses (W : ℕ) (win win' : RxWindow) : ℕ :=
  Nat.count (fun i => pending (win.slots i) = true ∧ live (win'.slots i) = false) W

theorem pending_iff {blk : RxBlock} :
    pending blk = true ↔ live blk = true ∧ blk.decoded = false := by
  rw [pending, Bool.and_eq_true, Bool.not_eq_true']

theorem count_eq_add {p q r : ℕ → Prop} [DecidablePred p] [DecidablePred q] [DecidablePred r]
    {n : ℕ} (hor : ∀ i < n, (r i ↔ p i ∨ q i)) (hnot : ∀ i < n, p i → ¬ q i) :
    Nat.count r n = Nat.count p n + Nat.count q n := by
  induction n with
  | zero => rfl
  | succ n ih =>
      have hlast := hor n (Nat.lt_succ_self n)
      have hexcl := hnot n (Nat.lt_succ_self n)
      rw [Nat.count_succ, Nat.count_succ, Nat.count_succ,
        ih (fun i hi => hor i (hi.trans (Nat.lt_succ_self n)))
          fun i hi => hnot i (hi.trans (Nat.lt_succ_self n))]
      by_cases hp : p n
      · rw [if_pos (hlast.mpr (Or.inl hp)), if_pos hp, if_neg (hexcl hp)]
        omega
      · by_cases hq : q n
        · rw [if_pos (hlast.mpr (Or.inr hq)), if_neg hp, if_pos hq]
          omega
        · rw [if_neg fun hr => (hlast.mp hr).elim hp hq, if_neg hp, if_neg hq]
          rfl

theorem count_eq_one {n i : ℕ} (hi : i < n) : Nat.count (· = i) n = 1 := by
  rw [Nat.count_eq_card_filter_range, Finset.filter_eq', if_pos (Finset.mem_range.mpr hi),
    Finset.card_singleton]

theorem count_eq_zero_iff {p : ℕ → Prop} [DecidablePred p] {n : ℕ} :
    Nat.count p n = 0 ↔ ∀ i < n, ¬ p i := by
  rw [Nat.count_eq_card_filter_range, Finset.card_eq_zero, Finset.filter_eq_empty_iff]
  constructor
  · intro h i hi
    exact h (Finset.mem_range.mpr hi)
  · intro h i hi
    exact h i (Finset.mem_range.mp hi)

/-! ## One step of the receive loop -/

section Step

variable {fuel W : ℕ} {crypto : CryptoCtx} {win win' : RxWindow} {a : Arrival} {out : RxOutput}

/-! ### Insertion -/

theorem inserted_slot (W : ℕ) (crypto : CryptoCtx) (win : RxWindow) (a : Arrival) (i : ℕ) :
    (live (win.slots i) = true → live ((inserted W crypto win a).slots i) = true ∧
        ((inserted W crypto win a).slots i).decoded = (win.slots i).decoded) ∧
      (live (win.slots i) = false → live ((inserted W crypto win a).slots i) = true →
        ((inserted W crypto win a).slots i).decoded = false) := by
  rcases hfind : rxFind win a.hdr.blockId W with ⟨win₁, _ | j⟩
  · have hsame : inserted W crypto win a = win := by
      rw [inserted, rxWindowInsert, hfind, eq_of_rxFind_none hfind]
    rw [hsame]
    refine ⟨fun hlive => ⟨hlive, rfl⟩, fun hdead hlive => ?_⟩
    rw [hdead] at hlive
    cases hlive
  · rw [inserted, rxWindowInsert_of_find hfind]
    by_cases hij : i = j
    · subst hij
      rw [setSlot_slots_self, decoded_blockWith]
      cases found_of_rxFind hfind with
      | held _ hlive _ =>
          refine ⟨fun hlive => ⟨live_blockWith crypto hlive, rfl⟩, fun hdead _ => ?_⟩
          rw [live_iff.mpr hlive] at hdead
          cases hdead
      | fresh _ hfree =>
          refine ⟨fun hlive => ?_, fun _ _ => ?_⟩
          · rw [live_eq_false.mpr hfree] at hlive
            cases hlive
          · rw [setSlot_slots_self]
            rfl
    · rw [setSlot_slots_of_ne _ hij]
      have hslot : win₁.slots i = win.slots i := by
        cases found_of_rxFind hfind with
        | held _ _ _ => rfl
        | fresh _ _ => exact setSlot_slots_of_ne win hij _
      rw [hslot]
      refine ⟨fun hlive => ⟨hlive, rfl⟩, fun hdead hlive => ?_⟩
      rw [hdead] at hlive
      cases hlive

theorem undecoded_inserted (W : ℕ) (crypto : CryptoCtx) (win : RxWindow) (a : Arrival) :
    undecoded W (inserted W crypto win a) =
      undecoded W win + admissions W win (inserted W crypto win a) := by
  apply count_eq_add
  · intro i _
    obtain ⟨hused, hnew⟩ := inserted_slot W crypto win a i
    rw [pending_iff, pending_iff]
    cases hlive : live (win.slots i) with
    | true =>
        obtain ⟨hlive', hdec⟩ := hused hlive
        simp [hlive', hdec]
    | false =>
        constructor
        · rintro ⟨hlive', _⟩
          exact Or.inr ⟨rfl, hlive'⟩
        · rintro (⟨hfalse, _⟩ | ⟨_, hlive'⟩)
          · cases hfalse
          · exact ⟨hlive', hnew hlive hlive'⟩
  · rintro i _ hpending ⟨hdead, _⟩
    rw [(pending_iff.mp hpending).1] at hdead
    cases hdead

/-! ### Decoding -/

theorem pending_of_tryDecode {blk : RxBlock} {k : ℕ} {garbage : StackGarbage} (hk : k ≠ 0)
    (hok : (tryDecode blk k garbage).2.1 = true) :
    pending blk = true ∧ (tryDecode blk k garbage).1.decoded = true := by
  by_cases hdec : ∃ o, Decodes blk k garbage o
  · obtain ⟨o, ho⟩ := hdec
    have hlive : 0 < blk.recvCount := (Nat.pos_of_ne_zero hk).trans_le ho.enough
    rw [tryDecode_of_decodes ho]
    exact ⟨pending_iff.mpr ⟨live_iff.mpr hlive, ho.undecoded⟩, rfl⟩
  · rw [tryDecode_of_not_decodes fun o ho => hdec ⟨o, ho⟩] at hok
    cases hok

theorem tryDecode_of_not_ok {blk : RxBlock} {k : ℕ} {garbage : StackGarbage}
    (hok : (tryDecode blk k garbage).2.1 = false) : (tryDecode blk k garbage).1 = blk := by
  by_cases hdec : ∃ o, Decodes blk k garbage o
  · obtain ⟨o, ho⟩ := hdec
    rw [tryDecode_of_decodes ho] at hok
    cases hok
  · rw [tryDecode_of_not_decodes fun o ho => hdec ⟨o, ho⟩]

theorem pending_rxFind {id : UInt32} {win₁ : RxWindow} {r : Option ℕ}
    (hfind : rxFind win id W = (win₁, r)) (i : ℕ) :
    pending (win₁.slots i) = pending (win.slots i) := by
  cases found_of_rxFind hfind with
  | missing => rfl
  | held _ _ _ => rfl
  | fresh j hfree =>
      by_cases hij : i = j
      · rw [hij, setSlot_slots_self, pending, pending, live_eq_false.mpr hfree]
        rfl
      · rw [setSlot_slots_of_ne _ hij]

theorem undecoded_attempted (hW : W ≤ maxWindow) (hwf : WellFormed W win) (crypto : CryptoCtx)
    (hk : Completes W win a → a.hdr.k ≠ 0) :
    undecoded W (inserted W crypto win a) =
      undecoded W (attempted W crypto win a).1 +
        if (attempted W crypto win a).2.1 then 1 else 0 := by
  rcases hfind : rxFind (inserted W crypto win a) a.hdr.blockId W with ⟨win₂, _ | j⟩
  · rw [attempted_of_missing crypto (by rw [hfind])]
    rfl
  · have hcompletes := (attempted_ok_iff crypto hW hwf (a := a)).mp
    rw [attempted_of_find crypto hfind] at hcompletes ⊢
    dsimp only at hcompletes ⊢
    cases hok : (tryDecode (win₂.slots j) a.hdr.k.toNat a.garbage).2.1 with
    | false =>
        have hsame : undecoded W (inserted W crypto win a) = undecoded W win₂ := by
          simp only [undecoded, pending_rxFind hfind]
        rw [tryDecode_of_not_ok hok, setSlot_self, hsame]
        rfl
    | true =>
        have hpos : a.hdr.k.toNat ≠ 0 := fun hzero =>
          hk (hcompletes hok) (UInt8.toNat_inj.mp hzero)
        obtain ⟨hpending, hdecoded⟩ := pending_of_tryDecode hpos hok
        rw [if_pos rfl, ← count_eq_one (slot_lt_of_rxFind hfind)]
        apply count_eq_add
        · intro i _
          rw [← pending_rxFind hfind]
          by_cases hij : i = j
          · rw [hij, setSlot_slots_self]
            exact ⟨fun _ => Or.inr rfl, fun _ => hpending⟩
          · rw [setSlot_slots_of_ne _ hij]
            exact ⟨Or.inl, fun h => h.resolve_right hij⟩
        · rintro i _ hleft rfl
          rw [setSlot_slots_self, pending_iff, hdecoded] at hleft
          cases hleft.2

theorem length_writes (crypto : CryptoCtx) (hok : (attempted W crypto win a).2.1 = true) :
    (attempted W crypto win a).2.2.length = a.hdr.k.toNat := by
  rcases hfind : rxFind (inserted W crypto win a) a.hdr.blockId W with ⟨win₂, _ | j⟩
  · rw [attempted_of_missing crypto (by rw [hfind])] at hok
    cases hok
  · rw [attempted_of_find crypto hfind] at hok ⊢
    by_cases hdec : ∃ o, Decodes (win₂.slots j) a.hdr.k.toNat a.garbage o
    · obtain ⟨o, ho⟩ := hdec
      rw [tryDecode_of_decodes ho, tunWrites, List.length_map, List.length_range]
    · rw [tryDecode_of_not_decodes fun o ho => hdec ⟨o, ho⟩] at hok
      cases hok

theorem isSome_delivered (W : ℕ) (crypto : CryptoCtx) (win : RxWindow) (a : Arrival) :
    (delivered W crypto win a).isSome = (attempted W crypto win a).2.1 := by
  unfold delivered
  cases (attempted W crypto win a).2.1 with
  | true => rfl
  | false => rfl

theorem any_delivered_iff {tunWrite : ℕ → Bool} (crypto : CryptoCtx) :
    ((delivered W crypto win a).any fun dl =>
        !dl.writes.isEmpty && (List.range dl.writes.length).all tunWrite) = true ↔
      (attempted W crypto win a).2.1 = true ∧ a.hdr.k ≠ 0 ∧
        ∀ i < a.hdr.k.toNat, tunWrite i = true := by
  have hzero : a.hdr.k ≠ 0 ↔ a.hdr.k.toNat ≠ 0 := UInt8.toNat_inj.not.symm
  unfold delivered
  cases hok : (attempted W crypto win a).2.1 with
  | false => exact iff_of_false Bool.false_ne_true fun h => Bool.false_ne_true h.1
  | true =>
      have hlen := length_writes crypto hok
      rw [if_pos rfl, Option.any_some, Bool.and_eq_true, Bool.not_eq_true',
        List.isEmpty_eq_false_iff, ← List.length_pos_iff, hlen, hzero, Nat.pos_iff_ne_zero,
        List.all_eq_true]
      simp only [List.mem_range, true_and]

/-! ### The window moves -/

theorem undecoded_advance {clock : ℕ → UInt64} {n : ℕ}
    (hadv : rxWindowAdvance fuel win W clock = some (win', n)) :
    undecoded W win = undecoded W win' + losses W win win' := by
  apply count_eq_add
  · intro i _
    rcases advanceLoop_slots hadv i with hsame | hwiped
    · rw [hsame]
      refine ⟨Or.inl, fun h => h.elim id fun h => h.1⟩
    · rw [hwiped]
      refine ⟨fun h => Or.inr ⟨h, rfl⟩, fun h => ?_⟩
      rcases h with hzero | hlost
      · cases hzero
      · exact hlost.1
  · rintro i _ hpending ⟨_, hdead⟩
    rw [(pending_iff.mp hpending).1] at hdead
    cases hdead

theorem cleared_iff_not_leftAt (hwf : WellFormed W win) {clock : ℕ → UInt64} {n i : ℕ}
    (hadv : rxWindowAdvance fuel win W clock = some (win', n)) (hi : i < W)
    (hlive : live (win.slots i) = true) :
    live (win'.slots i) = false ↔
      ¬ LeftAt clock win.baseId (win.slots i).blockId (due (win.slots i)) n := by
  have hslots := advanceLoop_slots hadv
  obtain ⟨_, rfl, _, hmoved⟩ := rxWindowAdvance_eq_some.mp hadv
  have hend := begins_of_moves hwf hmoved
  have hheld := held_of_slot hwf (live_iff.mp hlive)
  constructor
  · intro hdead hleft
    obtain ⟨j, hj, hslot, hlive', _⟩ := (held_eq_some hend.wf).mp
      ((hend.held _ _).mpr ⟨hheld, hleft⟩)
    rcases hslots j with hsame | hwiped
    · rw [hsame] at hslot
      have hij : j = i := hwf.distinct j hj i hi (by rw [hslot]; exact hlive') hlive
        (by rw [hslot])
      rw [hij] at hsame
      rw [hsame, hlive] at hdead
      cases hdead
    · rw [← hslot, hwiped] at hlive'
      cases hlive'
  · intro hgone
    rcases hslots i with hsame | hwiped
    · have hheld' := held_of_slot hend.wf (i := i) (by rw [hsame]; exact live_iff.mp hlive)
      rw [hsame] at hheld'
      exact absurd ((hend.held _ _).mp hheld').2 hgone
    · rw [hwiped]
      rfl

/-- The first turn that takes a block for done gives it up. -/
theorem exists_givesUpAt_of_not_leftAt (hwf : WellFormed W win) {clock : ℕ → UInt64} {n : ℕ}
    (hmoved : ∀ q < n, moves W clock win q = true) {id : UInt32} {d : Due}
    (hd : dues W win id = some d) (hundec : d.decoded = false)
    (hgone : ¬ LeftAt clock win.baseId id d n) :
    ∃ p, GivesUpAt clock win.baseId (dues W win) p := by
  classical
  rw [LeftAt] at hgone
  push Not at hgone
  obtain ⟨q, hq, hhere, hdone⟩ := hgone
  have hsome : ∃ q, win.baseId + UInt32.ofNat q = id ∧ d.done (clock q) = true :=
    ⟨q, hhere, by simpa using hdone⟩
  have hfirst := Nat.find_spec hsome
  have hle := Nat.find_min' hsome ⟨hhere, by simpa using hdone⟩
  refine ⟨Nat.find hsome, (reaches_iff hwf).mpr fun r hr => hmoved r (by omega), d,
    ⟨?_, fun r hr heq => ?_⟩, hundec, hfirst.2⟩
  · rw [hfirst.1, hd]
  · rw [hfirst.1] at heq
    exact Bool.eq_false_iff.mpr fun hdone => Nat.find_min hsome hr ⟨heq, hdone⟩

/-- A turn that gives a block up is one of the turns made. -/
theorem lt_of_givesUpAt (hwf : WellFormed W win) {clock : ℕ → UInt64} {n p : ℕ}
    (hidle : moves W clock win n = false) (h : GivesUpAt clock win.baseId (dues W win) p) :
    p < n := by
  obtain ⟨hreaches, d, hdue, -, hdone⟩ := h
  have hmoves : Reaches clock win.baseId (dues W win) (p + 1) := by
    intro q hq
    rcases Nat.lt_succ_iff_lt_or_eq.mp hq with hlt | rfl
    · exact hreaches q hlt
    · exact Or.inl ⟨d, hdue, hdone⟩
  by_contra hpn
  have hstill := (reaches_iff hwf).mp hmoves n (by omega)
  rw [hidle] at hstill
  cases hstill

/-- A call frees an undecoded block exactly if one of its turns gives one up. -/
theorem freed_iff_givesUpAt (hwf : WellFormed W win) {clock : ℕ → UInt64} {n : ℕ}
    (hadv : rxWindowAdvance fuel win W clock = some (win', n)) :
    (∃ i < W, pending (win.slots i) = true ∧ live (win'.slots i) = false) ↔
      ∃ p, GivesUpAt clock win.baseId (dues W win) p := by
  obtain ⟨_, _, hidle, hmoved⟩ := rxWindowAdvance_eq_some.mp hadv
  constructor
  · rintro ⟨i, hi, hpending, hdead⟩
    obtain ⟨hlive, hundec⟩ := pending_iff.mp hpending
    have hheld := held_of_slot hwf (live_iff.mp hlive)
    have hd : dues W win (win.slots i).blockId = some (due (win.slots i)) := by
      rw [dues, hheld, Option.map_some]
    exact exists_givesUpAt_of_not_leftAt hwf hmoved hd hundec
      ((cleared_iff_not_leftAt hwf hadv hi hlive).mp hdead)
  · rintro ⟨p, hgives⟩
    have hpn := lt_of_givesUpAt hwf hidle hgives
    obtain ⟨_, d, ⟨hd, _⟩, hundec, hdone⟩ := hgives
    obtain ⟨blk, hheld, rfl⟩ := dues_eq_some.mp hd
    obtain ⟨i, hi, rfl, hlive, hid⟩ := (held_eq_some hwf).mp hheld
    refine ⟨i, hi, pending_iff.mpr ⟨hlive, hundec⟩, ?_⟩
    refine (cleared_iff_not_leftAt hwf hadv hi hlive).mpr fun hleft => ?_
    have hnot := hleft p hpn hid.symm
    rw [hdone] at hnot
    cases hnot

theorem losses_eq_zero_iff (hwf : WellFormed W win) {clock : ℕ → UInt64} {n : ℕ}
    (hadv : rxWindowAdvance fuel win W clock = some (win', n)) :
    losses W win win' = 0 ↔ ∀ p, ¬ GivesUpAt clock win.baseId (dues W win) p := by
  rw [← not_exists, ← freed_iff_givesUpAt hwf hadv, losses, count_eq_zero_iff]
  simp only [not_exists, not_and]

theorem losses_le (W : ℕ) (win win' : RxWindow) : losses W win win' ≤ W := Nat.count_le _

end Step

/-! ## The counters in a turn of the event loop -/

section Counters

variable {fuel : ℕ} {st st' : MainState} {inp : MainInput} {out : MainOutput}

structure SameCounters (m m' : Metrics) : Prop where
  success : m'.decodeSuccess = m.decodeSuccess
  failure : m'.decodeFailure = m.decodeFailure

theorem SameCounters.refl (m : Metrics) : SameCounters m m := ⟨rfl, rfl⟩

theorem SameCounters.trans {m₁ m₂ m₃ : Metrics} (h₁ : SameCounters m₁ m₂)
    (h₂ : SameCounters m₂ m₃) : SameCounters m₁ m₃ :=
  ⟨h₂.success.trans h₁.success, h₂.failure.trans h₁.failure⟩

theorem sameCounters_sendStep (tctx : TransportCtx) (env : FlushEnv) (k n : ℕ)
    (shards : ℕ → Shard) (res : FlushResult) (i : ℕ) :
    SameCounters res.metrics (sendStep tctx env k n shards res i).metrics := by
  unfold sendStep
  split
  · exact SameCounters.refl _
  · split_ifs
    · exact ⟨rfl, rfl⟩
    · exact SameCounters.refl _

theorem sameCounters_txBlockFlush (blk : TxBlock) (tctx : TransportCtx) (sctx : StrategyCtx)
    (k : ℕ) (crypto : CryptoCtx) (metrics : Metrics) (env : FlushEnv) :
    SameCounters metrics (txBlockFlush blk tctx sctx k crypto metrics env).metrics := by
  have hfoldl : ∀ (n : ℕ) (shards : ℕ → Shard) (l : List ℕ) (res : FlushResult),
      SameCounters res.metrics (l.foldl (sendStep tctx env k n shards) res).metrics := by
    intro n shards l
    induction l with
    | nil => exact fun res => SameCounters.refl _
    | cons i l ih =>
        intro res
        exact (sameCounters_sendStep tctx env k n shards res i).trans (ih _)
  unfold txBlockFlush
  split_ifs
  · exact SameCounters.refl metrics
  · exact ⟨(hfoldl ..).success, (hfoldl ..).failure⟩

theorem sameCounters_mainFlush (st : MainState) (env : FlushEnv) :
    SameCounters st.metrics (mainFlush st env).1.metrics :=
  sameCounters_txBlockFlush ..

theorem sameCounters_mainRead (st : MainState) (inp : MainInput) :
    SameCounters st.metrics (mainRead st inp).1.metrics := by
  unfold mainRead
  split_ifs
  · cases inp.packet with
    | none => exact SameCounters.refl _
    | some pkt =>
        dsimp only
        split_ifs
        · exact sameCounters_txBlockFlush ..
        · exact SameCounters.refl _
  · exact SameCounters.refl _

theorem sameCounters_mainTimeout (st : MainState) (inp : MainInput) :
    SameCounters st.metrics (mainTimeout st inp).1.metrics := by
  unfold mainTimeout
  split_ifs
  · exact sameCounters_mainFlush st inp.timeoutFlush
  · exact SameCounters.refl _

theorem mainProbe_metrics (st : MainState) (inp : MainInput) :
    (mainProbe st inp).1.metrics = st.metrics := by
  unfold mainProbe
  split_ifs
  · rfl
  · rfl

theorem mainReload_metrics (st : MainState) (newCfg : Option GatewayConfig) :
    (mainReload st newCfg).metrics = st.metrics := by
  cases newCfg with
  | none => rfl
  | some cfg => rfl

/-- The counters after a turn whose receive phase reported `rx`. -/
structure CountersAfter (m m' : Metrics) (rx : Option RxOutput) : Prop where
  success : m'.decodeSuccess =
    if (rx.bind RxOutput.delivery).isSome then m.decodeSuccess + 1 else m.decodeSuccess
  failure : m'.decodeFailure = m.decodeFailure

theorem countersAfter_mainRx {rx : Option RxOutput} {sent : List (ℕ × List UInt8)}
    (h : mainRx fuel st inp = some (st', rx, sent)) : CountersAfter st.metrics st'.metrics rx := by
  unfold mainRx at h
  cases harr : inp.arrival with
  | none =>
      rw [harr] at h
      cases h
      exact ⟨rfl, rfl⟩
  | some r =>
      rw [harr] at h
      dsimp only at h
      cases hrecv : transportRecv st.tctx r.dgram r.garbage.shardIn with
      | error =>
          rw [hrecv] at h
          cases h
          exact ⟨rfl, rfl⟩
      | probe ts path =>
          rw [hrecv] at h
          cases h
          exact ⟨rfl, rfl⟩
      | probeEcho ts path =>
          rw [hrecv] at h
          dsimp only at h
          split_ifs at h with htx
          · cases h
            exact ⟨rfl, rfl⟩
          · cases h
            exact ⟨rfl, rfl⟩
      | data hdr s path =>
          rw [hrecv] at h
          dsimp only at h
          split_ifs at h with hrx
          · cases hstep : rxStep fuel st.cfg.windowSize.toNat st.crypto st.rxWin
                ⟨hdr, s, r.garbage, r.insertUs, r.advanceUs⟩ with
            | none =>
                rw [hstep] at h
                cases h
            | some q =>
                rw [hstep] at h
                cases h
                exact ⟨rfl, rfl⟩
          · cases h
            exact ⟨rfl, rfl⟩

theorem countersAfter_mainStep (h : mainStep fuel st inp = some (st', out)) :
    CountersAfter st.metrics st'.metrics out.rx := by
  rcases mainStep_cases h with ⟨newCfg, _, rfl, rfl⟩ | ⟨_, _, rfl, rfl⟩ | ⟨_, _, ⟨p⟩⟩
  · rw [mainReload_metrics]
    exact ⟨rfl, rfl⟩
  · exact ⟨rfl, rfl⟩
  · have hread := sameCounters_mainRead st inp
    have htimeout := sameCounters_mainTimeout p.read inp
    have hrx := countersAfter_mainRx p.received_eq
    have hprobe := mainProbe_metrics p.received inp
    rw [p.read_eq] at hread
    rw [p.timeout_eq] at htimeout
    rw [p.probe_eq] at hprobe
    have hbefore := hread.trans htimeout
    rw [hprobe, p.out_rx]
    exact ⟨by rw [hrx.success, hbefore.success], by rw [hrx.failure, hbefore.failure]⟩

end Counters

/-! ## Runs -/

/-- What happened to blocks since the start of a run: admitted to the window, freed there
undecoded, and written to TUN. -/
structure Tally where
  admitted : ℕ
  lost : ℕ
  written : ℕ

/-- A turn of the event loop, and which of its calls of `tun_write` succeed; the program only
logs the others. -/
structure TalliedTurn where
  inp : MainInput
  tunWrite : ℕ → Bool

/-- The turn wrote the packets of a block, all of them. -/
def wrote (turn : TalliedTurn) (out : MainOutput) : Bool :=
  (out.rx.bind RxOutput.delivery).any fun dl =>
    !dl.writes.isEmpty && (List.range dl.writes.length).all turn.tunWrite

/-- The window once the shard of a turn is inserted. -/
abbrev insertIn (st : MainState) (a : Arrival) : RxWindow :=
  inserted st.cfg.windowSize.toNat st.crypto st.rxWin a

/-- The window once decoding was tried in a turn, and what became of it. -/
abbrev attemptIn (st : MainState) (a : Arrival) : RxWindow × Bool × List (List UInt8) :=
  attempted st.cfg.windowSize.toNat st.crypto st.rxWin a

/-- The tally after a turn that makes `st'` of `st`. -/
def tallyAfter (st : MainState) (turn : TalliedTurn) (st' : MainState) (out : MainOutput)
    (t : Tally) : Tally :=
  match feed st turn.inp with
  | none => t
  | some a =>
      { admitted := t.admitted + admissions st.cfg.windowSize.toNat st.rxWin (insertIn st a)
        lost := t.lost + losses st.cfg.windowSize.toNat (attemptIn st a).1 st'.rxWin
        written := t.written + if wrote turn out then 1 else 0 }

/-- A turn of the event loop, with the tally. -/
def talliedStep (fuel : ℕ) (s : MainState × Tally) (turn : TalliedTurn) :
    Option ((MainState × Tally) × MainOutput) :=
  (mainStep fuel s.1 turn.inp).map fun r => ((r.1, tallyAfter s.1 turn r.1 r.2 s.2), r.2)

def talliedRun (fuel : ℕ) :
    MainState × Tally → List TalliedTurn → Option ((MainState × Tally) × List MainOutput) :=
  run (talliedStep fuel)

theorem talliedStep_eq_some {fuel : ℕ} {s s' : MainState × Tally} {turn : TalliedTurn}
    {out : MainOutput} (h : talliedStep fuel s turn = some (s', out)) :
    mainStep fuel s.1 turn.inp = some (s'.1, out) ∧ s'.2 = tallyAfter s.1 turn s'.1 out s.2 := by
  rw [talliedStep, Option.map_eq_some_iff] at h
  obtain ⟨r, hstep, hr⟩ := h
  cases hr
  exact ⟨hstep, rfl⟩

/-- Every block admitted is decoded, failed or still undecoded in the window; the failures are
the blocks that left it undecoded, and the successes the blocks written. -/
structure Conserved (st : MainState) (t : Tally) : Prop where
  balance : st.metrics.decodeSuccess + st.metrics.decodeFailure +
    UInt64.ofNat (undecoded st.cfg.windowSize.toNat st.rxWin) = UInt64.ofNat t.admitted
  failures : st.metrics.decodeFailure = UInt64.ofNat t.lost
  successes : st.metrics.decodeSuccess = UInt64.ofNat t.written

/-- Of a data shard that the turn feeds to the window: if it completes its block, the packets of
the block are at least one and are all written; and `base_id` does not come to an undecoded block
whose time is over. -/
def Regular (st : MainState) (turn : TalliedTurn) : Prop :=
  ∀ a, feed st turn.inp = some a →
    (Completes st.cfg.windowSize.toNat st.rxWin a →
      a.hdr.k ≠ 0 ∧ ∀ i < a.hdr.k.toNat, turn.tunWrite i = true) ∧
    ∀ p, ¬ GivesUpAt a.advanceUs st.rxWin.baseId
      (duesAfter st.cfg.windowSize.toNat st.rxWin a) p

section Turn

variable {fuel : ℕ} {st st' : MainState} {turn : TalliedTurn} {out : MainOutput} {a : Arrival}
  {t : Tally}

theorem outcome_of_feed (hstep : mainStep fuel st turn.inp = some (st', out))
    (hfeed : feed st turn.inp = some a) :
    ∃ n, rxWindowAdvance fuel (attemptIn st a).1 st.cfg.windowSize.toNat a.advanceUs =
        some (st'.rxWin, n) ∧
      (out.rx.bind RxOutput.delivery).isSome = (attemptIn st a).2.1 ∧
      (wrote turn out = true ↔ (attemptIn st a).2.1 = true ∧ a.hdr.k ≠ 0 ∧
        ∀ i < a.hdr.k.toNat, turn.tunWrite i = true) := by
  obtain ⟨_, ⟨hnone, _⟩ | ⟨a', o, ha, hrx, hrxStep⟩⟩ := mainStep_window hstep
  · rw [hfeed] at hnone
    cases hnone
  · rw [hfeed, Option.some.injEq] at ha
    subst ha
    obtain ⟨hadv, hdel⟩ := rxStep_eq_some.mp hrxStep
    refine ⟨o.moves, hadv, ?_, ?_⟩
    · rw [hrx, Option.bind_some, hdel, isSome_delivered]
    · rw [wrote, hrx, Option.bind_some, hdel]
      exact any_delivered_iff st.crypto

theorem tallyAfter_of_feed (hfeed : feed st turn.inp = some a) :
    tallyAfter st turn st' out t =
      { admitted := t.admitted + admissions st.cfg.windowSize.toNat st.rxWin (insertIn st a)
        lost := t.lost + losses st.cfg.windowSize.toNat (attemptIn st a).1 st'.rxWin
        written := t.written + if wrote turn out then 1 else 0 } := by
  rw [tallyAfter, hfeed]

theorem conserved_idle (hstep : mainStep fuel st turn.inp = some (st', out))
    (hfeed : feed st turn.inp = none) (h : Conserved st t) :
    Conserved st' (tallyAfter st turn st' out t) := by
  have hcounters := countersAfter_mainStep hstep
  obtain ⟨hsame, ⟨_, hwin, hrx⟩ | ⟨a, o, ha, _⟩⟩ := mainStep_window hstep
  · have hsuccess : st'.metrics.decodeSuccess = st.metrics.decodeSuccess := by
      rw [hcounters.success, hrx]
      rfl
    rw [tallyAfter, hfeed]
    exact ⟨by rw [hsuccess, hcounters.failure, hsame.windowSize, hwin, h.balance],
      by rw [hcounters.failure, h.failures], by rw [hsuccess, h.successes]⟩
  · rw [hfeed] at ha
    cases ha

theorem success_eq (hstep : mainStep fuel st turn.inp = some (st', out))
    (hfeed : feed st turn.inp = some a) (h : st.metrics.decodeSuccess = UInt64.ofNat t.written) :
    st'.metrics.decodeSuccess =
      UInt64.ofNat (t.written + if (attemptIn st a).2.1 then 1 else 0) := by
  obtain ⟨_, _, hsome, _⟩ := outcome_of_feed hstep hfeed
  rw [(countersAfter_mainStep hstep).success, hsome, h]
  split_ifs
  · rw [UInt64.ofNat_add]
    rfl
  · rfl

theorem losses_eq_zero_iff_givesUpAt {n : ℕ} (hW : st.cfg.windowSize.toNat ≤ maxWindow)
    (hwf : WellFormed st.cfg.windowSize.toNat st.rxWin)
    (hadv : rxWindowAdvance fuel (attemptIn st a).1 st.cfg.windowSize.toNat a.advanceUs =
      some (st'.rxWin, n)) :
    losses st.cfg.windowSize.toNat (attemptIn st a).1 st'.rxWin = 0 ↔
      ∀ p, ¬ GivesUpAt a.advanceUs st.rxWin.baseId
        (duesAfter st.cfg.windowSize.toNat st.rxWin a) p := by
  rw [losses_eq_zero_iff (attempted_wellFormed hW hwf st.crypto a) hadv,
    dues_attempted st.crypto hW hwf, attempted_baseId hW hwf st.crypto a]

theorem conserved_turn (hW : st.cfg.windowSize.toNat ≤ maxWindow)
    (hwf : WellFormed st.cfg.windowSize.toNat st.rxWin)
    (hstep : mainStep fuel st turn.inp = some (st', out)) (hfeed : feed st turn.inp = some a)
    (hreg : Regular st turn) (h : Conserved st t) :
    Conserved st' (tallyAfter st turn st' out t) := by
  obtain ⟨hwhole, hexpires⟩ := hreg a hfeed
  obtain ⟨n, hadv, _, hwrote⟩ := outcome_of_feed hstep hfeed
  have hok : (attemptIn st a).2.1 = true ↔ Completes st.cfg.windowSize.toNat st.rxWin a :=
    attempted_ok_iff st.crypto hW hwf
  have hlosses := (losses_eq_zero_iff_givesUpAt hW hwf hadv).mpr hexpires
  have hadmit : undecoded st.cfg.windowSize.toNat (insertIn st a) =
      undecoded st.cfg.windowSize.toNat st.rxWin +
        admissions st.cfg.windowSize.toNat st.rxWin (insertIn st a) :=
    undecoded_inserted st.cfg.windowSize.toNat st.crypto st.rxWin a
  have hdecode : undecoded st.cfg.windowSize.toNat (insertIn st a) =
      undecoded st.cfg.windowSize.toNat (attemptIn st a).1 +
        if (attemptIn st a).2.1 then 1 else 0 :=
    undecoded_attempted hW hwf st.crypto fun h => (hwhole h).1
  have hmove := undecoded_advance hadv
  have hsuccess := success_eq hstep hfeed h.successes
  have hfailure := (countersAfter_mainStep hstep).failure
  have hwrites : wrote turn out = (attemptIn st a).2.1 := by
    rw [Bool.eq_iff_iff, hwrote]
    exact ⟨fun h => h.1, fun h => ⟨h, hwhole (hok.mp h)⟩⟩
  have hbalance := h.balance
  rw [h.successes, h.failures, ← UInt64.ofNat_add, ← UInt64.ofNat_add] at hbalance
  rw [tallyAfter_of_feed hfeed]
  refine ⟨?_, ?_, ?_⟩
  · -- a block admitted is pending, and a block no longer pending was decoded
    have hcount : (t.written + if (attemptIn st a).2.1 then 1 else 0) + t.lost +
          undecoded st.cfg.windowSize.toNat st'.rxWin =
        t.written + t.lost + undecoded st.cfg.windowSize.toNat st.rxWin +
          admissions st.cfg.windowSize.toNat st.rxWin (insertIn st a) := by
      omega
    calc st'.metrics.decodeSuccess + st'.metrics.decodeFailure +
          UInt64.ofNat (undecoded st'.cfg.windowSize.toNat st'.rxWin)
        = UInt64.ofNat ((t.written + if (attemptIn st a).2.1 then 1 else 0) + t.lost +
            undecoded st.cfg.windowSize.toNat st'.rxWin) := by
          rw [hsuccess, hfailure, h.failures, (mainStep_window hstep).1.windowSize,
            ← UInt64.ofNat_add, ← UInt64.ofNat_add]
      _ = UInt64.ofNat (t.admitted +
            admissions st.cfg.windowSize.toNat st.rxWin (insertIn st a)) := by
          rw [hcount, UInt64.ofNat_add, hbalance, UInt64.ofNat_add]
  · rw [hfailure, h.failures, hlosses, Nat.add_zero]
  · rw [hsuccess, hwrites]

/-- If the counters are right before a turn and after it, the turn was regular. -/
theorem regular_of_conserved (hW : st.cfg.windowSize.toNat ≤ maxWindow)
    (hwf : WellFormed st.cfg.windowSize.toNat st.rxWin)
    (hstep : mainStep fuel st turn.inp = some (st', out)) (h : Conserved st t)
    (h' : Conserved st' (tallyAfter st turn st' out t)) : Regular st turn := by
  intro a hfeed
  obtain ⟨n, hadv, _, hwrote⟩ := outcome_of_feed hstep hfeed
  rw [tallyAfter_of_feed hfeed] at h'
  constructor
  · intro hcompletes
    have hok : (attemptIn st a).2.1 = true := (attempted_ok_iff st.crypto hW hwf).mpr hcompletes
    have hsuccess := h'.successes
    rw [success_eq hstep hfeed h.successes, hok] at hsuccess
    by_contra hshort
    have hunwritten : ¬ wrote turn out = true := fun hw => hshort (hwrote.mp hw).2
    simp [hunwritten, UInt64.ofNat_add] at hsuccess
  · apply (losses_eq_zero_iff_givesUpAt hW hwf hadv).mp
    have hfailure : st'.metrics.decodeFailure = UInt64.ofNat
        (t.lost + losses st.cfg.windowSize.toNat (attemptIn st a).1 st'.rxWin) := h'.failures
    have hle := losses_le st.cfg.windowSize.toNat (attemptIn st a).1 st'.rxWin
    rw [(countersAfter_mainStep hstep).failure, h.failures] at hfailure
    have hmod := congrArg UInt64.toNat hfailure
    rw [UInt64.toNat_ofNat', UInt64.toNat_ofNat'] at hmod
    have hW' : st.cfg.windowSize.toNat ≤ 16 := hW
    omega

end Turn

/-- The start of a run, with nothing counted. -/
def tallyStart (cfg : GatewayConfig) (tctx : TransportCtx) (crypto : CryptoCtx) (now : Timeval) :
    MainState × Tally :=
  (mainInit cfg tctx crypto now, ⟨0, 0, 0⟩)

section Runs

variable {fuel : ℕ} {cfg : GatewayConfig} {tctx : TransportCtx} {crypto : CryptoCtx}
  {now : Timeval} {turns : List TalliedTurn} {s : MainState × Tally} {outs : List MainOutput}

theorem wellFormed_talliedRun (hW : cfg.windowSize.toNat ≤ maxWindow)
    (hrun : talliedRun fuel (tallyStart cfg tctx crypto now) turns = some (s, outs)) :
    s.1.cfg.windowSize.toNat ≤ maxWindow ∧ WellFormed s.1.cfg.windowSize.toNat s.1.rxWin := by
  refine run_induction (P := fun _ s _ => s.1.cfg.windowSize.toNat ≤ maxWindow ∧
    WellFormed s.1.cfg.windowSize.toNat s.1.rxWin) ⟨hW, wellFormed_init _⟩ ?_ hrun
  rintro _ s _ turn s' out _ ⟨hsize, hwf⟩ hstep
  obtain ⟨hsame, hwindow⟩ := mainStep_window (talliedStep_eq_some hstep).1
  rw [hsame.windowSize]
  refine ⟨hsize, ?_⟩
  rcases hwindow with ⟨_, hwin, _⟩ | ⟨a, o, _, _, hrxStep⟩
  · rw [hwin]
    exact hwf
  · exact wellFormed_rxStep hsize hwf hrxStep

theorem conserved_start (cfg : GatewayConfig) (tctx : TransportCtx) (crypto : CryptoCtx)
    (now : Timeval) :
    Conserved (tallyStart cfg tctx crypto now).1 (tallyStart cfg tctx crypto now).2 where
  balance := by
    have hnone : undecoded cfg.windowSize.toNat rxWindowInit = 0 :=
      count_eq_zero_iff.mpr fun i _ hpending => by cases hpending
    change (0 : UInt64) + 0 + UInt64.ofNat (undecoded cfg.windowSize.toNat rxWindowInit) = 0
    rw [hnone]
    rfl
  failures := rfl
  successes := rfl

theorem conserved_step {turn : TalliedTurn} {s' : MainState × Tally} {out : MainOutput}
    (hW : s.1.cfg.windowSize.toNat ≤ maxWindow)
    (hwf : WellFormed s.1.cfg.windowSize.toNat s.1.rxWin)
    (hstep : talliedStep fuel s turn = some (s', out)) (hreg : Regular s.1 turn)
    (h : Conserved s.1 s.2) : Conserved s'.1 s'.2 := by
  obtain ⟨hmain, htally⟩ := talliedStep_eq_some hstep
  rw [htally]
  cases hfeed : feed s.1 turn.inp with
  | none => exact conserved_idle hmain hfeed h
  | some a => exact conserved_turn hW hwf hmain hfeed hreg h

/-- Along a run from zeroed metrics the counters are right in every state reached if and only if
every turn is regular. -/
theorem conserved_iff_regular (fuel : ℕ) (hW : cfg.windowSize.toNat ≤ maxWindow)
    (tctx : TransportCtx) (crypto : CryptoCtx) (now : Timeval) (turns : List TalliedTurn) :
    (∀ js s outs, js <+: turns →
        talliedRun fuel (tallyStart cfg tctx crypto now) js = some (s, outs) →
        Conserved s.1 s.2) ↔
      ∀ js turn s outs, js ++ [turn] <+: turns →
        talliedRun fuel (tallyStart cfg tctx crypto now) js = some (s, outs) →
        (talliedStep fuel s turn).isSome = true → Regular s.1 turn := by
  constructor
  · intro h js turn s outs hpre hrun hsome
    obtain ⟨⟨s', out⟩, hstep⟩ := Option.isSome_iff_exists.mp hsome
    obtain ⟨hmain, htally⟩ := talliedStep_eq_some hstep
    obtain ⟨hsize, hwf⟩ := wellFormed_talliedRun hW hrun
    have hbefore := h js s outs ((List.prefix_append js [turn]).trans hpre) hrun
    have hafter := h (js ++ [turn]) s' (outs ++ [out]) hpre
      (run_concat_eq_some.mpr ⟨s, outs, out, hrun, hstep, rfl⟩)
    rw [htally] at hafter
    exact regular_of_conserved hsize hwf hmain hbefore hafter
  · intro h js
    induction js using List.reverseRecOn with
    | nil =>
        intro s outs _ hrun
        cases hrun
        exact conserved_start cfg tctx crypto now
    | append_singleton js turn ih =>
        intro s' outs' hpre hrun'
        obtain ⟨s, outs, out, hrun, hstep, _⟩ := run_concat_eq_some.mp hrun'
        obtain ⟨hsize, hwf⟩ := wellFormed_talliedRun hW hrun
        have hreg := h js turn s outs hpre hrun (by rw [hstep]; rfl)
        exact conserved_step hsize hwf hstep hreg
          (ih s outs ((List.prefix_append js [turn]).trans hpre) hrun)

end Runs

/-! ## A block given up -/

def receiverConfig : GatewayConfig :=
  ⟨chars "rx", [], [], 2, 1, 5, 1400, 8, [], 100, 3 / 10, 1 / 5, 0, fun _ => zeroPath.cfg, 0, 0, 0,
    [], false, fun _ => [], 0⟩

/-- The first shard of block 0 arrives when the clock reads `us`. -/
def firstShardAt (us : UInt64) : TalliedTurn where
  inp :=
    { quietTurn with
      arrival := some ⟨⟨0, shardDatagram 0 0 2 3 ⟨fun _ => 1, fun _ => 7, 1⟩⟩, zeroStack, us,
        fun _ => us⟩ }
  tunWrite _ := true

def lateDuplicate : Option ((MainState × Tally) × List MainOutput) :=
  talliedRun 4 (tallyStart receiverConfig onePathSocket (cryptoInit none) ⟨0, 0⟩)
    [firstShardAt 0, firstShardAt 60000]

/-- Block 0 is admitted and given up, and no counter tells. -/
theorem lateDuplicate_outcome :
    ∃ s outs, lateDuplicate = some (s, outs) ∧ s.2.admitted = 1 ∧ s.2.lost = 1 ∧
      undecoded s.1.cfg.windowSize.toNat s.1.rxWin = 0 ∧
      s.1.metrics.decodeSuccess = 0 ∧ s.1.metrics.decodeFailure = 0 := by
  have hcheck : lateDuplicate.map (fun r => (r.1.2.admitted, r.1.2.lost,
      undecoded r.1.1.cfg.windowSize.toNat r.1.1.rxWin, r.1.1.metrics.decodeSuccess,
      r.1.1.metrics.decodeFailure)) = some (1, 1, 0, 0, 0) := by
    decide +kernel
  cases hrun : lateDuplicate with
  | none =>
      rw [hrun] at hcheck
      cases hcheck
  | some r =>
      rw [hrun, Option.map_some, Option.some.injEq] at hcheck
      simp only [Prod.mk.injEq] at hcheck
      exact ⟨r.1, r.2, rfl, hcheck⟩

theorem not_conserved_lateDuplicate :
    ∃ s outs, lateDuplicate = some (s, outs) ∧ s.2.admitted = 1 ∧ s.2.lost = 1 ∧
      s.1.metrics.decodeFailure = 0 ∧ ¬ Conserved s.1 s.2 := by
  obtain ⟨s, outs, hrun, hadmitted, hlost, _, _, hfailure⟩ := lateDuplicate_outcome
  refine ⟨s, outs, hrun, hadmitted, hlost, hfailure, fun h => ?_⟩
  have hfailures := h.failures
  rw [hfailure, hlost] at hfailures
  cases hfailures

/-- Some turn of that run is not regular. -/
theorem conserved_iff_regular_lateDuplicate :
    ¬ ∀ js turn s outs, js ++ [turn] <+: [firstShardAt 0, firstShardAt 60000] →
      talliedRun 4 (tallyStart receiverConfig onePathSocket (cryptoInit none) ⟨0, 0⟩) js =
        some (s, outs) →
      (talliedStep 4 s turn).isSome = true → Regular s.1 turn := by
  obtain ⟨s, outs, hrun, _, hlost, _, _, hfailure⟩ := lateDuplicate_outcome
  rw [← conserved_iff_regular 4 (by decide)]
  intro h
  have hfailures := (h _ s outs List.prefix_rfl hrun).failures
  rw [hfailure, hlost] at hfailures
  cases hfailures

/-- The only shard of a block of one packet arrives, and `tun_write` fails. -/
example :
    let turn : TalliedTurn :=
      { inp :=
          { quietTurn with
            arrival := some ⟨⟨0, shardDatagram 0 0 1 1 ⟨fun _ => 1, fun _ => 7, 1⟩⟩, zeroStack, 0,
              fun _ => 0⟩ }
        tunWrite := fun _ => false }
    (talliedRun 4 (tallyStart receiverConfig onePathSocket (cryptoInit none) ⟨0, 0⟩) [turn]).map
      (fun r => (r.1.1.metrics.decodeSuccess, r.1.2.written)) = some (1, 0) := by
  decide +kernel

end CodingGateway.Proofs.DecodeAccounting
