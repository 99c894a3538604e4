import CodingGateway.Library.ClockDifference
import CodingGateway.Proofs.DeadPath
set_option autoImplicit false

/-!
# The two timers

`tx_block_needs_flush` and the probe timer of `main` count milliseconds with one formula,
seconds and microseconds apart.  It never counts a millisecond too late; when the
microseconds have gone back since the first reading, it counts the last one too early.

* `elapsedMs_exact_iff` — when the formula is exact;
* `timers_onTime_iff` — when the two timers are.
-/

namespace CodingGateway.Proofs.Timers

open CodingGateway.Library
open CodingGateway.Model
open CodingGateway.Proofs.DeadPath
open CodingGateway.Proofs.EventLoop

/-! ## The formula -/

def elapsedUs (now first : Timeval) : ℤ :=
  (now.tvSec - first.tvSec) * 1000000 + (now.tvUsec - first.tvUsec)

/-- The microseconds have gone back, and what is missing is less than a millisecond. -/
def RoundedUp (ms : ℤ) (now first : Timeval) : Prop :=
  now.tvUsec < first.tvUsec ∧
    (ms - 1) * 1000 < elapsedUs now first ∧ elapsedUs now first < ms * 1000

instance (ms : ℤ) (now first : Timeval) : Decidable (RoundedUp ms now first) :=
  inferInstanceAs (Decidable (_ ∧ _ ∧ _))

section Formula

variable {ms : ℤ} {now first : Timeval}

theorem elapsedMs_eq_ticks : elapsedMs now first =
    ClockDifference.ticks 1000 1000 (now.tvSec - first.tvSec) (now.tvUsec - first.tvUsec) :=
  rfl

theorem elapsedUs_eq_fine : elapsedUs now first =
    ClockDifference.fine 1000 1000 (now.tvSec - first.tvSec) (now.tvUsec - first.tvUsec) :=
  rfl

theorem le_elapsedMs_of_elapsed (h : ms * 1000 ≤ elapsedUs now first) :
    ms ≤ elapsedMs now first := by
  rw [elapsedUs_eq_fine] at h
  rw [elapsedMs_eq_ticks]
  exact ClockDifference.le_ticks_of_reached (by decide) h

theorem elapsedMs_exact_iff :
    (ms ≤ elapsedMs now first ↔ ms * 1000 ≤ elapsedUs now first) ↔ ¬ RoundedUp ms now first := by
  rw [RoundedUp, elapsedMs_eq_ticks, elapsedUs_eq_fine, ← sub_neg]
  exact ClockDifference.le_ticks_iff_reached_iff (by decide)

end Formula

/-! ## The block timeout -/

/-- `tx_block_needs_flush` is true exactly when the timeout has elapsed. -/
def FlushOnTime (blk : TxBlock) (timeoutMs : ℤ) (now : Timeval) : Prop :=
  txBlockNeedsFlush blk timeoutMs now = true ↔
    timeoutMs * 1000 ≤ elapsedUs now blk.firstPktTime

section Flush

variable {blk : TxBlock} {timeoutMs : ℤ} {now : Timeval}

theorem txBlockNeedsFlush_iff (hblk : 0 < blk.pktCount) :
    txBlockNeedsFlush blk timeoutMs now = true ↔ timeoutMs ≤ elapsedMs now blk.firstPktTime := by
  rw [txBlockNeedsFlush, if_neg hblk.ne', decide_eq_true_iff]

theorem flushOnTime_iff (hblk : 0 < blk.pktCount) :
    FlushOnTime blk timeoutMs now ↔ ¬ RoundedUp timeoutMs now blk.firstPktTime := by
  rw [FlushOnTime, txBlockNeedsFlush_iff hblk]
  exact elapsedMs_exact_iff

end Flush

/-! ## The probe timer -/

/-- The probe timer fires: every path alive gets its probe, and the time is noted. -/
def sendProbes (st : MainState) (inp : MainInput) : MainState × List ℕ :=
  let (sctx, probed) := (List.range st.sctx.pathCount).foldl (probePath st.tctx inp) (st.sctx, [])
  ({ st with sctx := sctx, lastProbeTv := inp.probeTime }, probed)

/-- The probe timer fires exactly when the interval has elapsed. -/
def ProbesOnTime (st : MainState) (inp : MainInput) : Prop :=
  mainProbe st inp =
    if st.cfg.probeIntervalMs * 1000 ≤ elapsedUs inp.probeTime st.lastProbeTv then
      sendProbes st inp
    else (st, [])

section Probe

variable {st : MainState} {inp : MainInput}

theorem mainProbe_of_isTx (htx : st.isTx = true) :
    mainProbe st inp =
      if st.cfg.probeIntervalMs ≤ elapsedMs inp.probeTime st.lastProbeTv then sendProbes st inp
      else (st, []) := by
  unfold mainProbe sendProbes
  rw [htx, Bool.true_and]
  simp only [decide_eq_true_iff]

theorem sendProbes_ne (hne : inp.probeTime ≠ st.lastProbeTv) : sendProbes st inp ≠ (st, []) := by
  intro h
  exact hne (congrArg (fun r : MainState × List ℕ => r.1.lastProbeTv) h)

theorem probesOnTime_iff (htx : st.isTx = true) :
    ProbesOnTime st inp ↔
      ¬ RoundedUp st.cfg.probeIntervalMs inp.probeTime st.lastProbeTv := by
  rw [ProbesOnTime, mainProbe_of_isTx htx]
  constructor
  · intro heq hup
    have hne : inp.probeTime ≠ st.lastProbeTv := by
      intro hsame
      rw [hsame] at hup
      exact lt_irrefl _ hup.1
    apply elapsedMs_exact_iff.mp ?_ hup
    split_ifs at heq with hdue hreached hreached
    · exact iff_of_true hdue hreached
    · exact absurd heq (sendProbes_ne hne)
    · exact absurd heq.symm (sendProbes_ne hne)
    · exact iff_of_false hdue hreached
  · intro hup
    simp only [elapsedMs_exact_iff.mpr hup]

end Probe

/-! ## Both timers -/

/-- **Timers.** Whatever the two readings and the timeout, the block timeout and the probe timer
are on time unless the last millisecond is counted early. -/
theorem timers_onTime_iff (blk : TxBlock) (timeoutMs : ℤ) (now : Timeval) (st : MainState)
    (inp : MainInput) :
    (0 < blk.pktCount →
      (FlushOnTime blk timeoutMs now ↔ ¬ RoundedUp timeoutMs now blk.firstPktTime)) ∧
    (st.isTx = true →
      (ProbesOnTime st inp ↔
        ¬ RoundedUp st.cfg.probeIntervalMs inp.probeTime st.lastProbeTv)) := by
  constructor
  · intro hblk
    exact flushOnTime_iff hblk
  · intro htx
    exact probesOnTime_iff htx

/-- A block whose first packet comes half a millisecond before the next second. -/
def blockAcrossSecond : TxBlock :=
  (txBlockAddPkt (txBlockInit 0) (fun _ => 0) 64 4 ⟨10, 999500⟩).1

/-- A sender that has sent probes half a millisecond before the next second. -/
def senderAcrossSecond : MainState :=
  mainInit onePathConfig onePathSocket (cryptoInit none) ⟨10, 999500⟩

/-- A turn that looks at the probe timer at this time. -/
def probeTurn (now : Timeval) : MainInput := { quietTurn with probeTime := now }

/-- Both timers are on time when they have just run out. -/
theorem timers_onTime_iff_acrossSecond :
    0 < blockAcrossSecond.pktCount ∧ FlushOnTime blockAcrossSecond 5 ⟨11, 4500⟩ ∧
      senderAcrossSecond.isTx = true ∧
      ProbesOnTime senderAcrossSecond (probeTurn ⟨11, 499500⟩) := by
  have hblk : 0 < blockAcrossSecond.pktCount := by decide
  have htimers := timers_onTime_iff blockAcrossSecond 5 ⟨11, 4500⟩ senderAcrossSecond
    (probeTurn ⟨11, 499500⟩)
  exact ⟨hblk, (htimers.1 hblk).mpr (by decide), rfl, (htimers.2 rfl).mpr (by decide)⟩

def Normalised (tv : Timeval) : Prop := 0 ≤ tv.tvUsec ∧ tv.tvUsec < 1000000

instance (tv : Timeval) : Decidable (Normalised tv) := inferInstanceAs (Decidable (_ ∧ _))

/-- The block is flushed after 4.1 ms of a timeout of 5 ms, and the probes are sent after
499.1 ms of an interval of 500 ms. -/
theorem not_onTime_acrossSecond :
    Normalised blockAcrossSecond.firstPktTime ∧ Normalised ⟨11, 3600⟩ ∧
      0 < blockAcrossSecond.pktCount ∧
      elapsedUs ⟨11, 3600⟩ blockAcrossSecond.firstPktTime = 4100 ∧
      txBlockNeedsFlush blockAcrossSecond 5 ⟨11, 3600⟩ = true ∧
      ¬ FlushOnTime blockAcrossSecond 5 ⟨11, 3600⟩ ∧
      Normalised senderAcrossSecond.lastProbeTv ∧ Normalised ⟨11, 498600⟩ ∧
      elapsedUs ⟨11, 498600⟩ senderAcrossSecond.lastProbeTv = 499100 ∧
      mainProbe senderAcrossSecond (probeTurn ⟨11, 498600⟩) =
        sendProbes senderAcrossSecond (probeTurn ⟨11, 498600⟩) ∧
      ¬ ProbesOnTime senderAcrossSecond (probeTurn ⟨11, 498600⟩) := by
  have hflush : ¬ FlushOnTime blockAcrossSecond 5 ⟨11, 3600⟩ := by
    rw [flushOnTime_iff (by decide)]
    decide
  have hprobe : ¬ ProbesOnTime senderAcrossSecond (probeTurn ⟨11, 498600⟩) := by
    rw [probesOnTime_iff rfl]
    decide
  have hfires : mainProbe senderAcrossSecond (probeTurn ⟨11, 498600⟩) =
      sendProbes senderAcrossSecond (probeTurn ⟨11, 498600⟩) := by
    rw [mainProbe_of_isTx rfl]
    exact if_pos (by decide)
  exact ⟨by decide, by decide, by decide, by decide, by decide, hflush, by decide, by decide,
    by decide, hfires, hprobe⟩

end CodingGateway.Proofs.Timers
