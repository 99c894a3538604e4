import CodingGateway.Library.Batching
import CodingGateway.Proofs.BlockAssembly
import CodingGateway.Proofs.ProcessRuns
import CodingGateway.Proofs.Timers
set_option autoImplicit false

/-!
# How long a packet waits

The loop with a clock: `select` returns by its timeout, the rest of a turn takes at most a given
time, and only so many turns in a row are spent on signals.  All times are in microseconds.

* `packets_leave_in_time` — packets leave in the order in which they were read, each within the
  block timeout and the time of the turns in between.
-/

namespace CodingGateway.Proofs.Punctuality

open CodingGateway.Model
open CodingGateway.Library
open CodingGateway.Library.Batching
open CodingGateway.Proofs.BlockAssembly
open CodingGateway.Proofs.DeadPath
open CodingGateway.Proofs.EventLoop
open CodingGateway.Proofs.Flush
open CodingGateway.Proofs.PathHealth
open CodingGateway.Proofs.ProcessRuns
open CodingGateway.Proofs.SentBlocks
open CodingGateway.Proofs.Sender
open CodingGateway.Proofs.Timers

/-! ## The loop with a clock -/

def micros (tv : Timeval) : ℤ := tv.tvSec * 1000000 + tv.tvUsec

theorem elapsedUs_eq (now first : Timeval) : elapsedUs now first = micros now - micros first := by
  unfold elapsedUs micros
  omega

structure TimedTurn where
  input : MainInput
  done : ℤ

/-- The turn goes back to `select` at once: it reloads, or `select` failed. -/
def skips (inp : MainInput) : Bool := inp.reload.isSome || inp.selectFailed

/-- What is promised of the turns: the time that one takes beside waiting in `select`, and how
many in a row may skip. -/
structure Pace where
  slack : ℕ
  skips : ℕ

/-- A turn that starts at a time keeps to the pace, and its clock readings are in order. -/
def OnSchedule (pace : Pace) (start : ℤ) (cfg : GatewayConfig) (t : TimedTurn) : Prop :=
  start ≤ t.done ∧ t.done ≤ start + selectTimeoutMs cfg * 1000 + pace.slack ∧
    (skips t.input = false →
      start ≤ micros t.input.addTime ∧ micros t.input.addTime ≤ micros t.input.flushTime ∧
        micros t.input.flushTime ≤ t.done ∧ t.done ≤ micros t.input.flushTime + pace.slack)

instance (pace : Pace) (start : ℤ) (cfg : GatewayConfig) (t : TimedTurn) :
    Decidable (OnSchedule pace start cfg t) := inferInstanceAs (Decidable (_ ∧ _ ∧ _))

/-- The state of the loop, the time, and how many of the last turns have skipped. -/
structure Clocked where
  main : MainState
  time : ℤ
  skipped : ℕ

/-- A turn of the loop with a clock, and when it was done. -/
def timedStep (fuel : ℕ) (pace : Pace) (s : Clocked) (t : TimedTurn) :
    Option (Clocked × ℤ × MainOutput) :=
  let skipped := if skips t.input then s.skipped + 1 else 0
  if OnSchedule pace s.time s.main.cfg t ∧ skipped ≤ pace.skips then
    match mainStep fuel s.main t.input with
    | none => none
    | some (main, out) => some (⟨main, t.done, skipped⟩, t.done, out)
  else none

/-- The packets read, with the times at which they were. -/
def arrivals (turns : List TimedTurn) : List (ℤ × List UInt8) :=
  turns.filterMap fun t => (readPacket t.input).map fun p => (micros t.input.addTime, p.bytes)

/-- The packets in the blocks flushed, with the end of the turn. -/
def departures (outs : List (ℤ × MainOutput)) : List (ℤ × List UInt8) :=
  outs.flatMap fun o => (o.2.flushed.flatMap blockPackets).map fun p => (o.1, p)

/-- The block timeout is at most `ms`, also in configurations loaded later. -/
def TimeoutAtMost (ms : ℕ) (cfg : GatewayConfig) (turns : List TimedTurn) : Prop :=
  cfg.blockTimeoutMs ≤ ms ∧
    ∀ t ∈ turns, ∀ newCfg, t.input.reload = some (some newCfg) → newCfg.blockTimeoutMs ≤ ms

/-- The longest time from the end of one turn to the end of the next. -/
def turnUs (ms : ℕ) (pace : Pace) : ℕ := max 1 ms * 1000 + pace.slack

/-- How old the block can be at the end of a turn when the last turns have skipped. -/
def waitUs (ms : ℕ) (pace : Pace) (skipped : ℕ) : ℕ :=
  ms * 1000 + pace.slack + skipped * turnUs ms pace

/-- The longest that a packet waits: until its block is old, and then until a turn looks. -/
def delayUs (ms : ℕ) (pace : Pace) : ℕ := waitUs ms pace pace.skips + turnUs ms pace

theorem waitUs_succ (ms : ℕ) (pace : Pace) (skipped : ℕ) :
    waitUs ms pace (skipped + 1) = waitUs ms pace skipped + turnUs ms pace := by
  unfold waitUs
  rw [Nat.succ_mul, ← Nat.add_assoc]

theorem waitUs_le {ms : ℕ} {pace : Pace} {skipped : ℕ} (h : skipped ≤ pace.skips) :
    waitUs ms pace skipped ≤ waitUs ms pace pace.skips := by
  unfold waitUs
  exact Nat.add_le_add_left (Nat.mul_le_mul_right _ h) _

theorem selectTimeoutMs_le {cfg : GatewayConfig} {ms : ℕ} (h : cfg.blockTimeoutMs ≤ ms) :
    selectTimeoutMs cfg ≤ (max 1 ms : ℕ) := by
  unfold selectTimeoutMs
  dsimp only
  split_ifs <;> omega

theorem OnSchedule.done_le {pace : Pace} {start : ℤ} {cfg : GatewayConfig} {t : TimedTurn} {ms : ℕ}
    (h : OnSchedule pace start cfg t) (hms : cfg.blockTimeoutMs ≤ ms) :
    t.done ≤ start + turnUs ms pace := by
  have hselect := selectTimeoutMs_le hms
  have hdone := h.2.1
  unfold turnUs
  push_cast at hselect ⊢
  omega

/-! ## One turn -/

/-- The block that is being filled, as a batch. -/
def batchOf (st : MainState) (waiting : List (ℤ × TunPacket)) : Batch TunPacket :=
  ⟨micros st.tx.firstPktTime, waiting⟩

/-- What waits in the block, and how long it has. -/
structure Waits (k : ℕ) (st : MainState) (waiting : List (ℤ × TunPacket)) (limit now : ℤ) :
    Prop where
  holds : Holds st.tx (waiting.map Prod.snd)
  room : waiting.length < k
  fresh : (batchOf st waiting).Fresh limit now

section Turn

variable {fuel k : ℕ} {st : MainState} {waiting : List (ℤ × TunPacket)} {limit now : ℤ}

theorem Waits.congr {st' : MainState} (h : Waits k st waiting limit now) (htx : st'.tx = st.tx) :
    Waits k st' waiting limit now where
  holds := htx ▸ h.holds
  room := h.room
  fresh := by
    rw [batchOf, htx]
    exact h.fresh

theorem Waits.later (h : Waits k st waiting limit now) {limit' now' : ℤ} (hnow : now ≤ now')
    (hlimit : limit + (now' - now) ≤ limit') : Waits k st waiting limit' now' :=
  ⟨h.holds, h.room, h.fresh.later hnow hlimit⟩

theorem waits_mainFlush (st : MainState) (hk : 1 ≤ k) (h : Holds st.tx (waiting.map Prod.snd))
    (env : FlushEnv) (limit now : ℤ) :
    (mainFlush st env).2.1.flatMap blockPackets = waiting.map (fun a => a.2.bytes) ∧
      Waits k (mainFlush st env).1 [] limit now := by
  refine ⟨?_, ⟨holds_txBlockInit st.nextBlockId, hk, Batch.Fresh.empty _ _ _⟩⟩
  change [st.tx].flatMap blockPackets = _
  rw [List.flatMap_singleton, blockPackets_of_holds h, List.map_map]
  rfl

/-- The packet that a turn reads, with its time. -/
def newcomer (inp : MainInput) : List (ℤ × TunPacket) :=
  (inp.packet.map fun p => (micros inp.addTime, p)).toList

/-- Reading a packet: it waits with the others, or all leave because the block is full. -/
theorem waits_mainRead (h : Waits k st waiting limit now) (hk : 1 ≤ k) (hlimit : 0 ≤ limit)
    (hcfg : st.cfg.k.toNat = k) (htx : st.isTx = true) (inp : MainInput)
    (hnow : now ≤ micros inp.addTime) :
    ∃ gone waiting', waiting ++ newcomer inp = gone ++ waiting' ∧
      (mainRead st inp).2.1.flatMap blockPackets = gone.map (fun a => a.2.bytes) ∧
      Waits k (mainRead st inp).1 waiting' (limit + (micros inp.addTime - now))
        (micros inp.addTime) := by
  unfold mainRead newcomer
  rw [if_pos htx]
  cases inp.packet with
  | none => exact ⟨[], waiting, List.append_nil _, rfl, h.later hnow le_rfl⟩
  | some pkt =>
      have hcount : st.tx.pktCount = waiting.length := by rw [h.holds.count, List.length_map]
      have hroom : st.tx.pktCount < k := hcount ▸ h.room
      have hadd := holds_txBlockAddPkt h.holds (by rw [List.length_map]; exact h.room) pkt
        inp.addTime
      have hstep := txBlockAddPkt_of_room (arrayOf pkt.bytes) (UInt16.ofNat pkt.bytes.length)
        inp.addTime hroom
      have hfirst := congrArg (fun r => r.1.firstPktTime) hstep
      have hfull := congrArg Prod.snd hstep
      dsimp only
      rw [hcfg]
      rcases hpkt : txBlockAddPkt st.tx (arrayOf pkt.bytes) (UInt16.ofNat pkt.bytes.length) k
        inp.addTime with ⟨tx, full⟩
      rw [hpkt] at hadd hfirst hfull
      dsimp only at hadd hfirst hfull ⊢
      have hholds : Holds tx ((waiting ++ [(micros inp.addTime, pkt)]).map Prod.snd) := by
        rw [List.map_append]
        exact hadd
      by_cases hlast : k ≤ st.tx.pktCount + 1
      · rw [hfull, if_pos (decide_eq_true hlast)]
        obtain ⟨hgone, hwaits⟩ := waits_mainFlush { st with tx := tx } hk hholds inp.fullFlush
          (limit + (micros inp.addTime - now)) (micros inp.addTime)
        exact ⟨_, [], (List.append_nil _).symm, hgone, hwaits⟩
      · have hbatch : batchOf { st with tx := tx } (waiting ++ [(micros inp.addTime, pkt)]) =
            (batchOf st waiting).push (micros inp.addTime) pkt := by
          unfold batchOf Batch.push
          dsimp only
          rw [hfirst, hcount, apply_ite micros]
        rw [hfull, if_neg (by simpa using hlast)]
        refine ⟨[], waiting ++ [(micros inp.addTime, pkt)], rfl, rfl, hholds, ?_, ?_⟩
        · rw [List.length_append, List.length_singleton]
          omega
        · rw [hbatch]
          exact h.fresh.push hnow hlimit pkt

theorem waits_mainTimeout (h : Waits k st waiting limit now) (hk : 1 ≤ k) (htx : st.isTx = true)
    (inp : MainInput) (hnow : now ≤ micros inp.flushTime) {ms : ℕ}
    (hms : st.cfg.blockTimeoutMs ≤ ms) :
    ∃ gone waiting', waiting = gone ++ waiting' ∧
      (mainTimeout st inp).2.1.flatMap blockPackets = gone.map (fun a => a.2.bytes) ∧
      Waits k (mainTimeout st inp).1 waiting' (ms * 1000) (micros inp.flushTime) := by
  unfold mainTimeout
  rw [htx, Bool.true_and]
  by_cases hflush : txBlockNeedsFlush st.tx st.cfg.blockTimeoutMs inp.flushTime = true
  · rw [if_pos hflush]
    obtain ⟨hgone, hwaits⟩ := waits_mainFlush st hk h.holds inp.timeoutFlush (ms * 1000)
      (micros inp.flushTime)
    exact ⟨waiting, [], (List.append_nil _).symm, hgone, hwaits⟩
  · rw [if_neg hflush]
    refine ⟨[], waiting, rfl, rfl, h.holds, h.room, (h.fresh.later hnow le_rfl).poll fun hne => ?_⟩
    have hcount : 0 < st.tx.pktCount := by
      rw [h.holds.count, List.length_map]
      exact List.length_pos_iff.mpr hne
    rw [txBlockNeedsFlush_iff hcount] at hflush
    have hyoung : elapsedUs inp.flushTime st.tx.firstPktTime < st.cfg.blockTimeoutMs * 1000 := by
      by_contra hlate
      exact hflush (le_elapsedMs_of_elapsed (not_lt.mp hlate))
    rw [elapsedUs_eq] at hyoung
    change micros inp.flushTime ≤ micros st.tx.firstPktTime + (ms : ℤ) * 1000
    omega

theorem waits_phases {st' : MainState} {inp : MainInput} {out : MainOutput}
    (p : Phases fuel st inp st' out) (h : Waits k st waiting limit now) (hk : 1 ≤ k)
    (hlimit : 0 ≤ limit) (hcfg : st.cfg.k.toNat = k) (htx : st.isTx = true) {ms : ℕ}
    (hms : st.cfg.blockTimeoutMs ≤ ms) (hadd : now ≤ micros inp.addTime)
    (hflush : micros inp.addTime ≤ micros inp.flushTime) :
    ∃ gone waiting', waiting ++ newcomer inp = gone ++ waiting' ∧
      out.flushed.flatMap blockPackets = gone.map (fun a => a.2.bytes) ∧
      Waits k st' waiting' (ms * 1000) (micros inp.flushTime) := by
  obtain ⟨gone₁, waiting₁, hsplit₁, hgone₁, h₁⟩ := waits_mainRead h hk hlimit hcfg htx inp hadd
  have hsetup := (sameSetup_mainRead st inp).1
  have htimer := sameTimer_mainRead st inp
  rw [p.read_eq] at hgone₁ h₁ hsetup htimer
  dsimp only at hgone₁ h₁ hsetup htimer
  obtain ⟨gone₂, waiting₂, hsplit₂, hgone₂, h₂⟩ :=
    waits_mainTimeout h₁ hk (hsetup.isTx.trans htx) inp hflush (htimer.cfg ▸ hms)
  rw [p.timeout_eq] at hgone₂ h₂
  dsimp only at hgone₂ h₂
  have hprobe : st'.tx = p.received.tx := by
    simpa only [p.probe_eq] using (mainProbe_sender p.received inp).1
  refine ⟨gone₁ ++ gone₂, waiting₂, ?_, ?_,
    h₂.congr (hprobe.trans (mainRx_sender p.received_eq).1)⟩
  · rw [hsplit₁, hsplit₂, List.append_assoc]
  · rw [p.out_flushed, List.flatMap_append, hgone₁, hgone₂, List.map_append]

theorem Waits.leaves (h : Waits k st waiting limit now) (hlimit : 0 ≤ limit) {inp : MainInput}
    {done turn : ℤ} (hadd : now ≤ micros inp.addTime) (hdone : micros inp.addTime ≤ done)
    (hturn : done ≤ now + turn) {a : ℤ × TunPacket} (ha : a ∈ waiting ++ newcomer inp) :
    a.1 ≤ done ∧ done ≤ a.1 + (limit + turn) := by
  rcases List.mem_append.mp ha with hold | hnew
  · have hbefore : a.1 ≤ now := h.fresh.le_now a hold
    have hwaited := h.fresh.waited hold
    omega
  · obtain ⟨pkt, -, rfl⟩ := Option.map_eq_some_iff.mp (Option.mem_toList.mp hnew)
    dsimp only
    omega

end Turn

/-! ## Runs -/

def stamp (a : ℤ × TunPacket) : ℤ × List UInt8 := (a.1, a.2.bytes)

/-- The packets that came have left in time, or wait in the block. -/
def Punctual (ms : ℕ) (pace : Pace) (k : ℕ) (came : List (ℤ × List UInt8)) (s : Clocked)
    (left : List (ℤ × List UInt8)) : Prop :=
  ∃ gone waiting, came = gone ++ waiting.map stamp ∧ OnTime (delayUs ms pace) gone left ∧
    Waits k s.main waiting (waitUs ms pace s.skipped) s.time ∧ s.skipped ≤ pace.skips

section Runs

variable {fuel k ms : ℕ} {pace : Pace} {s s' : Clocked} {t : TimedTurn} {o : ℤ × MainOutput}
  {came left : List (ℤ × List UInt8)}

theorem timedStep_eq_some (h : timedStep fuel pace s t = some (s', o)) :
    OnSchedule pace s.time s.main.cfg t ∧ s'.skipped ≤ pace.skips ∧
      s'.skipped = (if skips t.input then s.skipped + 1 else 0) ∧ s'.time = t.done ∧
      o.1 = t.done ∧ mainStep fuel s.main t.input = some (s'.main, o.2) := by
  unfold timedStep at h
  dsimp only at h
  by_cases hpace : OnSchedule pace s.time s.main.cfg t ∧
      (if skips t.input then s.skipped + 1 else 0) ≤ pace.skips
  · rw [if_pos hpace] at h
    cases hmain : mainStep fuel s.main t.input with
    | none => simp [hmain] at h
    | some r =>
        simp only [hmain, Option.some.injEq, Prod.mk.injEq] at h
        obtain ⟨rfl, rfl⟩ := h
        exact ⟨hpace.1, hpace.2, rfl, rfl, rfl, rfl⟩
  · rw [if_neg hpace] at h
    cases h

theorem punctual_of_skips (h : Punctual ms pace k came s left)
    (hms : s.main.cfg.blockTimeoutMs ≤ ms) (hsched : OnSchedule pace s.time s.main.cfg t)
    (hskipped : s'.skipped = s.skipped + 1) (hpace : s'.skipped ≤ pace.skips)
    (htime : s'.time = t.done) (htx : s'.main.tx = s.main.tx) :
    Punctual ms pace k came s' left := by
  obtain ⟨gone, waiting, hcame, honTime, hwaits, -⟩ := h
  have hdone := hsched.done_le hms
  refine ⟨gone, waiting, hcame, honTime, (hwaits.congr htx).later ?_ ?_, hpace⟩
  · rw [htime]
    exact hsched.1
  · rw [htime, hskipped, waitUs_succ]
    push_cast
    omega

theorem punctual_of_phases (h : Punctual ms pace k came s left) (hk : 1 ≤ k)
    (hcfg : s.main.cfg.k.toNat = k) (htx : s.main.isTx = true)
    (hms : s.main.cfg.blockTimeoutMs ≤ ms) (hsched : OnSchedule pace s.time s.main.cfg t)
    (hskips : skips t.input = false) (hskipped : s'.skipped = 0) (htime : s'.time = t.done)
    (p : Phases fuel s.main t.input s'.main o.2) :
    Punctual ms pace k (came ++ (newcomer t.input).map stamp) s'
      (left ++ (o.2.flushed.flatMap blockPackets).map fun b => (t.done, b)) := by
  obtain ⟨gone, waiting, hcame, honTime, hwaits, hle⟩ := h
  obtain ⟨hadd, hflush, hdone, hslack⟩ := hsched.2.2 hskips
  have hturn := hsched.done_le hms
  have hdelay : waitUs ms pace s.skipped + turnUs ms pace ≤ delayUs ms pace :=
    Nat.add_le_add_right (waitUs_le hle) _
  obtain ⟨gone', waiting', hsplit, hgone', hwaits'⟩ :=
    waits_phases p hwaits hk (Int.natCast_nonneg _) hcfg htx hms hadd hflush
  have hage : ∀ a ∈ gone', a.1 ≤ t.done ∧ t.done ≤ a.1 + delayUs ms pace := by
    intro a ha
    have hmem : a ∈ waiting ++ newcomer t.input := by
      rw [hsplit]
      exact List.mem_append_left waiting' ha
    have hleaves := hwaits.leaves (Int.natCast_nonneg _) hadd (hflush.trans hdone) hturn hmem
    omega
  refine ⟨gone ++ gone'.map stamp, waiting', ?_, ?_, ?_, ?_⟩
  · rw [hcame, List.append_assoc, ← List.map_append, hsplit, List.map_append, List.append_assoc]
  · refine onTime_append honTime ?_
    have hbatch : OnTime (delayUs ms pace) (gone'.map stamp)
        ((gone'.map stamp).map fun a => (t.done, a.2)) := onTime_batch fun a ha => by
      obtain ⟨b, hb, rfl⟩ := List.mem_map.mp ha
      exact hage b hb
    rw [List.map_map] at hbatch
    rw [hgone', List.map_map]
    exact hbatch
  · rw [htime, hskipped]
    refine hwaits'.later hdone ?_
    unfold waitUs
    push_cast
    omega
  · rw [hskipped]
    exact Nat.zero_le _

theorem arrivals_concat (turns : List TimedTurn) (t : TimedTurn) :
    arrivals (turns ++ [t]) = arrivals turns ++
      ((readPacket t.input).map fun p => (micros t.input.addTime, p.bytes)).toList := by
  rw [arrivals, arrivals, List.filterMap_append]
  cases hpkt : readPacket t.input with
  | none => simp [hpkt]
  | some pkt => simp [hpkt]

theorem departures_concat (outs : List (ℤ × MainOutput)) (o : ℤ × MainOutput) :
    departures (outs ++ [o]) =
      departures outs ++ (o.2.flushed.flatMap blockPackets).map fun b => (o.1, b) := by
  rw [departures, departures, List.flatMap_append, List.flatMap_singleton]

theorem punctual_timedStep {turns : List TimedTurn} {outs : List (ℤ × MainOutput)}
    (h : Punctual ms pace k (arrivals turns) s (departures outs)) (hk : 1 ≤ k)
    (hcfg : s.main.cfg.k.toNat = k) (htx : s.main.isTx = true)
    (hms : s.main.cfg.blockTimeoutMs ≤ ms) (hstep : timedStep fuel pace s t = some (s', o)) :
    Punctual ms pace k (arrivals (turns ++ [t])) s' (departures (outs ++ [o])) := by
  obtain ⟨hsched, hpace, hskipped, htime, hout, hmain⟩ := timedStep_eq_some hstep
  rw [arrivals_concat, departures_concat]
  rcases mainStep_cases hmain with ⟨newCfg, hreload, hst, ho⟩ | ⟨hreload, hselect, hst, ho⟩ |
    ⟨hreload, hselect, ⟨p⟩⟩
  · have hskips : skips t.input = true := by simp [skips, hreload]
    have hread : readPacket t.input = none := by simp [readPacket, hreload]
    have hsame : s'.main.tx = s.main.tx := by
      rw [hst]
      cases newCfg <;> rfl
    rw [hskips, if_pos rfl] at hskipped
    rw [hread, ho]
    simpa [idleOutput] using punctual_of_skips h hms hsched hskipped hpace htime hsame
  · have hskips : skips t.input = true := by simp [skips, hselect]
    have hread : readPacket t.input = none := by simp [readPacket, hselect]
    rw [hskips, if_pos rfl] at hskipped
    rw [hread, ho]
    simpa [idleOutput] using
      punctual_of_skips h hms hsched hskipped hpace htime (congrArg MainState.tx hst)
  · have hskips : skips t.input = false := by simp [skips, hreload, hselect]
    have hread : readPacket t.input = t.input.packet := by simp [readPacket, hreload, hselect]
    have hnew : ((readPacket t.input).map fun p => (micros t.input.addTime, p.bytes)).toList =
        (newcomer t.input).map stamp := by
      rw [hread, newcomer]
      cases t.input.packet <;> rfl
    rw [hskips] at hskipped
    rw [hnew, hout]
    exact punctual_of_phases h hk hcfg htx hms hsched hskips hskipped htime p

theorem blockTimeoutMs_mainStep {st st' : MainState} {inp : MainInput} {out : MainOutput}
    (h : mainStep fuel st inp = some (st', out)) (hms : st.cfg.blockTimeoutMs ≤ ms)
    (hreload : ∀ newCfg, inp.reload = some (some newCfg) → newCfg.blockTimeoutMs ≤ ms) :
    st'.cfg.blockTimeoutMs ≤ ms := by
  rw [cfg_mainStep h]
  cases hinp : inp.reload with
  | none => exact hms
  | some newCfg =>
      cases newCfg with
      | none => exact hms
      | some cfg => exact hreload cfg hinp

variable {cfg : GatewayConfig} {tctx : TransportCtx} {crypto : CryptoCtx} {now : Timeval}
  {start : ℤ} {turns : List TimedTurn} {outs : List (ℤ × MainOutput)}

/-- **Bounded delay.** A sender hands every packet on, in the order in which it read them, and no
later than `delayUs` after it read it; what has not left is younger. -/
theorem packets_leave_in_time (hmode : cfg.mode = chars "tx" ∨ cfg.mode = chars "both")
    (hk : 1 ≤ cfg.k.toNat) (hms : TimeoutAtMost ms cfg turns)
    (hrun : Machine.run (timedStep fuel pace) ⟨mainInit cfg tctx crypto now, start, 0⟩ turns =
      some (s, outs)) :
    ∃ gone waiting, arrivals turns = gone ++ waiting ∧
      OnTime (delayUs ms pace) gone (departures outs) ∧ waiting.length < cfg.k.toNat ∧
      ∀ a ∈ waiting, a.1 ≤ s.time ∧ s.time ≤ a.1 + waitUs ms pace pace.skips := by
  have hinv : TimeoutAtMost ms cfg turns →
      SameSetup (mainInit cfg tctx crypto now) s.main ∧ s.main.cfg.blockTimeoutMs ≤ ms ∧
        Punctual ms pace cfg.k.toNat (arrivals turns) s (departures outs) := by
    refine Machine.run_induction (P := fun is s os => TimeoutAtMost ms cfg is →
      SameSetup (mainInit cfg tctx crypto now) s.main ∧ s.main.cfg.blockTimeoutMs ≤ (ms : ℤ) ∧
        Punctual ms pace cfg.k.toNat (arrivals is) s (departures os)) ?_ ?_ hrun
    · intro h
      exact ⟨SameSetup.refl _, h.1, [], [], rfl, .nil,
        ⟨holds_txBlockInit 0, hk, Batch.Fresh.empty _ _ _⟩, Nat.zero_le _⟩
    · rintro is s os t s' o - ih hstep h
      obtain ⟨hsetup, htimeout, hpunctual⟩ :=
        ih ⟨h.1, fun t' ht' => h.2 t' (List.mem_append_left [t] ht')⟩
      have hmain := (timedStep_eq_some hstep).2.2.2.2.2
      have htx : s.main.isTx = true := hsetup.isTx.trans (decide_eq_true hmode)
      have hcfg : s.main.cfg.k.toNat = cfg.k.toNat := by
        rw [hsetup.k]
        rfl
      exact ⟨hsetup.trans (mainStep_window hmain).1,
        blockTimeoutMs_mainStep hmain htimeout
          (h.2 t (List.mem_append_right is (List.mem_singleton_self t))),
        punctual_timedStep hpunctual hk hcfg htx htimeout hstep⟩
  obtain ⟨-, -, gone, waiting, hcame, honTime, hwaits, hle⟩ := hinv hms
  refine ⟨gone, waiting.map stamp, hcame, honTime, ?_, fun a ha => ?_⟩
  · rw [List.length_map]
    exact hwaits.room
  · obtain ⟨b, hb, rfl⟩ := List.mem_map.mp ha
    have hwaited := hwaits.fresh.waited hb
    have hbound : waitUs ms pace s.skipped ≤ waitUs ms pace pace.skips := waitUs_le hle
    exact ⟨hwaits.fresh.le_now b hb, by dsimp only [stamp]; omega⟩

/-- A turn that reads a packet after one millisecond. -/
def readingTurn : TimedTurn where
  input := { quietTurn with
    packet := some shortPacket
    addTime := ⟨0, 1000⟩
    flushTime := ⟨0, 1000⟩ }
  done := 1000

/-- A turn after the block has grown old. -/
def flushingTurn : TimedTurn where
  input := { quietTurn with addTime := ⟨0, 6500⟩, flushTime := ⟨0, 6500⟩ }
  done := 6500

theorem packets_leave_in_time_one :
    ∃ s outs, Machine.run (timedStep 1 ⟨1000, 0⟩)
        ⟨mainInit onePathConfig onePathSocket (cryptoInit none) ⟨0, 0⟩, 0, 0⟩
        [readingTurn, flushingTurn] = some (s, outs) ∧
      departures outs = [(6500, shortPacket.bytes)] ∧
      ∃ gone waiting, arrivals [readingTurn, flushingTurn] = gone ++ waiting ∧
        OnTime (delayUs 5 ⟨1000, 0⟩) gone (departures outs) ∧
        waiting.length < onePathConfig.k.toNat ∧
        ∀ a ∈ waiting, a.1 ≤ s.time ∧ s.time ≤ a.1 + waitUs 5 ⟨1000, 0⟩ 0 := by
  have hcheck : (Machine.run (timedStep 1 ⟨1000, 0⟩)
      ⟨mainInit onePathConfig onePathSocket (cryptoInit none) ⟨0, 0⟩, 0, 0⟩
      [readingTurn, flushingTurn]).map (fun r => departures r.2) =
        some [(6500, shortPacket.bytes)] := by
    decide +kernel
  obtain ⟨⟨s, outs⟩, hrun, hdepart⟩ := Option.map_eq_some_iff.mp hcheck
  refine ⟨s, outs, hrun, hdepart, packets_leave_in_time (Or.inl rfl) (by decide) ?_ hrun⟩
  refine ⟨by decide, fun t ht newCfg hreload => ?_⟩
  have hnone : t.input.reload = none := by
    rcases List.mem_pair.mp ht with rfl | rfl <;> rfl
  rw [hnone] at hreload
  cases hreload

end Runs

end CodingGateway.Proofs.Punctuality
