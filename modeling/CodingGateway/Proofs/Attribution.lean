import CodingGateway.Proofs.DeadPath
import CodingGateway.Proofs.ProbeExchange
set_option autoImplicit false

/-!
# Which path an answer counts for

`transport_recv` knows an answer by the address it comes from and nothing else.  So an
answer to a probe on path `i` counts for path `i` exactly if no enabled path before `i` has
the same remote address (`creditedTo_iff_firstWithAddress`).
-/

namespace CodingGateway.Proofs.Attribution

open CodingGateway.Model
open CodingGateway.Library
open CodingGateway.Proofs.ReceiveLoop
open CodingGateway.Proofs.EventLoop
open CodingGateway.Proofs.Scheduler
open CodingGateway.Proofs.PathHealth
open CodingGateway.Proofs.DeadPath
open CodingGateway.Proofs.WireFormat
open CodingGateway.Proofs.ProbeExchange

/-! ## The path of an address -/

/-- No enabled path before `i` has the remote address of path `i`. -/
def FirstWithAddress (tctx : TransportCtx) (i : ℕ) : Prop :=
  ∀ j < i, (tctx.paths j).enabled = true → (tctx.paths j).remoteAddr ≠ (tctx.paths i).remoteAddr

theorem matchPath_spec {tctx : TransportCtx} {i : ℕ} (hi : i < tctx.pathCount)
    (henabled : (tctx.paths i).enabled = true) :
    matchPath tctx (tctx.paths i).remoteAddr < tctx.pathCount ∧
      (matchPath tctx (tctx.paths i).remoteAddr = i ↔ FirstWithAddress tctx i) := by
  unfold matchPath
  cases hfind : (List.range tctx.pathCount).find? fun j =>
      (tctx.paths j).enabled && (tctx.paths j).remoteAddr == (tctx.paths i).remoteAddr with
  | none =>
      have hnot := List.find?_eq_none.mp hfind i (List.mem_range.mpr hi)
      rw [henabled, Bool.true_and, beq_self_eq_true] at hnot
      exact absurd rfl hnot
  | some p =>
      obtain ⟨hp, hmem, hbefore⟩ := List.find?_range_eq_some.mp hfind
      rw [Bool.and_eq_true, beq_iff_eq] at hp
      rw [Option.getD_some]
      refine ⟨List.mem_range.mp hmem, ?_⟩
      constructor
      · rintro rfl j hj hon heq
        have hskip := hbefore j hj
        rw [hon, heq, Bool.true_and, beq_self_eq_true] at hskip
        cases hskip
      · intro hfirst
        rcases lt_trichotomy p i with hlt | heq | hgt
        · exact absurd hp.2 (hfirst p hlt hp.1)
        · exact heq
        · have hskip := hbefore i hgt
          rw [henabled, Bool.true_and, beq_self_eq_true] at hskip
          cases hskip

/-! ## What an answer changes -/

/-- What the strategy knows of a path from its probes. -/
structure PathStats where
  probesRecv : UInt64
  rttMs : ℚ
  lossRate : ℚ
  alive : Bool

def statsOf (ctx : StrategyCtx) (i : ℕ) : PathStats where
  probesRecv := (ctx.paths i).probesRecv
  rttMs := (ctx.paths i).rttMs
  lossRate := (ctx.paths i).lossRate
  alive := (ctx.paths i).alive

/-- An answer with the given round-trip time updates path `i` and no other path. -/
structure CreditedTo (ctx ctx' : StrategyCtx) (i : ℕ) (rttUs : UInt64) : Prop where
  probesRecv : (statsOf ctx' i).probesRecv = (statsOf ctx i).probesRecv + 1
  rttMs : (statsOf ctx' i).rttMs =
    ctx.ewmaAlpha * ((rttUs.toNat : ℚ) / 1000) + (1 - ctx.ewmaAlpha) * (statsOf ctx i).rttMs
  lossRate : (statsOf ctx' i).lossRate = (1 - ctx.ewmaAlpha) * (statsOf ctx i).lossRate
  alive : (statsOf ctx' i).alive = true ↔
    (statsOf ctx' i).lossRate < ctx.lossThreshold * (1 / 2) ∨
      (statsOf ctx i).alive = true ∧ ¬ ctx.lossThreshold < (statsOf ctx' i).lossRate
  others : ∀ j, j ≠ i → statsOf ctx' j = statsOf ctx j

theorem creditedTo_strategyUpdateProbe {ctx : StrategyCtx} {i : ℕ} (hi : i < ctx.pathCount)
    (rttUs : UInt64) : CreditedTo ctx (strategyUpdateProbe ctx i rttUs true) i rttUs := by
  obtain ⟨q, credit, heq, hq⟩ := strategyUpdateProbe_path ctx hi rttUs
  have hself : statsOf (strategyUpdateProbe ctx i rttUs true) i =
      ⟨q.probesRecv, q.rttMs, q.lossRate, q.alive⟩ := by
    rw [heq]
    simp only [statsOf, Function.update_self]
  refine ⟨?_, ?_, ?_, ?_, fun j hj => ?_⟩
  · rw [hself]
    exact hq.probesRecv
  · rw [hself]
    exact hq.rttMs
  · rw [hself]
    exact hq.lossRate
  · rw [hself]
    exact hq.alive
  · rw [heq]
    simp only [statsOf, Function.update_of_ne hj]

theorem uint64_ne_add_one (n : UInt64) : n ≠ n + 1 := by
  intro h
  simp at h

theorem CreditedTo.unique {ctx ctx' : StrategyCtx} {i j : ℕ} {rttUs rttUs' : UInt64}
    (hi : CreditedTo ctx ctx' i rttUs) (hj : CreditedTo ctx ctx' j rttUs') : i = j := by
  by_contra hne
  have hcount := hj.probesRecv
  rw [hi.others j (Ne.symm hne)] at hcount
  exact uint64_ne_add_one _ hcount

/-- Credits and the numbers of probes sent play no part. -/
theorem CreditedTo.congr {a b c d : StrategyCtx} {i : ℕ} {rttUs : UInt64}
    (h : CreditedTo b c i rttUs) (hbefore : CreditsOnly a b) (hafter : CountsOnly c d) :
    CreditedTo a d i rttUs := by
  obtain ⟨_, rfl⟩ := hbefore
  obtain ⟨_, rfl⟩ := hafter
  exact ⟨h.probesRecv, h.rttMs, h.lossRate, h.alive, h.others⟩

theorem creditedTo_mainStep {fuel : ℕ} {st st' : MainState} {inp : MainInput} {out : MainOutput}
    {r : RxInput} {sender : UInt32} {ts : UInt64} (htx : st.isTx = true)
    (hi : matchPath st.tctx sender < st.sctx.pathCount)
    (hstep : mainStep fuel st
      (reading inp r ⟨sender, probeDatagram typeProbeEcho ts⟩) = some (st', out)) :
    CreditedTo st.sctx st'.sctx (matchPath st.tctx sender) (inp.echoUs - ts) := by
  rcases mainStep_cases hstep with ⟨_, hreload, _⟩ | ⟨_, hselect, _⟩ | ⟨_, _, ⟨p⟩⟩
  · cases hreload
  · cases hselect
  · have hbefore := creditsOnly_timeout p
    have hsetup := p.sameSetup_timeout.1
    have hreceived : p.received.sctx =
        strategyUpdateProbe p.timeout.sctx (matchPath st.tctx sender) (inp.echoUs - ts) true := by
      have hrx := p.received_eq
      unfold mainRx reading at hrx
      dsimp only at hrx
      rw [(transportRecv_sent _ sender _).2.2 ts, hsetup.tctx] at hrx
      dsimp only at hrx
      rw [if_pos (hsetup.isTx.trans htx), Option.some.injEq, Prod.mk.injEq] at hrx
      rw [← hrx.1]
    have hcount : matchPath st.tctx sender < p.timeout.sctx.pathCount := by
      rw [hbefore.sameHealth.pathCount]
      exact hi
    have hcredit := creditedTo_strategyUpdateProbe hcount (inp.echoUs - ts)
    rw [← hreceived] at hcredit
    exact hcredit.congr hbefore (countsOnly_probe p).1

/-! ## Every exchange -/

theorem pathCount_of_transportInit {env : SocketEnv} {cfg : GatewayConfig} {tctx : TransportCtx}
    (h : transportInit env cfg = some tctx) : tctx.pathCount = cfg.pathCount := by
  unfold transportInit at h
  split_ifs at h
  cases h
  rfl

def exchangeStart (cfg : GatewayConfig) (tctx : TransportCtx) (crypto : CryptoCtx)
    (now : Timeval) (far : MainState) : Exchange :=
  ⟨mainInit cfg tctx crypto now, far, [], []⟩

theorem sound_exchangeStart (cfg : GatewayConfig) (tctx : TransportCtx) (crypto : CryptoCtx)
    (now : Timeval) (far : MainState) :
    Sound tctx cfg.pathCount (exchangeStart cfg tctx crypto now far) :=
  ⟨rfl, lossFree_strategyInit cfg, rfl, fun _ hd => absurd hd List.not_mem_nil,
    fun _ hd => absurd hd List.not_mem_nil⟩

/-- **Probe attribution.** For every configuration, every peer and every order in which probes
and answers are sent, lost, repeated and delivered, an answer that comes back belongs to a probe
that left on some path `i`; it updates round-trip time, loss rate and liveness of path `i` and of
no other path exactly if no enabled path before `i` has the remote address of path `i`. -/
theorem creditedTo_iff_firstWithAddress {fuel n i : ℕ} {env : SocketEnv} {cfg : GatewayConfig}
    {tctx : TransportCtx} {crypto : CryptoCtx} {now : Timeval} {far : MainState}
    {events : List Event} {x x' : Exchange} {outs : List MainOutput} {out : MainOutput}
    {bytes : List UInt8} {r : RxInput} {inp : MainInput}
    (hinit : transportInit env cfg = some tctx)
    (hrun : exchangeRun fuel (exchangeStart cfg tctx crypto now far) events = some (x, outs))
    (hecho : x.echoes[n]? = some (i, bytes))
    (hstep : exchangeStep fuel x (.deliver n r inp) = some (x', out)) :
    ∃ ts, bytes = probeDatagram typeProbeEcho ts ∧ (i, probeDatagram typeProbe ts) ∈ x.probes ∧
      (CreditedTo x.near.sctx x'.near.sctx i (inp.echoUs - ts) ↔ FirstWithAddress tctx i) := by
  have hsound := sound_exchangeRun (sound_exchangeStart cfg tctx crypto now far) hrun
  obtain ⟨ts, hbytes, hprobe⟩ := hsound.echoes _ (List.mem_of_getElem? hecho)
  obtain ⟨_, htx, hi, henabled⟩ := hsound.probes _ hprobe
  dsimp only at hbytes hprobe hi henabled
  refine ⟨ts, hbytes, hprobe, ?_⟩
  have hpathCount := pathCount_of_transportInit hinit
  obtain ⟨hmatch, hfirst⟩ := matchPath_spec (hpathCount ▸ hi) henabled
  have hcredit : CreditedTo x.near.sctx x'.near.sctx
      (matchPath tctx (tctx.paths i).remoteAddr) (inp.echoUs - ts) := by
    rw [exchangeStep, hecho, Option.bind_some, hsound.sockets, hbytes] at hstep
    obtain ⟨q, hq, heq⟩ := Option.map_eq_some_iff.mp hstep
    rw [Prod.mk.injEq] at heq
    rw [← heq.1]
    rw [← hsound.sockets] at hq ⊢
    refine creditedTo_mainStep htx ?_ hq
    rw [hsound.sockets, hsound.count, ← hpathCount]
    exact hmatch
  rw [← hfirst]
  constructor
  · exact hcredit.unique
  · intro heq
    rw [heq] at hcredit
    exact hcredit

/-! ## Two paths to one address -/

/-- A sender with two paths to one address, told apart by their ports. -/
def sharedAddressConfig : GatewayConfig :=
  { onePathConfig with
    paths := fun i =>
      if i = 0 then ⟨chars "mmwave_direct", chars "eth1", chars "192.168.1.2", 7000, 1, true⟩
      else ⟨chars "mmwave_via_A", chars "eth2", chars "192.168.1.2", 7001, 1, true⟩
    pathCount := 2 }

/-- All sockets open, and `inet_pton` knows the address. -/
def sharedAddressEnv : SocketEnv where
  receiverOpen := true
  socket i := 4 + i
  inetPton s := if s = chars "192.168.1.2" then some 0xC0A80102 else none

def sharedAddressTransport : TransportCtx where
  paths i :=
    if i < 2 then pathSock sharedAddressEnv (sharedAddressConfig.paths i) i else ⟨0, 0, false⟩
  pathCount := 2

theorem transportInit_sharedAddress :
    transportInit sharedAddressEnv sharedAddressConfig = some sharedAddressTransport := rfl

def someRead : RxInput := ⟨⟨0, []⟩, zeroStack, 0, fun _ => 0⟩

def sharedAddressStart : Exchange :=
  exchangeStart sharedAddressConfig sharedAddressTransport (cryptoInit none) ⟨0, 0⟩
    (mainInit onePathConfig onePathSocket (cryptoInit none) ⟨0, 0⟩)

/-- Both paths are probed, and the peer answers the probe on path 1. -/
def secondPathAnswered : List Event :=
  [.near (lostProbe 1), .answer 1 0xC0A80101 someRead quietTurn]

/-- The answer comes back, and how many answers each path has to its credit before and after. -/
def secondPathCredit : Option (List (ℕ × List UInt8) × List UInt64) :=
  (exchangeRun 4 sharedAddressStart secondPathAnswered).bind fun r =>
    (exchangeStep 4 r.1 (.deliver 0 someRead quietTurn)).map fun r' =>
      (r.1.echoes, [(statsOf r.1.near.sctx 0).probesRecv, (statsOf r'.1.near.sctx 0).probesRecv,
        (statsOf r.1.near.sctx 1).probesRecv, (statsOf r'.1.near.sctx 1).probesRecv])

theorem secondPath_outcome :
    ∃ x outs x' out, exchangeRun 4 sharedAddressStart secondPathAnswered = some (x, outs) ∧
      x.echoes[0]? = some (1, probeDatagram typeProbeEcho 0) ∧
      exchangeStep 4 x (.deliver 0 someRead quietTurn) = some (x', out) ∧
      (statsOf x.near.sctx 1).probesRecv = 0 ∧ (statsOf x'.near.sctx 1).probesRecv = 0 := by
  have hcheck : secondPathCredit =
      some ([(1, probeDatagram typeProbeEcho 0)], [0, 1, 0, 0]) := by
    decide +kernel
  obtain ⟨⟨x, outs⟩, hrun, hdeliver⟩ := Option.bind_eq_some_iff.mp hcheck
  obtain ⟨⟨x', out⟩, hstep, heq⟩ := Option.map_eq_some_iff.mp hdeliver
  simp only [Prod.mk.injEq, List.cons.injEq] at heq
  exact ⟨x, outs, x', out, hrun, by rw [heq.1]; rfl, hstep, heq.2.2.2.1, heq.2.2.2.2.1⟩

/-- The answer to the probe on the second path is not credited to the second path. -/
theorem not_creditedTo_secondPath :
    transportInit sharedAddressEnv sharedAddressConfig = some sharedAddressTransport ∧
      ∃ x outs x' out, exchangeRun 4 sharedAddressStart secondPathAnswered = some (x, outs) ∧
        x.echoes[0]? = some (1, probeDatagram typeProbeEcho 0) ∧
        exchangeStep 4 x (.deliver 0 someRead quietTurn) = some (x', out) ∧
        ∀ rttUs, ¬ CreditedTo x.near.sctx x'.near.sctx 1 rttUs := by
  obtain ⟨x, outs, x', out, hrun, hecho, hstep, hbefore, hafter⟩ := secondPath_outcome
  refine ⟨transportInit_sharedAddress, x, outs, x', out, hrun, hecho, hstep, fun rttUs h => ?_⟩
  have hcount := h.probesRecv
  rw [hbefore, hafter] at hcount
  exact uint64_ne_add_one 0 hcount

theorem creditedTo_iff_firstWithAddress_secondPath :
    ∃ x outs x' out ts, exchangeRun 4 sharedAddressStart secondPathAnswered = some (x, outs) ∧
      exchangeStep 4 x (.deliver 0 someRead quietTurn) = some (x', out) ∧
      (CreditedTo x.near.sctx x'.near.sctx 1 (0 - ts) ↔
        FirstWithAddress sharedAddressTransport 1) := by
  obtain ⟨x, outs, x', out, hrun, hecho, hstep, _⟩ := secondPath_outcome
  obtain ⟨ts, _, _, hiff⟩ :=
    creditedTo_iff_firstWithAddress transportInit_sharedAddress hrun hecho hstep
  exact ⟨x, outs, x', out, ts, hrun, hstep, hiff⟩

end CodingGateway.Proofs.Attribution
