import CodingGateway.Proofs.ProbeExchange
import CodingGateway.Proofs.Reenabled
set_option autoImplicit false

/-!
# Paths in use and open sockets

`transport_init` opens the sockets once; the strategy keeps its own view of the paths, which
reloads and echoes change and a missing socket does not.  Every shard finds a socket exactly
if some path is in use and the socket of every path in use was opened at the start
(`shardsFindSockets_iff_agreed`).
-/

namespace CodingGateway.Proofs.OpenPaths

open CodingGateway.Model
open CodingGateway.Library
open CodingGateway.Proofs.EventLoop
open CodingGateway.Proofs.Scheduler
open CodingGateway.Proofs.RoundRobin
open CodingGateway.Proofs.PathHealth
open CodingGateway.Proofs.DeadPath
open CodingGateway.Proofs.Flush
open CodingGateway.Proofs.Wire
open CodingGateway.Proofs.WireFormat
open CodingGateway.Proofs.Reenabled

/-! ## Sockets -/

/-- `send_buf` has a socket to send on. -/
def HasSocket (tctx : TransportCtx) (i : ℕ) : Prop :=
  (tctx.paths i).enabled = true ∧ 0 ≤ (tctx.paths i).fd

/-- At the start path `i` was enabled, `socket` succeeded and `inet_pton` took the address. -/
def Opened (env : SocketEnv) (cfg : GatewayConfig) (i : ℕ) : Prop :=
  (cfg.paths i).enabled = true ∧ 0 ≤ env.socket i ∧
    (env.inetPton (cfg.paths i).remoteIp).isSome = true

theorem hasSocket_iff_opened {env : SocketEnv} {cfg : GatewayConfig} {tctx : TransportCtx}
    (hinit : transportInit env cfg = some tctx) {i : ℕ} (hi : i < cfg.pathCount) :
    HasSocket tctx i ↔ Opened env cfg i := by
  unfold transportInit at hinit
  split_ifs at hinit
  cases hinit
  unfold HasSocket Opened
  dsimp only
  rw [if_pos hi]
  unfold pathSock
  cases hen : (cfg.paths i).enabled with
  | false => simp
  | true =>
      by_cases hsocket : env.socket i < 0
      · simp [hsocket]
      · cases hpton : env.inetPton (cfg.paths i).remoteIp with
        | none => simp [hsocket]
        | some addr => simp [hsocket]

/-! ## The schedule -/

/-- From a state on, every shard is scheduled on a path with a socket exactly if the link is up:
some path is usable, and every usable path has its turn. -/
theorem forall_pick_iff_linkUp {tctx : TransportCtx} {ctx : StrategyCtx}
    (hbeyond : ∀ i, ctx.pathCount ≤ i → (ctx.paths i).alive = false) :
    (∀ m, ∃ path, (strategyNextPath (afterCalls ctx m)).2 = some path ∧ HasSocket tctx path) ↔
      LinkUp tctx ctx := by
  have hrange : ∀ i, ctx.usable i = true → i < ctx.pathCount := by
    intro i husable
    by_contra hout
    rw [StrategyCtx.usable, hbeyond i (Nat.not_lt.mp hout), Bool.and_false] at husable
    cases husable
  constructor
  · intro hpicks
    constructor
    · obtain ⟨path, hpick, _⟩ := hpicks 0
      have husable := usable_of_strategyNextPath hpick
      exact ⟨path, hrange path husable, husable⟩
    · intro i husable
      obtain ⟨m, hm⟩ := selectable_of_usable (hrange i husable) husable
      obtain ⟨path, hpick, hsocket⟩ := hpicks m
      rw [hm, Option.some.injEq] at hpick
      rw [hpick]
      exact hsocket
  · intro hup m
    have hup' := hup.congr (sameHealth_afterCalls ctx m)
    obtain ⟨j, hj, husable⟩ := hup'.usable
    obtain ⟨path, hpick, hpath⟩ := exists_of_strategyNextPath hj husable
    exact ⟨path, hpick, hup'.sockets path hpath⟩

/-! ## Paths in use -/

/-- The last configuration that has path `i` enables it. -/
def EnabledNow (cfg : GatewayConfig) (inputs : List MainInput) (i : ℕ) : Prop :=
  Latch.Latched (EnabledBy · i) (fun inp => ¬ DisabledBy inp i) ((cfg.paths i).enabled = true)
    inputs

/-- Path `i` is enabled now, and it was kept alive. -/
def InUse (cfg : GatewayConfig) (tctx : TransportCtx) (inputs : List MainInput) (i : ℕ) : Prop :=
  EnabledNow cfg inputs i ∧ KeptAlive cfg tctx inputs i

/-- Some path is in use, and every path in use got its socket at the start. -/
structure Agreed (env : SocketEnv) (cfg : GatewayConfig) (tctx : TransportCtx)
    (inputs : List MainInput) : Prop where
  inUse : ∃ i < cfg.pathCount, InUse cfg tctx inputs i
  opened : ∀ i < cfg.pathCount, InUse cfg tctx inputs i → Opened env cfg i

section Run

variable {fuel : ℕ} {env : SocketEnv} {cfg : GatewayConfig} {tctx : TransportCtx}
  {crypto : CryptoCtx} {now : Timeval} {inputs : List MainInput} {st : MainState}
  {outs : List MainOutput}

theorem usable_iff_inUse
    (hrun : mainRun fuel (mainInit cfg tctx crypto now) inputs = some (st, outs)) {i : ℕ}
    (hi : i < cfg.pathCount) : st.sctx.usable i = true ↔ InUse cfg tctx inputs i := by
  rw [StrategyCtx.usable, Bool.and_eq_true, enabled_mainRun hrun hi, (alive_mainRun hrun hi).2]
  rfl

theorem steady_mainRun
    (hrun : mainRun fuel (mainInit cfg tctx crypto now) inputs = some (st, outs)) :
    Steady cfg tctx inputs st :=
  Machine.run_induction (P := fun inputs st _ => Steady cfg tctx inputs st) steady_mainInit
    (fun _ _ _ _ _ _ _ ih hstep => steady_mainStep ih hstep) hrun

theorem linkUp_iff_agreed (hinit : transportInit env cfg = some tctx)
    (hrun : mainRun fuel (mainInit cfg tctx crypto now) inputs = some (st, outs)) :
    LinkUp tctx st.sctx ↔ Agreed env cfg tctx inputs := by
  have hsteady := steady_mainRun hrun
  constructor
  · intro hup
    constructor
    · obtain ⟨i, hi, husable⟩ := hup.usable
      rw [hsteady.pathCount] at hi
      exact ⟨i, hi, (usable_iff_inUse hrun hi).mp husable⟩
    · intro i hi hinUse
      rw [← hasSocket_iff_opened hinit hi]
      exact hup.sockets i ((usable_iff_inUse hrun hi).mpr hinUse)
  · intro hagreed
    constructor
    · obtain ⟨i, hi, hinUse⟩ := hagreed.inUse
      refine ⟨i, ?_, (usable_iff_inUse hrun hi).mpr hinUse⟩
      rw [hsteady.pathCount]
      exact hi
    · intro i husable
      have hi : i < cfg.pathCount := by
        by_contra hout
        rw [StrategyCtx.usable, hsteady.beyond i (Nat.not_lt.mp hout), Bool.and_false] at husable
        cases husable
      exact (hasSocket_iff_opened hinit hi).mpr
        (hagreed.opened i hi ((usable_iff_inUse hrun hi).mp husable))

end Run

/-! ## The blocks of a turn -/

/-- Each of the `n` shards of every flushed block left, on a path with a socket. -/
def AllShardsLeave (tctx : TransportCtx) (n : ℕ) (flushed : List TxBlock)
    (sent : List (ℕ × List UInt8)) : Prop :=
  ∀ blk ∈ flushed, ∀ s < n, ∃ d ∈ sent, HasSocket tctx d.1 ∧
    (headerOf d.2).blockId = blk.blockId ∧ (headerOf d.2).shardIdx = UInt8.ofNat s

def shardCount (st : MainState) : ℕ := (strategyComputeN st.sctx st.cfg.k.toNat).toNat

/-- `sendto` takes all it is given. -/
def Accepts (env : FlushEnv) : Prop := ∀ s, env.accepted s = true

theorem AllShardsLeave.append {tctx : TransportCtx} {n : ℕ} {flushed₁ flushed₂ : List TxBlock}
    {sent₁ sent₂ : List (ℕ × List UInt8)} (h₁ : AllShardsLeave tctx n flushed₁ sent₁)
    (h₂ : AllShardsLeave tctx n flushed₂ sent₂) :
    AllShardsLeave tctx n (flushed₁ ++ flushed₂) (sent₁ ++ sent₂) := by
  intro blk hblk s hs
  rcases List.mem_append.mp hblk with hblk | hblk
  · obtain ⟨d, hd, hleft⟩ := h₁ blk hblk s hs
    exact ⟨d, List.mem_append_left _ hd, hleft⟩
  · obtain ⟨d, hd, hleft⟩ := h₂ blk hblk s hs
    exact ⟨d, List.mem_append_right _ hd, hleft⟩

theorem AllShardsLeave.of_subset {tctx : TransportCtx} {n : ℕ} {flushed : List TxBlock}
    {sent sent' : List (ℕ × List UInt8)} (h : AllShardsLeave tctx n flushed sent)
    (hsub : sent ⊆ sent') : AllShardsLeave tctx n flushed sent' := by
  intro blk hblk s hs
  obtain ⟨d, hd, hleft⟩ := h blk hblk s hs
  exact ⟨d, hsub hd, hleft⟩

theorem allShardsLeave_nil (tctx : TransportCtx) (n : ℕ) (sent : List (ℕ × List UInt8)) :
    AllShardsLeave tctx n [] sent := fun _ hblk => absurd hblk List.not_mem_nil

theorem headerOf_shardDatagram (blockId : UInt32) (shardIdx k n : UInt8) (s : Shard) :
    (headerOf (shardDatagram blockId shardIdx k n s)).blockId = blockId ∧
      (headerOf (shardDatagram blockId shardIdx k n s)).shardIdx = shardIdx := by
  rw [headerOf, shardDatagram, List.append_assoc, parseHeader_headerBytes]
  exact ⟨rfl, rfl⟩

theorem allShardsLeave_flushBlock {st : MainState} {env : FlushEnv}
    (hup : LinkUp st.tctx st.sctx) (haccept : Accepts env)
    (hpos : 0 < shardCount st → st.tx.pktCount ≠ 0) :
    AllShardsLeave st.tctx (shardCount st) (flushBlock st env).2.1 (flushBlock st env).2.2 := by
  intro blk hblk s hs
  have htx : blk = st.tx := List.mem_singleton.mp hblk
  subst htx
  have hpackets := hpos (by omega)
  change ∃ d ∈ (txBlockFlush st.tx st.tctx st.sctx st.cfg.k.toNat st.crypto st.metrics env).sent, _
  rw [sent_eq_filterMap hpackets]
  obtain ⟨path, henabled, hopen, hcarried⟩ := carried_of_linkUp hup haccept
    (datagram st.tx st.cfg.k.toNat (shardCount st) st.crypto env) s
  refine ⟨_, List.mem_filterMap.mpr ⟨s, List.mem_range.mpr hs, hcarried⟩, ⟨henabled, hopen⟩, ?_⟩
  exact headerOf_shardDatagram ..

theorem strategyComputeN_congr {ctx ctx' : StrategyCtx} (h : CreditsOnly ctx ctx') (k : ℤ) :
    strategyComputeN ctx' k = strategyComputeN ctx k := by
  obtain ⟨_, rfl⟩ := h
  rfl

theorem le_pktCount_of_full {blk : TxBlock} {pkt : Bytes} {len : UInt16} {k : ℕ}
    {now : Timeval} (hfull : (txBlockAddPkt blk pkt len k now).2 = true) :
    k ≤ (txBlockAddPkt blk pkt len k now).1.pktCount := of_decide_eq_true hfull

theorem allShardsLeave_mainRead {st : MainState} {inp : MainInput}
    (hup : LinkUp st.tctx st.sctx) (haccept : Accepts inp.fullFlush) :
    AllShardsLeave st.tctx (shardCount st) (mainRead st inp).2.1 (mainRead st inp).2.2 := by
  unfold mainRead
  split_ifs with htx
  · cases inp.packet with
    | none => exact allShardsLeave_nil _ _ _
    | some pkt =>
        dsimp only
        split_ifs with hfull
        · refine allShardsLeave_flushBlock hup haccept fun hcount => ?_
          have hle := le_pktCount_of_full hfull
          -- without a block size there are no shards
          have hk : st.cfg.k.toNat ≠ 0 := by
            intro hzero
            have hnone : shardCount st = 0 := by
              rw [shardCount, hzero]
              rfl
            change 0 < shardCount st at hcount
            omega
          change (txBlockAddPkt st.tx _ _ _ _).1.pktCount ≠ 0
          omega
        · exact allShardsLeave_nil _ _ _
  · exact allShardsLeave_nil _ _ _

theorem allShardsLeave_mainTimeout {st : MainState} {inp : MainInput}
    (hup : LinkUp st.tctx st.sctx) (haccept : Accepts inp.timeoutFlush) :
    AllShardsLeave st.tctx (shardCount st) (mainTimeout st inp).2.1 (mainTimeout st inp).2.2 := by
  unfold mainTimeout
  split_ifs with hflush
  · refine allShardsLeave_flushBlock hup haccept fun _ hempty => ?_
    rw [Bool.and_eq_true, txBlockNeedsFlush, if_pos hempty] at hflush
    cases hflush.2
  · exact allShardsLeave_nil _ _ _

theorem allShardsLeave_mainDrain {st : MainState} {env : FlushEnv}
    (hup : LinkUp st.tctx st.sctx) (haccept : Accepts env) :
    AllShardsLeave st.tctx (shardCount st) (mainDrain st env).2.1 (mainDrain st env).2.2 := by
  unfold mainDrain
  split_ifs with hpending
  · refine allShardsLeave_flushBlock hup haccept fun _ => ?_
    rw [Bool.and_eq_true, decide_eq_true_iff] at hpending
    omega
  · exact allShardsLeave_nil _ _ _

theorem allShardsLeave_mainStep {fuel : ℕ} {st st' : MainState} {inp : MainInput}
    {out : MainOutput} (hup : LinkUp st.tctx st.sctx) (hfull : Accepts inp.fullFlush)
    (hold : Accepts inp.timeoutFlush) (hstep : mainStep fuel st inp = some (st', out)) :
    AllShardsLeave st.tctx (shardCount st) out.flushed out.sent := by
  rcases mainStep_cases hstep with ⟨_, _, rfl, rfl⟩ | ⟨_, _, rfl, rfl⟩ | ⟨_, _, ⟨p⟩⟩
  · exact allShardsLeave_nil _ _ _
  · exact allShardsLeave_nil _ _ _
  · have hcredits : CreditsOnly st.sctx p.read.sctx := by
      simpa only [p.read_eq] using creditsOnly_mainRead st inp
    have hsetup := p.sameSetup_read.1
    have hcount : shardCount p.read = shardCount st := by
      rw [shardCount, shardCount, hsetup.k, strategyComputeN_congr hcredits]
    have hread : AllShardsLeave st.tctx (shardCount st) p.flushed₁ p.sent₁ := by
      simpa only [p.read_eq] using allShardsLeave_mainRead hup hfull
    have hup' : LinkUp p.read.tctx p.read.sctx := by
      rw [hsetup.tctx]
      exact hup.congr hcredits.sameHealth
    have htimeout : AllShardsLeave st.tctx (shardCount st) p.flushed₂ p.sent₂ := by
      have hleave := allShardsLeave_mainTimeout hup' hold
      rw [p.timeout_eq, hsetup.tctx, hcount] at hleave
      exact hleave
    rw [p.out_flushed, p.out_sent, List.append_assoc (p.sent₁ ++ p.sent₂)]
    exact (hread.append htimeout).of_subset (List.subset_append_left _ _)

/-- **Scheduler and transport.** In every state that a run reaches, whatever `socket` and
`inet_pton` returned at the start and whatever was reloaded and echoed since, every shard that
is scheduled from there on goes to a path with a socket exactly if some path is in use and every
path in use got its socket at the start.  Then all shards of all blocks that the next turn, or
the drain, flushes leave if `sendto` takes them. -/
theorem shardsFindSockets_iff_agreed {fuel : ℕ} {env : SocketEnv} {cfg : GatewayConfig}
    {tctx : TransportCtx} {crypto : CryptoCtx} {now : Timeval} {inputs : List MainInput}
    {st : MainState} {outs : List MainOutput} (hinit : transportInit env cfg = some tctx)
    (hrun : mainRun fuel (mainInit cfg tctx crypto now) inputs = some (st, outs)) :
    ((∀ m, ∃ path, (strategyNextPath (afterCalls st.sctx m)).2 = some path ∧
        HasSocket tctx path) ↔ Agreed env cfg tctx inputs) ∧
      (Agreed env cfg tctx inputs →
        (∀ inp st' out, mainStep fuel st inp = some (st', out) → Accepts inp.fullFlush →
          Accepts inp.timeoutFlush → AllShardsLeave tctx (shardCount st) out.flushed out.sent) ∧
        ∀ fenv, Accepts fenv → AllShardsLeave tctx (shardCount st)
          (mainDrain st fenv).2.1 (mainDrain st fenv).2.2) := by
  have hsteady := steady_mainRun hrun
  have hbeyond : ∀ i, st.sctx.pathCount ≤ i → (st.sctx.paths i).alive = false := by
    rw [hsteady.pathCount]
    exact hsteady.beyond
  refine ⟨(forall_pick_iff_linkUp hbeyond).trans (linkUp_iff_agreed hinit hrun), fun hagreed => ?_⟩
  have hup := (linkUp_iff_agreed hinit hrun).mpr hagreed
  rw [← hsteady.tctx] at hup ⊢
  exact ⟨fun inp st' out hstep hfull hold => allShardsLeave_mainStep hup hfull hold hstep,
    fun fenv haccept => allShardsLeave_mainDrain hup haccept⟩

/-! ## An address that `inet_pton` refuses -/

/-- A sender with two paths, one packet to a block; the address of the second path is none. -/
def badAddressConfig : GatewayConfig :=
  { onePathConfig with
    k := 1
    paths := fun i =>
      if i = 0 then ⟨chars "first", chars "eth1", chars "10.0.0.2", 7000, 1, true⟩
      else ⟨chars "second", chars "eth2", chars "10.0.0.300", 7000, 1, true⟩
    pathCount := 2 }

def badAddressEnv : SocketEnv where
  receiverOpen := true
  socket i := 4 + i
  inetPton s := if s = chars "10.0.0.2" then some 0x0A000002 else none

def badAddressTransport : TransportCtx where
  paths i := if i < 2 then pathSock badAddressEnv (badAddressConfig.paths i) i else ⟨0, 0, false⟩
  pathCount := 2

theorem transportInit_badAddress :
    transportInit badAddressEnv badAddressConfig = some badAddressTransport := rfl

def badAddressStart : MainState :=
  mainInit badAddressConfig badAddressTransport (cryptoInit none) ⟨0, 0⟩

/-- A turn that reads a packet of one byte. -/
def onePacket : MainInput := { quietTurn with packet := some ⟨[0x45], by decide, by decide⟩ }

/-- The first path is enabled and has its socket; the block gets two shards, the scheduler
alternates between the paths, and only the first shard leaves. -/
theorem not_shardsFindSockets_badAddress :
    transportInit badAddressEnv badAddressConfig = some badAddressTransport ∧
      (badAddressConfig.paths 0).enabled = true ∧ HasSocket badAddressTransport 0 ∧
      (strategyNextPath (afterCalls badAddressStart.sctx 1)).2 = some 1 ∧
      ¬ HasSocket badAddressTransport 1 ∧
      ∃ st out, mainStep 4 badAddressStart onePacket = some (st, out) ∧
        ¬ AllShardsLeave badAddressTransport (shardCount badAddressStart) out.flushed out.sent := by
  have hsecond : ¬ HasSocket badAddressTransport 1 := by
    rw [hasSocket_iff_opened transportInit_badAddress (by decide)]
    rintro ⟨_, _, hpton⟩
    revert hpton
    decide
  refine ⟨transportInit_badAddress, rfl, ⟨rfl, by decide⟩, by decide +kernel, hsecond, ?_⟩
  have hcheck : (mainStep 4 badAddressStart onePacket).map (fun r =>
      (r.2.flushed.map TxBlock.blockId, r.2.sent.map fun d => (headerOf d.2).shardIdx,
        shardCount badAddressStart)) = some ([0], [0], 2) := by
    decide +kernel
  obtain ⟨⟨st, out⟩, hstep, heq⟩ := Option.map_eq_some_iff.mp hcheck
  simp only [Prod.mk.injEq] at heq
  obtain ⟨hblocks, hshards, hcount⟩ := heq
  refine ⟨st, out, hstep, fun hleave => ?_⟩
  obtain ⟨blk, hblk, _⟩ := List.mem_map.mp (hblocks ▸ List.mem_singleton_self (0 : UInt32))
  obtain ⟨d, hd, _, _, hidx⟩ := hleave blk hblk 1 (by rw [hcount]; decide)
  have hmem : UInt8.ofNat 1 ∈ out.sent.map fun d => (headerOf d.2).shardIdx :=
    List.mem_map.mpr ⟨d, hd, hidx⟩
  rw [hshards] at hmem
  revert hmem
  decide

/-- The same sender when the second path has an address. -/
def twoPathsConfig : GatewayConfig :=
  { badAddressConfig with
    paths := fun i =>
      if i = 0 then badAddressConfig.paths 0
      else { badAddressConfig.paths 1 with remoteIp := chars "10.0.0.3" } }

def twoPathsEnv : SocketEnv :=
  { badAddressEnv with
    inetPton := fun s =>
      if s = chars "10.0.0.3" then some 0x0A000003 else badAddressEnv.inetPton s }

def twoPathsTransport : TransportCtx where
  paths i := if i < 2 then pathSock twoPathsEnv (twoPathsConfig.paths i) i else ⟨0, 0, false⟩
  pathCount := 2

def twoPathsStart : MainState :=
  mainInit twoPathsConfig twoPathsTransport (cryptoInit none) ⟨0, 0⟩

theorem shardsFindSockets_iff_agreed_twoPaths :
    ∃ st outs st' out, mainRun 4 twoPathsStart [onePacket] = some (st, outs) ∧
      Agreed twoPathsEnv twoPathsConfig twoPathsTransport [onePacket] ∧
      (∀ m, ∃ path, (strategyNextPath (afterCalls st.sctx m)).2 = some path ∧
        HasSocket twoPathsTransport path) ∧
      mainStep 4 st onePacket = some (st', out) ∧ out.flushed.length = 1 ∧ shardCount st = 2 ∧
      AllShardsLeave twoPathsTransport (shardCount st) out.flushed out.sent := by
  have hcheck : (mainRun 4 twoPathsStart [onePacket]).bind (fun r =>
      (mainStep 4 r.1 onePacket).map fun r' =>
        (r.1.sctx.usable 0, shardCount r.1, r'.2.flushed.length)) = some (true, 2, 1) := by
    decide +kernel
  obtain ⟨⟨st, outs⟩, hrun, hstep⟩ := Option.bind_eq_some_iff.mp hcheck
  obtain ⟨⟨st', out⟩, hstep, heq⟩ := Option.map_eq_some_iff.mp hstep
  simp only [Prod.mk.injEq] at heq
  obtain ⟨husable, hcount, hflushed⟩ := heq
  have hinit : transportInit twoPathsEnv twoPathsConfig = some twoPathsTransport := rfl
  have hagreed : Agreed twoPathsEnv twoPathsConfig twoPathsTransport [onePacket] := by
    refine ⟨⟨0, by decide, (usable_iff_inUse hrun (by decide)).mp husable⟩, fun i hi _ => ?_⟩
    have hopened : ∀ j < 2, Opened twoPathsEnv twoPathsConfig j := by
      unfold Opened
      decide
    exact hopened i hi
  obtain ⟨hiff, hleave⟩ := shardsFindSockets_iff_agreed hinit hrun
  exact ⟨st, outs, st', out, hrun, hagreed, hiff.mpr hagreed, hstep, hflushed, hcount,
    (hleave hagreed).1 onePacket st' out hstep (fun _ => rfl) (fun _ => rfl)⟩

end CodingGateway.Proofs.OpenPaths
